/-
  Frnetlib.Http.Receive — `Http::send` and `Http::receive` (`Http.cpp`): a message
  written to a socket, and one read from it in blocks of at most `RECV_CHUNK_SIZE`
  bytes until `parse` has it.

  `Parses` says what `receive` needs of a parser and a message: a proper prefix asks for
  more, every cut is absorbed, and the message with up to a block of other bytes behind
  it succeeds. Then from a stream that starts with the message (`receive_stream`) the
  call takes the message and whatever else came in its last block. It takes nothing
  else exactly when one of the reads ends where the message does (`Cut`). Requests and
  responses without a body are such messages (`parses_block`).
-/

import Frnetlib.Http.Message
import Frnetlib.Net.Stream

namespace Frnetlib

open Base Socket Receiver FifoReceiver

/-- `RECV_CHUNK_SIZE` (`Socket.h`) -/
def recvChunkSize : Nat := 4096

inductive Outcome (α : Type) where
  /-- The call has not returned. -/
  | waits
  | returned (a : α)
  /-- An exception, with its text if the function itself throws it. -/
  | threw (what : Option Bytes)
  /-- The code does what the language leaves undefined. -/
  | undefined
  deriving DecidableEq

namespace Http

/-- `Http::send`, with the `construct` of the object. -/
def send {τ : Type} [RawSender τ] (construct : Bytes → Bytes) (remoteAddress : Bytes) (w : τ) : Option Status × τ :=
  sendLoop (construct remoteAddress) 0 w

/-! ## The loop -/

variable {ρ σ : Type} [Receiver σ]

/-- A round of `receive`, and what follows. `state` is the loop's variable of that name,
    `none` until a `parse` has assigned it; `continue` goes to the test of it. -/
def receiveFrom (parse : ρ → Bytes → Option Status × ρ) (totalReceived : Nat) (state : Option Status) (r : ρ) (w : σ) :
    Outcome Status × ρ × σ :=
  match h : receiveRaw recvChunkSize w with
  | none => (.waits, r, w)
  | some (status, b, w') =>
    have := raw_left h (by decide)
    let totalReceived := totalReceived + b.length
    if status ≠ .success then
      if totalReceived = 0 then (.returned status, r, w')
      else if status = .wouldBlock then
        match state with
        | none => (.undefined, r, w')
        | some st =>
          if st = .notEnoughData then receiveFrom parse totalReceived state r w' else (.returned st, r, w')
      else (.returned .disconnected, r, w')
    else
      match parse r b with
      | (none, r) => (.threw none, r, w')
      | (some st, r) =>
        if st = .notEnoughData then receiveFrom parse totalReceived (some st) r w' else (.returned st, r, w')
termination_by left w

def receive (parse : ρ → Bytes → Option Status × ρ) (r : ρ) (w : σ) : Outcome Status × ρ × σ := receiveFrom parse 0 none r w

variable {parse : ρ → Bytes → Option Status × ρ} {total : Nat} {state : Option Status} {r r' : ρ} {w w' : σ} {b : Bytes}

theorem receiveFrom_waits (h : receiveRaw recvChunkSize w = none) :
    receiveFrom parse total state r w = (.waits, r, w) := by
  rw [receiveFrom]
  split
  · rfl
  · rename_i h'; rw [h] at h'; cases h'

/-- A round that has read something. -/
theorem receiveFrom_read (h : receiveRaw recvChunkSize w = some (.success, b, w')) :
    receiveFrom parse total state r w =
      match parse r b with
      | (none, r) => (.threw none, r, w')
      | (some st, r) =>
        if st = .notEnoughData then receiveFrom parse (total + b.length) (some st) r w' else (.returned st, r, w') := by
  rw [receiveFrom]
  split
  · rename_i h'
    rw [h] at h'
    cases h'
  · rename_i h'
    rw [h] at h'
    cases h'
    rw [if_neg fun hne => hne rfl]

/-- A round whose read failed. -/
theorem receiveFrom_failed {st : Status} (h : receiveRaw recvChunkSize w = some (st, [], w')) (hst : st ≠ .success) :
    receiveFrom parse total state r w =
      if total = 0 then (.returned st, r, w')
      else if st = .wouldBlock then
        match state with
        | none => (.undefined, r, w')
        | some st' => if st' = .notEnoughData then receiveFrom parse total state r w' else (.returned st', r, w')
      else (.returned .disconnected, r, w') := by
  rw [receiveFrom]
  split
  · rename_i h'
    rw [h] at h'
    cases h'
  · rename_i h'
    rw [h] at h'
    cases h'
    rw [if_pos hst]
    rfl

theorem receiveFrom_more (h : receiveRaw recvChunkSize w = some (.success, b, w'))
    (hp : parse r b = (some .notEnoughData, r')) :
    receiveFrom parse total state r w = receiveFrom parse (total + b.length) (some .notEnoughData) r' w' := by
  rw [receiveFrom_read h, hp]
  exact if_pos rfl

theorem receiveFrom_done {st : Status} (h : receiveRaw recvChunkSize w = some (.success, b, w'))
    (hp : parse r b = (some st, r')) (hst : st ≠ .notEnoughData) :
    receiveFrom parse total state r w = (.returned st, r', w') := by
  rw [receiveFrom_read h, hp]
  exact if_neg hst

theorem receiveFrom_throws (h : receiveRaw recvChunkSize w = some (.success, b, w')) (hp : parse r b = (none, r')) :
    receiveFrom parse total state r w = (.threw none, r', w') := by
  rw [receiveFrom_read h, hp]

/-- A read that fails, after reads that brought no bytes. -/
theorem receiveFrom_first {st : Status} (h : receiveRaw recvChunkSize w = some (st, [], w')) (hst : st ≠ .success)
    (htotal : total = 0) : receiveFrom parse total state r w = (.returned st, r, w') := by
  rw [receiveFrom_failed h hst, if_pos htotal]

theorem receiveFrom_lost {st : Status} (h : receiveRaw recvChunkSize w = some (st, [], w')) (hst : st ≠ .success)
    (htotal : total ≠ 0) (hblock : st ≠ .wouldBlock) :
    receiveFrom parse total state r w = (.returned .disconnected, r, w') := by
  rw [receiveFrom_failed h hst, if_neg htotal, if_neg hblock]

/-- WouldBlock is answered as long as no byte has come; after that it is another round. -/
theorem receiveFrom_block (h : receiveRaw recvChunkSize w = some (.wouldBlock, [], w'))
    (hstate : total ≠ 0 → state = some .notEnoughData) :
    receiveFrom parse total state r w =
      if total = 0 then (.returned .wouldBlock, r, w') else receiveFrom parse total state r w' := by
  rw [receiveFrom_failed h (by decide), if_pos rfl]
  by_cases htotal : total = 0
  · rw [if_pos htotal, if_pos htotal]
  · rw [if_neg htotal, if_neg htotal, hstate htotal]
    exact if_pos rfl

end Http

/-! ## Where the reads end -/

namespace Socket

/-- Reads of at most `n` bytes, from `w` on, one of which ends after `k` bytes: the
    stream is cut there. -/
inductive Cut {σ : Type} [Receiver σ] (n : Nat) : Nat → σ → Prop where
  | here (w : σ) : Cut n 0 w
  | read {st : Status} {b : Bytes} {k : Nat} {w w' : σ} (h : receiveRaw n w = some (st, b, w')) (hk : Cut n k w') :
      Cut n (b.length + k) w

theorem cut_read {σ : Type} [Receiver σ] {n k : Nat} {st : Status} {b : Bytes} {w w' : σ}
    (h : receiveRaw n w = some (st, b, w')) (hk : 0 < k) : Cut n k w ↔ b.length ≤ k ∧ Cut n (k - b.length) w' := by
  constructor
  · intro hcut
    cases hcut with
    | here => exact absurd hk (Nat.lt_irrefl 0)
    | read h' hk' =>
      rw [h] at h'
      cases h'
      rw [Nat.add_sub_cancel_left]
      exact ⟨Nat.le_add_right _ _, hk'⟩
  · intro hmore
    obtain ⟨hle, hcut⟩ := hmore
    have := Cut.read h hcut
    rwa [Nat.add_sub_cancel' hle] at this

end Socket

/-! ## A message at the front of a stream -/

namespace Http

variable {ρ σ : Type}

structure Parses (parse : ρ → Bytes → Option Status × ρ) (r : ρ) (msg : Bytes) : Prop where
  start : parse r [] = (some .notEnoughData, r)
  ne_nil : msg ≠ []
  more : ∀ u, u <+: msg → u ≠ msg → (parse r u).1 = some .notEnoughData
  absorbs : ∀ u p v, v.length ≤ recvChunkSize → u ++ p <+: msg ++ v → (parse r u).1 = some .notEnoughData →
    parse (parse r u).2 p = parse r (u ++ p)
  done : ∀ v, v.length ≤ recvChunkSize → (parse r (msg ++ v)).1 = some .success

/-- Some read of a socket of this type answers WouldBlock. -/
def Blocks (σ : Type) [Receiver σ] : Prop :=
  ∃ (w : σ) (b : Bytes) (w' : σ), receiveRaw recvChunkSize w = some (.wouldBlock, b, w')

theorem not_blocks {σ : Type} [BlockingReceiver σ] : ¬ Blocks σ := by
  intro hblocks
  obtain ⟨w, b, w', h⟩ := hblocks
  exact BlockingReceiver.raw_blocking h

variable [FifoReceiver σ] {parse : ρ → Bytes → Option Status × ρ} {r : ρ} {msg : Bytes}

/-- The rounds after the bytes `u`, a proper prefix of the message. -/
theorem receiveFrom_stream (h : Parses parse r msg) {u rest : Bytes} {total : Nat} {state : Option Status} (w : σ)
    (hu : u <+: msg) (hne : u ≠ msg) (hw : u ++ pending w <+: msg ++ rest)
    (hstate : total ≠ 0 → state = some .notEnoughData) :
    ((receiveFrom parse total state (parse r u).2 w).1 = .waits ∧ u ++ pending w <+: msg ∧ u ++ pending w ≠ msg) ∨
    ((receiveFrom parse total state (parse r u).2 w).1 = .returned .wouldBlock ∧ Blocks σ) ∨
    ∃ v w', receiveFrom parse total state (parse r u).2 w = (.returned .success, (parse r (msg ++ v)).2, w') ∧
      u ++ pending w = msg ++ v ++ pending w' ∧ v.length ≤ recvChunkSize ∧ left w' ≤ left w ∧
      (v = [] ↔ Cut recvChunkSize (msg.length - u.length) w) := by
  generalize hm : left w = m
  induction m using Nat.strongRecOn generalizing u total state w with
  | ind m ih =>
    have hlt : u.length < msg.length := prefix_length_lt hu hne
    rcases hraw : receiveRaw recvChunkSize w with _ | ⟨status, b, w₁⟩
    · have hempty : pending w = [] := by
        by_contra hpend
        exact raw_returns (by decide) hpend hraw
      rw [receiveFrom_waits hraw, hempty, List.append_nil]
      exact .inl ⟨rfl, hu, hne⟩
    · have hleft := raw_left hraw (by decide)
      have hpend := raw_pending hraw
      have hlen := raw_length hraw
      rcases raw_status hraw (by decide) with rfl | rfl
      · -- a block of bytes: the message goes on behind it, or ends in it
        rw [hpend, ← List.append_assoc] at hw ⊢
        have hub : u ++ b <+: msg ++ rest := (List.prefix_append _ _).trans hw
        by_cases hmsg : msg <+: u ++ b
        · obtain ⟨v, hv⟩ := hmsg
          have hvlen := congrArg List.length hv
          rw [List.length_append, List.length_append] at hvlen
          have hv' : v.length ≤ recvChunkSize := by omega
          have hstep := h.absorbs u b v hv' (hv ▸ List.prefix_rfl) (h.more u hu hne)
          rw [← hv] at hstep
          have hdone : parse (parse r u).2 b = (some .success, (parse r (msg ++ v)).2) :=
            hstep.trans (Prod.ext (h.done v hv') rfl)
          refine .inr (.inr ⟨v, w₁, receiveFrom_done hraw hdone (by decide), by rw [hv], hv', by omega, ?_⟩)
          rw [cut_read hraw (by omega)]
          constructor
          · intro heq
            subst heq
            rw [List.length_nil] at hvlen
            have hzero : msg.length - u.length - b.length = 0 := by omega
            rw [hzero]
            exact ⟨by omega, .here w₁⟩
          · intro hcut
            have hle := hcut.1
            exact List.eq_nil_of_length_eq_zero (by omega)
        · have hpre : u ++ b <+: msg :=
            (List.prefix_or_prefix_of_prefix hub (List.prefix_append _ _)).resolve_right hmsg
          have hneb : u ++ b ≠ msg := fun heq => hmsg (heq ▸ List.prefix_rfl)
          have hltb : (u ++ b).length < msg.length := prefix_length_lt hpre hneb
          have hstep := h.absorbs u b [] (Nat.zero_le _) (by rwa [List.append_nil]) (h.more u hu hne)
          have hmore : parse (parse r u).2 b = (some .notEnoughData, (parse r (u ++ b)).2) :=
            hstep.trans (Prod.ext (h.more _ hpre hneb) rfl)
          have hmoreState : total + b.length ≠ 0 → some Status.notEnoughData = some .notEnoughData := fun _ => rfl
          rw [receiveFrom_more hraw hmore]
          obtain hwait | hblock | ⟨v, w', hrec, hp, hv, hl, hcut⟩ := ih (left w₁) (by omega) w₁ hpre hneb hw hmoreState rfl
          · exact .inl hwait
          · exact .inr (.inl hblock)
          · rw [List.length_append] at hltb
            refine .inr (.inr ⟨v, w', hrec, hp, hv, by omega, ?_⟩)
            rw [hcut, cut_read hraw (by omega), List.length_append, Nat.sub_sub]
            exact ⟨fun hc => ⟨by omega, hc⟩, fun hc => hc.2⟩
      · have hb : b = [] := raw_fails hraw (by decide)
        subst hb
        rw [List.nil_append] at hpend
        rw [receiveFrom_block hraw hstate]
        by_cases h0 : total = 0
        · rw [if_pos h0]
          exact .inr (.inl ⟨rfl, w, [], w₁, hraw⟩)
        · rw [if_neg h0]
          rw [hpend] at hw ⊢
          rcases ih (left w₁) (by omega) w₁ hu hne hw hstate rfl with hwait | hblock | ⟨v, w', hrec, hp, hv, hl, hcut⟩
          · exact .inl hwait
          · exact .inr (.inl hblock)
          · refine .inr (.inr ⟨v, w', hrec, hp, hv, by omega, ?_⟩)
            rw [hcut, cut_read hraw (by omega), List.length_nil, Nat.sub_zero]
            exact ⟨fun hc => ⟨Nat.zero_le _, hc⟩, fun hc => hc.2⟩

/-- From a stream that is, as far as it goes, the message and then other bytes: the call
    waits for the rest of the message, or the first read would block, or it takes the
    message and what else the last read gave. -/
theorem receive_stream (h : Parses parse r msg) {rest : Bytes} (w : σ) (hw : pending w <+: msg ++ rest) :
    ((receive parse r w).1 = .waits ∧ pending w <+: msg ∧ pending w ≠ msg) ∨
    ((receive parse r w).1 = .returned .wouldBlock ∧ Blocks σ) ∨
    ∃ v w', receive parse r w = (.returned .success, (parse r (msg ++ v)).2, w') ∧
      pending w = msg ++ v ++ pending w' ∧ v.length ≤ recvChunkSize ∧ left w' ≤ left w ∧
      (v = [] ↔ Cut recvChunkSize msg.length w) := by
  have hstate : 0 ≠ 0 → (none : Option Status) = some .notEnoughData := fun h0 => absurd rfl h0
  have := receiveFrom_stream h (u := []) w List.nil_prefix (Ne.symm h.ne_nil) hw hstate
  rw [h.start] at this
  exact this

end Http

/-! ## Messages without a body -/

namespace HttpRequest

/-- Without a length announced, whatever there is counts as the body. -/
theorem parse_block_any {line : Bytes} {lines : List Bytes} {r : HttpRequest} {t : RequestType}
    (hlines : ∀ l ∈ line :: lines, Http.Plain l) (ht : t ∈ Http.methods) (hline : Http.requestTypeToString t <+: line)
    (hread : readHeader { fresh with headerEnded := true } (Http.received (line :: lines)) = (true, r))
    (hlength : r.contentLength = 0) (hsize : (Http.block (line :: lines)).length ≤ maxHttpHeaderSize) {v : Bytes}
    (hv : v.length ≤ recvChunkSize) :
    ∃ post, parse fresh (Http.block (line :: lines) ++ v) = (some .success, { r with body := v, postData := post }) := by
  simp only [recvChunkSize] at hv
  rw [parse_block hlines ht hline hread hsize]
  exact parseBody_success (r := { r with body := v }) (by simp only; omega) (by simp only [maxHttpBodySize]; omega)

theorem parses_block {line : Bytes} {lines : List Bytes} {r : HttpRequest} {t : RequestType}
    (hlines : ∀ l ∈ line :: lines, Http.Plain l) (ht : t ∈ Http.methods) (hline : Http.requestTypeToString t <+: line)
    (hread : readHeader { fresh with headerEnded := true } (Http.received (line :: lines)) = (true, r))
    (hlength : r.contentLength = 0) (hsize : (Http.block (line :: lines)).length ≤ maxHttpHeaderSize) :
    Http.Parses parse fresh (Http.block (line :: lines)) where
  start := parse_nil
  ne_nil := Http.block_ne_nil line lines
  more := by
    intro u hu hne
    have hcut : u <+: Http.block (line :: lines) ++ [] := by rwa [List.append_nil]
    rcases (Http.block_closed (Http.Plain.lines hlines)).cut hcut with ⟨hnone, hub, -⟩ | ⟨v, hv, rfl⟩
    · exact parse_block_cut ht hline hsize hub hnone
    · exact absurd (by rw [List.prefix_nil.mp hv, List.append_nil]) hne
  absorbs := by
    intro u p v _ hup hmore
    exact parse_absorbs hmore ((Http.block_closed (Http.Plain.lines hlines)).stable hup)
  done := by
    intro v hv
    obtain ⟨post, hpost⟩ := parse_block_any hlines ht hline hread hlength hsize hv
    rw [hpost]

end HttpRequest

namespace HttpResponse

/-- Without a length announced, whatever there is counts as the body. -/
theorem parse_block_any {line : Bytes} {lines : List Bytes} {r : HttpResponse} (hlines : ∀ l ∈ line :: lines, Http.Plain l)
    (hline : bytes "HTTP" <+: line)
    (hread : readHeader { fresh with headerEnded := true } (Http.received (line :: lines)) = (true, r))
    (hchunked : TransferEncoding.chunked ∉ r.transferEncodings) (hlength : r.contentLength = 0)
    (hsize : (Http.block (line :: lines)).length ≤ maxHttpHeaderSize) {v : Bytes} (hv : v.length ≤ recvChunkSize) :
    parse fresh (Http.block (line :: lines) ++ v) = (some .success, { r with body := v }) := by
  simp only [recvChunkSize] at hv
  rw [parse_block hlines hline hread hsize, parseBody, if_neg (by simp only [maxHttpBodySize]; omega), if_neg hchunked,
    if_neg (by simp only; omega), if_neg (by simp only; omega)]

theorem parses_block {line : Bytes} {lines : List Bytes} {r : HttpResponse} (hlines : ∀ l ∈ line :: lines, Http.Plain l)
    (hline : bytes "HTTP" <+: line)
    (hread : readHeader { fresh with headerEnded := true } (Http.received (line :: lines)) = (true, r))
    (hchunked : TransferEncoding.chunked ∉ r.transferEncodings) (hlength : r.contentLength = 0)
    (hsize : (Http.block (line :: lines)).length ≤ maxHttpHeaderSize) :
    Http.Parses parse fresh (Http.block (line :: lines)) where
  start := parse_nil
  ne_nil := Http.block_ne_nil line lines
  more := by
    intro u hu hne
    have hcut : u <+: Http.block (line :: lines) ++ [] := by rwa [List.append_nil]
    rcases (Http.block_closed (Http.Plain.lines hlines)).cut hcut with ⟨hnone, hub, -⟩ | ⟨v, hv, rfl⟩
    · exact parse_block_cut hline hsize hub hnone
    · exact absurd (by rw [List.prefix_nil.mp hv, List.append_nil]) hne
  absorbs := by
    intro u p v hv hup hmore
    exact parse_absorbs_block hlines (Nat.le_trans hv (by decide)) hup hmore
  done := by
    intro v hv
    rw [parse_block_any hlines hline hread hchunked hlength hsize hv]

end HttpResponse

end Frnetlib
