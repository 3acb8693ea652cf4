/-
  Frnetlib.WebSocket.Served — what a network has to do for a message to be sent, and for a
  response to be received, without an error.

  Of the sending end it is in the results of `::send`: whether one fails while bytes of the
  message are left (`delivery`). Of the receiving end it is in the results of the reads
  (`reads`): whether one fails, or brings a block that the response is refused for, before
  the response is complete (`Responds`). When it is refused, and when it is not complete,
  is told by its bytes (`HttpResponse.Refuses`, `HttpResponse.Awaits`).
-/

import Frnetlib.Http.Exceptions
import Frnetlib.Http.Receive
import Frnetlib.Net.TcpSocket

namespace Frnetlib

open Base Socket Receiver

/-! ## Sending -/

inductive Delivery where
  | accepted
  | refused
  /-- Behind a call of `::send` that does not return. -/
  | held
  deriving DecidableEq, Repr

namespace TcpWriter

/-- What becomes of `n` bytes, by the results of the next calls of `::send`. -/
def delivery (isBlocking : Bool) : List SendResult → Nat → Delivery
  | [], _ => .accepted
  | r :: rest, n =>
    if n = 0 then .accepted
    else
      match r with
      | .accepted k => delivery isBlocking rest (n - k)
      | .ewouldblock => if isBlocking then .refused else delivery isBlocking rest n
      | .eintr => delivery isBlocking rest n
      | .failed => .refused
      | .waits => .held

/-- The status of a send that comes to this. -/
def Ends : Delivery → Option Status → Prop
  | .accepted, r => r = some .success
  | .refused, r => ∃ st, r = some st ∧ st ≠ .success
  | .held, r => r = none

theorem sendRawFrom_delivery (isBlocking : Bool) (data : Bytes) (s : List SendResult) (sent : Nat) (wire : Bytes) :
    (∃ st, (sendRawFrom isBlocking data s sent wire).1.map Prod.fst = st ∧ st ≠ some .wouldBlock ∧
        Ends (delivery isBlocking s (data.length - sent)) st) ∨
      ∃ sent', (sendRawFrom isBlocking data s sent wire).1 = some (.wouldBlock, sent') ∧
        delivery isBlocking s (data.length - sent) =
          delivery isBlocking (sendRawFrom isBlocking data s sent wire).2.schedule (data.length - sent') := by
  induction s generalizing sent wire with
  | nil => exact .inl ⟨some .success, rfl, by decide, rfl⟩
  | cons r rest ih =>
    rw [sendRawFrom.eq_def, delivery.eq_def]
    simp only
    by_cases hdone : data.length ≤ sent
    · have hnone : data.length - sent = 0 := by omega
      rw [if_pos hdone, if_pos hnone]
      exact .inl ⟨some .success, rfl, by decide, rfl⟩
    · have hsome : data.length - sent ≠ 0 := by omega
      simp only [if_neg hdone, if_neg hsome]
      cases r with
      | accepted k =>
        have hleft : data.length - sent - k = data.length - (sent + min k (data.length - sent)) := by omega
        simp only [hleft]
        exact ih _ _
      | ewouldblock =>
        cases isBlocking with
        | true => exact .inl ⟨some .timeout, rfl, by decide, .timeout, rfl, by decide⟩
        | false => exact .inr ⟨sent, rfl, rfl⟩
      | eintr => exact ih sent wire
      | failed => exact .inl ⟨some .sendError, rfl, by decide, .sendError, rfl, by decide⟩
      | waits => exact .inl ⟨none, rfl, by decide, rfl⟩

theorem sendLoop_delivery (data : Bytes) (sent : Nat) (w : TcpWriter) :
    Ends (delivery w.isBlocking w.schedule (data.length - sent)) (sendLoop data sent w).1 := by
  induction hm : w.schedule.length using Nat.strong_induction_on generalizing sent w with
  | _ m ih =>
    obtain ⟨hmode, -, hleft⟩ := sendRawFrom_schedule w.isBlocking data w.schedule sent w.wire
    have hends := sendRawFrom_delivery w.isBlocking data w.schedule sent w.wire
    rcases hraw : sendRawFrom w.isBlocking data w.schedule sent w.wire with ⟨r, w'⟩
    have hsend : Sender.sendRaw data sent w = (r, w') := hraw
    rw [hraw] at hends hmode hleft
    rcases hends with ⟨st, hst, hne, hends⟩ | ⟨sent', hblock, hsame⟩
    · have hloop : (sendLoop data sent w).1 = st := by
        cases r with
        | none =>
          rw [sendLoop]
          split
          · exact hst
          · rename_i h
            rw [hsend] at h
            cases h
        | some r =>
          rw [sendLoop_done hsend fun heq => hne (hst ▸ congrArg some heq)]
          exact hst
      rw [hloop]
      exact hends
    · simp only at hblock
      subst hblock
      rw [sendLoop_again hsend, hsame, ← hmode]
      exact ih _ (hm ▸ hleft sent' rfl) sent' w' rfl

end TcpWriter

/-! ## A response -/

namespace HttpResponse

/-- The header goes on behind these bytes. -/
def HeaderAwaited (text : Bytes) : Prop :=
  (4 ≤ text.length → text.take 4 = bytes "HTTP") ∧ Http.headerEnd text = none ∧ text.length ≤ maxHttpHeaderSize

/-- The body goes on: it is less than was announced, or it ends with chunks of which the last
    is not the one that closes it. -/
def BodyAwaited (x : HttpResponse) : Prop :=
  if TransferEncoding.chunked ∈ x.transferEncodings then
    ∃ got rest, Decoded (x.body.drop x.chunkOffset) got rest ∧ Waits rest
  else x.body.length < x.contentLength

/-- The response goes on behind the block. -/
def Awaits (r : HttpResponse) (responseData : Bytes) : Prop :=
  match r.atBody responseData with
  | none => HeaderAwaited (r.body ++ responseData)
  | some x => x.body.length ≤ maxHttpBodySize ∧ x.BodyAwaited

/-- The block makes it one that is no response: its header does not begin as one, is too
    long or cannot be read, or its body is too long. -/
def Refuses (r : HttpResponse) (responseData : Bytes) : Prop :=
  match r.atBody responseData with
  | none => ¬ HeaderAwaited (r.body ++ responseData)
  | some x => maxHttpBodySize < x.body.length

/-- An error of `parse`. -/
def Error (answer : Option Status) : Prop := ∃ st, answer = some st ∧ st ≠ .success ∧ st ≠ .notEnoughData

theorem atBody_none {r : HttpResponse} {p : Bytes} (h : r.atBody p = none) :
    (HeaderAwaited (r.body ++ p) → (parse r p).1 = some .notEnoughData) ∧
      (¬ HeaderAwaited (r.body ++ p) → Error (parse r p).1) := by
  unfold atBody at h
  unfold parse parseBuffer
  simp only at h ⊢
  by_cases hended : r.headerEnded = true
  · rw [if_pos hended] at h
    cases h
  · rw [if_neg hended] at h ⊢
    by_cases hhttp : 4 ≤ (r.body ++ p).length ∧ (r.body ++ p).take 4 ≠ bytes "HTTP"
    · rw [if_pos hhttp]
      exact ⟨fun hawaited => absurd (hawaited.1 hhttp.1) hhttp.2, fun _ => ⟨_, rfl, by decide, by decide⟩⟩
    · rw [if_neg hhttp] at h ⊢
      rcases hend : Http.headerEnd (r.body ++ p) with _ | ⟨e, n⟩
      · simp only
        by_cases hbig : maxHttpHeaderSize < (r.body ++ p).length
        · rw [if_pos hbig]
          exact ⟨fun hawaited => absurd hbig (Nat.not_lt.mpr hawaited.2.2), fun _ => ⟨_, rfl, by decide, by decide⟩⟩
        · rw [if_neg hbig]
          refine ⟨fun _ => rfl, fun hnot => absurd ⟨fun hlong => ?_, hend, Nat.not_lt.mp hbig⟩ hnot⟩
          by_contra hne
          exact hhttp ⟨hlong, hne⟩
      · have hnot : ¬ HeaderAwaited (r.body ++ p) := by
          intro hawaited
          rw [hawaited.2.1] at hend
          cases hend
        refine ⟨fun hawaited => absurd hawaited hnot, fun _ => ?_⟩
        rw [hend] at h
        simp only at h ⊢
        by_cases hbig : maxHttpHeaderSize < e
        · rw [if_pos hbig]
          exact ⟨_, rfl, by decide, by decide⟩
        · rw [if_neg hbig] at h ⊢
          rcases hheader : parseHeader { r with body := r.body ++ p, headerEnded := true } e with ⟨_ | _, x⟩
          · exact ⟨_, rfl, by decide, by decide⟩
          · rw [hheader] at h
            cases h

/-- Neither an error nor asking for more. -/
def Final (answer : Option Status) : Prop := answer = none ∨ answer = some .success

theorem chunks_awaited {body : Bytes} (hmax : body.length ≤ maxHttpBodySize) (chunkOffset : Nat) :
    ((∃ got rest, Decoded (body.drop chunkOffset) got rest ∧ Waits rest) →
        (chunks body chunkOffset).1 = some .notEnoughData) ∧
      ((¬ ∃ got rest, Decoded (body.drop chunkOffset) got rest ∧ Waits rest) → Final (chunks body chunkOffset).1) := by
  by_cases hoffset : chunkOffset ≤ body.length
  · rw [chunks_at hoffset]
    constructor
    · intro hgiven
      obtain ⟨got, rest, hgot, hwaits⟩ := hgiven
      rw [chunks_decoded hgot, chunks_waits hwaits]
    · intro hnot
      obtain ⟨got, rest, hgot, hend⟩ := decoded_exists (body.drop chunkOffset) (by rw [List.length_drop]; omega)
      rw [chunks_decoded hgot]
      rcases hend with hwaits | hthrows | ⟨behind, hcloses⟩
      · exact absurd ⟨got, rest, hgot, hwaits⟩ hnot
      · exact .inl (by rw [chunks_throw hthrows])
      · exact .inr (by rw [chunks_closes hcloses])
  · rw [chunks_end (by omega)]
    refine ⟨fun _ => rfl, fun hnot => absurd ⟨[], [], ?_, .inl (by decide)⟩ hnot⟩
    rw [List.drop_eq_nil_of_le (by omega)]
    exact .nil []

theorem parseBody_awaited {x : HttpResponse} (hmax : x.body.length ≤ maxHttpBodySize) :
    (x.BodyAwaited → (parseBody x).1 = some .notEnoughData) ∧ (¬ x.BodyAwaited → Final (parseBody x).1) := by
  unfold BodyAwaited
  by_cases hchunked : TransferEncoding.chunked ∈ x.transferEncodings
  · rw [if_pos hchunked, parseBody_chunked hchunked hmax]
    exact chunks_awaited hmax x.chunkOffset
  · rw [if_neg hchunked, parseBody, if_neg (Nat.not_lt.mpr hmax), if_neg hchunked]
    by_cases hcut : 0 < x.contentLength ∧ x.contentLength < x.body.length
    · rw [if_pos hcut]
      exact ⟨fun hshort => by omega, fun _ => .inr rfl⟩
    · rw [if_neg hcut]
      by_cases hshort : x.body.length < x.contentLength
      · rw [if_pos hshort]
        exact ⟨fun _ => rfl, fun hnot => absurd hshort hnot⟩
      · rw [if_neg hshort]
        exact ⟨fun hno => absurd hno hshort, fun _ => .inr rfl⟩

/-- The answer of a call, by the bytes. -/
theorem parse_answer (r : HttpResponse) (p : Bytes) :
    (r.Refuses p → Error (parse r p).1) ∧ (r.Awaits p → (parse r p).1 = some .notEnoughData) ∧
      (¬ r.Refuses p → ¬ r.Awaits p → Final (parse r p).1) := by
  unfold Refuses Awaits
  rcases parse_atBody r p with ⟨x, hx, hparse⟩ | ⟨hnone, -⟩
  · simp only [hx, hparse]
    by_cases hmax : maxHttpBodySize < x.body.length
    · refine ⟨fun _ => ?_, fun hawaits => absurd hmax (Nat.not_lt.mpr hawaits.1), fun hnot => absurd hmax hnot⟩
      rw [parseBody, if_pos hmax]
      exact ⟨_, rfl, by decide, by decide⟩
    · have hsmall : x.body.length ≤ maxHttpBodySize := Nat.not_lt.mp hmax
      obtain ⟨hawaited, hfinal⟩ := parseBody_awaited hsmall
      exact ⟨fun hbig => absurd hbig hmax, fun hawaits => hawaited hawaits.2,
        fun _ hnot => hfinal fun hbody => hnot ⟨hsmall, hbody⟩⟩
  · obtain ⟨hawaited, herror⟩ := atBody_none hnone
    simp only [hnone]
    exact ⟨herror, hawaited, fun hnot hno => absurd (Classical.not_not.mp hnot) hno⟩

/-! ## The reads of one -/

/-- The blocks among the results of reads. -/
def blocks (rs : List (Status × Bytes)) : List Bytes := (rs.filter fun r => r.1 = .success).map Prod.snd

/-- The response goes on behind each of the blocks. -/
def Unfinished (bs : List Bytes) : Prop := ∀ qs q, qs ++ [q] <+: bs → (feed parse fresh qs).2.Awaits q

/-- What comes next, behind these blocks, is no error: no failure, and no block that is
    refused. A read that would block is one as long as there are no bytes. -/
def NoError (bs : List Bytes) (st : Status) (b : Bytes) : Prop :=
  if st = .success then ¬ (feed parse fresh bs).2.Refuses b else st = .wouldBlock ∧ bs.flatten ≠ []

/-- As long as the response goes on, no result of the reads is an error. -/
def Responds (rs : List (Status × Bytes)) : Prop :=
  ∀ before st b after, rs = before ++ (st, b) :: after → Unfinished (blocks before) → NoError (blocks before) st b

/-- Behind the blocks that have been read. -/
def RespondsFrom (bs : List Bytes) (rs : List (Status × Bytes)) : Prop :=
  ∀ before st b after, rs = before ++ (st, b) :: after → Unfinished (bs ++ blocks before) →
    NoError (bs ++ blocks before) st b

theorem respondsFrom_nil (rs : List (Status × Bytes)) : RespondsFrom [] rs ↔ Responds rs := by
  simp only [RespondsFrom, Responds, List.nil_append]

theorem unfinished_snoc {bs : List Bytes} {b : Bytes} :
    Unfinished (bs ++ [b]) ↔ Unfinished bs ∧ (feed parse fresh bs).2.Awaits b := by
  constructor
  · intro h
    exact ⟨fun qs q hq => h qs q (hq.trans (List.prefix_append _ _)), h bs b List.prefix_rfl⟩
  · intro hgiven qs q hq
    obtain ⟨hbs, hb⟩ := hgiven
    rcases List.prefix_concat_iff.mp hq with heq | hpre
    · obtain ⟨rfl, hsame⟩ := List.append_inj' heq rfl
      cases hsame
      exact hb
    · exact hbs qs q hpre

theorem blocks_success (b : Bytes) (rs : List (Status × Bytes)) : blocks ((.success, b) :: rs) = b :: blocks rs := by
  simp [blocks]

theorem blocks_failed {st : Status} (h : st ≠ .success) (b : Bytes) (rs : List (Status × Bytes)) :
    blocks ((st, b) :: rs) = blocks rs := by
  simp [blocks, h]

theorem respondsFrom_success {bs : List Bytes} (hbs : Unfinished bs) (b : Bytes) (rs : List (Status × Bytes)) :
    RespondsFrom bs ((.success, b) :: rs) ↔ ¬ (feed parse fresh bs).2.Refuses b ∧
      ((feed parse fresh bs).2.Awaits b → RespondsFrom (bs ++ [b]) rs) := by
  constructor
  · intro h
    constructor
    · have hfirst := h [] .success b rs rfl
      simp only [blocks, List.filter_nil, List.map_nil, List.append_nil] at hfirst
      exact hfirst hbs
    · intro _ before st' b' after heq hun
      have hmore := h ((.success, b) :: before) st' b' after (by rw [heq]; rfl)
      rw [blocks_success, List.append_cons] at hmore
      exact hmore hun
  · intro hgiven before st' b' after heq hun
    obtain ⟨hfirst, hmore⟩ := hgiven
    cases before with
    | nil =>
      cases heq
      simp only [blocks, List.filter_nil, List.map_nil, List.append_nil]
      exact hfirst
    | cons r before =>
      cases heq
      rw [blocks_success, List.append_cons] at hun ⊢
      have hprefix : bs ++ [b] <+: bs ++ [b] ++ blocks before := List.prefix_append _ _
      exact hmore (hun bs b hprefix) before st' b' after rfl hun

theorem respondsFrom_failed {bs : List Bytes} (hbs : Unfinished bs) {st : Status} (hst : st ≠ .success) (b : Bytes)
    (rs : List (Status × Bytes)) :
    RespondsFrom bs ((st, b) :: rs) ↔ (st = .wouldBlock ∧ bs.flatten ≠ []) ∧ RespondsFrom bs rs := by
  constructor
  · intro h
    constructor
    · have hfirst := h [] st b rs rfl
      simp only [blocks, List.filter_nil, List.map_nil, List.append_nil, NoError, if_neg hst] at hfirst
      exact hfirst hbs
    · intro before st' b' after heq hun
      have hmore := h ((st, b) :: before) st' b' after (by rw [heq]; rfl)
      rw [blocks_failed hst] at hmore
      exact hmore hun
  · intro hgiven before st' b' after heq hun
    obtain ⟨hfirst, hmore⟩ := hgiven
    cases before with
    | nil =>
      cases heq
      simp only [blocks, List.filter_nil, List.map_nil, List.append_nil, NoError, if_neg hst]
      exact hfirst
    | cons r before =>
      cases heq
      rw [blocks_failed hst] at hun ⊢
      exact hmore before st' b' after rfl hun

end HttpResponse

namespace Socket

variable {σ : Type} [Receiver σ]

/-- The results of one read of a block after the other, as long as they return. -/
def reads (w : σ) : List (Status × Bytes) :=
  match h : receiveRaw recvChunkSize w with
  | none => []
  | some (status, b, w') =>
    have := raw_left h (by decide)
    (status, b) :: reads w'
termination_by left w

theorem reads_none {w : σ} (h : receiveRaw recvChunkSize w = none) : reads w = [] := by
  rw [reads]
  split
  · rfl
  · rename_i h'
    rw [h] at h'
    cases h'

theorem reads_some {w w' : σ} {st : Status} {b : Bytes} (h : receiveRaw recvChunkSize w = some (st, b, w')) :
    reads w = (st, b) :: reads w' := by
  rw [reads]
  split
  · rename_i h'
    rw [h] at h'
    cases h'
  · rename_i h'
    rw [h] at h'
    cases h'
    rfl

end Socket

namespace HttpResponse

variable {σ : Type} [Receiver σ]

/-- The induction is on what the connection still allows, over the blocks read so far. -/
theorem receiveFrom_responds {bs : List Bytes} (hbs : Unfinished bs) {state : Option Status}
    (hstate : bs.flatten.length ≠ 0 → state = some .notEnoughData) (w : σ) :
    (∀ status, (Http.receiveFrom parse bs.flatten.length state (feed parse fresh bs).2 w).1 = .returned status →
      status = .success) ↔ RespondsFrom bs (reads w) := by
  induction hm : left w using Nat.strong_induction_on generalizing bs state w with
  | _ m ih =>
    rcases hraw : receiveRaw recvChunkSize w with _ | ⟨st, b, w'⟩
    · rw [Http.receiveFrom_waits hraw, reads_none hraw]
      refine iff_of_true (fun _ h => by cases h) fun before st b after heq => ?_
      simp at heq
    · have hleft : left w' < m := hm ▸ raw_left hraw (by decide)
      rw [reads_some hraw]
      by_cases hst : st = .success
      · subst hst
        rw [Http.receiveFrom_read hraw, respondsFrom_success hbs]
        obtain ⟨hrefuses, hawaits, hfinal⟩ := (feed parse fresh bs).2.parse_answer b
        rcases hparse : parse (feed parse fresh bs).2 b with ⟨answer, r'⟩
        rw [hparse] at hrefuses hawaits hfinal
        by_cases hrefused : (feed parse fresh bs).2.Refuses b
        · obtain ⟨st, hanswer, hne, hmore⟩ := hrefuses hrefused
          simp only at hanswer
          subst hanswer
          simp only [if_neg hmore]
          exact iff_of_false (fun h => hne (h st rfl)) fun h => h.1 hrefused
        · by_cases hawaited : (feed parse fresh bs).2.Awaits b
          · have hmore : answer = some .notEnoughData := hawaits hawaited
            subst hmore
            have hnext := @ih _ hleft _ (unfinished_snoc.mpr ⟨hbs, hawaited⟩) (some .notEnoughData) (fun _ => rfl) w' rfl
            rw [feed_snoc, hparse, List.flatten_append, List.flatten_singleton, List.length_append] at hnext
            simp only [if_true]
            rw [hnext]
            exact ⟨fun h => ⟨hrefused, fun _ => h⟩, fun h => h.2 hawaited⟩
          · have hend : answer = none ∨ answer = some .success := hfinal hrefused hawaited
            refine iff_of_true ?_ ⟨hrefused, fun h => absurd h hawaited⟩
            rcases hend with rfl | rfl
            · exact fun _ h => by cases h
            · exact fun _ h => by cases h; rfl
      · have hb : b = [] := raw_fails hraw hst
        subst hb
        rw [Http.receiveFrom_failed hraw hst, respondsFrom_failed hbs hst]
        by_cases htotal : bs.flatten.length = 0
        · rw [if_pos htotal]
          exact iff_of_false (fun h => hst (h st rfl)) fun h => h.1.2 (List.eq_nil_of_length_eq_zero htotal)
        · rw [if_neg htotal]
          have hbytes : bs.flatten ≠ [] := fun h => htotal (by rw [h]; rfl)
          by_cases hblock : st = .wouldBlock
          · rw [if_pos hblock, hstate htotal]
            simp only [if_true]
            rw [ih _ hleft hbs (fun _ => rfl) w' rfl]
            exact (and_iff_right ⟨hblock, hbytes⟩).symm
          · rw [if_neg hblock]
            exact iff_of_false (fun h => by cases h _ rfl) fun h => hblock h.1.1

/-- `receive` of a response returns no error exactly when the reads respond. -/
theorem receive_responds (w : σ) :
    (∀ status, (Http.receive parse fresh w).1 = .returned status → status = .success) ↔ Responds (reads w) := by
  rw [← respondsFrom_nil]
  exact @receiveFrom_responds _ _ [] (fun qs q hq => by simp at hq) _ (fun h => absurd rfl h) w

end HttpResponse

end Frnetlib
