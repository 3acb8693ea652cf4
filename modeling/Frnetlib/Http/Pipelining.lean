/-
  Frnetlib.Http.Pipelining — requests that a client sends without waiting for the answers,
  and a server that receives them one by one with `Http::receive` (`Http.cpp`).

  A read that goes on behind the end of a request hands the bytes behind it to the parser of
  that request, which takes them for more of its body. So each receive gives the request as
  it was sent, and leaves the next one whole, exactly when one of the reads ends where each of
  the requests does (`pipelined`).
-/

import Frnetlib.Http.Conversation
import Frnetlib.Net.TcpSocket

namespace Frnetlib

open Base Socket Receiver

/-! ## The reads of a receive -/

namespace Http

variable {ρ σ : Type} [BlockingReceiver σ] {parse : ρ → Bytes → Option Status × ρ}

/-- A receive that succeeds has read blocks. -/
theorem receiveFrom_reads {total : Nat} {state : Option Status} {r r' : ρ} {w w' : σ}
    (h : receiveFrom parse total state r w = (.returned .success, r', w')) (hstate : state ≠ some .success) :
    ∃ bs, Reads w bs w' := by
  generalize hm : left w = m
  induction m using Nat.strongRecOn generalizing total state r w with
  | ind m ih =>
    rcases hraw : receiveRaw recvChunkSize w with _ | ⟨status, b, w₁⟩
    · rw [receiveFrom_waits hraw] at h
      cases h
    · have hleft := raw_left hraw (by decide)
      by_cases hsuccess : status = .success
      · subst hsuccess
        rw [receiveFrom_read hraw] at h
        rcases hparse : parse r b with ⟨_ | st, r₁⟩
        · rw [hparse] at h
          cases h
        · rw [hparse] at h
          simp only at h
          by_cases hmore : st = .notEnoughData
          · rw [if_pos hmore] at h
            obtain ⟨bs, hbs⟩ := ih (left w₁) (by omega) h (by rw [hmore]; decide) rfl
            exact ⟨b :: bs, .cons hraw hbs⟩
          · rw [if_neg hmore] at h
            cases h
            exact ⟨[b], .cons hraw (.nil _)⟩
      · have hb : b = [] := raw_fails hraw hsuccess
        subst hb
        rcases FifoReceiver.raw_status hraw (by decide) with hst | hst
        · exact absurd hst hsuccess
        · rw [hst] at hraw
          exact absurd hraw BlockingReceiver.raw_blocking

theorem Reads.pending {w w' : σ} {bs : List Bytes} (h : Reads w bs w') : pending w = bs.flatten ++ pending w' := by
  induction h with
  | nil w => rfl
  | cons hraw _ ih => rw [raw_pending hraw, ih, List.flatten_cons, List.append_assoc]

/-- A read ends somewhere after these exactly when one of the reads from there on does. -/
theorem Reads.cut {w w' : σ} {bs : List Bytes} (h : Reads w bs w') (k : Nat) :
    Cut recvChunkSize (bs.flatten.length + k) w ↔ Cut recvChunkSize k w' := by
  induction h with
  | nil w => rw [List.flatten_nil, List.length_nil, Nat.zero_add]
  | @cons w w₁ w' b bs hraw hbs ih =>
    rw [← ih, List.flatten_cons, List.length_append, Nat.add_assoc]
    by_cases hpos : 0 < b.length + (bs.flatten.length + k)
    · rw [cut_read hraw hpos, Nat.add_sub_cancel_left]
      exact and_iff_right (Nat.le_add_right _ _)
    · have hzero : b.length + (bs.flatten.length + k) = 0 := by omega
      have hrest : bs.flatten.length + k = 0 := by omega
      rw [hzero, hrest]
      exact iff_of_true (.here w) (.here w₁)

end Http

/-! ## Receiving one request after the other -/

namespace HttpRequest

/-- What another end can be sent in a row: behind the body there is room for a block. -/
structure Pipelinable (o : Order) (host : Bytes) (r : HttpRequest) : Prop extends r.Deliverable o host where
  room : r.body.length + recvChunkSize ≤ maxHttpBodySize

/-- The bytes behind a request are more of its body. -/
theorem Pipelinable.parses {o : Order} {host : Bytes} {r : HttpRequest} (h : r.Pipelinable o host) :
    Http.Parses parse fresh (r.construct o host) ∧
      (∀ v, v.length ≤ recvChunkSize → (parse fresh (r.construct o host ++ v)).2.body = r.body ++ v) ∧
      r.Carries (parse fresh (r.construct o host)).2 := by
  obtain ⟨line, lines, t, x, htext, hlines, ht, hmethod, hread, hlength, hsize, hcarries⟩ := h.toDeliverable.block
  obtain ⟨x', hunderstood, -⟩ := h.toDeliverable.understood
  have hclosed := Http.block_closed (Http.Plain.lines hlines)
  have hroom := h.room
  have hbehind : ∀ v, v.length ≤ recvChunkSize →
      ∃ post, parse fresh (r.construct o host ++ v) = (some .success, { x with body := r.body ++ v, postData := post }) := by
    intro v hv
    rw [htext, List.append_assoc, parse_block hlines ht hmethod hread hsize]
    exact parseBody_success (r := { x with body := r.body ++ v })
      (by simp only [List.length_append]; omega) (by simp only [List.length_append]; omega)
  refine ⟨⟨parse_nil, hunderstood.ne_nil, ?_, ?_, ?_⟩, ?_, ?_⟩
  · intro u hu hne
    rw [htext] at hu hne
    rcases hclosed.cut hu with ⟨hnone, hub, -⟩ | ⟨v, hv, rfl⟩
    · exact parse_block_cut ht hmethod hsize hub hnone
    · have hlt : v.length < r.body.length := prefix_length_lt hv fun heq => hne (by rw [heq])
      rw [parse_block hlines ht hmethod hread hsize]
      unfold parseBody
      simp only
      rw [if_neg (by omega), if_neg (by omega)]
  · intro u p v _ hup hmore
    rw [htext, List.append_assoc] at hup
    exact parse_absorbs hmore (hclosed.stable hup)
  · intro v hv
    obtain ⟨post, hpost⟩ := hbehind v hv
    rw [hpost]
  · intro v hv
    obtain ⟨post, hpost⟩ := hbehind v hv
    rw [hpost]
  · obtain ⟨post, hpost⟩ := hbehind [] (Nat.zero_le _)
    rw [List.append_nil, List.append_nil] at hpost
    rw [hpost]
    exact hcarries post

variable {σ : Type} [BlockingReceiver σ]

/-- A request received into a new object, and another, as many times. -/
def receiveEach : Nat → σ → List (Outcome Status × HttpRequest)
  | 0, _ => []
  | n + 1, w =>
    let r := Http.receive parse fresh w
    (r.1, r.2.1) :: receiveEach n r.2.2

/-- The request was received as it was sent. -/
def Received (r : HttpRequest) (y : Outcome Status × HttpRequest) : Prop := y.1 = .returned .success ∧ r.Carries y.2

/-- One of the reads ends where each of the texts does. -/
def CutEach (texts : List Bytes) (w : σ) : Prop := ∀ i ≤ texts.length, Cut recvChunkSize (texts.take i).flatten.length w

theorem cutEach_cons {text : Bytes} {texts : List Bytes} {w w' : σ} {bs : List Bytes} (hbs : Http.Reads w bs w')
    (htext : bs.flatten = text) : CutEach (text :: texts) w ↔ CutEach texts w' := by
  have hshift : ∀ i, Cut recvChunkSize ((text :: texts).take (i + 1)).flatten.length w ↔
      Cut recvChunkSize (texts.take i).flatten.length w' := by
    intro i
    rw [List.take_succ_cons, List.flatten_cons, List.length_append, ← htext]
    exact hbs.cut _
  constructor
  · intro h i hi
    exact (hshift i).mp (h (i + 1) (Nat.succ_le_succ hi))
  · intro h i hi
    cases i with
    | zero => exact .here w
    | succ i => exact (hshift i).mpr (h i (Nat.le_of_succ_le_succ hi))

theorem cutEach_of_reads {texts : List Bytes} {w w' : σ} (h : Http.Reads w texts w') : CutEach texts w := by
  induction h with
  | nil w => exact fun i hi => by rw [List.take_nil]; exact .here w
  | @cons w w₁ w' b bs hraw hbs ih =>
    have hfirst : Http.Reads w [b] w₁ := .cons hraw (.nil w₁)
    exact (cutEach_cons hfirst (by simp)).mpr ih

/-- The first receive. -/
theorem receive_first {o : Order} {host : Bytes} {r : HttpRequest} (h : r.Pipelinable o host) {rest : Bytes} {w : σ}
    (hw : pending w = r.construct o host ++ rest) :
    ∃ x w' bs, Http.receive parse fresh w = (.returned .success, x, w') ∧ Http.Reads w bs w' ∧
      (r.Carries x ↔ Cut recvChunkSize (r.construct o host).length w) ∧
      (r.Carries x → bs.flatten = r.construct o host ∧ pending w' = rest) := by
  obtain ⟨hparses, hbehind, hcarries⟩ := h.parses
  have hpending : pending w <+: r.construct o host ++ rest := by rw [hw]
  rcases Http.receive_stream hparses w hpending with ⟨-, hpre, hne⟩ | ⟨-, hblocks⟩ | ⟨v, w', hr, hp, hv, -, hcut⟩
  · -- all of it is there
    refine absurd (hpre.eq_of_length_le ?_) hne
    rw [hw, List.length_append]
    exact Nat.le_add_right _ _
  · exact absurd hblocks Http.not_blocks
  · obtain ⟨bs, hbs⟩ := Http.receiveFrom_reads hr (by decide)
    have hexact : r.Carries (parse fresh (r.construct o host ++ v)).2 ↔ v = [] := by
      constructor
      · intro hx
        have hbody := hx.body
        rw [hbehind v hv] at hbody
        exact List.append_right_eq_self.mp hbody
      · rintro rfl
        rwa [List.append_nil]
    refine ⟨_, w', bs, hr, hbs, hexact.trans hcut, fun hx => ?_⟩
    have hnil := hexact.mp hx
    subst hnil
    rw [List.append_nil] at hp
    have hflat := hbs.pending
    rw [hp] at hflat
    refine ⟨(List.append_cancel_right hflat).symm, ?_⟩
    rw [hw] at hp
    exact (List.append_cancel_left hp).symm

end HttpRequest

open HttpRequest

/-- Of requests that arrive one behind the other on a socket in blocking mode: as many
    receives give all of them as they were sent exactly when one of the reads ends where
    each request does. -/
theorem pipelined {σ : Type} [BlockingReceiver σ] (o : Order) (host : Bytes) (requests : List HttpRequest)
    (hrequests : ∀ r ∈ requests, r.Pipelinable o host) (w : σ)
    (hw : pending w = (requests.map fun r => r.construct o host).flatten) :
    List.Forall₂ Received requests (receiveEach requests.length w) ↔
      CutEach (requests.map fun r => r.construct o host) w := by
  induction requests generalizing w with
  | nil => exact iff_of_true .nil fun i hi => by rw [List.map_nil, List.take_nil]; exact .here w
  | cons r requests ih =>
    obtain ⟨x, w', bs, hr, hbs, hexact, hthen⟩ := receive_first (hrequests r List.mem_cons_self) (w := w) hw
    have heach : receiveEach (r :: requests).length w = (.returned .success, x) :: receiveEach requests.length w' := by
      rw [List.length_cons, receiveEach, hr]
    have hih := ih (fun r hr => hrequests r (List.mem_cons_of_mem _ hr)) w'
    rw [heach, List.forall₂_cons, List.map_cons]
    constructor
    · intro hgiven
      obtain ⟨⟨-, hx⟩, hrest⟩ := hgiven
      obtain ⟨hflat, hpending⟩ := hthen hx
      exact (cutEach_cons hbs hflat).mpr ((hih hpending).mp hrest)
    · intro hcuts
      have hfirst := hcuts 1 (by rw [List.length_cons]; omega)
      rw [List.take_succ_cons, List.take_zero, List.flatten_cons, List.flatten_nil, List.append_nil] at hfirst
      have hx := hexact.mpr hfirst
      obtain ⟨hflat, hpending⟩ := hthen hx
      exact ⟨⟨rfl, hx⟩, (hih hpending).mpr ((cutEach_cons hbs hflat).mp hcuts)⟩

/-- The read end of a connection over which each of these texts arrives by itself. -/
def arriving (texts : List Bytes) : BlockingReader :=
  ⟨⟨⟨true, texts.flatten, texts.map fun t => .received (t.length - 1)⟩, by simp [RecvResult.reliable]⟩, rfl⟩

theorem arriving_read {t : Bytes} (hne : t ≠ []) (hle : t.length ≤ recvChunkSize) (texts : List Bytes) :
    receiveRaw recvChunkSize (arriving (t :: texts)) = some (.success, t, arriving texts) := by
  have hstream : t ++ texts.flatten ≠ [] := List.append_ne_nil_of_left_ne_nil hne _
  have hcount : min (t.length - 1 + 1) recvChunkSize = t.length := by
    have hpos := List.length_pos_iff.mpr hne
    omega
  have hraw : TcpReader.receiveRaw recvChunkSize (arriving (t :: texts)).1.1 = some (.success, t, (arriving texts).1.1) := by
    simp only [arriving, TcpReader.receiveRaw, List.map_cons, TcpReader.receiveRawFrom, TcpReader.recv,
      List.flatten_cons, if_neg hstream, hcount, List.take_left, List.drop_left, if_neg hne]
  rcases hread : Receiver.receiveRaw recvChunkSize (arriving (t :: texts)) with _ | ⟨st, b, rx⟩
  · exact absurd hread (FifoReceiver.raw_returns (by decide) hstream)
  · have hsame := FifoReader.receiveRaw_some (BlockingReader.receiveRaw_some hread)
    obtain ⟨rfl, rfl, hrx⟩ : Status.success = st ∧ t = b ∧ (arriving texts).1.1 = rx.1.1 := by
      simpa using hraw.symm.trans hsame
    exact congrArg some (congrArg _ (congrArg _ (Subtype.ext (Subtype.ext hrx.symm))))

theorem arriving_reads {texts : List Bytes} (h : ∀ t ∈ texts, t ≠ [] ∧ t.length ≤ recvChunkSize) :
    Http.Reads (arriving texts) texts (arriving []) := by
  induction texts with
  | nil => exact .nil _
  | cons t texts ih =>
    obtain ⟨⟨hne, hle⟩, hrest⟩ := List.forall_mem_cons.mp h
    exact .cons (arriving_read hne hle texts) (ih hrest)

/-- Two requests, each in a read of its own. -/
theorem pipelined_apart :
    List.Forall₂ Received [samplePatch, samplePatch]
      (receiveEach 2 (arriving [samplePatch.construct .kept (bytes "h"), samplePatch.construct .kept (bytes "h")])) := by
  have hroom : samplePatch.Pipelinable .kept (bytes "h") := ⟨samplePatch_deliverable, by decide⟩
  have hall : ∀ r ∈ [samplePatch, samplePatch], r.Pipelinable .kept (bytes "h") := by simpa using hroom
  have hlen : samplePatch.construct .kept (bytes "h") ≠ [] ∧
    (samplePatch.construct .kept (bytes "h")).length ≤ recvChunkSize := by
    decide +kernel
  refine (pipelined .kept (bytes "h") [samplePatch, samplePatch] hall (arriving _) rfl).mpr ?_
  exact cutEach_of_reads (arriving_reads (by simpa using hlen))

end Frnetlib
