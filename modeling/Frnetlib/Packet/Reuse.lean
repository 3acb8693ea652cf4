/-
  Frnetlib.Packet.Reuse — receiving into a packet that was used before (`Packet.h`).

  `receive` only ever lengthens the buffer, and it leaves the cursor where earlier reads
  have brought it. What the packet held shows through exactly when it is longer than the
  frame, or when the cursor is not at the header's end (`received_afresh`); a packet
  compares as new if `size`, the bytes behind the header and every sequence of extractions,
  also one that goes on after an exception, are those of a new one that received the frame.
-/

import Frnetlib.Net.Takes
import Frnetlib.Packet.Calls

namespace Frnetlib

open Base Socket Receiver

namespace Packet

def size (p : Packet) : Nat :=
  if p.buffer.length ≤ packetHeaderLength then 0 else p.buffer.length - packetHeaderLength

/-! ## Extractions -/

inductive Extraction where
  | raw (n : Nat)
  | value (t : Ty) (dst : Val t)

/-- The bytes of `extract_raw`, or what `operator>>` leaves in its object. -/
abbrev Extracted : Type := Bytes ⊕ ((t : Ty) × Val t)

def Extraction.exec (hash : Hashing) : Extraction → Extract Extracted
  | .raw n => do
    let b ← extractRaw n
    pure (.inl b)
  | .value t dst => do
    let x ← unpack hash t dst
    pure (.inr ⟨t, x⟩)

/-- What the extractions give one after the other, an exception being caught. -/
def outcomes (hash : Hashing) : List Extraction → Packet → List (Except Fault Extracted)
  | [], _ => []
  | e :: es, p =>
    match e.exec hash p with
    | .ok x p' => .ok x :: outcomes hash es p'
    | .error fault p' => .error fault :: outcomes hash es p'

def ExtractsAs (p q : Packet) : Prop := ∀ hash es, outcomes hash es p = outcomes hash es q

/-- The same to a reader: the header and what was read before do not count. -/
structure Twin (p q : Packet) : Prop where
  cursor : p.readIndex = q.readIndex
  length : p.buffer.length = q.buffer.length
  unread : p.unread = q.unread

theorem extractRaw_twins (n : Nat) : View.Twins Twin (extractRaw n) := by
  intro p q h
  obtain ⟨hcursor, hlength, hunread⟩ := h
  by_cases hassert : (p.readIndex + n) % 2 ^ 64 > p.buffer.length
  · have hp : assertBytesRemaining n p = .error .notEnough p := if_pos hassert
    have hq : assertBytesRemaining n q = .error .notEnough q := if_pos (by rwa [hcursor, hlength] at hassert)
    exact .inr ⟨.notEnough, p, q, View.bind_error hp, View.bind_error hq, hcursor, hlength, hunread⟩
  · have hp : assertBytesRemaining n p = .ok () p := if_neg hassert
    have hq : assertBytesRemaining n q = .ok () q := if_neg (by rwa [hcursor, hlength] at hassert)
    by_cases hin : p.readIndex + n ≤ p.buffer.length
    · have hin' : q.readIndex + n ≤ q.buffer.length := by rwa [hcursor, hlength] at hin
      refine .inl ⟨p.unread.take n, p.advance n, q.advance n, extractRaw_ok hin, ?_, ?_⟩
      · rw [hunread]
        exact extractRaw_ok hin'
      · exact ⟨by simp [advance, hcursor], hlength, by simp [hunread]⟩
    · have hin' : ¬ q.readIndex + n ≤ q.buffer.length := by rwa [hcursor, hlength] at hin
      have hp' : copyOut n p = .error .outOfBounds p := if_neg hin
      have hq' : copyOut n q = .error .outOfBounds q := if_neg hin'
      exact .inr ⟨.outOfBounds, p, q, (View.bind_ok hp).trans hp', (View.bind_ok hq).trans hq', hcursor, hlength, hunread⟩

theorem toBool_twins (b : Bytes) : View.Twins Twin (toBool b) := by
  unfold toBool
  split
  · exact View.Twins.pure _
  · exact View.Twins.pure _
  · exact View.Twins.throw _

theorem number_twins {α : Type} (w : Nat) (f : Bytes → α) :
    View.Twins Twin (do let b ← extractRaw w; pure (f b)) :=
  (extractRaw_twins w).bind fun _ => View.Twins.pure _

theorem unpack_twins (hash : Hashing) (t : Ty) (dst : Val t) : View.Twins Twin (unpack hash t dst) := by
  induction t with
  | bool => exact (extractRaw_twins 1).bind toBool_twins
  | pair a b iha ihb => exact (iha _).bind fun _ => (ihb _).bind fun _ => View.Twins.pure _
  | vec t ih => exact (number_twins 4 _).bind fun _ => View.Twins.mapM ih _
  | map k v ihk ihv =>
    exact (number_twins 4 _).bind fun _ => View.Twins.iterate
      (fun m => (ihk _).bind fun _ => (ihv _).bind fun _ => View.Twins.pure _) _ _
  | umap k v ihk ihv =>
    exact (number_twins 4 _).bind fun _ => View.Twins.iterate
      (fun m => (ihk _).bind fun _ => (ihv _).bind fun _ => View.Twins.pure _) _ _
  | str => exact (number_twins 4 _).bind fun _ => extractRaw_twins _
  | _ => exact number_twins _ _

theorem exec_twins (hash : Hashing) (e : Extraction) : View.Twins Twin (e.exec hash) := by
  cases e with
  | raw n => exact (extractRaw_twins n).bind fun _ => View.Twins.pure _
  | value t dst => exact (unpack_twins hash t dst).bind fun _ => View.Twins.pure _

theorem Twin.extractsAs {p q : Packet} (h : Twin p q) : ExtractsAs p q := by
  intro hash es
  induction es generalizing p q with
  | nil => rfl
  | cons e es ih =>
    rcases exec_twins hash e p q h with ⟨x, p', q', hp, hq, h'⟩ | ⟨fault, p', q', hp, hq, h'⟩
    · simp only [outcomes, hp, hq, ih h']
    · simp only [outcomes, hp, hq, ih h']

/-- Where `n` bytes can be read of one packet and not of the other. -/
theorem not_extractsAs {p q : Packet} {n : Nat} (hp : p.readIndex + n ≤ p.buffer.length)
    (hq : q.buffer.length < q.readIndex + n) : ¬ ExtractsAs p q := by
  intro h
  have hone := h Hashing.front [.raw n]
  have hok : Extraction.exec Hashing.front (.raw n) p = .ok (.inl (p.unread.take n)) (p.advance n) :=
    View.bind_ok (extractRaw_ok hp)
  have herror : ∃ fault, Extraction.exec Hashing.front (.raw n) q = .error fault q := by
    by_cases hassert : (q.readIndex + n) % 2 ^ 64 > q.buffer.length
    · have hthrow : assertBytesRemaining n q = .error .notEnough q := if_pos hassert
      exact ⟨_, View.bind_error (View.bind_error hthrow)⟩
    · have hpass : assertBytesRemaining n q = .ok () q := if_neg hassert
      have hbeyond : copyOut n q = .error .outOfBounds q := if_neg (by omega)
      exact ⟨_, View.bind_error ((View.bind_ok hpass).trans hbeyond)⟩
  obtain ⟨fault, herror⟩ := herror
  simp [outcomes, hok, herror] at hone

/-! ## What a receive leaves -/

theorem makeRoom_length (buffer : Bytes) (n : Nat) : (makeRoom buffer n).length = max buffer.length (n + 4) := by
  unfold makeRoom packetHeaderLength
  by_cases h : buffer.length < n + 4
  · rw [if_pos h, List.length_append, List.length_replicate]
    omega
  · rw [if_neg h]
    omega

theorem makeRoom_drop (buffer : Bytes) (n : Nat) : (makeRoom buffer n).drop (4 + n) = buffer.drop (4 + n) := by
  unfold makeRoom packetHeaderLength
  by_cases h : buffer.length < n + 4
  · rw [if_pos h, List.drop_of_length_le, List.drop_of_length_le (by omega)]
    rw [List.length_append, List.length_replicate]
    omega
  · rw [if_neg h]

theorem store_drop {buffer data : Bytes} (h : 4 ≤ buffer.length) :
    (store buffer data).drop 4 = data ++ buffer.drop (4 + data.length) := by
  have hheader : (buffer.take packetHeaderLength).length = 4 := by
    rw [List.length_take, packetHeaderLength]
    omega
  rw [store, List.append_assoc, List.drop_left' hheader]
  rfl

/-- `p` after a frame with this payload was received into it. -/
def filled (p : Packet) (data : Bytes) : Packet := { p with buffer := store (makeRoom p.buffer data.length) data }

theorem filled_length (p : Packet) (data : Bytes) :
    (p.filled data).buffer.length = max p.buffer.length (data.length + 4) := by
  have hroom := makeRoom_length p.buffer data.length
  simp only [filled, store, packetHeaderLength, List.length_append, List.length_take, List.length_drop]
  omega

/-- What the packet held beyond the frame stays behind the payload. -/
theorem filled_payload (p : Packet) (data : Bytes) :
    (p.filled data).payload = data ++ p.buffer.drop (4 + data.length) := by
  have hheader : 4 ≤ (makeRoom p.buffer data.length).length := by
    rw [makeRoom_length]
    omega
  exact (store_drop hheader).trans (congrArg (data ++ ·) (makeRoom_drop _ _))

variable {σ : Type} [Receiver σ] {maxReceiveSize : Nat}

/-- A receive that succeeds takes a frame, and would fill any other packet with it. -/
theorem receive_success {p p' : Packet} {w w' : σ} (h : receive maxReceiveSize p w = some (.success, p', w')) :
    ∃ data : Bytes, data.length < 2 ^ 32 ∧ pending w = frame data ++ pending w' ∧
      ∀ q : Packet, receive maxReceiveSize q w = some (.success, q.filled data, w') := by
  rw [receive, Socket.andThen] at h
  cases hall : receiveAll 4 w with
  | none => simp [hall] at h
  | some r =>
    obtain ⟨status, b, w₁⟩ := r
    simp only [hall] at h
    by_cases hstatus : status = .success
    · subst hstatus
      simp only [ne_eq, not_true_eq_false, if_false] at h
      obtain ⟨t, hpending, hb, hlength, -⟩ := takes_receiveAll 4 w .success b w₁ hall
      have hlength : b.length = 4 := by rw [hb, hlength rfl]
      by_cases hmax : maxReceiveSize ≠ 0 ∧ maxReceiveSize < ofBe b
      · rw [if_pos hmax] at h
        cases h
      · rw [if_neg hmax] at h
        obtain ⟨⟨status, data, w₂⟩, hrest, hr⟩ := Option.map_eq_some_iff.mp h
        cases hr
        obtain ⟨t', hpending', hdata, hlength', -⟩ := takes_receiveRest (ofBe b) w₁ .success data w₂ hrest
        have hlength' : data.length = ofBe b := by rw [hdata, hlength' rfl]
        have hbound : data.length < 2 ^ 32 := by
          have hlt := ofBe_lt b
          rw [hlength] at hlt
          omega
        refine ⟨data, hbound, ?_, fun q => ?_⟩
        · rw [hpending, hpending', frame, hlength', be_ofBe_of_length hlength, hb, hdata, List.append_assoc]
        · rw [receive, Socket.andThen, hall]
          simp only [ne_eq, not_true_eq_false, if_false]
          rw [if_neg hmax, hrest, filled, hlength', Option.map_some]
    · rw [if_pos hstatus] at h
      cases h
      exact absurd rfl hstatus

theorem size_filled (p : Packet) (data : Bytes) :
    (p.filled data).size = data.length ↔ p.buffer.length ≤ data.length + 4 := by
  rw [size, filled_length, packetHeaderLength]
  by_cases h : max p.buffer.length (data.length + 4) ≤ 4
  · rw [if_pos h]
    omega
  · rw [if_neg h]
    omega

theorem payload_filled {p : Packet} {data : Bytes} (h : p.buffer.length ≤ data.length + 4) :
    (p.filled data).payload = data := by
  rw [filled_payload, List.drop_of_length_le (by omega), List.append_nil]

/-- Behind the header both have the payload and nothing else; then only the cursor counts. -/
theorem filled_extractsAs {p : Packet} {data : Bytes} (h : p.buffer.length ≤ data.length + 4) :
    ExtractsAs (p.filled data) (fresh.filled data) ↔ p.readIndex = 4 := by
  have hlength : (p.filled data).buffer.length = data.length + 4 := by
    rw [filled_length]
    omega
  have hfresh : (fresh.filled data).buffer.length = data.length + 4 := by
    rw [filled_length]
    exact max_eq_right (Nat.le_add_left _ _)
  have hcursor : (p.filled data).readIndex = p.readIndex := rfl
  have hcursor' : (fresh.filled data).readIndex = 4 := rfl
  constructor
  · intro hsame
    rcases Nat.lt_trichotomy p.readIndex 4 with hlt | heq | hgt
    · -- one more byte than the payload has, from inside the header
      refine absurd hsame (not_extractsAs (n := data.length + 1) ?_ ?_)
      · rw [hlength, hcursor]
        omega
      · rw [hfresh, hcursor']
        omega
    · exact heq
    · -- the payload is there, but not behind this cursor
      have hdiffer : ¬ ExtractsAs (fresh.filled data) (p.filled data) := by
        refine not_extractsAs (n := data.length) ?_ ?_
        · rw [hfresh, hcursor']
          omega
        · rw [hlength, hcursor]
          omega
      exact absurd (fun hash es => (hsame hash es).symm) hdiffer
  · intro hfour
    refine Twin.extractsAs ⟨hcursor.trans hfour, hlength.trans hfresh.symm, ?_⟩
    have hp : (p.filled data).unread = (p.filled data).payload := by
      rw [unread, hcursor, hfour]
      rfl
    have hfit : fresh.buffer.length ≤ data.length + 4 := Nat.le_add_left _ _
    rw [hp, payload_filled h]
    exact (payload_filled hfit).symm

end Packet

open Packet

variable {σ : Type} [Receiver σ]

/-- A packet in any state, and a frame received into it: it compares as a new one that
    received the frame exactly when it held no more bytes than the frame has and its
    cursor was at the header's end. -/
theorem received_afresh {maxReceiveSize : Nat} {p p' : Packet} {w w' : σ} {data rest : Bytes}
    (hdata : data.length < 2 ^ 32) (hw : pending w = frame data ++ rest)
    (h : p.receive maxReceiveSize w = some (.success, p', w')) :
    ∃ q, fresh.receive maxReceiveSize w = some (.success, q, w') ∧
      ((p'.size = data.length ∧ p'.payload = data ∧ ExtractsAs p' q) ↔
        p.buffer.length ≤ data.length + packetHeaderLength ∧ p.readIndex = packetHeaderLength) := by
  obtain ⟨got, hgot, hpending, hany⟩ := receive_success h
  have hsame : got = data := by
    rw [hw] at hpending
    obtain ⟨hheader, hbody⟩ := List.append_inj (by simpa [frame] using hpending) (by simp [be_length])
    have hlength : data.length = got.length := by
      have hread := congrArg ofBe hheader
      rwa [ofBe_be (by simpa using hdata), ofBe_be (by simpa using hgot)] at hread
    exact (List.append_inj hbody hlength).1.symm
  subst hsame
  have hp : p' = p.filled got := by
    have hfilled := hany p
    rw [h] at hfilled
    cases hfilled
    rfl
  subst hp
  refine ⟨fresh.filled got, hany fresh, ?_⟩
  rw [size_filled]
  constructor
  · intro hgiven
    obtain ⟨hfits, -, hextracts⟩ := hgiven
    exact ⟨hfits, (filled_extractsAs hfits).mp hextracts⟩
  · intro hgiven
    obtain ⟨hfits, hcursor⟩ := hgiven
    exact ⟨hfits, payload_filled hfits, (filled_extractsAs hfits).mpr hcursor⟩

/-- A read that brings all the bytes at once. -/
theorem receiveAll_at_once {n : Nat} {w w' : σ} {b : Bytes} (hn : n ≠ 0) (hb : b.length = n)
    (h : receiveRaw n w = some (.success, b, w')) : receiveAll n w = some (.success, b, w') := by
  rw [receiveAll, receiveAllFrom, dif_neg hn]
  split
  · rename_i hnone
    rw [h] at hnone
    cases hnone
  · rename_i hsome
    rw [h] at hsome
    cases hsome
    have hrest : receiveAllFrom n 0 w' = some (.success, [], w') := by rw [receiveAllFrom, dif_pos rfl]
    simp [hb, hrest, prepend]

/-- A connection on which this stream has arrived. -/
def arrived (stream : Bytes) : FifoReader := ⟨⟨true, stream, []⟩, by simp⟩

theorem receive_hi (p : Packet) :
    p.receive 0 (arrived [0, 0, 0, 2, 104, 105]) = some (.success, p.filled (bytes "hi"), arrived []) := by
  have hheader : receiveAll 4 (arrived [0, 0, 0, 2, 104, 105]) = some (.success, [0, 0, 0, 2], arrived [104, 105]) :=
    receiveAll_at_once (by decide) rfl rfl
  have hbody : receiveAll 2 (arrived [104, 105]) = some (.success, bytes "hi", arrived []) :=
    receiveAll_at_once (by decide) rfl rfl
  rw [receive, Socket.andThen, hheader]
  have hlength : ofBe [0, 0, 0, 2] = 2 := by decide
  simp [hlength, receiveRest_done hbody, filled]
  rfl

/-- Two bytes behind a header that was written before, where one was. -/
theorem received_afresh_sample :
    ∃ q, fresh.receive 0 (arrived [0, 0, 0, 2, 104, 105]) = some (.success, q, arrived []) ∧
      ExtractsAs (filled ⟨[0, 0, 0, 1, 33], 4, []⟩ (bytes "hi")) q := by
  have harrived : pending (arrived [0, 0, 0, 2, 104, 105]) = frame (bytes "hi") ++ [] := rfl
  obtain ⟨q, hq, hiff⟩ := received_afresh (by decide) harrived (receive_hi ⟨[0, 0, 0, 1, 33], 4, []⟩)
  exact ⟨q, hq, (hiff.mpr ⟨by decide, rfl⟩).2.2⟩

/-- "hi" received where "hello" was: five bytes. -/
theorem received_afresh_not :
    ¬ ∀ (p p' : Packet) (w w' : FifoReader) (data rest : Bytes), pending w = frame data ++ rest →
      p.receive 0 w = some (.success, p', w') →
        p'.size = data.length ∧ p'.payload = data ∧
          ∀ q, fresh.receive 0 w = some (.success, q, w') → ExtractsAs p' q := by
  intro h
  have hsize := (h (fresh.filled (bytes "hello")) _ _ _ (bytes "hi") [] rfl (receive_hi _)).1
  have hlength : ((fresh.filled (bytes "hello")).filled (bytes "hi")).size = 5 := by decide
  rw [hlength] at hsize
  exact absurd hsize (by decide)

end Frnetlib
