/-
  Frnetlib.Packet.Calls — the cursor of a packet over any run of its public operations.

  `Call` are the operations, `step` what one does to the packet, also when an extraction
  throws half-way; a call that has not returned, or a buffer beyond what a `std::string`
  can hold, ends the run. `CursorValid` is what every bounds check of the class relies
  on. Every operation but one keeps it, whatever its arguments (`step_valid`): replacing
  the buffer does not look at the cursor, so there it takes a string that reaches the
  cursor. A run keeps the cursor valid exactly when all its `set_buffer`s are so
  (`cursor_invariant`).
-/

import Frnetlib.Packet.Framing
import Frnetlib.Packet.Wire

namespace Frnetlib

open Base Socket

namespace Packet

/-! ## The operations -/

def setBuffer (data : Bytes) (p : Packet) : Packet := { p with buffer := data }

def clear (p : Packet) : Packet :=
  { p with buffer := List.replicate packetHeaderLength 0, readIndex := packetHeaderLength }

def setCursor (pos : Nat) (p : Packet) : Packet :=
  let readIndex := (packetHeaderLength + pos) % 2 ^ 64
  { p with readIndex := if p.buffer.length < readIndex then p.buffer.length else readIndex }

def getCursor (p : Packet) : Nat := usub p.readIndex packetHeaderLength

/-- In `ssize_t`, and back. -/
def seekCursor (pos : Int) (p : Packet) : Packet :=
  let newOffset := (p.readIndex + pos : Int).bmod (2 ^ 64)
  let newOffset := if newOffset < packetHeaderLength then (packetHeaderLength : Int) else newOffset
  let size := (p.buffer.length : Int).bmod (2 ^ 64)
  let newOffset := if size < newOffset then size else newOffset
  { p with readIndex := (newOffset % 2 ^ 64).toNat }

/-- The longest `std::string` is shorter. -/
def maxSize : Nat := 2 ^ 63

inductive Call (σ : Type) where
  | pack (t : Ty) (v : Val t)
  | addRange (t : Ty) (xs : List (Val t))
  | unpack (hash : Hashing) (t : Ty) (dst : Val t)
  | addRaw (data : Bytes)
  | extractRaw (n : Nat)
  | setBuffer (data : Bytes)
  | clear
  | setCursor (pos : Nat)
  | seekCursor (pos : Int)
  /-- `send` writes the length into the header, whatever becomes of it on the socket. -/
  | send
  /-- From a socket in any state. -/
  | receive (maxReceiveSize : Nat) (w : σ)

variable {σ : Type} [Receiver σ]

/-- The packet after the call, `none` if it has not returned. -/
def effect : Call σ → Packet → Option Packet
  | .pack t v, p => some (p.pack t v)
  | .addRange t xs, p => some (p.addRange t xs)
  | .unpack hash t dst, p => some (View.after (unpack hash t dst) p)
  | .addRaw data, p => some (p.addRaw data)
  | .extractRaw n, p => some (View.after (Packet.extractRaw n) p)
  | .setBuffer data, p => some (p.setBuffer data)
  | .clear, p => some p.clear
  | .setCursor pos, p => some (p.setCursor pos)
  | .seekCursor pos, p => some (p.seekCursor pos)
  | .send, p => some p.stampHeader
  | .receive maxReceiveSize w, p => (p.receive maxReceiveSize w).map fun r => r.2.1

def step (c : Call σ) (p : Packet) : Option Packet :=
  (effect c p).filter fun p' => p'.buffer.length < maxSize

/-- A numeric argument is below 2^62. -/
def Call.Small : Call σ → Prop
  | .extractRaw n => n < 2 ^ 62
  | .setCursor pos => pos < 2 ^ 62
  | .seekCursor pos => -2 ^ 62 < pos ∧ pos < 2 ^ 62
  | _ => True

/-- The calls one after the other, as long as they return. -/
def runCalls (cs : List (Call σ)) (p : Packet) : Option Packet := cs.foldlM (fun p c => step c p) p

/-! ## The cursor -/

structure CursorValid (p : Packet) : Prop where
  header : packetHeaderLength ≤ p.readIndex
  inside : p.readIndex ≤ p.buffer.length

theorem CursorValid.moved {p p' : Packet} (h : p.CursorValid) (hm : Moved p p') : p'.CursorValid :=
  ⟨Nat.le_trans h.header hm.le, hm.buffer ▸ hm.inside h.inside⟩

theorem CursorValid.longer {p : Packet} (h : p.CursorValid) {buffer : Bytes} (hb : p.buffer.length ≤ buffer.length) :
    ({ p with buffer := buffer } : Packet).CursorValid := ⟨h.header, Nat.le_trans h.inside hb⟩

theorem CursorValid.addRaw {p : Packet} (h : p.CursorValid) (data : Bytes) : (p.addRaw data).CursorValid :=
  h.longer (by rw [List.length_append]; exact Nat.le_add_right _ _)

theorem extractRaw_moves (n : Nat) : view.Moves (Packet.extractRaw n) := by
  refine View.Moves.bind ?_ fun _ => ?_
  · intro p
    unfold View.after assertBytesRemaining
    by_cases h : (p.readIndex + n) % 2 ^ 64 > p.buffer.length
    · rw [if_pos h]
      exact Moved.refl p
    · rw [if_neg h]
      exact Moved.refl p
  · intro p
    unfold View.after copyOut
    by_cases h : p.readIndex + n ≤ p.buffer.length
    · rw [if_pos h]
      exact moved_advance h
    · rw [if_neg h]
      exact Moved.refl p

theorem number_moves {α : Type} (w : Nat) (f : Bytes → α) :
    view.Moves (do let b ← Packet.extractRaw w; pure (f b)) :=
  (extractRaw_moves w).bind fun _ => View.Moves.pure _

theorem toBool_moves (b : Bytes) : view.Moves (toBool b) := by
  unfold toBool
  split
  · exact View.Moves.pure _
  · exact View.Moves.pure _
  · exact View.Moves.throw _

/-- An extraction moves the cursor on, inside the buffer, whether or not it throws. -/
theorem unpack_moves (hash : Hashing) (t : Ty) (dst : Val t) : view.Moves (unpack hash t dst) := by
  induction t with
  | bool => exact (extractRaw_moves 1).bind toBool_moves
  | pair a b iha ihb => exact (iha _).bind fun _ => (ihb _).bind fun _ => View.Moves.pure _
  | vec t ih => exact (number_moves 4 _).bind fun _ => View.Moves.mapM ih _
  | map k v ihk ihv =>
    refine (number_moves 4 _).bind fun _ => View.Moves.iterate (fun m => ?_) _ _
    exact (ihk _).bind fun _ => (ihv _).bind fun _ => View.Moves.pure _
  | umap k v ihk ihv =>
    refine (number_moves 4 _).bind fun _ => View.Moves.iterate (fun m => ?_) _ _
    exact (ihk _).bind fun _ => (ihv _).bind fun _ => View.Moves.pure _
  | str => exact (number_moves 4 _).bind fun _ => extractRaw_moves _
  | _ => exact number_moves _ _

/-- Reading a payload in never shortens the buffer. -/
theorem store_length {buffer : Bytes} (h : packetHeaderLength ≤ buffer.length) (packetLength : Nat) (b : Bytes) :
    buffer.length ≤ (store (makeRoom buffer packetLength) b).length := by
  have hroom : buffer.length ≤ (makeRoom buffer packetLength).length := by
    unfold makeRoom
    split
    · rw [List.length_append]
      exact Nat.le_add_right _ _
    · exact Nat.le_refl _
  simp only [store, List.length_append, List.length_take, List.length_drop]
  omega

theorem receive_valid {p p' : Packet} {maxReceiveSize : Nat} {w w' : σ} {st : Status} (h : p.CursorValid)
    (hr : p.receive maxReceiveSize w = some (st, p', w')) : p'.CursorValid := by
  unfold receive andThen at hr
  split at hr
  · cases hr
  · split at hr
    · cases hr
      exact h
    · simp only at hr
      split at hr
      · cases hr
        exact h
      · obtain ⟨_, _, he⟩ := Option.map_eq_some_iff.mp hr
        cases he
        exact h.longer (store_length (Nat.le_trans h.header h.inside) _ _)

theorem setCursor_valid {p : Packet} (h : p.CursorValid) {pos : Nat} (hpos : pos < 2 ^ 62) :
    (p.setCursor pos).CursorValid := by
  have hmod : (packetHeaderLength + pos) % 2 ^ 64 = packetHeaderLength + pos :=
    Nat.mod_eq_of_lt (by simp only [packetHeaderLength]; omega)
  have hheader := Nat.le_trans h.header h.inside
  unfold setCursor
  simp only [hmod]
  by_cases hlt : p.buffer.length < packetHeaderLength + pos
  · rw [if_pos hlt]
    exact ⟨hheader, Nat.le_refl _⟩
  · rw [if_neg hlt]
    exact ⟨Nat.le_add_right _ _, Nat.le_of_not_lt hlt⟩

theorem seekCursor_valid {p : Packet} (h : p.CursorValid) (hsize : p.buffer.length < maxSize) (pos : Int) :
    (p.seekCursor pos).CursorValid := by
  have hheader := Nat.le_trans h.header h.inside
  have hbmod : (p.buffer.length : Int).bmod (2 ^ 64) = p.buffer.length := by
    simp only [maxSize] at hsize
    apply Int.bmod_eq_of_le <;> omega
  unfold seekCursor
  simp only [hbmod]
  generalize (p.readIndex + pos : Int).bmod (2 ^ 64) = newOffset
  have hfour : packetHeaderLength = 4 := rfl
  simp only [maxSize] at hsize
  -- the offset is below the header, inside, or beyond the end
  obtain ⟨k, hk, hle, heq⟩ : ∃ k : Nat, packetHeaderLength ≤ k ∧ k ≤ p.buffer.length ∧
      (if (p.buffer.length : Int) < (if newOffset < packetHeaderLength then (packetHeaderLength : Int) else newOffset) then
        (p.buffer.length : Int) else if newOffset < packetHeaderLength then (packetHeaderLength : Int) else newOffset) =
      k := by
    by_cases hlow : newOffset < packetHeaderLength
    · rw [if_pos hlow, if_neg (by omega)]
      exact ⟨packetHeaderLength, Nat.le_refl _, hheader, rfl⟩
    · rw [if_neg hlow]
      by_cases hhigh : (p.buffer.length : Int) < newOffset
      · rw [if_pos hhigh]
        exact ⟨_, hheader, Nat.le_refl _, rfl⟩
      · rw [if_neg hhigh]
        exact ⟨newOffset.toNat, by omega, by omega, by omega⟩
  rw [heq]
  have hback : ((k : Int) % 2 ^ 64).toNat = k := by omega
  rw [hback]
  exact ⟨hk, hle⟩

theorem clear_valid (p : Packet) : p.clear.CursorValid := ⟨Nat.le_refl _, by simp [clear]⟩

theorem stampHeader_valid {p : Packet} (h : p.CursorValid) : p.stampHeader.CursorValid := by
  refine h.longer ?_
  rw [List.length_append, be_length, List.length_drop]
  simp only [packetHeaderLength]
  omega

/-- What every operation does to a valid cursor: `set_buffer` keeps it valid if the new
    buffer reaches it, the others in any case. -/
theorem effect_valid {c : Call σ} {p p' : Packet} (hc : c.Small) (h : p.CursorValid) (hsize : p.buffer.length < maxSize)
    (he : effect c p = some p') : p'.CursorValid ↔ ∀ data, c = .setBuffer data → p.readIndex ≤ data.length := by
  have hother : p'.CursorValid → (∀ data, c ≠ .setBuffer data) →
      (p'.CursorValid ↔ ∀ data, c = .setBuffer data → p.readIndex ≤ data.length) :=
    fun hp' hne => ⟨fun _ data hdata => absurd hdata (hne data), fun _ => hp'⟩
  cases c with
  | setBuffer data =>
    cases he
    constructor
    · intro hp' data' hdata'
      cases hdata'
      exact hp'.inside
    · intro hfits
      exact ⟨h.header, hfits data rfl⟩
  | pack t v =>
    cases he
    refine hother ?_ (by simp)
    rw [pack_eq]
    exact h.addRaw _
  | addRange t xs =>
    cases he
    refine hother ?_ (by simp)
    rw [addRange_eq]
    exact h.addRaw _
  | unpack hash t dst =>
    cases he
    exact hother (h.moved (unpack_moves hash t dst p)) (by simp)
  | addRaw data =>
    cases he
    exact hother (h.addRaw data) (by simp)
  | extractRaw n =>
    cases he
    exact hother (h.moved (extractRaw_moves n p)) (by simp)
  | clear =>
    cases he
    exact hother p.clear_valid (by simp)
  | setCursor pos =>
    cases he
    exact hother (setCursor_valid h hc) (by simp)
  | seekCursor pos =>
    cases he
    exact hother (seekCursor_valid h hsize pos) (by simp)
  | send =>
    cases he
    exact hother (stampHeader_valid h) (by simp)
  | receive maxReceiveSize w =>
    obtain ⟨⟨st, q, w'⟩, hr, hq⟩ := Option.map_eq_some_iff.mp he
    cases hq
    exact hother (receive_valid h hr) (by simp)

/-! ## Runs -/

theorem step_some {c : Call σ} {p p' : Packet} (h : step c p = some p') :
    effect c p = some p' ∧ p'.buffer.length < maxSize := by
  obtain ⟨he, hlen⟩ := Option.filter_eq_some_iff.mp h
  exact ⟨he, of_decide_eq_true hlen⟩

theorem runCalls_snoc (cs : List (Call σ)) (c : Call σ) (p : Packet) :
    runCalls (cs ++ [c]) p = (runCalls cs p).bind (step c) := by
  rw [runCalls, List.foldlM_append]
  cases hrun : runCalls cs p with
  | none => rw [runCalls] at hrun; rw [hrun]; rfl
  | some q =>
    rw [runCalls] at hrun
    rw [hrun]
    simp

theorem runCalls_size {cs : List (Call σ)} {p : Packet} (h : runCalls cs fresh = some p) : p.buffer.length < maxSize := by
  induction cs using List.reverseRecOn with
  | nil =>
    cases h
    decide
  | append_singleton cs c _ =>
    rw [runCalls_snoc] at h
    obtain ⟨q, _, hstep⟩ := Option.bind_eq_some_iff.mp h
    exact (step_some hstep).2

/-- All the `set_buffer`s of a run give strings that reach the cursor. -/
def Reaching (cs : List (Call σ)) : Prop :=
  ∀ ds p data, ds ++ [.setBuffer data] <+: cs → runCalls ds fresh = some p → p.readIndex ≤ data.length

theorem runCalls_valid {cs : List (Call σ)} (hsmall : ∀ c ∈ cs, c.Small) (hreach : Reaching cs) {p : Packet}
    (h : runCalls cs fresh = some p) : p.CursorValid := by
  induction cs using List.reverseRecOn generalizing p with
  | nil =>
    cases h
    exact ⟨Nat.le_refl _, by decide⟩
  | append_singleton cs c ih =>
    rw [runCalls_snoc] at h
    obtain ⟨q, hq, hstep⟩ := Option.bind_eq_some_iff.mp h
    have hvalid : q.CursorValid := by
      refine ih (fun d hd => hsmall d (List.mem_append_left _ hd)) ?_ hq
      exact fun ds r data hds hr => hreach ds r data (hds.trans (List.prefix_append _ _)) hr
    refine (effect_valid (hsmall c (by simp)) hvalid (runCalls_size hq) (step_some hstep).1).mpr ?_
    intro data hdata
    subst hdata
    exact hreach cs q data List.prefix_rfl hq

end Packet

/-- In every run of the public operations on a fresh packet: the cursor is valid after
    every step, so that neither `get_bytes_remaining` nor `get_cursor` underflows and
    `send` has a header to write to, exactly when every `set_buffer` of the run gives a
    string that reaches the cursor. -/
theorem cursor_invariant {σ : Type} [Receiver σ] (cs : List (Packet.Call σ)) (hsmall : ∀ c ∈ cs, c.Small) :
    (∀ ds p, ds <+: cs → Packet.runCalls ds Packet.fresh = some p →
      p.CursorValid ∧ p.getBytesRemaining + p.readIndex = p.buffer.length ∧
        p.getCursor + packetHeaderLength = p.readIndex ∧ packetHeaderLength ≤ p.buffer.length) ↔
    ∀ ds p data, ds ++ [.setBuffer data] <+: cs → Packet.runCalls ds Packet.fresh = some p →
      p.readIndex ≤ data.length := by
  constructor
  · intro hvalid ds p data hds hp
    obtain ⟨hcursor, _⟩ := hvalid ds p ((List.prefix_append _ _).trans hds) hp
    have hsize := Packet.runCalls_size hp
    by_cases hlong : data.length < Packet.maxSize
    · have hnext : Packet.runCalls (ds ++ [.setBuffer data]) Packet.fresh = some (p.setBuffer data) := by
        rw [Packet.runCalls_snoc, hp, Option.bind_some, Packet.step, Option.filter_eq_some_iff]
        exact ⟨rfl, decide_eq_true hlong⟩
      exact (hvalid _ _ hds hnext).1.inside
    · have := hcursor.inside
      omega
  · intro hreach ds p hds hp
    have hcursor : p.CursorValid := by
      refine Packet.runCalls_valid (fun c hc => hsmall c (hds.subset hc)) ?_ hp
      exact fun es q data hes hq => hreach es q data (hes.trans hds) hq
    refine ⟨hcursor, ?_, ?_, Nat.le_trans hcursor.header hcursor.inside⟩
    · rw [Packet.getBytesRemaining, usub_of_le hcursor.inside]
      exact Nat.sub_add_cancel hcursor.inside
    · rw [Packet.getCursor, usub_of_le hcursor.header]
      exact Nat.sub_add_cancel hcursor.header

/-- A run that replaces the buffer by a longer one. -/
def sampleCalls : List (Packet.Call TcpReader) :=
  [.pack .u16 258, .setBuffer (List.replicate 6 7), .seekCursor (-9), .unpack .front .u32 0]

theorem cursor_invariant_sample :
    ∃ p, Packet.runCalls sampleCalls Packet.fresh = some p ∧ p.CursorValid ∧ p.getBytesRemaining = 2 := by
  have hsmall : ∀ c ∈ sampleCalls, c.Small := by
    intro c hc
    simp only [sampleCalls, List.mem_cons, List.not_mem_nil, or_false] at hc
    rcases hc with rfl | rfl | rfl | rfl
    · exact trivial
    · exact trivial
    · exact ⟨by decide, by decide⟩
    · exact trivial
  have hreach : ∀ ds q data, ds ++ [.setBuffer data] <+: sampleCalls → Packet.runCalls ds Packet.fresh = some q →
      q.readIndex ≤ data.length := by
    intro ds q data hds hq
    rcases ds with _ | ⟨a, _ | ⟨b, _ | ⟨c, _ | ⟨d, ds⟩⟩⟩⟩
    all_goals simp [sampleCalls] at hds
    obtain ⟨rfl, rfl⟩ := hds
    obtain rfl : q = ⟨Packet.fresh.buffer ++ [1, 2], 4, []⟩ := by cases hq; rfl
    decide
  have hrun : Packet.runCalls sampleCalls Packet.fresh = some ⟨List.replicate 6 7, 4, []⟩ := by decide +kernel
  exact ⟨_, hrun, ((cursor_invariant sampleCalls hsmall).mpr hreach _ _ List.prefix_rfl hrun).1, by decide⟩

/-- A string shorter than the header is taken for a buffer: the bytes remaining underflow. -/
theorem cursor_invariant_not :
    ∃ p, Packet.runCalls [(.setBuffer (bytes "bob") : Packet.Call TcpReader)] Packet.fresh = some p ∧
      ¬ p.CursorValid ∧ p.getBytesRemaining = 2 ^ 64 - 1 := by
  refine ⟨⟨bytes "bob", 4, []⟩, by decide +kernel, ?_, by decide⟩
  intro h
  exact absurd h.inside (by decide)

end Frnetlib
