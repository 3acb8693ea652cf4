/-
  Frnetlib.Packet.CursorArith — the cursor's sums against unbounded integers (`Packet.h`).

  `assert_bytes_remaining`, `set_cursor` and `seek_cursor` each add their argument to an
  index before they compare, the first two in `size_t`, the last in `ssize_t`. What they
  are for is stated here without a limit: a request for more than remains throws
  (`assertBytesRemaining_iff`), and so no read is from beyond the buffer
  (`extractRaw_inside`); an absolute move stops at the end (`setCursor_iff`), a relative
  one at the position nearest to where it goes (`Nearest`, `seekCursor_iff`). Each holds
  exactly when its own sum does not wrap (`cursor_arithmetic`).
-/

import Frnetlib.Packet.Reuse

namespace Frnetlib

open Base

namespace Packet

/-- The buffer holds a header, the cursor is behind it, and the buffer is of a length that
    no sum with an index wraps. -/
structure Bounded (p : Packet) : Prop where
  valid : p.CursorValid
  small : p.buffer.length < 2 ^ 62

variable {p : Packet}

theorem Bounded.cursor (h : p.Bounded) : p.getCursor = p.readIndex - 4 := usub_of_le h.valid.header

theorem Bounded.remaining (h : p.Bounded) : p.getBytesRemaining = p.buffer.length - p.readIndex :=
  usub_of_le h.valid.inside

theorem Bounded.header (h : p.Bounded) : 4 ≤ p.readIndex := h.valid.header

theorem Bounded.size (h : p.Bounded) : p.size = p.buffer.length - 4 := by
  have hheader := h.header
  have hinside := h.valid.inside
  rw [Packet.size, packetHeaderLength]
  by_cases hempty : p.buffer.length ≤ 4
  · rw [if_pos hempty]
    omega
  · rw [if_neg hempty]

/-! ## The check before a read -/

/-- When the sum wraps, the check passes: what is left of it is below the cursor. -/
theorem assertBytesRemaining_iff (h : p.Bounded) {n : Nat} (hn : n < 2 ^ 64) :
    (assertBytesRemaining n p = .error .notEnough p ↔ p.getBytesRemaining < n) ↔ p.readIndex + n < 2 ^ 64 := by
  have hinside := h.valid.inside
  have hsmall := h.small
  have hthrows : assertBytesRemaining n p = .error .notEnough p ↔ p.buffer.length < (p.readIndex + n) % 2 ^ 64 := by
    unfold assertBytesRemaining
    by_cases hgt : (p.readIndex + n) % 2 ^ 64 > p.buffer.length
    · rw [if_pos hgt]
      exact ⟨fun _ => hgt, fun _ => rfl⟩
    · rw [if_neg hgt]
      exact ⟨fun hok => (by cases hok), fun hlt => absurd hlt hgt⟩
  rw [hthrows, h.remaining]
  by_cases hwrap : p.readIndex + n < 2 ^ 64
  · rw [Nat.mod_eq_of_lt hwrap]
    omega
  · have hmod : (p.readIndex + n) % 2 ^ 64 = p.readIndex + n - 2 ^ 64 := by omega
    rw [hmod]
    omega

theorem extractRaw_inside (h : p.Bounded) {n : Nat} (hn : n < 2 ^ 64) :
    (∀ q, extractRaw n p ≠ .error .outOfBounds q) ↔ p.readIndex + n < 2 ^ 64 := by
  have hinside := h.valid.inside
  have hsmall := h.small
  constructor
  · intro hnever
    by_contra hwrap
    have hmod : (p.readIndex + n) % 2 ^ 64 = p.readIndex + n - 2 ^ 64 := by omega
    have hpass : assertBytesRemaining n p = .ok () p := if_neg (by rw [hmod]; omega)
    have hbeyond : copyOut n p = .error .outOfBounds p := if_neg (by omega)
    exact hnever p ((View.bind_ok hpass).trans hbeyond)
  · intro hfits q
    by_cases hin : p.readIndex + n ≤ p.buffer.length
    · rw [extractRaw_ok hin]
      simp
    · have hthrow : assertBytesRemaining n p = .error .notEnough p :=
        if_pos (by rw [Nat.mod_eq_of_lt hfits]; omega)
      rw [extractRaw, View.bind_error hthrow]
      simp [Fault.notEnough]

/-! ## Moving the cursor -/

theorem setCursor_iff (h : p.Bounded) {n : Nat} (hn : n < 2 ^ 64) :
    (p.setCursor n).getCursor = min n p.size ↔ n < 2 ^ 64 - 4 := by
  have hheader := h.header
  have hinside := h.valid.inside
  have hsmall := h.small
  have hfour : packetHeaderLength = 4 := rfl
  rw [h.size]
  by_cases hwrap : n < 2 ^ 64 - 4
  · have hmod : (packetHeaderLength + n) % 2 ^ 64 = 4 + n := Nat.mod_eq_of_lt (by omega)
    have hmoved : (p.setCursor n).readIndex = min (4 + n) p.buffer.length := by
      simp only [setCursor, hmod]
      split <;> omega
    have hcursor : (p.setCursor n).getCursor = (p.setCursor n).readIndex - 4 := usub_of_le (by omega)
    rw [hcursor, hmoved]
    omega
  · -- into the header, from where `get_cursor` underflows
    have hmod : (packetHeaderLength + n) % 2 ^ 64 = 4 + n - 2 ^ 64 := by omega
    have hmoved : (p.setCursor n).readIndex = 4 + n - 2 ^ 64 := by
      simp only [setCursor, hmod]
      exact if_neg (by omega)
    have hcursor : (p.setCursor n).getCursor = 2 ^ 64 - (4 - (p.setCursor n).readIndex) :=
      usub_of_lt (by omega) (by decide)
    rw [hcursor, hmoved]
    omega

/-- `v` is the nearest to `x` of the positions up to `size`. -/
def Nearest (size : Nat) (x : Int) (v : Nat) : Prop := v ≤ size ∧ ∀ u ≤ size, (v - x : Int).natAbs ≤ (u - x : Int).natAbs

theorem nearest_iff {size v : Nat} {x : Int} : Nearest size x v ↔ (v : Int) = max 0 (min x size) := by
  constructor
  · intro h
    obtain ⟨hle, hnear⟩ := h
    rcases Int.le_total x 0 with hlow | hpos
    · have hzero := hnear 0 (Nat.zero_le _)
      omega
    · rcases Int.le_total x size with hin | hhigh
      · have hself := hnear x.toNat (by omega)
        omega
      · have hend := hnear size (Nat.le_refl _)
        omega
  · intro h
    refine ⟨by omega, fun u hu => ?_⟩
    omega

theorem Bounded.seek (h : p.Bounded) {d : Int} {offset : Int} (ho : (p.readIndex + d : Int).bmod (2 ^ 64) = offset) :
    ((p.seekCursor d).getCursor : Int) = max 0 (min (offset - 4) p.size) := by
  have hvalid := seekCursor_valid h.valid (Nat.lt_trans h.small (by decide)) d
  have hheader := h.header
  have hinside := h.valid.inside
  have hsmall := h.small
  have hcursor : (p.seekCursor d).getCursor = (p.seekCursor d).readIndex - 4 := usub_of_le hvalid.header
  have hbmod : (p.buffer.length : Int).bmod (2 ^ 64) = p.buffer.length := by
    apply Int.bmod_eq_of_le
    · omega
    · omega
  rw [hcursor, h.size]
  simp only [seekCursor, packetHeaderLength, ho, hbmod]
  split <;> split <;> omega

/-- Beyond 2^63 the sum is negative, and the cursor moves to the start. -/
theorem seekCursor_iff (h : p.Bounded) {d : Int} (hlow : -2 ^ 63 ≤ d) (hhigh : d < 2 ^ 63) :
    Nearest p.size (p.getCursor + d) (p.seekCursor d).getCursor ↔ (p.readIndex + d : Int) < 2 ^ 63 ∨ p.size = 0 := by
  have hheader := h.header
  have hinside := h.valid.inside
  have hsmall := h.small
  rw [nearest_iff, h.cursor]
  by_cases hwrap : (p.readIndex + d : Int) < 2 ^ 63
  · have ho : (p.readIndex + d : Int).bmod (2 ^ 64) = p.readIndex + d := by
      apply Int.bmod_eq_of_le
      · omega
      · omega
    rw [h.seek ho]
    omega
  · have ho : (p.readIndex + d : Int).bmod (2 ^ 64) = p.readIndex + d - 2 ^ 64 := by
      rw [← Int.sub_bmod_right]
      apply Int.bmod_eq_of_le
      · omega
      · omega
    rw [h.seek ho, h.size]
    omega

end Packet

open Packet

/-- With an argument of the machine's, each operation does what it is for exactly when the
    sum it begins with does not wrap; where there is nothing behind the header, a seek
    ends at the start in any case. -/
theorem cursor_arithmetic {p : Packet} (h : p.Bounded) (n : UInt64) (d : Int64) :
    ((assertBytesRemaining n.toNat p = .error .notEnough p ↔ p.getBytesRemaining < n.toNat) ↔
      p.readIndex + n.toNat < 2 ^ 64) ∧
    ((∀ q, extractRaw n.toNat p ≠ .error .outOfBounds q) ↔ p.readIndex + n.toNat < 2 ^ 64) ∧
    ((p.setCursor n.toNat).getCursor = min n.toNat p.size ↔ n.toNat < 2 ^ 64 - 4) ∧
    (Nearest p.size (p.getCursor + d.toInt) (p.seekCursor d.toInt).getCursor ↔
      (p.readIndex + d.toInt : Int) < 2 ^ 63 ∨ p.size = 0) :=
  ⟨assertBytesRemaining_iff h n.toNat_lt, extractRaw_inside h n.toNat_lt, setCursor_iff h n.toNat_lt,
    seekCursor_iff h d.le_toInt d.toInt_lt⟩

/-- Two bytes behind the header. -/
def twoBytes : Packet := fresh.addRaw (bytes "hi")

theorem cursor_arithmetic_sample :
    Nearest twoBytes.size (twoBytes.getCursor + 9) (twoBytes.seekCursor 9).getCursor ∧
      (twoBytes.setCursor 1).getCursor = 1 := by
  have hbounded : twoBytes.Bounded := ⟨⟨by decide, by decide⟩, by decide⟩
  obtain ⟨-, -, hset, hseek⟩ := cursor_arithmetic hbounded 1 9
  exact ⟨hseek.mpr (.inl (by decide)), hset.mpr (by decide)⟩

/-- The largest arguments: nothing is thrown though two bytes remain, the read is from
    beyond the buffer, and the cursor moves into the header or back to the start. -/
theorem cursor_arithmetic_not :
    twoBytes.Bounded ∧
    ¬ (assertBytesRemaining (2 ^ 64 - 1) twoBytes = .error .notEnough twoBytes ↔
      twoBytes.getBytesRemaining < 2 ^ 64 - 1) ∧
    extractRaw (2 ^ 64 - 1) twoBytes = .error .outOfBounds twoBytes ∧
    (twoBytes.setCursor (2 ^ 64 - 1)).getCursor ≠ min (2 ^ 64 - 1) twoBytes.size ∧
    ¬ Nearest twoBytes.size (twoBytes.getCursor + (2 ^ 63 - 1)) (twoBytes.seekCursor (2 ^ 63 - 1)).getCursor := by
  have hpass : assertBytesRemaining (2 ^ 64 - 1) twoBytes = .ok () twoBytes := if_neg (by decide)
  refine ⟨⟨⟨by decide, by decide⟩, by decide⟩, ?_, ?_, by decide, ?_⟩
  · rw [hpass]
    intro hthrows
    cases hthrows.mpr (by decide)
  · exact (View.bind_ok hpass).trans (if_neg (by decide))
  · rw [nearest_iff]
    decide

end Frnetlib
