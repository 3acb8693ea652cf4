/-
  Frnetlib.Base.BigEndian — fixed-width numbers in network byte order.

  `be w n` is the `w` bytes of `n` with the most significant first, `ofBe` the number
  such bytes denote. The two are inverse on numbers of `w` bytes (`ofBe_be`) and on
  byte strings of length `w` (`be_ofBe`).
-/

import Frnetlib.Base.Numeral

namespace Frnetlib.Base

def be : Nat → Nat → Bytes
  | 0, _ => []
  | w + 1, n => UInt8.ofNat (n / 256 ^ w) :: be w n

def ofBe : Bytes → Nat
  | [] => 0
  | b :: s => b.toNat * 256 ^ s.length + ofBe s

@[simp] theorem be_length (w n : Nat) : (be w n).length = w := by
  induction w with
  | zero => rfl
  | succ w ih => simp [be, ih]

theorem ofBe_lt (s : Bytes) : ofBe s < 256 ^ s.length := by
  induction s with
  | nil => simp [ofBe]
  | cons b s ih =>
    have hb : b.toNat < 256 := b.toNat_lt
    calc ofBe (b :: s) < b.toNat * 256 ^ s.length + 256 ^ s.length := by simp only [ofBe]; omega
      _ = (b.toNat + 1) * 256 ^ s.length := by rw [Nat.add_mul, Nat.one_mul]
      _ ≤ 256 * 256 ^ s.length := Nat.mul_le_mul_right _ hb
      _ = 256 ^ (b :: s).length := by rw [List.length_cons, Nat.pow_succ, Nat.mul_comm]

/-- Only the residue matters: what lies above the `w` bytes is cut off. -/
theorem be_mod (w m n : Nat) (h : w ≤ m) : be w (n % 256 ^ m) = be w n := by
  induction w with
  | zero => rfl
  | succ w ih =>
    have hd : n % 256 ^ m / 256 ^ w % 256 = n / 256 ^ w % 256 := by
      obtain ⟨k, rfl⟩ := Nat.exists_eq_add_of_le h
      rw [show w + 1 + k = w + (k + 1) by omega, Nat.pow_add, Nat.mod_mul_right_div_self, Nat.pow_succ,
        Nat.mod_mul_left_mod]
    have hb : UInt8.ofNat (n % 256 ^ m / 256 ^ w) = UInt8.ofNat (n / 256 ^ w) := by
      apply UInt8.toNat_inj.mp
      simpa [UInt8.toNat_ofNat'] using hd
    rw [be, be, hb, ih (by omega)]

/-! The low bytes of a number, by way of a fixed-width one. -/

theorem be_uint16 (n : Nat) : be 2 (UInt16.ofNat n).toNat = be 2 n := by
  rw [UInt16.toNat_ofNat']
  exact be_mod 2 2 n (Nat.le_refl _)

theorem be_uint32 (n : Nat) : be 4 (UInt32.ofNat n).toNat = be 4 n := by
  rw [UInt32.toNat_ofNat']
  exact be_mod 4 4 n (Nat.le_refl _)

theorem be_uint64 (n : Nat) : be 8 (UInt64.ofNat n).toNat = be 8 n := by
  rw [UInt64.toNat_ofNat']
  exact be_mod 8 8 n (Nat.le_refl _)

theorem ofBe_be {w n : Nat} (h : n < 256 ^ w) : ofBe (be w n) = n := by
  induction w generalizing n with
  | zero => simp only [be, ofBe]; omega
  | succ w ih =>
    have hw : 0 < 256 ^ w := Nat.pow_pos (by decide)
    have hq : n / 256 ^ w < 256 := Nat.div_lt_of_lt_mul (by rwa [Nat.pow_succ] at h)
    have hr := ih (Nat.mod_lt n hw)
    rw [be_mod w w n (Nat.le_refl _)] at hr
    rw [be, ofBe, be_length, hr, UInt8.toNat_ofNat', Nat.mod_eq_of_lt hq, Nat.mul_comm]
    exact Nat.div_add_mod n (256 ^ w)

theorem be_injective {w m n : Nat} (hm : m < 256 ^ w) (hn : n < 256 ^ w) (h : be w m = be w n) : m = n := by
  rw [← ofBe_be hm, h, ofBe_be hn]

theorem be_ofBe (s : Bytes) : be s.length (ofBe s) = s := by
  induction s with
  | nil => rfl
  | cons b s ih =>
    have hs := ofBe_lt s
    have hp : 0 < 256 ^ s.length := Nat.pow_pos (by decide)
    have hq : ofBe (b :: s) / 256 ^ s.length = b.toNat := by
      rw [ofBe, Nat.mul_comm, Nat.mul_add_div hp, Nat.div_eq_of_lt hs, Nat.add_zero]
    have hr : ofBe (b :: s) % 256 ^ s.length = ofBe s := by
      rw [ofBe, Nat.mul_comm, Nat.mul_add_mod, Nat.mod_eq_of_lt hs]
    rw [List.length_cons, be, hq, ← be_mod s.length s.length _ (Nat.le_refl _), hr, ih, UInt8.ofNat_toNat]

theorem be_ofBe_of_length {s : Bytes} {w : Nat} (h : s.length = w) : be w (ofBe s) = s := h ▸ be_ofBe s

end Frnetlib.Base
