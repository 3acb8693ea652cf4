/-
  Frnetlib.WebSocket.Base64Text — `fr::Base64::encode` beside RFC 4648.

  The indices into the table are the six-bit digits of three octets, whether a character
  is signed or not (`first_char` and the lemmas after it); so from two bytes on `encode`
  returns the standard's text, which the standard decoder reads back (`encode_rfc4648`).
-/

import Frnetlib.Base.Sextets
import Frnetlib.WebSocket.Base64

namespace Frnetlib.Base64

open Base

/-! ## The alphabet of RFC 4648 -/

def symbol (d : Nat) : UInt8 :=
  if d < 26 then UInt8.ofNat (65 + d)
  else if d < 52 then UInt8.ofNat (97 + (d - 26))
  else if d < 62 then UInt8.ofNat (48 + (d - 52))
  else if d = 62 then 43
  else 47

def value (b : UInt8) : Option Nat :=
  if 65 ≤ b ∧ b ≤ 90 then some (b.toNat - 65)
  else if 97 ≤ b ∧ b ≤ 122 then some (b.toNat - 97 + 26)
  else if 48 ≤ b ∧ b ≤ 57 then some (b.toNat - 48 + 52)
  else if b = 43 then some 62
  else if b = 47 then some 63
  else none

def rfc4648 : Sextets UInt8 where
  symbol := symbol
  value := value
  pad := 61
  value_symbol := by decide
  value_pad := by decide

theorem look_symbol {d : Nat} (h : d < 64) : look d = symbol d := by
  have key : ∀ d < 64, look d = symbol d := by decide +kernel
  exact key d h

/-! ## The indices are its digits -/

theorem first_digit (x : UInt8) : first x = x.toNat / 4 := by
  have hx := x.toNat_lt
  rw [first, Nat.and_two_pow_sub_one_eq_mod _ 6, Nat.shiftRight_eq_div_pow]
  omega

theorem secondLast_digit (x : UInt8) : secondLast x = x.toNat % 4 * 16 := by
  rw [secondLast, Nat.and_two_pow_sub_one_eq_mod _ 2, Nat.shiftLeft_eq]

/-- The upper bits of an octet. -/
theorem high_digit {mask k : Nat} (hk : k ≤ 8) (hmask : mask >>> k = 2 ^ (8 - k) - 1) (b : UInt8) :
    (b.toNat &&& mask) >>> k = b.toNat / 2 ^ k := by
  have hb : b.toNat < 2 ^ k * 2 ^ (8 - k) := by
    rw [← Nat.pow_add, Nat.add_sub_cancel' hk]
    exact b.toNat_lt
  rw [Nat.shiftRight_and_distrib, hmask, Nat.and_two_pow_sub_one_eq_mod, Nat.shiftRight_eq_div_pow,
    Nat.mod_eq_of_lt (Nat.div_lt_of_lt_mul hb)]

theorem second_digit (x y : UInt8) : second x y = x.toNat % 4 * 16 + y.toNat / 16 := by
  have hy := y.toNat_lt
  have hhigh : (y.toNat &&& 0xF0) >>> 4 = y.toNat / 16 := high_digit (by decide) rfl y
  rw [second, hhigh, ← Nat.shiftLeft_add_eq_or_of_lt (by omega), Nat.and_two_pow_sub_one_eq_mod _ 2, Nat.shiftLeft_eq]

theorem thirdLast_digit (y : UInt8) : thirdLast y = y.toNat % 16 * 4 := by
  rw [thirdLast, Nat.and_two_pow_sub_one_eq_mod _ 4, Nat.shiftLeft_eq]

theorem third_digit (y z : UInt8) : third y z = y.toNat % 16 * 4 + z.toNat / 64 := by
  have hz := z.toNat_lt
  have hhigh : (z.toNat &&& 0xC0) >>> 6 = z.toNat / 64 := high_digit (by decide) rfl z
  rw [third, hhigh, ← Nat.shiftLeft_add_eq_or_of_lt (by omega), Nat.and_two_pow_sub_one_eq_mod _ 4, Nat.shiftLeft_eq]

theorem fourth_digit (z : UInt8) : fourth z = z.toNat % 64 := Nat.and_two_pow_sub_one_eq_mod _ 6

/-! ## Signed characters -/

/-- A `char` as the `int` it is promoted to. -/
def promoted (b : UInt8) : BitVec 32 := b.toBitVec.signExtend 32

/-- The sign is masked out of every part that is taken of one. -/
theorem promoted_parts : ∀ b, ((promoted b).sshiftRight 2 &&& 0x3F#32).toNat = first b ∧
    ((promoted b &&& 0x3#32) <<< 4).toNat = secondLast b ∧
    ((promoted b &&& 0xF0#32).sshiftRight 4).toNat = (b.toNat &&& 0xF0) >>> 4 ∧
    ((promoted b &&& 0xF#32) <<< 2).toNat = thirdLast b ∧
    ((promoted b &&& 0xC0#32).sshiftRight 6).toNat = (b.toNat &&& 0xC0) >>> 6 ∧
    (promoted b &&& 0x3F#32).toNat = fourth b :=
  forall_byte (by decide +kernel)

theorem first_char (x : UInt8) : ((promoted x).sshiftRight 2 &&& 0x3F#32).toNat = first x := (promoted_parts x).1

theorem second_char (x y : UInt8) :
    ((promoted x &&& 0x3#32) <<< 4 ||| (promoted y &&& 0xF0#32).sshiftRight 4).toNat = second x y := by
  obtain ⟨-, hlast, -⟩ := promoted_parts x
  obtain ⟨-, -, hhigh, -⟩ := promoted_parts y
  rw [BitVec.toNat_or, hlast, hhigh]
  rfl

theorem third_char (y z : UInt8) :
    ((promoted y &&& 0xF#32) <<< 2 ||| (promoted z &&& 0xC0#32).sshiftRight 6).toNat = third y z := by
  obtain ⟨-, -, -, hlast, -⟩ := promoted_parts y
  obtain ⟨-, -, -, -, hhigh, -⟩ := promoted_parts z
  rw [BitVec.toNat_or, hlast, hhigh]
  rfl

theorem fourth_char (z : UInt8) : (promoted z &&& 0x3F#32).toNat = fourth z := (promoted_parts z).2.2.2.2.2

/-! ## The text -/

theorem text_rfc4648 (s : Bytes) : text s = rfc4648.encode s := by
  induction s using text.induct with
  | case1 => rfl
  | case2 x =>
    have hx := x.toNat_lt
    rw [text, Sextets.encode, look_symbol (first_lt x), look_symbol (secondLast_lt x), first_digit, secondLast_digit,
      show x.toNat / 4 = x.toNat * 16 / 64 by omega, show x.toNat % 4 * 16 = x.toNat * 16 % 64 by omega]
    rfl
  | case3 x y =>
    have hy := y.toNat_lt
    rw [text, Sextets.encode, look_symbol (first_lt x), look_symbol (second_lt x y), look_symbol (thirdLast_lt y), first_digit,
      second_digit, thirdLast_digit, show x.toNat / 4 = (x.toNat * 256 + y.toNat) * 4 / 4096 by omega,
      show x.toNat % 4 * 16 + y.toNat / 16 = (x.toNat * 256 + y.toNat) * 4 / 64 % 64 by omega,
      show y.toNat % 16 * 4 = (x.toNat * 256 + y.toNat) * 4 % 64 by omega]
    rfl
  | case4 x y z s ih =>
    have hy := y.toNat_lt
    have hz := z.toNat_lt
    rw [text, Sextets.encode, ih, look_symbol (first_lt x), look_symbol (second_lt x y), look_symbol (third_lt y z),
      look_symbol (fourth_lt z), first_digit, second_digit, third_digit, fourth_digit,
      show x.toNat / 4 = ((x.toNat * 256 + y.toNat) * 256 + z.toNat) / 262144 by omega,
      show x.toNat % 4 * 16 + y.toNat / 16 = ((x.toNat * 256 + y.toNat) * 256 + z.toNat) / 4096 % 64 by omega,
      show y.toNat % 16 * 4 + z.toNat / 64 = ((x.toNat * 256 + y.toNat) * 256 + z.toNat) / 64 % 64 by omega,
      show z.toNat % 64 = ((x.toNat * 256 + y.toNat) * 256 + z.toNat) % 64 by omega]
    rfl

/-- From two bytes on the standard's text is returned, four characters for every three
    bytes or fewer; the standard decoder reads the bytes back, and no others have it. -/
theorem encode_rfc4648 {input : Bytes} (h : 2 ≤ input.length) :
    ∃ out, encode input = some out ∧ out = rfc4648.encode input ∧ out.length = 4 * ((input.length + 2) / 3) ∧
      rfc4648.decode out = some input ∧ ∀ input', 2 ≤ input'.length → encode input' = some out → input' = input := by
  refine ⟨rfc4648.encode input, ?_, rfl, rfc4648.encode_length input, rfc4648.decode_encode input, ?_⟩
  · rw [encode_eq h, text_rfc4648]
  · intro input' h' hsame
    rw [encode_eq h', text_rfc4648] at hsame
    exact rfc4648.encode_injective (Option.some.inj hsame)

example : rfc4648.encode (bytes "foob") = bytes "Zm9vYg==" := by decide +kernel

theorem encode_rfc4648_sample :
    ∃ out, encode (bytes "foob") = some out ∧ out = rfc4648.encode (bytes "foob") ∧ out.length = 4 * ((4 + 2) / 3) ∧
      rfc4648.decode out = some (bytes "foob") ∧
      ∀ input', 2 ≤ input'.length → encode input' = some out → input' = bytes "foob" :=
  encode_rfc4648 (by decide)

end Frnetlib.Base64
