/-
  Frnetlib.Base.Sextets — octets written in 64 symbols, four for every three octets.

  Three octets are 24 bits, and each symbol stands for six of them. One or two octets that
  are left over are filled up with zero bits, and the four symbols with a padding symbol.
  `decode` takes only such texts, and reads back what `encode` writes (`decode_encode`).
-/

import Mathlib.Logic.Function.Basic

namespace Frnetlib.Base

/-- The symbols of the numbers below 64, and the one that pads. -/
structure Sextets (α : Type) where
  symbol : Nat → α
  value : α → Option Nat
  pad : α
  value_symbol : ∀ d < 64, value (symbol d) = some d
  value_pad : value pad = none

namespace Sextets

variable {α : Type} (A : Sextets α)

def encode : List UInt8 → List α
  | [] => []
  | [x] =>
    let n := x.toNat * 16
    [A.symbol (n / 64), A.symbol (n % 64), A.pad, A.pad]
  | [x, y] =>
    let n := (x.toNat * 256 + y.toNat) * 4
    [A.symbol (n / 4096), A.symbol (n / 64 % 64), A.symbol (n % 64), A.pad]
  | x :: y :: z :: s =>
    let n := (x.toNat * 256 + y.toNat) * 256 + z.toNat
    A.symbol (n / 262144) :: A.symbol (n / 4096 % 64) :: A.symbol (n / 64 % 64) :: A.symbol (n % 64) :: encode s

/-- The octets of four symbols, the last four of a text or not. -/
def quantum [DecidableEq α] (a b c d : α) (final : Bool) : Option (List UInt8) :=
  match A.value a, A.value b, A.value c, A.value d with
  | some i, some j, some k, some l =>
    let n := ((i * 64 + j) * 64 + k) * 64 + l
    some [UInt8.ofNat (n / 65536), UInt8.ofNat (n / 256 % 256), UInt8.ofNat (n % 256)]
  | some i, some j, some k, none =>
    let n := (i * 64 + j) * 64 + k
    if final ∧ d = A.pad ∧ n % 4 = 0 then some [UInt8.ofNat (n / 1024), UInt8.ofNat (n / 4 % 256)] else none
  | some i, some j, none, none =>
    let n := i * 64 + j
    if final ∧ c = A.pad ∧ d = A.pad ∧ n % 16 = 0 then some [UInt8.ofNat (n / 16)] else none
  | _, _, _, _ => none

def decode [DecidableEq α] : List α → Option (List UInt8)
  | [] => some []
  | a :: b :: c :: d :: s =>
    match A.quantum a b c d s.isEmpty, decode s with
    | some octets, some rest => some (octets ++ rest)
    | _, _ => none
  | _ => none

/-! ## What is read back -/

theorem encode_length (s : List UInt8) : (A.encode s).length = 4 * ((s.length + 2) / 3) := by
  induction s using encode.induct with
  | case1 => rfl
  | case2 x => simp [encode]
  | case3 x y => simp [encode]
  | case4 x y z s ih =>
    simp only [encode, List.length_cons, ih]
    omega

theorem ofNat_octet {b : UInt8} {n : Nat} (h : n = b.toNat) : UInt8.ofNat n = b := by
  rw [h, UInt8.ofNat_toNat]

variable [DecidableEq α]

theorem decode_encode (s : List UInt8) : A.decode (A.encode s) = some s := by
  induction s using encode.induct with
  | case1 => rfl
  | case2 x =>
    have hx := x.toNat_lt
    have hquantum : A.quantum (A.symbol (x.toNat * 16 / 64)) (A.symbol (x.toNat * 16 % 64)) A.pad A.pad true = some [x] := by
      simp only [quantum, A.value_symbol _ (show x.toNat * 16 / 64 < 64 by omega),
        A.value_symbol _ (show x.toNat * 16 % 64 < 64 by omega), A.value_pad]
      rw [if_pos ⟨trivial, trivial, trivial, by omega⟩, ofNat_octet (b := x) (by omega)]
    simp only [encode, decode, List.isEmpty_nil, hquantum, List.append_nil]
  | case3 x y =>
    have hx := x.toNat_lt
    have hy := y.toNat_lt
    have hquantum : A.quantum (A.symbol ((x.toNat * 256 + y.toNat) * 4 / 4096))
        (A.symbol ((x.toNat * 256 + y.toNat) * 4 / 64 % 64)) (A.symbol ((x.toNat * 256 + y.toNat) * 4 % 64)) A.pad true =
          some [x, y] := by
      simp only [quantum, A.value_symbol _ (show (x.toNat * 256 + y.toNat) * 4 / 4096 < 64 by omega),
        A.value_symbol _ (Nat.mod_lt _ (show 64 > 0 by decide)), A.value_pad]
      rw [if_pos ⟨trivial, trivial, by omega⟩, ofNat_octet (b := x) (by omega), ofNat_octet (b := y) (by omega)]
    simp only [encode, decode, List.isEmpty_nil, hquantum, List.append_nil]
  | case4 x y z s ih =>
    have hx := x.toNat_lt
    have hy := y.toNat_lt
    have hz := z.toNat_lt
    have hquantum : ∀ n final, n = (x.toNat * 256 + y.toNat) * 256 + z.toNat →
        A.quantum (A.symbol (n / 262144)) (A.symbol (n / 4096 % 64)) (A.symbol (n / 64 % 64)) (A.symbol (n % 64)) final =
          some [x, y, z] := by
      intro n final hn
      simp only [quantum, A.value_symbol _ (show n / 262144 < 64 by omega),
        A.value_symbol _ (Nat.mod_lt _ (show 64 > 0 by decide))]
      rw [ofNat_octet (b := x) (by omega), ofNat_octet (b := y) (by omega), ofNat_octet (b := z) (by omega)]
    simp only [encode, decode, ih, hquantum _ _ rfl, List.cons_append, List.nil_append]

theorem encode_injective : Function.Injective A.encode := by
  intro s s' h
  have hread := A.decode_encode s
  rw [h, A.decode_encode s'] at hread
  exact (Option.some.inj hread).symm

end Sextets

end Frnetlib.Base
