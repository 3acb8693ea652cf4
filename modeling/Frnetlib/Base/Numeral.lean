/-
  Frnetlib.Base.Numeral — byte strings, their literals, and the C library's reading
  and writing of numbers (`std::to_string`, `std::stoi`, `std::stoul`,
  `std::stoull`).

  A byte string is a list of `UInt8`; `bytes "..."` is the string a C++ literal of
  ASCII characters denotes. `strtoul` skips white space, takes one sign, for base 16
  an optional `0x` before a digit, and then the longest run of digits; no digits at
  all is `std::invalid_argument` (`none`). What is out of range of the result type is
  `std::out_of_range` (`none` as well).

  Proved: reading back a written number (`stoull_toDec`), and that a run of digits
  is read up to the first byte that is not one (`strtoul_digits`).
-/

import Mathlib.Algebra.Group.Int.Defs
import Mathlib.Algebra.Group.Nat.Defs
import Mathlib.Data.List.TakeWhile
import Mathlib.Tactic.Common

namespace Frnetlib.Base

abbrev Bytes := List UInt8

def bytes (s : String) : Bytes := s.toList.map fun c => UInt8.ofNat c.toNat

theorem forall_byte {P : UInt8 → Prop} (h : ∀ i : Fin 256, P (UInt8.ofFin i)) (b : UInt8) : P b := h b.toFin

def CR : UInt8 := 13
def LF : UInt8 := 10
def SP : UInt8 := 32

def crlf : Bytes := [CR, LF]
def lflf : Bytes := [LF, LF]
def crlfcrlf : Bytes := [CR, LF, CR, LF]

/-- `std::string::npos`, the largest `size_t`. -/
def npos : Nat := 2 ^ 64 - 1

/-- `a - b` in `size_t`. -/
def usub (a b : Nat) : Nat := if b ≤ a then a - b else 2 ^ 64 - (b - a) % 2 ^ 64

theorem usub_of_le {a b : Nat} (h : b ≤ a) : usub a b = a - b := if_pos h

theorem usub_of_lt {a b : Nat} (h : a < b) (hb : b < 2 ^ 64) : usub a b = 2 ^ 64 - (b - a) := by
  rw [usub, if_neg (by omega), Nat.mod_eq_of_lt (by omega)]

/-- `::tolower` in the C locale, on a byte. -/
def tolower (b : UInt8) : UInt8 := if 65 ≤ b.toNat ∧ b.toNat ≤ 90 then b + 32 else b

theorem tolower_tolower (b : UInt8) : tolower (tolower b) = tolower b := by
  by_cases hb : 65 ≤ b.toNat ∧ b.toNat ≤ 90
  · have hlower : tolower b = b + 32 := if_pos hb
    have hvalue : (b + 32).toNat = b.toNat + 32 := by
      simp only [UInt8.toNat_add, UInt8.reduceToNat]
      omega
    rw [hlower, tolower, if_neg (by omega)]
  · have hself : tolower b = b := if_neg hb
    rw [hself, hself]

/-- A byte below the letters is nothing's lower case but its own. -/
theorem tolower_eq_iff {b c : UInt8} (hc : c.toNat < 65) : tolower b = c ↔ b = c := by
  by_cases hb : 65 ≤ b.toNat ∧ b.toNat ≤ 90
  · have hlower : tolower b = b + 32 := if_pos hb
    rw [hlower]
    constructor
    · intro heq
      subst heq
      simp only [UInt8.toNat_add, UInt8.reduceToNat] at hc
      omega
    · intro heq
      subst heq
      omega
  · have hself : tolower b = b := if_neg hb
    rw [hself]

theorem mem_map_tolower {c : UInt8} (hc : c.toNat < 65) {s : List UInt8} : c ∈ s.map tolower ↔ c ∈ s := by
  rw [List.mem_map]
  constructor
  · intro hgiven
    obtain ⟨b, hb, hbc⟩ := hgiven
    exact (tolower_eq_iff hc).mp hbc ▸ hb
  · intro hs
    exact ⟨c, hs, (tolower_eq_iff hc).mpr rfl⟩

theorem map_tolower_self (s : List UInt8) : (s.map tolower).map tolower = s.map tolower := by
  rw [List.map_map]
  exact List.map_congr_left fun b _ => tolower_tolower b

/-- `b >= 32 && b <= 126` on a `char`, signed or not. -/
def isPrint (b : UInt8) : Bool := 32 ≤ b.toNat && b.toNat ≤ 126

def isSpace (b : UInt8) : Bool := b == 32 || (9 ≤ b.toNat && b.toNat ≤ 13)

/-- A digit's value, 36 for a byte that is no digit in any base. -/
def digitVal (b : UInt8) : Nat :=
  if 48 ≤ b.toNat ∧ b.toNat ≤ 57 then b.toNat - 48
  else if 97 ≤ b.toNat ∧ b.toNat ≤ 122 then b.toNat - 87
  else if 65 ≤ b.toNat ∧ b.toNat ≤ 90 then b.toNat - 55
  else 36

def isDigit (base : Nat) (b : UInt8) : Bool := digitVal b < base

def digitsVal (base : Nat) (ds : Bytes) : Nat := ds.foldl (fun n b => n * base + digitVal b) 0

/-- The sign: whether it is a minus, and what follows it. -/
def takeSign : Bytes → Bool × Bytes
  | 45 :: s => (true, s)
  | 43 :: s => (false, s)
  | s => (false, s)

/-- The prefix `0x` or `0X`, dropped only when a digit follows it. -/
def dropHexPrefix : Bytes → Bytes
  | 48 :: x :: d :: s => if (x == 120 || x == 88) && isDigit 16 d then d :: s else 48 :: x :: d :: s
  | s => s

def strtoul (base : Nat) (s : Bytes) : Option (Bool × Nat) :=
  let (neg, t) := takeSign (s.dropWhile isSpace)
  let t := if base = 16 then dropHexPrefix t else t
  let ds := t.takeWhile (isDigit base)
  if ds.isEmpty then none else some (neg, digitsVal base ds)

/-- `std::stoul` and `std::stoull` with a 64-bit `unsigned long`: a minus negates
    the value modulo 2^64. -/
def stoull (base : Nat) (s : Bytes) : Option Nat :=
  match strtoul base s with
  | none => none
  | some (neg, v) => if 2 ^ 64 ≤ v then none else some (if neg then (2 ^ 64 - v) % 2 ^ 64 else v)

def stoi (s : Bytes) : Option Int :=
  match strtoul 10 s with
  | none => none
  | some (neg, v) =>
    let x : Int := if neg then -(v : Int) else v
    if -2 ^ 31 ≤ x ∧ x < 2 ^ 31 then some x else none

/-- `std::to_string` of an unsigned number. -/
def toDec (n : Nat) : Bytes := (Nat.toDigits 10 n).map fun c => UInt8.ofNat c.toNat

/-! ## Reading digits -/

theorem isDigit_val {base : Nat} (hb : base ≤ 16) {b : UInt8} (h : isDigit base b = true) :
    (48 ≤ b.toNat ∧ b.toNat ≤ 57) ∨ (97 ≤ b.toNat ∧ b.toNat ≤ 102) ∨ (65 ≤ b.toNat ∧ b.toNat ≤ 70) := by
  have h : digitVal b < base := of_decide_eq_true h
  unfold digitVal at h
  split at h
  · omega
  · split at h
    · omega
    · split at h <;> omega

/-- A digit is printable, and none of white space, a sign and the `x` of `0x`. -/
theorem isDigit_plain {base : Nat} (hb : base ≤ 16) {b : UInt8} (h : isDigit base b = true) :
    isPrint b = true ∧ isSpace b = false ∧ b ≠ 45 ∧ b ≠ 43 ∧ b ≠ 120 ∧ b ≠ 88 := by
  have hv := isDigit_val hb h
  refine ⟨by simp only [isPrint, Bool.and_eq_true, decide_eq_true_eq]; omega, ?_, ?_, ?_, ?_, ?_⟩
  · simp only [isSpace, Bool.or_eq_false_iff, beq_eq_false_iff_ne, Bool.and_eq_false_iff, decide_eq_false_iff_not]
    exact ⟨by rintro rfl; revert hv; decide, by omega⟩
  all_goals rintro rfl; revert hv; decide

theorem takeSign_plain {b : UInt8} {s : Bytes} (h1 : b ≠ 45) (h2 : b ≠ 43) : takeSign (b :: s) = (false, b :: s) := by
  unfold takeSign
  split
  · rename_i h; injection h with h; exact absurd h h1
  · rename_i h; injection h with h; exact absurd h h2
  · rfl

theorem dropHexPrefix_plain {a x : UInt8} {s : Bytes} (h1 : x ≠ 120) (h2 : x ≠ 88) :
    dropHexPrefix (a :: x :: s) = a :: x :: s := by
  unfold dropHexPrefix
  split
  · rename_i h; injection h with ha h; injection h with hx h; subst ha hx h; simp [h1, h2]
  · rfl

theorem dropHexPrefix_one (a : UInt8) : dropHexPrefix [a] = [a] := by
  unfold dropHexPrefix; split
  · rename_i h; injection h with _ h; cases h
  · rfl

/-- What may follow a run of digits: nothing, or a byte that neither continues it
    nor makes a `0x` of a leading zero. -/
def EndsDigits (base : Nat) (s : Bytes) : Prop := ∀ b ∈ s.head?, isDigit base b = false ∧ b ≠ 120 ∧ b ≠ 88

/-- A run of digits is read whole, up to what ends it. -/
theorem strtoul_digits {base : Nat} (hb : base ≤ 16) {ds s : Bytes} (hne : ds ≠ [])
    (hd : ∀ b ∈ ds, isDigit base b = true) (hs : EndsDigits base s) :
    strtoul base (ds ++ s) = some (false, digitsVal base ds) := by
  obtain ⟨d, ds', rfl⟩ := List.exists_cons_of_ne_nil hne
  obtain ⟨-, hsp, hm, hp, -⟩ := isDigit_plain hb (hd d (by simp))
  have hdrop : ((d :: ds') ++ s).dropWhile isSpace = (d :: ds') ++ s := by simp [hsp]
  have hhex : dropHexPrefix ((d :: ds') ++ s) = (d :: ds') ++ s := by
    cases ds' with
    | nil =>
      cases s with
      | nil => exact dropHexPrefix_one d
      | cons x s => obtain ⟨-, h1, h2⟩ := hs x (by simp); exact dropHexPrefix_plain h1 h2
    | cons x ds' => obtain ⟨-, -, -, -, h1, h2⟩ := isDigit_plain hb (hd x (by simp)); exact dropHexPrefix_plain h1 h2
  have htake : ((d :: ds') ++ s).takeWhile (isDigit base) = d :: ds' := by
    rw [List.takeWhile_append_of_pos hd]
    cases s with
    | nil => simp
    | cons x s => simp [(hs x (by simp)).1]
  simp only [strtoul, hdrop]
  rw [List.cons_append, takeSign_plain hm hp, ← List.cons_append]
  simp only [hhex, ite_self, htake]
  simp

theorem strtoul_space (base : Nat) (s : Bytes) : strtoul base (SP :: s) = strtoul base s := by
  have h : (SP :: s).dropWhile isSpace = s.dropWhile isSpace := by
    rw [List.dropWhile_cons_of_pos (by decide)]
  unfold strtoul; rw [h]

/-! ## Writing and reading back -/

theorem toDec_ne_nil (n : Nat) : toDec n ≠ [] := by simp [toDec, Nat.toDigits_ne_nil]

theorem digit_of_char {c : Char} (h : c.isDigit = true) :
    isDigit 10 (UInt8.ofNat c.toNat) = true ∧ digitVal (UInt8.ofNat c.toNat) = c.toNat - 48 := by
  have hc : 48 ≤ c.toNat ∧ c.toNat ≤ 57 := by
    simpa [Char.isDigit, UInt32.le_iff_toNat_le] using h
  have hn : (UInt8.ofNat c.toNat).toNat = c.toNat := by simp; omega
  have hv : digitVal (UInt8.ofNat c.toNat) = c.toNat - 48 := by
    unfold digitVal; rw [hn, if_pos hc]
  exact ⟨by simp only [isDigit, hv, decide_eq_true_eq]; omega, hv⟩

theorem toDec_digits (n : Nat) : ∀ b ∈ toDec n, isDigit 10 b = true := by
  intro b hb
  obtain ⟨c, hc, rfl⟩ := List.mem_map.mp hb
  exact (digit_of_char (Nat.isDigit_of_mem_toDigits (by decide) (by decide) hc)).1

theorem digitsVal_toDec (n : Nat) : digitsVal 10 (toDec n) = n := by
  have key : ∀ (l : List Char) (a : Nat), (∀ c ∈ l, c.isDigit = true) →
      (l.map fun c => UInt8.ofNat c.toNat).foldl (fun n b => n * 10 + digitVal b) a = Nat.ofDigitChars 10 l a := by
    intro l
    induction l with
    | nil => intro a _; simp
    | cons c l ih =>
      intro a h
      rw [List.map_cons, List.foldl_cons, ih _ fun d hd => h d (List.mem_cons_of_mem _ hd), Nat.ofDigitChars_cons,
        (digit_of_char (h c (by simp))).2, Nat.mul_comm]
      rfl
  rw [digitsVal, toDec, key _ _ fun c hc => Nat.isDigit_of_mem_toDigits (by decide) (by decide) hc,
    Nat.ofDigitChars_ten_toDigits]

theorem strtoul_toDec (n : Nat) : strtoul 10 (toDec n) = some (false, n) := by
  have hread := strtoul_digits (by decide) (toDec_ne_nil n) (toDec_digits n) (s := []) (by simp [EndsDigits])
  rwa [List.append_nil, digitsVal_toDec] at hread

theorem stoull_toDec {n : Nat} (h : n < 2 ^ 64) : stoull 10 (toDec n) = some n := by
  simp only [stoull, strtoul_toDec, Bool.false_eq_true, if_false]
  rw [if_neg (by omega)]

theorem stoi_toDec {n : Nat} (h : n < 2 ^ 31) : stoi (SP :: toDec n) = some (n : Int) := by
  simp only [stoi, strtoul_space, strtoul_toDec, Bool.false_eq_true, if_false]
  rw [if_pos (by omega)]

/-- A number that does not fit an `int` is refused. -/
theorem stoi_toDec_big {n : Nat} (h : 2 ^ 31 ≤ n) : stoi (SP :: toDec n) = none := by
  simp only [stoi, strtoul_space, strtoul_toDec, Bool.false_eq_true, if_false]
  rw [if_neg (by omega)]

theorem stoi_range {s : Bytes} {x : Int} (h : stoi s = some x) : -2 ^ 31 ≤ x ∧ x < 2 ^ 31 := by
  unfold stoi at h
  cases hs : strtoul 10 s with
  | none =>
    rw [hs] at h
    cases h
  | some r =>
    obtain ⟨neg, v⟩ := r
    rw [hs] at h
    simp only at h
    generalize (if neg = true then -(v : Int) else v) = y at h
    by_cases hrange : -2 ^ 31 ≤ y ∧ y < 2 ^ 31
    · rw [if_pos hrange] at h
      exact Option.some.inj h ▸ hrange
    · rw [if_neg hrange] at h
      exact absurd h (Option.some_ne_none x).symm

example : stoull 16 (bytes "0x1F;ext") = some 31 ∧ stoull 16 (bytes "-1") = some (2 ^ 64 - 1) ∧
    stoull 16 (bytes "\r\n") = none := by decide

end Frnetlib.Base
