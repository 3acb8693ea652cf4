/-
  Frnetlib.WebSocket.Base64 — `fr::Base64::encode` (`Base64.h`, `Base64.cpp`).

  `encode` is `none` where the code reads the string beyond its terminating NUL. That
  is what happens to strings of fewer than two bytes: `input.size() - 2` wraps, and the
  loop reads on. `operator[]` at `size()` is the NUL. A character is a byte here; the
  masks of the code make its sign play no part.

  `text` says the same by recursion on the string, three bytes at a time, and
  `encode_eq` that the loop computes it, from two bytes on.
-/

import Frnetlib.Base.Numeral
import Frnetlib.Base.Search

namespace Frnetlib.Base64

open Base

def base64Table : Bytes := bytes "ABCDEFGHIJKLMNOPQRSTUVWXYZabcdefghijklmnopqrstuvwxyz0123456789+/"

/-! ## The indices into the table -/

def first (x : UInt8) : Nat := x.toNat >>> 2 &&& 0x3F
def second (x y : UInt8) : Nat := (x.toNat &&& 0x3) <<< 4 ||| (y.toNat &&& 0xF0) >>> 4
def third (y z : UInt8) : Nat := (y.toNat &&& 0xF) <<< 2 ||| (z.toNat &&& 0xC0) >>> 6
def fourth (z : UInt8) : Nat := z.toNat &&& 0x3F

/-- The last index where one byte is left. -/
def secondLast (x : UInt8) : Nat := (x.toNat &&& 0x3) <<< 4

/-- The last index where two bytes are left. -/
def thirdLast (y : UInt8) : Nat := (y.toNat &&& 0xF) <<< 2

def look (index : Nat) : UInt8 := base64Table.getD index 0

/-! ## The loop -/

def charAt (input : Bytes) (i : Nat) : Option UInt8 :=
  if i = input.length then some 0 else input[i]?

theorem charAt_le {input : Bytes} {i : Nat} {b : UInt8} (h : charAt input i = some b) : i ≤ input.length := by
  unfold charAt at h
  split at h
  · omega
  · exact Nat.le_of_lt (List.getElem?_eq_some_iff.mp h).1

/-- The loop from `a` on: what it appends to `out`, and the `a` it ends with. -/
def encodeFrom (input : Bytes) (a : Nat) : Option (Bytes × Nat) :=
  if a < usub input.length 2 then
    match charAt input a, charAt input (a + 1), h : charAt input (a + 2) with
    | some x, some y, some z =>
      have := charAt_le h
      (encodeFrom input (a + 3)).map fun r =>
        (look (first x) :: look (second x y) :: look (third y z) :: look (fourth z) :: r.1, r.2)
    | _, _, _ => none
  else some ([], a)
termination_by input.length - a

/-- What is appended after the loop. -/
def encodeRest (input : Bytes) (a : Nat) : Option Bytes :=
  if a < input.length then
    match charAt input a with
    | none => none
    | some x =>
      if a = usub input.length 2 then
        (charAt input (a + 1)).map fun y => look (first x) :: look (second x y) :: look (thirdLast y) :: bytes "="
      else some (look (first x) :: look (secondLast x) :: bytes "==")
  else some []

def encode (input : Bytes) : Option Bytes :=
  match encodeFrom input 0 with
  | none => none
  | some (out, a) => (encodeRest input a).map (out ++ ·)

/-! ## What it computes -/

def text : Bytes → Bytes
  | [] => []
  | [x] => look (first x) :: look (secondLast x) :: bytes "=="
  | [x, y] => look (first x) :: look (second x y) :: look (thirdLast y) :: bytes "="
  | x :: y :: z :: s => look (first x) :: look (second x y) :: look (third y z) :: look (fourth z) :: text s

theorem charAt_mid (pre s : Bytes) (i : Nat) (h : i < s.length) : charAt (pre ++ s) (pre.length + i) = s[i]? := by
  rw [charAt, if_neg (by rw [List.length_append]; omega), List.getElem?_append_right (by omega), Nat.add_sub_cancel_left]

theorem encodeFrom_end {pre s : Bytes} (hs : s.length ≤ 2) (h : 2 ≤ (pre ++ s).length) :
    encodeFrom (pre ++ s) pre.length = some ([], pre.length) := by
  rw [encodeFrom, if_neg]
  rw [usub_of_le h, List.length_append]
  omega

/-- The loop and what follows it, on what is left of the string after some rounds. -/
theorem encodeFrom_text (pre s : Bytes) (h : 2 ≤ (pre ++ s).length) :
    ∃ out a rest, encodeFrom (pre ++ s) pre.length = some (out, a) ∧ encodeRest (pre ++ s) a = some rest ∧
      out ++ rest = text s := by
  induction s using text.induct generalizing pre with
  | case1 =>
    refine ⟨[], pre.length, [], encodeFrom_end (by simp) h, ?_, rfl⟩
    rw [encodeRest, if_neg (by simp)]
  | case2 x =>
    refine ⟨[], pre.length, _, encodeFrom_end (by simp) h, ?_, rfl⟩
    have hx : charAt (pre ++ [x]) pre.length = some x := charAt_mid pre [x] 0 (by simp)
    have hne : pre.length ≠ usub (pre ++ [x]).length 2 := by
      rw [usub_of_le h]
      rw [List.length_append, List.length_singleton] at h ⊢
      omega
    rw [encodeRest, if_pos (by simp), hx]
    simp only [if_neg hne]
  | case3 x y =>
    refine ⟨[], pre.length, _, encodeFrom_end (by simp) h, ?_, rfl⟩
    have hx : charAt (pre ++ [x, y]) pre.length = some x := charAt_mid pre [x, y] 0 (by simp)
    have hy : charAt (pre ++ [x, y]) (pre.length + 1) = some y := charAt_mid pre [x, y] 1 (by simp)
    have heq : pre.length = usub (pre ++ [x, y]).length 2 := by
      rw [usub_of_le h, List.length_append, List.length_cons, List.length_singleton]; omega
    rw [encodeRest, if_pos (by simp), hx]
    simp only [if_pos heq, hy, Option.map_some]
  | case4 x y z s ih =>
    have hx : charAt (pre ++ x :: y :: z :: s) pre.length = some x := charAt_mid pre (x :: y :: z :: s) 0 (by simp)
    have hy : charAt (pre ++ x :: y :: z :: s) (pre.length + 1) = some y :=
      charAt_mid pre (x :: y :: z :: s) 1 (by simp)
    have hz : charAt (pre ++ x :: y :: z :: s) (pre.length + 2) = some z :=
      charAt_mid pre (x :: y :: z :: s) 2 (by simp)
    have hround : pre.length < usub (pre ++ x :: y :: z :: s).length 2 := by
      rw [usub_of_le h, List.length_append]
      simp only [List.length_cons]
      omega
    have hnext : pre ++ x :: y :: z :: s = pre ++ [x, y, z] ++ s := by simp
    obtain ⟨out, a, rest, hfrom, hrest, htext⟩ := ih (pre ++ [x, y, z]) (hnext ▸ h)
    rw [← hnext, List.length_append] at hfrom
    rw [← hnext] at hrest
    refine ⟨look (first x) :: look (second x y) :: look (third y z) :: look (fourth z) :: out, a, rest, ?_, hrest, ?_⟩
    · rw [encodeFrom, if_pos hround]
      simp only [hx, hy]
      split
      · rename_i hx' hy' hz'
        cases hx'
        cases hy'
        rw [hz] at hz'
        cases hz'
        rw [show pre.length + 3 = pre.length + [x, y, z].length from rfl, hfrom]
        rfl
      · rename_i hno
        exact absurd hz (hno x y z rfl rfl)
    · rw [text, ← htext]
      rfl

theorem encode_eq {input : Bytes} (h : 2 ≤ input.length) : encode input = some (text input) := by
  obtain ⟨out, a, rest, hfrom, hrest, htext⟩ := encodeFrom_text [] input h
  rw [List.nil_append, List.length_nil] at hfrom
  rw [List.nil_append] at hrest
  rw [encode, hfrom]
  simp only [hrest, Option.map_some, htext]

/-! ## Its characters -/

theorem and_lt {a m k : Nat} (h : m < 2 ^ k) : a &&& m < 2 ^ k := Nat.lt_of_le_of_lt Nat.and_le_right h

theorem first_lt (x : UInt8) : first x < 64 := and_lt (k := 6) (by decide)

theorem fourth_lt (z : UInt8) : fourth z < 64 := and_lt (k := 6) (by decide)

theorem secondLast_lt (x : UInt8) : secondLast x < 64 := by
  have : x.toNat &&& 0x3 ≤ 3 := Nat.and_le_right
  rw [secondLast, Nat.shiftLeft_eq]
  omega

theorem thirdLast_lt (y : UInt8) : thirdLast y < 64 := by
  have : y.toNat &&& 0xF ≤ 15 := Nat.and_le_right
  rw [thirdLast, Nat.shiftLeft_eq]
  omega

theorem second_lt (x y : UInt8) : second x y < 64 := by
  have : y.toNat &&& 0xF0 ≤ 240 := Nat.and_le_right
  refine Nat.or_lt_two_pow (n := 6) (secondLast_lt x) ?_
  rw [Nat.shiftRight_eq_div_pow]
  omega

theorem third_lt (y z : UInt8) : third y z < 64 := by
  have : z.toNat &&& 0xC0 ≤ 192 := Nat.and_le_right
  refine Nat.or_lt_two_pow (n := 6) (thirdLast_lt y) ?_
  rw [Nat.shiftRight_eq_div_pow]
  omega

theorem look_print {index : Nat} (h : index < 64) : isPrint (look index) = true ∧ look index ≠ SP := by
  have hlen : index < base64Table.length := h
  have hmem : look index ∈ base64Table := by
    rw [look, List.getD_eq_getElem?_getD, List.getElem?_eq_getElem hlen, Option.getD_some]
    exact List.getElem_mem hlen
  have hall : ∀ b ∈ base64Table, isPrint b = true ∧ b ≠ SP := forall_of_all (by decide)
  exact hall _ hmem

/-- Every character is printable and none is a space. -/
theorem text_print (s : Bytes) : ∀ b ∈ text s, isPrint b = true ∧ b ≠ SP := by
  have hone : ∀ b ∈ bytes "=", isPrint b = true ∧ b ≠ SP := forall_of_all (by decide)
  have htwo : ∀ b ∈ bytes "==", isPrint b = true ∧ b ≠ SP := forall_of_all (by decide)
  induction s using text.induct with
  | case1 =>
    intro b hb
    cases hb
  | case2 x =>
    rw [text, List.forall_mem_cons, List.forall_mem_cons]
    exact ⟨look_print (first_lt x), look_print (secondLast_lt x), htwo⟩
  | case3 x y =>
    rw [text, List.forall_mem_cons, List.forall_mem_cons, List.forall_mem_cons]
    exact ⟨look_print (first_lt x), look_print (second_lt x y), look_print (thirdLast_lt y), hone⟩
  | case4 x y z s ih =>
    rw [text, List.forall_mem_cons, List.forall_mem_cons, List.forall_mem_cons, List.forall_mem_cons]
    exact ⟨look_print (first_lt x), look_print (second_lt x y), look_print (third_lt y z), look_print (fourth_lt z), ih⟩

theorem text_length (s : Bytes) : (text s).length = 4 * ((s.length + 2) / 3) := by
  induction s using text.induct with
  | case1 => rfl
  | case2 x => simp [text, bytes]
  | case3 x y => simp [text, bytes]
  | case4 x y z s ih =>
    simp only [text, List.length_cons, ih]
    omega

end Frnetlib.Base64
