/-
  Frnetlib.Base.Percent — percent-decoding.

  An escape is a `%` with two hexadecimal digits, in either case, behind it, and denotes a
  byte; a `+` denotes a space. A text is `Escaped` if every `%` in it starts an escape
  (`escaped_iff`): it is then read as characters and escapes one after the other, which is
  how `percentDecode` and the escapes of a text are taken apart.
-/

import Frnetlib.Base.Numeral
import Mathlib.Data.List.Infix

namespace Frnetlib.Base

/-- What a character that is no part of an escape denotes. -/
def unplus (c : UInt8) : UInt8 := if c = 43 then SP else c

/-- A `%` that starts no escape is kept. -/
def percentDecode : Bytes → Bytes
  | [] => []
  | [c] => [unplus c]
  | [c, x] => [unplus c, unplus x]
  | c :: x :: y :: s =>
    if c = 37 ∧ isDigit 16 x ∧ isDigit 16 y then UInt8.ofNat (16 * digitVal x + digitVal y) :: percentDecode s
    else unplus c :: percentDecode (x :: y :: s)

theorem percentDecode_plain {c : UInt8} (h : c ≠ 37) (s : Bytes) : percentDecode (c :: s) = unplus c :: percentDecode s := by
  rcases s with _ | ⟨x, _ | ⟨y, s⟩⟩
  · rfl
  · rfl
  · rw [percentDecode, if_neg fun hgiven => h hgiven.1]

theorem percentDecode_escape {x y : UInt8} (hx : isDigit 16 x = true) (hy : isDigit 16 y = true) (s : Bytes) :
    percentDecode (37 :: x :: y :: s) = UInt8.ofNat (16 * digitVal x + digitVal y) :: percentDecode s := by
  rw [percentDecode, if_pos ⟨rfl, hx, hy⟩]

inductive Escaped : Bytes → Prop
  | nil : Escaped []
  | plain {c : UInt8} {s : Bytes} : c ≠ 37 → Escaped s → Escaped (c :: s)
  | escape {x y : UInt8} {s : Bytes} : isDigit 16 x = true → isDigit 16 y = true → Escaped s →
      Escaped (37 :: x :: y :: s)

theorem isDigit_ne_percent {x : UInt8} (h : isDigit 16 x = true) : x ≠ 37 := by
  rintro rfl
  exact absurd h (by decide)

/-- Two digits behind every `%`. -/
def Digits (s : Bytes) : Prop :=
  ∀ p t, s = p ++ 37 :: t → ∃ x y rest, t = x :: y :: rest ∧ isDigit 16 x = true ∧ isDigit 16 y = true

theorem Digits.behind {a s : Bytes} (h : Digits (a ++ s)) : Digits s := by
  rintro p t rfl
  exact h (a ++ p) t (by rw [List.append_assoc])

theorem Escaped.digits {s : Bytes} (h : Escaped s) : Digits s := by
  induction h with
  | nil =>
    intro p t heq
    exact absurd heq (by simp)
  | plain hc _ ih =>
    intro p t heq
    cases p with
    | nil =>
      cases heq
      exact absurd rfl hc
    | cons b p =>
      cases heq
      exact ih p t rfl
  | escape hx hy _ ih =>
    rintro (_ | ⟨b, _ | ⟨c, _ | ⟨d, p⟩⟩⟩) t heq
    · cases heq
      exact ⟨_, _, _, rfl, hx, hy⟩
    · cases heq
      exact absurd rfl (isDigit_ne_percent hx)
    · cases heq
      exact absurd rfl (isDigit_ne_percent hy)
    · cases heq
      exact ih p t rfl

theorem Digits.escaped {s : Bytes} (h : Digits s) : Escaped s := by
  induction hn : s.length using Nat.strong_induction_on generalizing s with
  | _ n ih =>
    subst hn
    cases s with
    | nil => exact .nil
    | cons c s =>
      by_cases hc : c = 37
      · subst hc
        obtain ⟨x, y, rest, rfl, hx, hy⟩ := h [] s rfl
        apply Escaped.escape hx hy
        exact ih rest.length (by simp only [List.length_cons]; omega) (Digits.behind (a := [37, x, y]) h) rfl
      · apply Escaped.plain hc
        exact ih s.length (by simp) (Digits.behind (a := [c]) h) rfl

theorem escaped_iff {s : Bytes} : Escaped s ↔ Digits s := ⟨Escaped.digits, Digits.escaped⟩

/-! ## The escapes of a text -/

theorem escape_plain {c x y : UInt8} (h : c ≠ 37) {s : Bytes} : [37, x, y] <:+: c :: s ↔ [37, x, y] <:+: s := by
  rw [List.infix_cons_iff, List.cons_prefix_cons]
  constructor
  · rintro (⟨heq, -⟩ | hrest)
    · exact absurd heq.symm h
    · exact hrest
  · exact .inr

theorem escape_escape {a b x y : UInt8} (hx : isDigit 16 x = true) (hy : isDigit 16 y = true) {s : Bytes} :
    [37, a, b] <:+: 37 :: x :: y :: s ↔ (a = x ∧ b = y) ∨ [37, a, b] <:+: s := by
  rw [List.infix_cons_iff, escape_plain (isDigit_ne_percent hx), escape_plain (isDigit_ne_percent hy)]
  simp only [List.cons_prefix_cons, List.nil_prefix, true_and, and_true]

/-! ## Digits of the other case -/

/-- The same text, but for the case of the digits in its escapes. -/
inductive Recased : Bytes → Bytes → Prop
  | nil : Recased [] []
  | plain {c : UInt8} {s t : Bytes} : c ≠ 37 → Recased s t → Recased (c :: s) (c :: t)
  | escape {x y x' y' : UInt8} {s t : Bytes} : isDigit 16 x = true → isDigit 16 y = true →
      tolower x' = tolower x → tolower y' = tolower y → Recased s t →
      Recased (37 :: x :: y :: s) (37 :: x' :: y' :: t)

theorem digitVal_tolower : ∀ x, digitVal (tolower x) = digitVal x := forall_byte (by decide +kernel)

theorem digitVal_recased {x x' : UInt8} (h : tolower x' = tolower x) : digitVal x' = digitVal x := by
  rw [← digitVal_tolower x', h, digitVal_tolower]

theorem isDigit_recased {x x' : UInt8} (h : tolower x' = tolower x) (hx : isDigit 16 x = true) : isDigit 16 x' = true := by
  rwa [isDigit, digitVal_recased h]

theorem Recased.escaped {s t : Bytes} (h : Recased s t) : Escaped t := by
  induction h with
  | nil => exact .nil
  | plain hc _ ih => exact .plain hc ih
  | escape hx hy hx' hy' _ ih => exact .escape (isDigit_recased hx' hx) (isDigit_recased hy' hy) ih

theorem percentDecode_recased {s t : Bytes} (h : Recased s t) : percentDecode s = percentDecode t := by
  induction h with
  | nil => rfl
  | plain hc _ ih => rw [percentDecode_plain hc, percentDecode_plain hc, ih]
  | escape hx hy hx' hy' _ ih =>
    rw [percentDecode_escape hx hy, percentDecode_escape (isDigit_recased hx' hx) (isDigit_recased hy' hy), ih,
      digitVal_recased hx', digitVal_recased hy']

end Frnetlib.Base
