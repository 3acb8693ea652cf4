/-
  Frnetlib.Base.Search — substring search and slicing on lists, as a C++ string
  class offers them: `find` (first occurrence), `findFrom` (first occurrence at or
  after an index), `rfind` (last occurrence) and `substr` (which throws, `none`,
  when it starts past the end).

  What the rest uses: an occurrence found in a prefix is found in the whole
  (`find_append`), a text free of the pattern's first symbol is skipped
  (`find_skip`), a pattern closing a text that holds no earlier copy is found there
  (`find_closing`), and a separator the pattern does not contain splits the
  question of whether it occurs (`infix_sep`).
-/

import Mathlib.Data.List.Infix
import Mathlib.Tactic.Common

namespace Frnetlib.Base

variable {α : Type} [DecidableEq α]

def find (pat : List α) : List α → Option Nat
  | [] => if pat.isEmpty then some 0 else none
  | a :: s => if pat.isPrefixOf (a :: s) then some 0 else (find pat s).map (· + 1)

def findFrom (pat s : List α) (pos : Nat) : Option Nat := (find pat (s.drop pos)).map (· + pos)

def rfind (pat : List α) : List α → Option Nat
  | [] => if pat.isEmpty then some 0 else none
  | a :: s =>
    match rfind pat s with
    | some i => some (i + 1)
    | none => if pat.isPrefixOf (a :: s) then some 0 else none

/-- The first index at or after `pos` whose symbol satisfies `p`. -/
def findIdxFrom (p : α → Bool) (s : List α) (pos : Nat) : Option Nat := ((s.drop pos).findIdx? p).map (· + pos)

/-- `s.substr(pos, n)`: throws when `pos` is past the end, stops at the end. -/
def substr (s : List α) (pos n : Nat) : Option (List α) :=
  if s.length < pos then none else some ((s.drop pos).take n)

omit [DecidableEq α] in
theorem substr_of_le {s : List α} {pos : Nat} (h : pos ≤ s.length) (n : Nat) :
    substr s pos n = some ((s.drop pos).take n) := if_neg (by omega)

omit [DecidableEq α] in
theorem substr_mid (a b c : List α) {i n : Nat} (hi : i = a.length) (hn : n = b.length) :
    substr (a ++ (b ++ c)) i n = some b := by
  rw [substr_of_le (by rw [List.length_append]; omega), hi, hn, List.drop_left, List.take_left]

/-- `s.erase(pos, n)` for `pos` within the string. -/
def erase (s : List α) (pos n : Nat) : List α := s.take pos ++ s.drop (pos + n)

/-- A decidable property of every symbol of a text, as a test of the text. -/
theorem forall_of_all {β : Type} {s : List β} {P : β → Prop} [DecidablePred P] (h : (s.all fun b => decide (P b)) = true) :
    ∀ b ∈ s, P b :=
  fun b hb => of_decide_eq_true (List.all_eq_true.mp h b hb)

omit [DecidableEq α] in
theorem drop_behind {a b : List α} {c : α} : (a ++ c :: b).drop (a.length + 1) = b := by
  rw [← List.drop_drop, List.drop_left, List.drop_succ_cons, List.drop_zero]

/-! ## What `find` returns -/

theorem find_eq_some_iff {pat s : List α} {i : Nat} :
    find pat s = some i ↔ pat <+: s.drop i ∧ ∀ j < i, ¬ pat <+: s.drop j := by
  induction s generalizing i with
  | nil =>
    simp only [find, List.isEmpty_iff, List.drop_nil, List.prefix_nil]
    by_cases hp : pat = []
    · simp only [hp, if_true, Option.some.injEq, not_true_eq_false, true_and]
      constructor
      · rintro rfl j hj; omega
      · intro h
        by_cases hi : 0 < i
        · exact absurd hi (h 0)
        · omega
    · simp [hp]
  | cons a s ih =>
    simp only [find, List.isPrefixOf_iff_prefix]
    by_cases hp : pat <+: a :: s
    · rw [if_pos hp]
      constructor
      · intro h; cases h; exact ⟨by simpa using hp, fun j hj => by omega⟩
      · intro hgiven
        obtain ⟨_, h⟩ := hgiven
        rcases Nat.eq_zero_or_pos i with rfl | hi
        · rfl
        · exact absurd (by simpa using hp) (h 0 hi)
    · rw [if_neg hp]
      cases i with
      | zero => simp [hp]
      | succ i =>
        simp only [Option.map_eq_some_iff, Nat.add_right_cancel_iff, exists_eq_right, ih, List.drop_succ_cons]
        refine and_congr_right fun _ => ⟨fun h j hj => ?_, fun h j hj => by simpa using h (j + 1) (by omega)⟩
        cases j with
        | zero => simpa using hp
        | succ j => simpa using h j (by omega)

theorem find_eq_none_iff {pat s : List α} : find pat s = none ↔ ¬ pat <:+: s := by
  induction s with
  | nil => simp [find]
  | cons a s ih =>
    simp only [find, List.isPrefixOf_iff_prefix, List.infix_cons_iff, not_or]
    by_cases hp : pat <+: a :: s
    · simp [hp]
    · simp [hp, ih]

theorem find_isSome_iff {pat s : List α} : (∃ i, find pat s = some i) ↔ pat <:+: s := by
  cases h : find pat s with
  | none => simpa using find_eq_none_iff.mp h
  | some i => simpa using Classical.byContradiction fun hn => by rw [find_eq_none_iff.mpr hn] at h; cases h

theorem find_le {pat s : List α} {i : Nat} (h : find pat s = some i) : i + pat.length ≤ s.length := by
  have hp := (find_eq_some_iff.mp h).1
  by_cases hi : i ≤ s.length
  · have := hp.length_le; rw [List.length_drop] at this; omega
  · have h0 : pat = [] := by simpa [List.drop_eq_nil_of_le (show s.length ≤ i by omega)] using hp
    exact absurd (h0 ▸ List.nil_prefix) ((find_eq_some_iff.mp h).2 0 (by omega))

theorem findFrom_bounds {pat s : List α} {pos i : Nat} (h : findFrom pat s pos = some i)
    (hp : pat ≠ []) : pos ≤ i ∧ i < s.length := by
  obtain ⟨j, hj, rfl⟩ := Option.map_eq_some_iff.mp h
  have hle := find_le hj
  have hpos := List.length_pos_iff.mpr hp
  rw [List.length_drop] at hle
  omega

theorem find_split {pat s : List α} {i : Nat} (h : find pat s = some i) :
    s = s.take i ++ pat ++ s.drop (i + pat.length) := by
  obtain ⟨t, ht⟩ := (find_eq_some_iff.mp h).1
  have hd : s.drop (i + pat.length) = t := by rw [← List.drop_drop, ← ht]; simp
  rw [hd, List.append_assoc, ht, List.take_append_drop]

/-! ## Growing the text -/

omit [DecidableEq α] in
theorem prefix_drop_append {pat s t : List α} {j : Nat} (hj : j + pat.length ≤ s.length) :
    pat <+: (s ++ t).drop j ↔ pat <+: s.drop j := by
  rw [List.drop_append_of_le_length (by omega)]
  constructor
  · intro h
    exact List.prefix_of_prefix_length_le h (List.prefix_append _ _) (by rw [List.length_drop]; omega)
  · exact fun h => h.trans (List.prefix_append _ _)

/-- An occurrence found in a prefix is the one found in the whole. -/
theorem find_append {pat s : List α} {i : Nat} (h : find pat s = some i) (t : List α) :
    find pat (s ++ t) = some i := by
  have hle := find_le h
  obtain ⟨h1, h2⟩ := find_eq_some_iff.mp h
  refine find_eq_some_iff.mpr ⟨(prefix_drop_append hle).mpr h1, fun j hj => ?_⟩
  rw [prefix_drop_append (by omega)]; exact h2 j hj

/-- A text none of whose positions starts the pattern is skipped. -/
theorem find_shift {pat a b : List α} (h : ∀ j < a.length, ¬ pat <+: (a ++ b).drop j) :
    find pat (a ++ b) = (find pat b).map (· + a.length) := by
  induction a with
  | nil => simp
  | cons x a ih =>
    have h0 : ¬ pat <+: x :: (a ++ b) := by simpa using h 0 (by simp)
    have ha := ih fun j hj => by simpa using h (j + 1) (by simp; omega)
    simp only [List.cons_append, find, List.isPrefixOf_iff_prefix, if_neg h0, ha, Option.map_map, List.length_cons]
    rfl

/-- A text free of the pattern's first symbol is skipped. -/
theorem find_skip {c : α} {p a : List α} (h : c ∉ a) (b : List α) :
    find (c :: p) (a ++ b) = (find (c :: p) b).map (· + a.length) := by
  refine find_shift fun j hj hp => h ?_
  obtain ⟨t, ht⟩ := hp
  rw [List.drop_append_of_le_length (by omega), List.drop_eq_getElem_cons hj] at ht
  simp only [List.cons_append, List.cons.injEq] at ht
  exact ht.1 ▸ List.getElem_mem hj

/-- And so is one free of the pattern's second symbol, if that does not follow at once. -/
theorem find_skip_second {c d e : α} {p a : List α} (h : d ∉ a) (he : e ≠ d) (b : List α) :
    find (c :: d :: p) (a ++ e :: b) = (find (c :: d :: p) (e :: b)).map (· + a.length) := by
  refine find_shift fun j hj hp => ?_
  obtain ⟨t, ht⟩ := hp
  have hsecond : (a ++ e :: b)[j + 1]? = some d := by
    rw [← List.getElem?_drop, ← ht]
    rfl
  by_cases hlast : j + 1 < a.length
  · rw [List.getElem?_append_left hlast] at hsecond
    exact h (List.mem_of_getElem? hsecond)
  · rw [List.getElem?_append_right (by omega), show j + 1 - a.length = 0 by omega] at hsecond
    exact he (Option.some.inj hsecond)

theorem find_here {pat b : List α} : find pat (pat ++ b) = some 0 :=
  find_eq_some_iff.mpr ⟨by simp, fun _ hj => by omega⟩

/-- The first copy of a symbol is right after a text free of it. -/
theorem find_char {c : α} {a : List α} (h : c ∉ a) (b : List α) : find [c] (a ++ c :: b) = some a.length := by
  rw [find_skip h, show c :: b = [c] ++ b from rfl, find_here]; simp

theorem find_char_none {c : α} {a : List α} (h : c ∉ a) : find [c] a = none := by
  rw [find_eq_none_iff, List.singleton_infix_iff]; exact h

/-- The same, from where that text starts. -/
theorem findFrom_char {c : α} {p a : List α} (h : c ∉ a) (b : List α) :
    findFrom [c] (p ++ (a ++ c :: b)) p.length = some (p.length + a.length) := by
  unfold findFrom
  rw [List.drop_left, find_char h, Option.map_some, Nat.add_comm]

/-- A pattern closing a text that holds no earlier copy is found where it closes it. -/
theorem find_closing {pat a : List α} (h0 : pat ≠ []) (h : ¬ pat <:+: (a ++ pat).dropLast) (b : List α) :
    find pat (a ++ pat ++ b) = some a.length := by
  refine find_append (find_eq_some_iff.mpr ⟨by simp, fun j hj hp => h ?_⟩) b
  have hlen : 0 < pat.length := List.length_pos_iff.mpr h0
  have hd : (a ++ pat).dropLast.drop j = ((a ++ pat).drop j).dropLast := by
    rw [List.dropLast_eq_take, List.dropLast_eq_take, List.drop_take, List.length_drop]; congr 1; omega
  have hpre : pat <+: (a ++ pat).dropLast.drop j := by
    rw [hd, List.dropLast_eq_take]
    refine List.prefix_take_iff.mpr ⟨hp, ?_⟩
    simp only [List.length_drop, List.length_append]; omega
  exact hpre.isInfix.trans (List.drop_suffix _ _).isInfix

/-- A proper prefix of a text that the pattern closes does not hold it. -/
theorem find_closing_cut {pat a u : List α} (h : find pat (a ++ pat) = some a.length)
    (hu : u <+: a ++ pat) (hne : u ≠ a ++ pat) : find pat u = none := by
  rcases hf : find pat u with _ | i
  · rfl
  · obtain ⟨t, ht⟩ := hu
    have hi := find_append hf t
    rw [ht, h] at hi
    cases hi
    have hle := find_le hf
    have hlen := congrArg List.length ht
    simp only [List.length_append] at hlen
    have h0 : t = [] := List.eq_nil_of_length_eq_zero (by omega)
    subst h0
    exact absurd (by simpa using ht) hne

theorem rfind_some {pat s : List α} {i : Nat} (h : rfind pat s = some i) : i ≤ s.length ∧ pat <+: s.drop i := by
  induction s generalizing i with
  | nil =>
    rw [rfind] at h
    split at h
    · rename_i hempty
      cases h
      exact ⟨le_rfl, List.isEmpty_iff.mp hempty ▸ List.nil_prefix⟩
    · cases h
  | cons a s ih =>
    rw [rfind] at h
    cases hs : rfind pat s with
    | some j =>
      rw [hs] at h
      cases h
      obtain ⟨hle, hprefix⟩ := ih hs
      exact ⟨Nat.succ_le_succ hle, hprefix⟩
    | none =>
      rw [hs] at h
      simp only at h
      split at h
      · rename_i hp
        cases h
        exact ⟨Nat.zero_le _, List.isPrefixOf_iff_prefix.mp hp⟩
      · cases h

/-- The last copy is not in a text free of the pattern's first symbol. -/
theorem rfind_skip {c : α} {p a : List α} (h : c ∉ a) (b : List α) :
    rfind (c :: p) (a ++ b) = (rfind (c :: p) b).map (· + a.length) := by
  induction a with
  | nil => simp
  | cons x a ih =>
    obtain ⟨hx, ha⟩ := List.ne_and_not_mem_of_not_mem_cons h
    rw [List.cons_append, rfind, ih ha]
    cases rfind (c :: p) b with
    | some i => rfl
    | none => simp [hx]

/-! ## Separators -/

omit [DecidableEq α] in
/-- A separator the pattern does not contain splits the question of whether it occurs. -/
theorem infix_sep {pat a b : List α} {c : α} (hc : c ∉ pat) :
    pat <:+: a ++ c :: b ↔ pat <:+: a ∨ pat <:+: b := by
  constructor
  · intro hgiven
    obtain ⟨x, y, h⟩ := hgiven
    rw [List.append_assoc] at h
    rcases List.append_eq_append_iff.mp h with ⟨z, rfl, hz⟩ | ⟨z, rfl, hz⟩
    · rcases List.append_eq_append_iff.mp hz with ⟨w, rfl, _⟩ | ⟨w, rfl, hw⟩
      · exact Or.inl ⟨x, w, by simp⟩
      · cases w with
        | nil => exact Or.inl ⟨x, [], by simp⟩
        | cons d w => simp only [List.cons_append, List.cons.injEq] at hw; exact absurd (by simp [← hw.1]) hc
    · cases z with
      | nil =>
        simp only [List.nil_append] at hz
        cases pat with
        | nil => exact Or.inl ⟨[], a, by simp⟩
        | cons d p => simp only [List.cons_append, List.cons.injEq] at hz; exact absurd (by simp [hz.1]) hc
      | cons d z =>
        simp only [List.cons_append, List.cons.injEq] at hz
        exact Or.inr ⟨z, y, by rw [hz.2, List.append_assoc]⟩
  · rintro (h | h)
    · exact h.trans (List.prefix_append _ _).isInfix
    · exact h.trans ((List.suffix_cons _ _).trans (List.suffix_append _ _)).isInfix

omit [DecidableEq α] in
theorem prefix_sep {pat a b : List α} {c : α} (hc : c ∉ pat) (h : pat <+: a ++ c :: b) : pat <+: a := by
  obtain ⟨t, ht⟩ := h
  rcases List.append_eq_append_iff.mp ht with ⟨z, hz, -⟩ | ⟨z, hz, hrest⟩
  · exact ⟨z, hz.symm⟩
  · cases z with
    | nil => exact ⟨[], by rw [hz, List.append_nil, List.append_nil]⟩
    | cons d z =>
      cases hrest
      exact absurd (by simp [hz]) hc

/-- The first copy is before such a separator, or else the first one behind it. -/
theorem find_sep {pat a : List α} {c : α} (hc : c ∉ pat) (b : List α) :
    find pat (a ++ c :: b) = (find pat a).or ((find pat b).map (· + (a.length + 1))) := by
  cases ha : find pat a with
  | some i => exact find_append ha _
  | none =>
    have hfree := find_eq_none_iff.mp ha
    have hnone : ∀ j < (a ++ [c]).length, ¬ pat <+: ((a ++ [c]) ++ b).drop j := by
      intro j hj hp
      rw [List.length_append, List.length_singleton] at hj
      rw [List.append_assoc, List.singleton_append, List.drop_append_of_le_length (by omega)] at hp
      exact hfree ((prefix_sep hc hp).isInfix.trans (List.drop_suffix _ _).isInfix)
    have hshift := find_shift hnone
    rw [List.append_assoc, List.singleton_append, List.length_append, List.length_singleton] at hshift
    exact hshift

end Frnetlib.Base
