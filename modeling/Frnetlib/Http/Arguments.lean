/-
  Frnetlib.Http.Arguments — the argument list that `construct` writes, and
  `parse_argument_list` on it.

  The loop reads the string from its index on (`parseArgumentsFrom_shift`), an argument
  with another behind it up to the `&` (`parseArguments_step`) and the last one up to
  where the line ends at the end of the string begin (`parseArguments_last`). So a list
  that is written is read back (`parseArgumentsFrom_join`). Where an `&` comes before the
  `=`, the length of the value wraps around (`parseArguments_swapped`).
-/

import Frnetlib.Http.HeaderBlock
import Frnetlib.Http.HttpRequest

namespace Frnetlib

open Base

namespace Http

/-! ## What is written -/

/-- An argument that can be told from what surrounds it. -/
def Argument (c : Entry) : Prop := 61 ∉ c.1 ∧ 38 ∉ c.1 ∧ 38 ∉ c.2 ∧ ∀ b ∈ c.2, isPrint b = true

theorem joinArguments_cons (c d : Entry) (args : List Entry) :
    HttpRequest.joinArguments (c :: d :: args) = c.1 ++ 61 :: (c.2 ++ 38 :: HttpRequest.joinArguments (d :: args)) := by
  simp [HttpRequest.joinArguments, HttpRequest.argument, List.intercalate]

theorem joinArguments_one (c : Entry) : HttpRequest.joinArguments [c] = c.1 ++ 61 :: c.2 := by
  simp [HttpRequest.joinArguments, HttpRequest.argument, List.intercalate]

/-! ## What is read -/

/-- Splitting an argument list never throws: what it cuts out starts within the string. -/
theorem parseArgumentsFrom_some (str : Bytes) (readIndex : Nat) : ∃ args, parseArgumentsFrom str readIndex = some args := by
  fun_induction parseArgumentsFrom str readIndex with
  | case1 => exact ⟨[], rfl⟩
  | case2 => exact ⟨_, rfl⟩
  | case3 readIndex equalPos hf h strSize hn =>
    have := findFrom_bounds hf (by simp)
    exact (hn _ _ (substr_of_le (by omega) _) (substr_of_le (by omega) _)).elim
  | case4 readIndex equalPos hf andPos h _ k v hv hk ih => obtain ⟨args, ha⟩ := ih; exact ⟨_, by rw [ha]; rfl⟩
  | case5 readIndex equalPos hf andPos h hb hn =>
    have := findFrom_bounds hf (by simp)
    exact (hn _ _ (substr_of_le (by omega) _) (substr_of_le (by omega) _)).elim

theorem findFrom_shift {α : Type} [DecidableEq α] (pat pre s : List α) (i : Nat) :
    findFrom pat (pre ++ s) (pre.length + i) = (findFrom pat s i).map (· + pre.length) := by
  have hdrop : (pre ++ s).drop (pre.length + i) = s.drop i := by rw [← List.drop_drop, List.drop_left]
  unfold findFrom
  rw [hdrop, Option.map_map]
  congr 1
  funext j
  show j + (pre.length + i) = j + i + pre.length
  omega

theorem substr_shift {α : Type} (pre s : List α) (i n : Nat) : substr (pre ++ s) (pre.length + i) n = substr s i n := by
  have hdrop : (pre ++ s).drop (pre.length + i) = s.drop i := by rw [← List.drop_drop, List.drop_left]
  unfold substr
  rw [hdrop, List.length_append]
  simp only [Nat.add_lt_add_iff_left]

theorem usub_shift (c a b : Nat) : usub (c + a) (c + b) = usub a b := by
  unfold usub
  simp only [Nat.add_le_add_iff_left, Nat.add_sub_add_left]

/-- Line ends at the end of a text. -/
def trimEnds (s : Bytes) : Bytes := s.rdropWhile fun b => b = LF ∨ b = CR

theorem trimEnds_append (pre : Bytes) {s : Bytes} (h : trimEnds s ≠ []) : trimEnds (pre ++ s) = pre ++ trimEnds s := by
  unfold trimEnds List.rdropWhile at h ⊢
  rw [List.reverse_append, List.dropWhile_append]
  rw [if_neg (by simpa using h), List.reverse_append, List.reverse_reverse]

theorem trimEnds_eq_nil {s : Bytes} : trimEnds s = [] ↔ ∀ b ∈ s, b = LF ∨ b = CR := by
  simp [trimEnds, List.rdropWhile_eq_nil_iff]

theorem trimEnds_cons {b : UInt8} (hb : b ≠ LF ∧ b ≠ CR) (v : Bytes) : trimEnds (b :: v) = b :: trimEnds v := by
  have hkeep : [b].dropWhile (fun b => decide (b = LF ∨ b = CR)) = [b] := by simp [hb]
  unfold trimEnds List.rdropWhile
  rw [List.reverse_cons, List.dropWhile_append, hkeep]
  split
  · rename_i hempty
    rw [List.isEmpty_iff.mp hempty]
    rfl
  · rw [List.reverse_append]
    rfl

theorem findFrom_mem {c : UInt8} {s : Bytes} {i j : Nat} (h : findFrom [c] s i = some j) : c ∈ s := by
  obtain ⟨k, hk, _⟩ := Option.map_eq_some_iff.mp h
  have hin : [c] <:+: s.drop i := find_isSome_iff.mp ⟨k, hk⟩
  exact List.mem_of_mem_drop (hin.mem (List.mem_singleton_self c))

/-- The loop from an index on reads the string from there on. -/
theorem parseArgumentsFrom_shift (pre s : Bytes) (i : Nat) :
    parseArgumentsFrom (pre ++ s) (pre.length + i) = parseArgumentsFrom s i := by
  fun_induction parseArgumentsFrom s i with
  | case1 i h =>
    rw [parseArgumentsFrom, findFrom_shift, h]
    rfl
  | case2 i equalPos h hand strSize k v hv hk =>
    have htrim : (trimEnds (pre ++ s)).length = pre.length + strSize := by
      have hne : trimEnds s ≠ [] := by
        rw [Ne, trimEnds_eq_nil]
        exact fun hall => absurd (hall _ (findFrom_mem h)) (by decide)
      rw [trimEnds_append pre hne, List.length_append]
      rfl
    have hand' : findFrom [38] (pre ++ s) (pre.length + i) = none := by
      rw [findFrom_shift, hand]
      rfl
    have hvalue : substr (pre ++ s) (equalPos + pre.length + 1)
        (usub (usub (pre.length + strSize) (equalPos + pre.length)) 1) = some v := by
      rw [Nat.add_comm equalPos, usub_shift, Nat.add_assoc, substr_shift]
      exact hv
    have hkey : substr (pre ++ s) (pre.length + i) (usub (equalPos + pre.length) (pre.length + i)) = some k := by
      rw [Nat.add_comm equalPos, usub_shift, substr_shift]
      exact hk
    rw [parseArgumentsFrom, findFrom_shift, h]
    simp only [Option.map_some]
    split
    · rw [show ((pre ++ s).rdropWhile fun b => b = LF ∨ b = CR).length = pre.length + strSize from htrim, hkey, hvalue]
    · rename_i hs
      rw [hand'] at hs
      cases hs
  | case3 i equalPos h hand strSize hn =>
    have := findFrom_bounds h (by simp)
    exact (hn _ _ (substr_of_le (by omega) _) (substr_of_le (by omega) _)).elim
  | case4 i equalPos h andPos hand this k v hv hk ih =>
    have hand' : findFrom [38] (pre ++ s) (pre.length + i) = some (andPos + pre.length) := by
      rw [findFrom_shift, hand]
      rfl
    have hvalue : substr (pre ++ s) (equalPos + pre.length + 1)
        (usub (usub (andPos + pre.length) (equalPos + pre.length)) 1) = some v := by
      rw [Nat.add_comm equalPos, Nat.add_comm andPos, usub_shift, Nat.add_assoc, substr_shift]
      exact hv
    have hkey : substr (pre ++ s) (pre.length + i) (usub (equalPos + pre.length) (pre.length + i)) = some k := by
      rw [Nat.add_comm equalPos, usub_shift, substr_shift]
      exact hk
    rw [parseArgumentsFrom, findFrom_shift, h]
    simp only [Option.map_some]
    split
    · rename_i hs
      rw [hand'] at hs
      cases hs
    · rename_i andPos' hs
      rw [hand'] at hs
      cases hs
      have hnext : andPos + pre.length + 1 = pre.length + (andPos + 1) := by omega
      simp only [hkey, hvalue, hnext, ih]
  | case5 i equalPos h andPos hand this hn =>
    have := findFrom_bounds h (by simp)
    exact (hn _ _ (substr_of_le (by omega) _) (substr_of_le (by omega) _)).elim

/-- An argument with another behind it. -/
theorem parseArguments_step {k v : Bytes} (hequal : 61 ∉ k) (hand : 38 ∉ k) (hv : 38 ∉ v) (rest : Bytes) :
    parseArgumentsFrom (k ++ 61 :: (v ++ 38 :: rest)) 0 = (parseArgumentsFrom rest 0).map (⟨k, v⟩ :: ·) := by
  have hequalPos : findFrom [61] (k ++ 61 :: (v ++ 38 :: rest)) 0 = some k.length := by
    simpa using findFrom_char (p := []) hequal (v ++ 38 :: rest)
  have handPos : findFrom [38] (k ++ 61 :: (v ++ 38 :: rest)) 0 = some (k.length + v.length + 1) := by
    have hnot : 38 ∉ k ++ 61 :: v := by simp [hand, hv]
    have hfind := findFrom_char (p := []) hnot rest
    simp only [List.nil_append, List.append_assoc, List.cons_append, List.length_append, List.length_cons,
      List.length_nil, Nat.zero_add] at hfind
    exact hfind
  have hkey : substr (k ++ 61 :: (v ++ 38 :: rest)) 0 (usub k.length 0) = some k :=
    substr_mid [] k _ rfl (usub_of_le (Nat.zero_le _))
  have hvalue : substr (k ++ 61 :: (v ++ 38 :: rest)) (k.length + 1) (usub (usub (k.length + v.length + 1) k.length) 1) =
      some v := by
    have hsplit : k ++ 61 :: (v ++ 38 :: rest) = (k ++ [61]) ++ (v ++ 38 :: rest) := by simp
    rw [hsplit]
    refine substr_mid _ _ _ (by simp) ?_
    rw [usub_of_le (show k.length ≤ k.length + v.length + 1 by omega), usub_of_le (by omega)]
    omega
  have hshift := parseArgumentsFrom_shift (k ++ 61 :: (v ++ [38])) rest 0
  simp only [List.append_assoc, List.cons_append, List.nil_append, List.length_append, List.length_cons,
    List.length_nil] at hshift
  rw [parseArgumentsFrom, hequalPos]
  simp only
  split
  · rename_i hs
    rw [handPos] at hs
    cases hs
  · rename_i andPos hs
    rw [handPos] at hs
    cases hs
    have hnext : k.length + v.length + 1 + 1 = k.length + (v.length + (0 + 1) + 1) + 0 := by omega
    simp only [hkey, hvalue, hnext, hshift]

/-- The last argument. -/
theorem parseArguments_last {k v : Bytes} (hequal : 61 ∉ k) (hand : 38 ∉ k) (hv : 38 ∉ v) :
    parseArgumentsFrom (k ++ 61 :: v) 0 = some [⟨k, trimEnds v⟩] := by
  have hequalPos : findFrom [61] (k ++ 61 :: v) 0 = some k.length := by
    simpa using findFrom_char (p := []) hequal v
  have handPos : findFrom [38] (k ++ 61 :: v) 0 = none := by
    have hnot : 38 ∉ k ++ 61 :: v := by simp [hand, hv]
    rw [findFrom, List.drop_zero, find_char_none hnot]
    rfl
  have htrim : trimEnds (k ++ 61 :: v) = k ++ 61 :: trimEnds v := by
    have hchar : trimEnds (61 :: v) = 61 :: trimEnds v := trimEnds_cons (by decide) v
    rw [trimEnds_append k (by simp [hchar]), hchar]
  have hkey : substr (k ++ 61 :: v) 0 (usub k.length 0) = some k :=
    substr_mid [] k _ rfl (usub_of_le (Nat.zero_le _))
  have hvalue : substr (k ++ 61 :: v) (k.length + 1) (usub (usub (trimEnds (k ++ 61 :: v)).length k.length) 1) =
      some (trimEnds v) := by
    obtain ⟨t, ht⟩ : trimEnds v <+: v := List.rdropWhile_prefix _ v
    have hsplit : k ++ 61 :: v = (k ++ [61]) ++ (trimEnds v ++ t) := by
      rw [ht]
      simp
    rw [htrim, hsplit]
    refine substr_mid _ _ _ (by simp) ?_
    have hlength : (k ++ 61 :: trimEnds v).length = k.length + (trimEnds v).length + 1 := by
      simp only [List.length_append, List.length_cons]
      omega
    rw [hlength, usub_of_le (show k.length ≤ k.length + (trimEnds v).length + 1 by omega), usub_of_le (by omega)]
    omega
  rw [parseArgumentsFrom, hequalPos]
  simp only
  split
  · have hsize : ((k ++ 61 :: v).rdropWhile fun b => b = LF ∨ b = CR).length = (trimEnds (k ++ 61 :: v)).length := rfl
    rw [hsize, hkey, hvalue]
  · rename_i hs
    rw [handPos] at hs
    cases hs

/-- A text is cut at a separator in one way. -/
theorem first_unique {c : UInt8} {u v u' v' : Bytes} (h : u ++ c :: v = u' ++ c :: v') (hu : c ∉ u) (hu' : c ∉ u') :
    u = u' ∧ v = v' := by
  have hlength : u.length = u'.length := by
    have hfind := find_char hu v
    rw [h, find_char hu' v'] at hfind
    exact (Option.some.inj hfind).symm
  obtain ⟨hu, hv⟩ := List.append_inj h hlength
  exact ⟨hu, (List.cons.inj hv).2⟩

/-- A name and a value that a list can hold anywhere. -/
def Apart (c : Entry) : Prop := 61 ∉ c.1 ∧ 38 ∉ c.1 ∧ 38 ∉ c.2

theorem Argument.apart {c : Entry} (h : Argument c) : Apart c := ⟨h.1, h.2.1, h.2.2.1⟩

theorem joinArguments_suffix (init : List Entry) (c : Entry) (rest : List Entry) :
    HttpRequest.joinArguments (c :: rest) <:+ HttpRequest.joinArguments (init ++ c :: rest) := by
  induction init with
  | nil => exact List.suffix_rfl
  | cons a init ih =>
    obtain ⟨d, tail, hd⟩ := List.exists_cons_of_ne_nil (List.append_ne_nil_of_right_ne_nil init (List.cons_ne_nil c rest))
    rw [hd] at ih
    rw [List.cons_append, hd, joinArguments_cons]
    exact ih.trans ⟨a.1 ++ 61 :: (a.2 ++ [38]), by simp⟩

theorem joinArguments_value {args : List Entry} {c : Entry} (hc : c ∈ args) : c.2 <:+: HttpRequest.joinArguments args := by
  obtain ⟨init, rest, rfl⟩ := List.append_of_mem hc
  refine List.IsInfix.trans ?_ (joinArguments_suffix init c rest).isInfix
  cases rest with
  | nil => exact ⟨c.1 ++ [61], [], by simp [joinArguments_one]⟩
  | cons d rest => exact ⟨c.1 ++ [61], 38 :: HttpRequest.joinArguments (d :: rest), by simp [joinArguments_cons]⟩

/-- Such arguments are read, and the rest of the list after them. -/
theorem parseArguments_behind {init : List Entry} (hinit : ∀ a ∈ init, Apart a) (c : Entry) (rest : List Entry) (y : Bytes) :
    parseArgumentsFrom (HttpRequest.joinArguments (init ++ c :: rest) ++ y) 0 =
      (parseArgumentsFrom (HttpRequest.joinArguments (c :: rest) ++ y) 0).map (init ++ ·) := by
  induction init with
  | nil => simp
  | cons a init ih =>
    obtain ⟨h1, h2, h3⟩ := hinit a (by simp)
    have ih := ih fun a ha => hinit a (List.mem_cons_of_mem _ ha)
    obtain ⟨d, tail, hd⟩ := List.exists_cons_of_ne_nil (List.append_ne_nil_of_right_ne_nil init (List.cons_ne_nil c rest))
    rw [hd] at ih
    rw [List.cons_append, hd, joinArguments_cons, List.append_assoc, List.cons_append, List.append_assoc,
      List.cons_append, parseArguments_step h1 h2 h3, ih, Option.map_map]
    rfl

/-- An argument whose name has an `&` in it takes the rest of the string for its value. -/
theorem parseArguments_swapped {u w t : Bytes} (hand : 38 ∉ u) (hequal : 61 ∉ u ++ 38 :: w)
    (hlen : (u ++ 38 :: (w ++ 61 :: t)).length < 2 ^ 64) :
    parseArgumentsFrom (u ++ 38 :: (w ++ 61 :: t)) 0 = (parseArgumentsFrom (w ++ 61 :: t) 0).map (⟨u ++ 38 :: w, t⟩ :: ·) := by
  have hequalPos : findFrom [61] (u ++ 38 :: (w ++ 61 :: t)) 0 = some (u ++ 38 :: w).length := by
    simpa using findFrom_char (p := []) hequal t
  have handPos : findFrom [38] (u ++ 38 :: (w ++ 61 :: t)) 0 = some u.length := by
    simpa using findFrom_char (p := []) hand (w ++ 61 :: t)
  have hkey : substr (u ++ 38 :: (w ++ 61 :: t)) 0 (usub (u ++ 38 :: w).length 0) = some (u ++ 38 :: w) := by
    have hsplit : u ++ 38 :: (w ++ 61 :: t) = (u ++ 38 :: w) ++ 61 :: t := by simp
    rw [hsplit]
    exact substr_mid [] (u ++ 38 :: w) _ rfl (usub_of_le (Nat.zero_le _))
  -- the length of the value wraps around
  have hvalue : substr (u ++ 38 :: (w ++ 61 :: t)) ((u ++ 38 :: w).length + 1)
      (usub (usub u.length (u ++ 38 :: w).length) 1) = some t := by
    have hsplit : u ++ 38 :: (w ++ 61 :: t) = ((u ++ 38 :: w) ++ [61]) ++ t := by simp
    simp only [List.length_append, List.length_cons] at hlen
    have hwrap : t.length ≤ usub (usub u.length (u ++ 38 :: w).length) 1 := by
      have hover : usub u.length (u ++ 38 :: w).length = 2 ^ 64 - (w.length + 1) := by
        rw [usub, List.length_append, List.length_cons, if_neg (by omega)]
        omega
      rw [hover, usub_of_le (by omega)]
      omega
    have hbound : (u ++ 38 :: w).length + 1 ≤ (u ++ 38 :: (w ++ 61 :: t)).length := by
      simp only [List.length_append, List.length_cons]
      omega
    have hfront : (u ++ 38 :: w ++ [61]).length = (u ++ 38 :: w).length + 1 := List.length_append
    rw [substr_of_le hbound, hsplit, List.drop_left' hfront, List.take_of_length_le hwrap]
  have hshift := parseArgumentsFrom_shift (u ++ [38]) (w ++ 61 :: t) 0
  rw [List.append_assoc, List.singleton_append, List.length_append, List.length_singleton, Nat.add_zero] at hshift
  rw [parseArgumentsFrom, hequalPos]
  simp only
  split
  · rename_i hs
    rw [handPos] at hs
    cases hs
  · rename_i andPos hs
    rw [handPos] at hs
    cases hs
    simp only [hkey, hvalue, hshift]

theorem parseArguments_none {s : Bytes} (h : 61 ∉ s) : parseArgumentsFrom s 0 = some [] := by
  have hequalPos : findFrom [61] s 0 = none := by
    rw [findFrom, List.drop_zero, find_char_none h]
    rfl
  rw [parseArgumentsFrom, hequalPos]

/-- The arguments of a string. -/
def arguments (s : Bytes) : List Entry := (parseArgumentsFrom s 0).getD []

theorem parseArgumentsFrom_eq (s : Bytes) : parseArgumentsFrom s 0 = some (arguments s) := by
  obtain ⟨args, h⟩ := parseArgumentsFrom_some s 0
  rw [arguments, h]
  rfl

theorem arguments_of_some {s : Bytes} {args : List Entry} (h : parseArgumentsFrom s 0 = some args) : arguments s = args := by
  rw [arguments, h]
  rfl

theorem arguments_none {s : Bytes} (h : 61 ∉ s) : arguments s = [] := arguments_of_some (parseArguments_none h)

theorem arguments_last {k v : Bytes} (hequal : 61 ∉ k) (hand : 38 ∉ k) (hv : 38 ∉ v) :
    arguments (k ++ 61 :: v) = [⟨k, trimEnds v⟩] :=
  arguments_of_some (parseArguments_last hequal hand hv)

theorem arguments_step {k v : Bytes} (hequal : 61 ∉ k) (hand : 38 ∉ k) (hv : 38 ∉ v) (rest : Bytes) :
    arguments (k ++ 61 :: (v ++ 38 :: rest)) = ⟨k, v⟩ :: arguments rest := by
  refine arguments_of_some ?_
  rw [parseArguments_step hequal hand hv, parseArgumentsFrom_eq]
  rfl

theorem arguments_swapped {u w t : Bytes} (hand : 38 ∉ u) (hequal : 61 ∉ u ++ 38 :: w)
    (hlen : (u ++ 38 :: (w ++ 61 :: t)).length < 2 ^ 64) :
    arguments (u ++ 38 :: (w ++ 61 :: t)) = ⟨u ++ 38 :: w, t⟩ :: arguments (w ++ 61 :: t) := by
  refine arguments_of_some ?_
  rw [parseArguments_swapped hand hequal hlen, parseArgumentsFrom_eq]
  rfl

/-- The argument list without the `?` in front. -/
theorem parseArgumentList_eq (s : Bytes) :
    parseArgumentList s = some (arguments (if s.head? = some 63 then s.drop 1 else s)) := by
  cases s with
  | nil =>
    have hempty : arguments [] = [] := arguments_none nofun
    rw [if_neg (by simp), hempty]
    rfl
  | cons b s =>
    rw [parseArgumentList, if_neg (by simp)]
    by_cases hb : (b :: s).head? = some 63
    · have hshift := parseArgumentsFrom_shift [b] s 0
      rw [if_pos hb, if_pos hb, List.drop_succ_cons, List.drop_zero, ← parseArgumentsFrom_eq, ← hshift]
      rfl
    · rw [if_neg hb, if_neg hb, parseArgumentsFrom_eq]

/-- How an argument list is read, one argument at a time. -/
theorem arguments_cases {P : Bytes → List Entry → Prop} (hnone : ∀ s, 61 ∉ s → P s [])
    (hlast : ∀ k v, 61 ∉ k → 38 ∉ k → 38 ∉ v → P (k ++ 61 :: v) [⟨k, trimEnds v⟩])
    (hstep : ∀ k v rest, 61 ∉ k → 38 ∉ k → 38 ∉ v → P rest (arguments rest) →
      P (k ++ 61 :: (v ++ 38 :: rest)) (⟨k, v⟩ :: arguments rest))
    (hswapped : ∀ u w t, 38 ∉ u → 61 ∉ u ++ 38 :: w → P (w ++ 61 :: t) (arguments (w ++ 61 :: t)) →
      P (u ++ 38 :: (w ++ 61 :: t)) (⟨u ++ 38 :: w, t⟩ :: arguments (w ++ 61 :: t)))
    (s : Bytes) (hs : s.length < 2 ^ 64) : P s (arguments s) := by
  induction hn : s.length using Nat.strong_induction_on generalizing s with
  | _ n ih =>
    by_cases hequal : 61 ∈ s
    · obtain ⟨k, t, rfl, hk⟩ := List.eq_append_cons_of_mem hequal
      by_cases hand : 38 ∈ k
      · obtain ⟨u, w, rfl, hu⟩ := List.eq_append_cons_of_mem hand
        have hsplit : u ++ 38 :: w ++ 61 :: t = u ++ 38 :: (w ++ 61 :: t) := by simp
        rw [hsplit] at hs hn ⊢
        rw [arguments_swapped hu hk hs]
        have hshort : (w ++ 61 :: t).length < n := by
          rw [← hn]
          simp only [List.length_append, List.length_cons]
          omega
        exact hswapped u w t hu hk (ih _ hshort _ (by omega) rfl)
      · by_cases htail : 38 ∈ t
        · obtain ⟨v, rest, rfl, hv⟩ := List.eq_append_cons_of_mem htail
          rw [arguments_step hk hand hv]
          have hshort : rest.length < n := by
            rw [← hn]
            simp only [List.length_append, List.length_cons]
            omega
          exact hstep k v rest hk hand hv (ih _ hshort _ (by omega) rfl)
        · rw [arguments_last hk hand htail]
          exact hlast k t hk hand htail
    · rw [arguments_none hequal]
      exact hnone s hequal

/-- A value without line ends is not trimmed. -/
theorem trimEnds_print {v : Bytes} (hv : ∀ b ∈ v, isPrint b = true) : trimEnds v = v := by
  unfold trimEnds
  rw [List.rdropWhile_eq_self_iff]
  intro hne
  obtain ⟨h1, h2⟩ := isPrint_plain (hv _ (List.getLast_mem hne))
  simpa only [decide_eq_true_eq, not_or] using ⟨h2, h1⟩

theorem parseArgumentsFrom_join (c : Entry) (args : List Entry) (h : ∀ a ∈ c :: args, Argument a) (pre : Bytes) :
    parseArgumentsFrom (pre ++ HttpRequest.joinArguments (c :: args)) pre.length = some (c :: args) := by
  have hshift := parseArgumentsFrom_shift pre (HttpRequest.joinArguments (c :: args)) 0
  rw [Nat.add_zero] at hshift
  rw [hshift]
  clear hshift
  induction args generalizing c with
  | nil =>
    obtain ⟨h1, h2, h3, h4⟩ := h c (by simp)
    rw [joinArguments_one, parseArguments_last h1 h2 h3, trimEnds_print h4]
  | cons d args ih =>
    obtain ⟨h1, h2, h3, -⟩ := h c (by simp)
    rw [joinArguments_cons, parseArguments_step h1 h2 h3, ih d fun a ha => h a (List.mem_cons_of_mem _ ha)]
    rfl

/-! ## Under which names they are stored -/

def lower (c : Entry) : Entry := ⟨c.1.map tolower, c.2⟩

theorem lower_self {args : List Entry} (h : ∀ c ∈ args, c.1.map tolower = c.1) : args.map lower = args := by
  rw [List.map_congr_left fun c hc => ?_, List.map_id]
  obtain ⟨k, v⟩ := c
  have hk : k.map tolower = k := h _ hc
  simp [lower, hk]

end Http

end Frnetlib
