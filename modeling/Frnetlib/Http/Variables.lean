/-
  Frnetlib.Http.Variables — the variables that reading an argument list leaves in a map,
  and what comes of them when they are written as a list again.

  A name is cut at the first `=`, so it may have an `&` in it, and the value is then the
  rest of the list, which is read on behind that `&`. Such a variable survives being
  written only as the last one, and the others only without an `&` (`variables_survive`).
  With some text behind the list, the last one has it in its value (`variables_lost`).
-/

import Frnetlib.Http.RequestRoundTrip

namespace Frnetlib

open Base

namespace Http

/-! ## What is in the map -/

theorem lookup_gets (args : List Entry) (k : Bytes) :
    (args.foldl HttpRequest.emplaceGet ∅).lookup k = (args.map lower).dlookup k := by
  have hfold : ∀ m : StrMap, args.foldl HttpRequest.emplaceGet m = (args.map lower).foldl (fun m c => emplace m c.1 c.2) m := by
    induction args with
    | nil => exact fun m => rfl
    | cons c args ih => exact fun m => ih _
  rw [hfold, lookup_emplaces, AList.lookup_empty, Option.none_or]

/-- Names and values are cut out of the string, a name before an `=` and its value behind. -/
theorem arguments_mem {s : Bytes} (hs : s.length < 2 ^ 64) :
    ∀ c ∈ arguments s, 61 ∉ c.1 ∧ ∃ t, c.1 ++ 61 :: t <:+: s ∧ c.2 <+: t := by
  refine arguments_cases (P := fun s args => ∀ c ∈ args, 61 ∉ c.1 ∧ ∃ t, c.1 ++ 61 :: t <:+: s ∧ c.2 <+: t) ?_ ?_ ?_ ?_ s hs
  · intro s _ c hc
    cases hc
  · intro k v hk _ _ c hc
    cases List.mem_singleton.mp hc
    exact ⟨hk, v, List.infix_rfl, List.rdropWhile_prefix _ v⟩
  · intro k v rest hk _ _ ih c hc
    rcases List.mem_cons.mp hc with rfl | hc
    · exact ⟨hk, v ++ 38 :: rest, List.infix_rfl, List.prefix_append _ _⟩
    · obtain ⟨hname, t, ht, hvalue⟩ := ih c hc
      exact ⟨hname, t, ht.trans ⟨k ++ 61 :: (v ++ [38]), [], by simp⟩, hvalue⟩
  · intro u w t _ hk ih c hc
    rcases List.mem_cons.mp hc with rfl | hc
    · exact ⟨hk, t, ⟨[], [], by simp⟩, List.prefix_rfl⟩
    · obtain ⟨hname, t', ht, hvalue⟩ := ih c hc
      exact ⟨hname, t', ht.trans ⟨u ++ [38], [], by simp⟩, hvalue⟩

/-- The list is read on behind an `&` in a name. -/
theorem arguments_inner {s : Bytes} (hs : s.length < 2 ^ 64) : ∀ c ∈ arguments s, ∀ u w, c.1 = u ++ 38 :: w → 38 ∉ u →
    ∀ a ∈ arguments (w ++ 61 :: c.2), a ∈ arguments s := by
  refine arguments_cases (P := fun _ args => ∀ c ∈ args, ∀ u w, c.1 = u ++ 38 :: w → 38 ∉ u →
    ∀ a ∈ arguments (w ++ 61 :: c.2), a ∈ args) ?_ ?_ ?_ ?_ s hs
  · intro s _ c hc
    cases hc
  · intro k v _ hand _ c hc u w hname
    cases List.mem_singleton.mp hc
    exact absurd (by simp [show k = u ++ 38 :: w from hname]) hand
  · intro k v rest _ hand _ ih c hc u w hname hu a ha
    rcases List.mem_cons.mp hc with rfl | hc
    · exact absurd (by simp [show k = u ++ 38 :: w from hname]) hand
    · exact List.mem_cons_of_mem _ (ih c hc u w hname hu a ha)
  · intro u w t hu _ ih c hc u' w' hname hu' a ha
    rcases List.mem_cons.mp hc with rfl | hc
    · obtain ⟨rfl, rfl⟩ := first_unique hname hu hu'
      exact List.mem_cons_of_mem _ ha
    · exact List.mem_cons_of_mem _ (ih c hc u' w' hname hu' a ha)

/-- The names under which the arguments of a string are stored. -/
def names (s : Bytes) : List Bytes := (arguments s).map fun c => c.1.map tolower

/-- They do not change where the name at the front is put in lower case. -/
theorem names_lower (w t : Bytes) (hequal : 61 ∉ w) (hlen : (w ++ 61 :: t).length < 2 ^ 64) :
    names (w.map tolower ++ 61 :: t) = names (w ++ 61 :: t) := by
  induction hn : w.length using Nat.strong_induction_on generalizing w with
  | _ n ih =>
    have hequal' : 61 ∉ w.map tolower := fun h => hequal ((mem_map_tolower (by decide)).mp h)
    by_cases hand : 38 ∈ w
    · obtain ⟨u, w', rfl, hu⟩ := List.eq_append_cons_of_mem hand
      have hu' : 38 ∉ u.map tolower := fun h => hu ((mem_map_tolower (by decide)).mp h)
      have hmap : (u ++ 38 :: w').map tolower = u.map tolower ++ 38 :: w'.map tolower := by
        rw [List.map_append, List.map_cons]
        rfl
      have hinner : names (w'.map tolower ++ 61 :: t) = names (w' ++ 61 :: t) := by
        refine ih w'.length ?_ w' (fun h => hequal (by simp [h])) ?_ rfl
        · rw [← hn, List.length_append, List.length_cons]
          omega
        · simp only [List.length_append, List.length_cons] at hlen ⊢
          omega
      have hsame : (u.map tolower ++ 38 :: (w'.map tolower ++ 61 :: t)).length = (u ++ 38 :: w' ++ 61 :: t).length := by simp
      rw [hmap] at hequal' ⊢
      rw [List.append_assoc, List.append_assoc, List.cons_append, List.cons_append, names, names,
        arguments_swapped hu' hequal' (by omega), arguments_swapped hu hequal (by simpa using hlen), List.map_cons,
        List.map_cons, ← hmap, map_tolower_self]
      exact congrArg _ hinner
    · have hand' : 38 ∉ w.map tolower := fun h => hand ((mem_map_tolower (by decide)).mp h)
      by_cases htail : 38 ∈ t
      · obtain ⟨v, rest, rfl, hv⟩ := List.eq_append_cons_of_mem htail
        rw [names, names, arguments_step hequal' hand' hv, arguments_step hequal hand hv, List.map_cons, List.map_cons,
          map_tolower_self]
      · rw [names, names, arguments_last hequal' hand' htail, arguments_last hequal hand htail, List.map_singleton,
          List.map_singleton, map_tolower_self]

/-- What reading a list leaves in a map: names in lower case and without `=`, and with a
    name that has an `&` in it, the names of what is read on behind that. -/
structure Variables (m : StrMap) : Prop where
  name : ∀ c ∈ m.entries, c.1.map tolower = c.1 ∧ 61 ∉ c.1
  inner : ∀ c ∈ m.entries, ∀ u w, c.1 = u ++ 38 :: w → 38 ∉ u → ∀ k ∈ names (w ++ 61 :: c.2), k ∈ m
  plain : ∀ c ∈ m.entries, LF ∉ c.1 ∧ LF ∉ c.2

theorem variables_empty : Variables ∅ := ⟨nofun, nofun, nofun⟩

theorem variables_read {s : Bytes} (hs : s.length < 2 ^ 64) (hlf : LF ∉ s) :
    Variables ((arguments s).foldl HttpRequest.emplaceGet ∅) := by
  have hstored : ∀ c ∈ ((arguments s).foldl HttpRequest.emplaceGet ∅).entries, ∃ a ∈ arguments s, c = lower a := by
    intro c hc
    have hlookup : ((arguments s).foldl HttpRequest.emplaceGet ∅).lookup c.1 = some c.2 := AList.mem_lookup_iff.mpr hc
    rw [lookup_gets] at hlookup
    obtain ⟨a, ha, hac⟩ := List.mem_map.mp (List.of_mem_dlookup hlookup)
    exact ⟨a, ha, hac.symm⟩
  refine ⟨fun c hc => ?_, fun c hc u w hname hu k hk => ?_, fun c hc => ?_⟩
  · obtain ⟨a, ha, rfl⟩ := hstored c hc
    have hequal := (arguments_mem hs a ha).1
    exact ⟨map_tolower_self _, fun h => hequal ((mem_map_tolower (by decide)).mp h)⟩
  · obtain ⟨a, ha, rfl⟩ := hstored c hc
    obtain ⟨hequal, t, ht, hvalue⟩ := arguments_mem hs a ha
    -- the name as it was read, before it was put in lower case
    have hand : 38 ∈ a.1 := by
      refine (mem_map_tolower (by decide)).mp ?_
      rw [show a.1.map tolower = u ++ 38 :: w from hname]
      simp
    obtain ⟨u', w', ha1, hu'⟩ := List.eq_append_cons_of_mem hand
    have hmap : a.1.map tolower = u'.map tolower ++ 38 :: w'.map tolower := by
      rw [ha1, List.map_append, List.map_cons]
      rfl
    obtain ⟨-, rfl⟩ := first_unique (hname.symm.trans hmap) hu fun h => hu' ((mem_map_tolower (by decide)).mp h)
    have hshort : (w' ++ 61 :: a.2).length < 2 ^ 64 := by
      have hle := ht.length_le
      have hle' := hvalue.length_le
      rw [ha1] at hle
      simp only [List.length_append, List.length_cons] at hle ⊢
      omega
    have hw : 61 ∉ w' := fun h => hequal (by rw [ha1]; simp [h])
    rw [show (lower a).2 = a.2 from rfl, names_lower w' a.2 hw hshort] at hk
    obtain ⟨b, hb, rfl⟩ := List.mem_map.mp hk
    have hread := arguments_inner hs a ha u' w' ha1 hu' b hb
    rw [← AList.lookup_isSome, lookup_gets, List.dlookup_isSome, List.mem_keys]
    exact ⟨b.2, List.mem_map.mpr ⟨b, hread, rfl⟩⟩
  · obtain ⟨a, ha, rfl⟩ := hstored c hc
    obtain ⟨-, t, ht, hvalue⟩ := arguments_mem hs a ha
    refine ⟨fun h => hlf (ht.mem ?_), fun h => hlf (ht.mem ?_)⟩
    · exact List.mem_append_left _ ((mem_map_tolower (by decide)).mp h)
    · exact List.mem_append_right _ (List.mem_cons_of_mem _ (hvalue.mem h))

/-! ## Writing them again -/

/-- The variables that survive being written in this order: only the last may have an `&`
    in its name, the values have none otherwise, and the last one ends no line. -/
def Clear (args : List Entry) : Prop :=
  (∀ c ∈ args.dropLast, 38 ∉ c.1 ∧ 38 ∉ c.2) ∧
    ∀ c ∈ args.getLast?, 38 ∈ c.1 ∨ 38 ∉ c.2 ∧ ∀ b ∈ c.2.getLast?, b ≠ LF ∧ b ≠ CR

/-- What the first of the written variables is read as. -/
theorem first_read {c : Entry} (hc : 61 ∉ c.1) (rest : List Entry) {y : Bytes} (hy : 38 ∉ y)
    (hlen : (HttpRequest.joinArguments (c :: rest) ++ y).length < 2 ^ 64) :
    ∃ v more, arguments (HttpRequest.joinArguments (c :: rest) ++ y) = ⟨c.1, v⟩ :: more ∧
      (v = c.2 → (rest ≠ [] → 38 ∉ c.1 ∧ 38 ∉ c.2) ∧ (rest = [] → 38 ∈ c.1 ∧ y = [] ∨ 38 ∉ c.2 ∧ trimEnds (c.2 ++ y) = c.2)) := by
  obtain ⟨k, value⟩ := c
  obtain ⟨z, hz, hrest⟩ : ∃ z, HttpRequest.joinArguments (⟨k, value⟩ :: rest) ++ y = k ++ 61 :: (value ++ z) ∧
      (rest ≠ [] ∧ 38 ∈ z ∨ rest = [] ∧ z = y) := by
    cases rest with
    | nil => exact ⟨y, by simp [joinArguments_one], .inr ⟨rfl, rfl⟩⟩
    | cons d rest =>
      exact ⟨38 :: HttpRequest.joinArguments (d :: rest) ++ y, by simp [joinArguments_cons], .inl ⟨by simp, by simp⟩⟩
  rw [hz] at hlen ⊢
  have hequal : 61 ∉ k := hc
  by_cases hand : 38 ∈ k
  · -- the value is all that follows
    obtain ⟨u, w, rfl, hu⟩ := List.eq_append_cons_of_mem hand
    rw [List.append_assoc, List.cons_append] at hlen ⊢
    refine ⟨value ++ z, _, arguments_swapped hu hequal hlen, fun hsame => ?_⟩
    have hnil : z = [] := by simpa using hsame
    rcases hrest with ⟨-, hmem⟩ | ⟨hnone, rfl⟩
    · rw [hnil] at hmem
      cases hmem
    · exact ⟨fun hne => absurd hnone hne, fun _ => .inl ⟨hand, hnil⟩⟩
  · by_cases hvalue : 38 ∈ value
    · -- the value ends at its `&`
      obtain ⟨v, t, rfl, hv⟩ := List.eq_append_cons_of_mem hvalue
      rw [List.append_assoc, List.cons_append]
      refine ⟨v, _, arguments_step hequal hand hv _, fun hsame => ?_⟩
      have hsame : v = v ++ 38 :: t := hsame
      exact absurd hsame (by simp)
    · rcases hrest with ⟨hne, hmem⟩ | ⟨rfl, rfl⟩
      · obtain ⟨a, t, rfl, ha⟩ := List.eq_append_cons_of_mem hmem
        rw [← List.append_assoc]
        refine ⟨value ++ a, _, arguments_step hequal hand (by simp [hvalue, ha]) _, fun _ => ?_⟩
        exact ⟨fun _ => ⟨hand, hvalue⟩, fun h => absurd h hne⟩
      · refine ⟨_, _, arguments_last hequal hand (by simp [hvalue, hy]), fun hsame => ?_⟩
        exact ⟨fun h => absurd rfl h, fun _ => .inr ⟨hvalue, hsame⟩⟩

theorem trimEnds_self {v : Bytes} : trimEnds v = v ↔ ∀ b ∈ v.getLast?, b ≠ LF ∧ b ≠ CR := by
  rw [trimEnds, List.rdropWhile_eq_self_iff]
  constructor
  · intro h b hb
    obtain ⟨hne, rfl⟩ := List.mem_getLast?_eq_getLast hb
    simpa [not_or] using h hne
  · intro h hne
    simpa [not_or] using h _ (List.getLast_mem_getLast? hne)

theorem lower_name {k : Bytes} (h : k.map tolower = k) (v : Bytes) : lower ⟨k, v⟩ = ⟨k, v⟩ := by
  rw [lower, h]

variable {l : List Entry} {y : Bytes}

theorem arguments_behind {init : List Entry} (hinit : ∀ a ∈ init, Apart a) (c : Entry) (rest : List Entry) (y : Bytes) :
    arguments (HttpRequest.joinArguments (init ++ c :: rest) ++ y) =
      init ++ arguments (HttpRequest.joinArguments (c :: rest) ++ y) := by
  refine arguments_of_some ?_
  rw [parseArguments_behind hinit, parseArgumentsFrom_eq]
  rfl

/-- If the variables are read back, the one behind those that are apart is. -/
theorem first_kept (hnodup : l.NodupKeys) (hname : ∀ c ∈ l, c.1.map tolower = c.1 ∧ 61 ∉ c.1) (hy : 38 ∉ y)
    (hlen : (HttpRequest.joinArguments l ++ y).length < 2 ^ 64)
    (hread : ∀ k, ((arguments (HttpRequest.joinArguments l ++ y)).map lower).dlookup k = l.dlookup k) {init rest : List Entry}
    {c : Entry} (hl : l = init ++ c :: rest) (hinit : ∀ a ∈ init, Apart a) :
    (rest ≠ [] → 38 ∉ c.1 ∧ 38 ∉ c.2) ∧ (rest = [] → 38 ∈ c.1 ∧ y = [] ∨ 38 ∉ c.2 ∧ trimEnds (c.2 ++ y) = c.2) := by
  subst hl
  have hc : c ∈ init ++ c :: rest := by simp
  have hshort : (HttpRequest.joinArguments (c :: rest) ++ y).length < 2 ^ 64 := by
    have hle := (joinArguments_suffix init c rest).length_le
    rw [List.length_append] at hlen ⊢
    omega
  obtain ⟨v, more, hfirst, hkept⟩ := first_read (hname c hc).2 rest hy hshort
  refine hkept ?_
  have hlower : init.map lower = init := lower_self fun a ha => (hname a (List.mem_append_left _ ha)).1
  have hgone : init.dlookup c.1 = none := by
    have hfirst := List.notMem_keys_of_nodupKeys_cons (List.nodupKeys_middle.mp hnodup)
    rw [List.dlookup_eq_none]
    exact fun h => hfirst (List.map_subset _ (List.subset_append_left _ _) h)
  have hvalue : (init ++ c :: rest).dlookup c.1 = some c.2 := List.mem_dlookup hnodup hc
  have hk := hread c.1
  rw [arguments_behind hinit, hfirst, List.map_append, hlower, List.dlookup_append, hgone, hvalue, List.map_cons, lower,
    (hname c hc).1, Option.none_or, List.dlookup_cons_eq] at hk
  exact Option.some.inj hk

/-- And so all but the last are apart. -/
theorem all_kept (hnodup : l.NodupKeys) (hname : ∀ c ∈ l, c.1.map tolower = c.1 ∧ 61 ∉ c.1) (hy : 38 ∉ y)
    (hlen : (HttpRequest.joinArguments l ++ y).length < 2 ^ 64)
    (hread : ∀ k, ((arguments (HttpRequest.joinArguments l ++ y)).map lower).dlookup k = l.dlookup k) (init : List Entry) :
    ∀ rest, l = init ++ rest → rest ≠ [] → ∀ a ∈ init, Apart a := by
  induction init using List.reverseRecOn with
  | nil => exact fun _ _ _ => nofun
  | append_singleton init c ih =>
    intro rest hl hne
    rw [List.append_assoc, List.singleton_append] at hl
    have hinit := ih (c :: rest) hl (by simp)
    have hc : c ∈ l := by rw [hl]; simp
    obtain ⟨h1, h2⟩ := (first_kept hnodup hname hy hlen hread hl hinit).1 hne
    intro a ha
    rcases List.mem_append.mp ha with ha | ha
    · exact hinit a ha
    · rw [List.mem_singleton.mp ha]
      exact ⟨(hname c hc).2, h1, h2⟩

/-- Behind the list there is nothing, if its variables are read back. -/
theorem variables_clear (hne : l ≠ []) (hnodup : l.NodupKeys) (hname : ∀ c ∈ l, c.1.map tolower = c.1 ∧ 61 ∉ c.1) (hy : 38 ∉ y)
    (htrim : y = [] ∨ trimEnds y ≠ []) (hlen : (HttpRequest.joinArguments l ++ y).length < 2 ^ 64)
    (hread : ∀ k, ((arguments (HttpRequest.joinArguments l ++ y)).map lower).dlookup k = l.dlookup k) :
    y = [] ∧ Clear l := by
  obtain ⟨init, c, rfl⟩ : ∃ init c, l = init ++ [c] := ⟨_, _, (List.dropLast_append_getLast hne).symm⟩
  have hinit := all_kept hnodup hname hy hlen hread init [c] rfl (by simp)
  have hlast := (first_kept hnodup hname hy hlen hread rfl hinit).2 rfl
  have hnil : y = [] := by
    rcases hlast with ⟨-, hnil⟩ | ⟨-, hsame⟩
    · exact hnil
    · refine htrim.resolve_right fun h => h ?_
      rw [trimEnds_append c.2 h] at hsame
      simpa using hsame
  rw [hnil, List.append_nil, trimEnds_self] at hlast
  refine ⟨hnil, fun a ha => ?_, fun a ha => ?_⟩
  · rw [List.dropLast_concat] at ha
    exact (hinit a ha).2
  · rw [List.getLast?_concat] at ha
    cases ha
    exact hlast.imp And.left id

/-- The variables that were read survive being written exactly when they are clear. -/
theorem variables_survive {m : StrMap} (hm : Variables m) (hl : l.Perm m.entries)
    (hlen : (HttpRequest.joinArguments l).length < 2 ^ 64) :
    (∀ k, ((arguments (HttpRequest.joinArguments l)).foldl HttpRequest.emplaceGet ∅).lookup k = m.lookup k) ↔ Clear l := by
  have hnodup : l.NodupKeys := (List.perm_nodupKeys hl).mpr m.nodupKeys
  have hname : ∀ c ∈ l, c.1.map tolower = c.1 ∧ 61 ∉ c.1 := fun c hc => hm.name c (hl.mem_iff.mp hc)
  have hsame : ∀ k, m.lookup k = l.dlookup k := fun k => (List.perm_dlookup k hnodup hl).symm
  simp only [lookup_gets, hsame]
  rcases List.eq_nil_or_concat l with rfl | ⟨init, c, rfl⟩
  · have hempty : arguments (HttpRequest.joinArguments []) = [] := arguments_none nofun
    rw [hempty]
    exact ⟨fun _ => ⟨nofun, nofun⟩, fun _ _ => rfl⟩
  rw [List.concat_eq_append] at *
  constructor
  · intro hread
    rw [← List.append_nil (HttpRequest.joinArguments _)] at hlen hread
    exact (variables_clear (by simp) hnodup hname (by simp) (.inl rfl) hlen hread).2
  · rintro ⟨hinit, hlast⟩ k
    rw [List.dropLast_concat] at hinit
    have hapart : ∀ a ∈ init, Apart a := fun a ha => ⟨(hname a (List.mem_append_left _ ha)).2, hinit a ha⟩
    have hbehind := arguments_behind hapart c [] []
    rw [List.append_nil, List.append_nil, joinArguments_one] at hbehind
    rw [hbehind, List.map_append, lower_self fun a ha => (hname a (List.mem_append_left _ ha)).1, List.dlookup_append,
      List.dlookup_append]
    have hc : c ∈ init ++ [c] := by simp
    obtain ⟨hlower, hequal⟩ := hname c hc
    obtain ⟨name, value⟩ := c
    by_cases hand : 38 ∈ name
    · -- what is read on behind the `&` has names that are there
      obtain ⟨u, w, hname', hu⟩ := List.eq_append_cons_of_mem hand
      have hshort : (u ++ 38 :: (w ++ 61 :: value)).length < 2 ^ 64 := by
        have hle := (joinArguments_suffix init ⟨name, value⟩ []).length_le
        rw [joinArguments_one, show (⟨name, value⟩ : Entry).1 = u ++ 38 :: w from hname', List.append_assoc] at hle
        exact Nat.lt_of_le_of_lt hle hlen
      have hinner : ∀ k ∈ names (w ++ 61 :: value), k ∈ m := hm.inner ⟨name, value⟩ (hl.mem_iff.mp hc) u w hname' hu
      have harguments : arguments (name ++ 61 :: value) = ⟨name, value⟩ :: arguments (w ++ 61 :: value) := by
        rw [hname', List.append_assoc]
        exact arguments_swapped hu (hname' ▸ hequal) hshort
      show (init.dlookup k).or (((arguments (name ++ 61 :: value)).map lower).dlookup k) = _
      rw [harguments, List.map_cons, lower_name hlower]
      by_cases hk : k = name
      · subst hk
        rw [List.dlookup_cons_eq, List.dlookup_cons_eq]
      · rw [List.dlookup_cons_ne _ _ hk, List.dlookup_cons_ne _ _ hk, List.dlookup_nil]
        cases hi : init.dlookup k with
        | some v => rfl
        | none =>
          rw [Option.none_or, Option.none_or, List.dlookup_eq_none, List.mem_keys]
          intro hgiven
          obtain ⟨v, hv⟩ := hgiven
          obtain ⟨a, ha, hav⟩ := List.mem_map.mp hv
          have hmem := hinner k (List.mem_map.mpr ⟨a, ha, congrArg Sigma.fst hav⟩)
          rw [← AList.lookup_isSome, hsame, List.dlookup_append, hi, List.dlookup_cons_ne _ _ hk] at hmem
          cases hmem
    · rcases hlast ⟨name, value⟩ (by simp) with h | ⟨hvalue, hends⟩
      · exact absurd h hand
      · rw [arguments_last hequal hand hvalue, trimEnds_self.mpr hends, List.map_singleton, lower_name hlower]

end Http

end Frnetlib
