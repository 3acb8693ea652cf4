/-
  Frnetlib.Http.Segments — `Http::parse_argument_list` beside cutting at the separators.

  `cutArguments` cuts a string at every `&`, and each segment that has a `=` at its first
  one. The loop of `parse_argument_list` searches for the `=` and for the `&` from the same
  place: a segment without a `=` goes into the name of the argument behind it, whose value
  is then the rest of the string. So it cuts at the separators exactly where no such
  segment has an argument behind it (`parseArgumentList_segments`).
-/

import Frnetlib.Http.Arguments

namespace Frnetlib

open Base

namespace Http

/-- A segment cut at its first `=`. -/
def cutSegment (segment : Bytes) : Option Entry :=
  if 61 ∈ segment then some ⟨segment.takeWhile (· ≠ 61), (segment.dropWhile (· ≠ 61)).drop 1⟩ else none

def cutArguments (s : Bytes) : List Entry := (s.splitOn 38).filterMap cutSegment

/-- The string without the `?` in front. -/
def unmarked (s : Bytes) : Bytes := if s.head? = some 63 then s.drop 1 else s

def trimValue (c : Entry) : Entry := ⟨c.1, trimEnds c.2⟩

/-- The line ends at the end of the last value taken off. -/
def trimLast (args : List Entry) : List Entry := args.dropLast ++ (args.getLast?.map trimValue).toList

/-- No segment without a `=` comes before one with a `=`. -/
def ValuedFirst (s : Bytes) : Prop := (s.splitOn 38).Pairwise fun a b => 61 ∈ b → 61 ∈ a

instance (s : Bytes) : Decidable (ValuedFirst s) := inferInstanceAs (Decidable (List.Pairwise _ _))

/-- The last argument is the end of the string, or its value does not end in line ends. -/
def LastTrimmed (s : Bytes) : Prop :=
  61 ∈ (s.splitOn 38).getLastD [] ∨ ∀ c ∈ (cutArguments s).getLast?, trimEnds c.2 = c.2

/-! ## Segments -/

/-- How a string is cut, one segment at a time. -/
theorem segments_cases {P : Bytes → Prop} (hlast : ∀ s, 38 ∉ s → P s)
    (hstep : ∀ u rest, 38 ∉ u → P rest → P (u ++ 38 :: rest)) (s : Bytes) : P s := by
  induction hn : s.length using Nat.strong_induction_on generalizing s with
  | _ n ih =>
    by_cases hand : 38 ∈ s
    · obtain ⟨u, rest, rfl, hu⟩ := List.eq_append_cons_of_mem hand
      have hshort : rest.length < n := by
        rw [← hn]
        simp only [List.length_append, List.length_cons]
        omega
      exact hstep u rest hu (ih _ hshort rest rfl)
    · exact hlast s hand

theorem splitOn_step {u : Bytes} (hu : 38 ∉ u) (rest : Bytes) :
    (u ++ 38 :: rest).splitOn 38 = u :: rest.splitOn 38 := List.splitOn_append_cons_self_of_not_mem hu rest

theorem cutSegment_some {k : Bytes} (hk : 61 ∉ k) (v : Bytes) : cutSegment (k ++ 61 :: v) = some ⟨k, v⟩ := by
  have hall : ∀ b ∈ k, decide (b ≠ 61) = true := by
    intro b hb
    simpa using fun h : b = 61 => hk (h ▸ hb)
  unfold cutSegment
  rw [if_pos (by simp), List.takeWhile_append_of_pos hall, List.dropWhile_append_of_pos hall]
  simp

theorem cutSegment_none {segment : Bytes} (h : 61 ∉ segment) : cutSegment segment = none := if_neg h

theorem cutArguments_last {s : Bytes} (hs : 38 ∉ s) : cutArguments s = (cutSegment s).toList := by
  rw [cutArguments, List.splitOn_eq_singleton hs]
  cases h : cutSegment s with
  | none => simp [h]
  | some c => simp [h]

theorem cutArguments_step {u : Bytes} (hu : 38 ∉ u) (rest : Bytes) :
    cutArguments (u ++ 38 :: rest) = (cutSegment u).toList ++ cutArguments rest := by
  rw [cutArguments, splitOn_step hu, List.filterMap_cons]
  cases h : cutSegment u with
  | none => rfl
  | some c => rfl

theorem mem_splitOn {s segment : Bytes} (h : segment ∈ s.splitOn 38) : 38 ∉ segment ∧ ∀ b ∈ segment, b ∈ s := by
  induction s using segments_cases with
  | hlast s hs =>
    rw [List.splitOn_eq_singleton hs, List.mem_singleton] at h
    subst h
    exact ⟨hs, fun b hb => hb⟩
  | hstep u rest hu ih =>
    rw [splitOn_step hu, List.mem_cons] at h
    rcases h with rfl | h
    · exact ⟨hu, fun b hb => List.mem_append_left _ hb⟩
    · obtain ⟨hand, hmem⟩ := ih h
      exact ⟨hand, fun b hb => List.mem_append_right _ (List.mem_cons_of_mem _ (hmem b hb))⟩

theorem exists_segment {s : Bytes} (h : 61 ∈ s) : ∃ segment ∈ s.splitOn 38, 61 ∈ segment := by
  induction s using segments_cases with
  | hlast s hs => exact ⟨s, by simp [List.splitOn_eq_singleton hs], h⟩
  | hstep u rest hu ih =>
    rw [splitOn_step hu]
    by_cases hmem : 61 ∈ u
    · exact ⟨u, List.mem_cons_self, hmem⟩
    · obtain ⟨segment, hsegment, hequal⟩ := ih (by simpa [hmem] using h)
      exact ⟨segment, List.mem_cons_of_mem _ hsegment, hequal⟩

/-- A name that was cut out has no `&`. -/
theorem cutArguments_name {s : Bytes} {c : Entry} (h : c ∈ cutArguments s) : 38 ∉ c.1 := by
  obtain ⟨segment, hmem, hcut⟩ := List.mem_filterMap.mp h
  have hand := (mem_splitOn hmem).1
  by_cases hequal : 61 ∈ segment
  · obtain ⟨k, v, rfl, hk⟩ := List.eq_append_cons_of_mem hequal
    rw [cutSegment_some hk] at hcut
    cases hcut
    exact fun hmem => hand (List.mem_append_left _ hmem)
  · rw [cutSegment_none hequal] at hcut
    cases hcut

theorem cutArguments_none {s : Bytes} (h : 61 ∉ s) : cutArguments s = [] := by
  refine List.filterMap_eq_nil_iff.mpr fun segment hmem => cutSegment_none ?_
  exact fun hequal => h ((mem_splitOn hmem).2 _ hequal)

theorem trimEnds_step (u rest : Bytes) : trimEnds (u ++ 38 :: rest) = u ++ 38 :: trimEnds rest := by
  have hand : trimEnds (38 :: rest) = 38 :: trimEnds rest := trimEnds_cons (by decide) rest
  rw [trimEnds_append u (by simp [hand]), hand]

theorem trimEnds_equal (k v : Bytes) : trimEnds (k ++ 61 :: v) = k ++ 61 :: trimEnds v := by
  have hequal : trimEnds (61 :: v) = 61 :: trimEnds v := trimEnds_cons (by decide) v
  rw [trimEnds_append k (by simp [hequal]), hequal]

theorem trimEnds_not_mem {c : UInt8} {s : Bytes} (h : c ∉ s) : c ∉ trimEnds s :=
  fun hmem => h ((List.rdropWhile_prefix _ s).subset hmem)

/-! ## The arguments that are read -/

/-- The first segment has a `=`, or nothing behind it has. -/
theorem valuedFirst_cons {u : Bytes} (hu : 38 ∉ u) (rest : Bytes) :
    ValuedFirst (u ++ 38 :: rest) ↔ (61 ∈ rest → 61 ∈ u) ∧ ValuedFirst rest := by
  rw [ValuedFirst, splitOn_step hu, List.pairwise_cons]
  refine and_congr_left fun _ => ⟨fun h hmem => ?_, fun h segment hmem hequal => h ((mem_splitOn hmem).2 _ hequal)⟩
  obtain ⟨segment, hsegment, hequal⟩ := exists_segment hmem
  exact h segment hsegment hequal

theorem valuedFirst_step {k v rest : Bytes} (hk : 38 ∉ k) (hv : 38 ∉ v) :
    ValuedFirst (k ++ 61 :: (v ++ 38 :: rest)) ↔ ValuedFirst rest := by
  have hsplit : k ++ 61 :: (v ++ 38 :: rest) = (k ++ 61 :: v) ++ 38 :: rest := by simp
  rw [hsplit, valuedFirst_cons (by simp [hk, hv])]
  exact and_iff_right fun _ => by simp

/-- An argument behind a segment without a `=`. -/
theorem not_valuedFirst {u w t : Bytes} (hand : 38 ∉ u) (hequal : 61 ∉ u) : ¬ ValuedFirst (u ++ 38 :: (w ++ 61 :: t)) := by
  intro h
  exact hequal (((valuedFirst_cons hand _).mp h).1 (by simp))

/-- Where the arguments come first, they are what the string is cut into. -/
theorem arguments_valuedFirst {s : Bytes} (hs : s.length < 2 ^ 64) (h : ValuedFirst s) :
    arguments s = cutArguments (trimEnds s) := by
  revert h
  refine arguments_cases (P := fun s args => ValuedFirst s → args = cutArguments (trimEnds s)) ?_ ?_ ?_ ?_ s hs
  · intro s hequal _
    exact (cutArguments_none (trimEnds_not_mem hequal)).symm
  · intro k v hequal hand hv _
    have hlast : 38 ∉ k ++ 61 :: trimEnds v := by simp [hand, trimEnds_not_mem hv]
    rw [trimEnds_equal, cutArguments_last hlast, cutSegment_some hequal]
    rfl
  · intro k v rest hequal hand hv ih hfirst
    have hsplit : k ++ 61 :: (v ++ 38 :: rest) = (k ++ 61 :: v) ++ 38 :: rest := by simp
    rw [ih ((valuedFirst_step hand hv).mp hfirst), hsplit, trimEnds_step, cutArguments_step (by simp [hand, hv]),
      cutSegment_some hequal]
    rfl
  · intro u w t hand hequal _ hfirst
    refine absurd hfirst (not_valuedFirst hand ?_)
    exact fun hmem => hequal (List.mem_append_left _ hmem)

/-- Elsewhere a name has an `&` in it. -/
theorem arguments_not_valuedFirst {s : Bytes} (hs : s.length < 2 ^ 64) (h : ¬ ValuedFirst s) :
    ∃ c ∈ arguments s, 38 ∈ c.1 := by
  revert h
  refine arguments_cases (P := fun s args => ¬ ValuedFirst s → ∃ c ∈ args, 38 ∈ c.1) ?_ ?_ ?_ ?_ s hs
  · intro s hequal hnot
    refine absurd ?_ hnot
    refine List.Pairwise.imp_of_mem (R := fun _ _ => True) ?_ (List.pairwise_of_forall fun _ _ => trivial)
    intro a b _ hb _ hmem
    exact absurd ((mem_splitOn hb).2 _ hmem) hequal
  · intro k v hequal hand hv hnot
    refine absurd ?_ hnot
    rw [ValuedFirst, List.splitOn_eq_singleton (by simp [hand, hv])]
    exact List.pairwise_singleton _ _
  · intro k v rest hequal hand hv ih hnot
    obtain ⟨c, hc, hmem⟩ := ih (fun hrest => hnot ((valuedFirst_step hand hv).mpr hrest))
    exact ⟨c, List.mem_cons_of_mem _ hc, hmem⟩
  · intro u w t _ _ _ _
    exact ⟨_, List.mem_cons_self, by simp⟩

/-! ## The end of the last value -/

theorem trimLast_append (args : List Entry) (c : Entry) : trimLast (args ++ [c]) = args ++ [trimValue c] := by
  simp [trimLast]

theorem trimLast_self {args : List Entry} : trimLast args = args ↔ ∀ c ∈ args.getLast?, trimEnds c.2 = c.2 := by
  induction args using List.reverseRecOn with
  | nil => simp [trimLast]
  | append_singleton args c _ =>
    have hlast : (args ++ [c]).getLast? = some c := by simp
    rw [trimLast_append, List.append_cancel_left_eq, hlast]
    constructor
    · intro h d hd
      cases hd
      exact eq_of_heq (Sigma.ext_iff.mp (List.singleton_injective h)).2
    · intro h
      exact congrArg (fun v => [(⟨c.1, v⟩ : Entry)]) (h c rfl)

theorem trimLast_name {args : List Entry} {c : Entry} (h : c ∈ trimLast args) : ∃ d ∈ args, c.1 = d.1 := by
  induction args using List.reverseRecOn with
  | nil => simp [trimLast] at h
  | append_singleton args d _ =>
    rw [trimLast_append, List.mem_append, List.mem_singleton] at h
    rcases h with h | rfl
    · exact ⟨c, List.mem_append_left _ h, rfl⟩
    · exact ⟨d, by simp, rfl⟩

/-- The line ends at the end of a string are those of its last segment. -/
theorem splitOn_trimEnds (s : Bytes) :
    ∃ init last, s.splitOn 38 = init ++ [last] ∧ (trimEnds s).splitOn 38 = init ++ [trimEnds last] := by
  induction s using segments_cases with
  | hlast s hs =>
    exact ⟨[], s, List.splitOn_eq_singleton hs, List.splitOn_eq_singleton (trimEnds_not_mem hs)⟩
  | hstep u rest hu ih =>
    obtain ⟨init, last, hsplit, htrim⟩ := ih
    refine ⟨u :: init, last, ?_, ?_⟩
    · rw [splitOn_step hu, hsplit]
      rfl
    · rw [trimEnds_step, splitOn_step hu, htrim]
      rfl

theorem cutArguments_trimEnds (s : Bytes) : cutArguments (trimEnds s) = trimLast (cutArguments s) ↔ LastTrimmed s := by
  obtain ⟨init, last, hsplit, htrim⟩ := splitOn_trimEnds s
  have hlast : (s.splitOn 38).getLastD [] = last := by simp [hsplit]
  by_cases hequal : 61 ∈ last
  · obtain ⟨k, v, rfl, hk⟩ := List.eq_append_cons_of_mem hequal
    refine iff_of_true ?_ (.inl (by rwa [hlast]))
    rw [cutArguments, cutArguments, hsplit, htrim, List.filterMap_append, List.filterMap_append, trimEnds_equal]
    simp only [List.filterMap_cons, cutSegment_some hk, List.filterMap_nil]
    exact (trimLast_append (init.filterMap cutSegment) ⟨k, v⟩).symm
  · have hsame : cutArguments (trimEnds s) = cutArguments s := by
      rw [cutArguments, cutArguments, hsplit, htrim, List.filterMap_append, List.filterMap_append]
      simp only [List.filterMap_cons, cutSegment_none hequal, cutSegment_none (trimEnds_not_mem hequal)]
    rw [hsame, eq_comm, trimLast_self, LastTrimmed, hlast]
    exact (or_iff_right hequal).symm

/-- The argument list is what the string is cut into, without the line ends at its end,
    exactly when no segment without a `=` comes before one with a `=`; and without the line
    ends of the last value wherever it stands, when these are the same. -/
theorem parseArgumentList_segments {s : Bytes} (hs : s.length < 2 ^ 64) :
    (parseArgumentList s = some (cutArguments (trimEnds (unmarked s))) ↔ ValuedFirst (unmarked s)) ∧
      (parseArgumentList s = some (trimLast (cutArguments (unmarked s))) ↔
        ValuedFirst (unmarked s) ∧ LastTrimmed (unmarked s)) := by
  have hlength : (unmarked s).length < 2 ^ 64 := by
    unfold unmarked
    split
    · rw [List.length_drop]
      omega
    · exact hs
  have heq : parseArgumentList s = some (arguments (unmarked s)) := parseArgumentList_eq s
  rw [heq, Option.some.injEq, Option.some.injEq]
  by_cases hfirst : ValuedFirst (unmarked s)
  · rw [arguments_valuedFirst hlength hfirst, cutArguments_trimEnds]
    exact ⟨iff_of_true rfl hfirst, (and_iff_right hfirst).symm⟩
  · obtain ⟨c, hc, hand⟩ := arguments_not_valuedFirst hlength hfirst
    constructor
    · refine iff_of_false (fun hsame => ?_) hfirst
      rw [hsame] at hc
      exact cutArguments_name hc hand
    · refine iff_of_false (fun hsame => ?_) (fun h => hfirst h.1)
      rw [hsame] at hc
      obtain ⟨d, hd, hname⟩ := trimLast_name hc
      rw [hname] at hand
      exact cutArguments_name hd hand

/-- Two arguments, a segment without a `=`, and a line end behind it. -/
theorem parseArgumentList_segments_sample :
    parseArgumentList (bytes "?a=1&b=2=3&c\r\n") = some [⟨bytes "a", bytes "1"⟩, ⟨bytes "b", bytes "2=3"⟩] := by
  have hcut : cutArguments (trimEnds (unmarked (bytes "?a=1&b=2=3&c\r\n"))) =
      [⟨bytes "a", bytes "1"⟩, ⟨bytes "b", bytes "2=3"⟩] := by decide +kernel
  rw [← hcut]
  exact (parseArgumentList_segments (by decide)).1.mpr (by decide +kernel)

/-- `a` goes into the name of the next argument, whose value is then read twice. -/
theorem parseArgumentList_segments_not :
    ¬ ∀ s : Bytes, s.length < 2 ^ 64 → parseArgumentList s = some (cutArguments (trimEnds (unmarked s))) ∨
      parseArgumentList s = some (trimLast (cutArguments (unmarked s))) := by
  intro h
  have hread : parseArgumentList (bytes "a&b=c") = some [⟨bytes "a&b", bytes "c"⟩, ⟨bytes "b", bytes "c"⟩] := by
    rw [parseArgumentList_eq]
    refine congrArg some ?_
    have hswapped : arguments (bytes "a&b=c") = ⟨bytes "a&b", bytes "c"⟩ :: arguments (bytes "b=c") :=
      arguments_swapped (u := bytes "a") (w := bytes "b") (t := bytes "c") (by decide) (by decide) (by decide)
    have hlast : arguments (bytes "b=c") = [⟨bytes "b", trimEnds (bytes "c")⟩] :=
      arguments_last (k := bytes "b") (v := bytes "c") (by decide) (by decide) (by decide)
    rw [if_neg (by decide), hswapped, hlast]
    rfl
  have hcut : cutArguments (trimEnds (unmarked (bytes "a&b=c"))) = [⟨bytes "b", bytes "c"⟩] := by decide +kernel
  have htrim : trimLast (cutArguments (unmarked (bytes "a&b=c"))) = [⟨bytes "b", bytes "c"⟩] := by decide +kernel
  have hboth := h (bytes "a&b=c") (by decide)
  rw [hread, hcut, htrim] at hboth
  exact absurd hboth (by decide)

end Http

end Frnetlib
