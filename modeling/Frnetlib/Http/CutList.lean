/-
  Frnetlib.Http.CutList — an argument list of which less is read than there is, or more.

  An argument's value ends at an `&`, or goes on to the end of what is read: the former
  are read the same where only the end is another (`marks`). The others are changed or
  lost (`Altered`), and the map of the variables is the same only if each of them repeats a
  name that is stored already, for the first value of a name stays (`altered_iff`). And
  what is read has to be cut at its separators, or a name has an `&` in it
  (`gets_iff`).
-/

import Frnetlib.Http.Segments
import Frnetlib.Http.Variables

namespace Frnetlib.Http

open Base

/-- The arguments among the segments, each with whether one of the first `n` bytes is the `&`
    behind it. -/
def marks : Nat → List Bytes → List (Entry × Bool)
  | _, [] => []
  | _, [segment] => (cutSegment segment).toList.map (·, false)
  | n, segment :: rest =>
    (cutSegment segment).toList.map (·, decide (segment.length < n)) ++ marks (n - (segment.length + 1)) rest

theorem marks_last {s : Bytes} (hs : 38 ∉ s) (n : Nat) : marks n (s.splitOn 38) = (cutSegment s).toList.map (·, false) := by
  rw [List.splitOn_eq_singleton hs, marks]

theorem marks_step {u : Bytes} (hu : 38 ∉ u) (n : Nat) (rest : Bytes) :
    marks n ((u ++ 38 :: rest).splitOn 38) =
      (cutSegment u).toList.map (·, decide (u.length < n)) ++ marks (n - (u.length + 1)) (rest.splitOn 38) := by
  rw [splitOn_step hu]
  cases h : rest.splitOn 38 with
  | nil => exact absurd h (List.splitOn_ne_nil 38 rest)
  | cons segment more => rfl

/-- A segment without a `=`, or a name and a value. -/
theorem segment_cases {u : Bytes} (hu : 38 ∉ u) :
    61 ∉ u ∧ cutSegment u = none ∨
      ∃ k v, u = k ++ 61 :: v ∧ 61 ∉ k ∧ 38 ∉ k ∧ 38 ∉ v ∧ cutSegment u = some ⟨k, v⟩ := by
  by_cases hequal : 61 ∈ u
  · obtain ⟨k, v, rfl, hk⟩ := List.eq_append_cons_of_mem hequal
    simp only [List.mem_append, List.mem_cons, not_or] at hu
    exact .inr ⟨k, v, rfl, hk, hu.1, hu.2.2, cutSegment_some hk v⟩
  · exact .inl ⟨hequal, cutSegment_none hequal⟩

/-- Every argument that is not marked has the name of one before it, in any case. -/
def Repeated : List Bytes → List (Entry × Bool) → Prop
  | _, [] => True
  | names, (c, mark) :: l => (mark = true ∨ c.1.map tolower ∈ names) ∧ Repeated (c.1.map tolower :: names) l

/-- Arguments, and what is read in their place: the marked ones, others with another value,
    and from some place on none. -/
inductive Altered : List (Entry × Bool) → List Entry → List Entry → Prop
  | nil : Altered [] [] []
  | same {c : Entry} {l : List (Entry × Bool)} {args args' : List Entry} : Altered l args args' →
      Altered ((c, true) :: l) (c :: args) (c :: args')
  | changed {k v v' : Bytes} {l : List (Entry × Bool)} {args args' : List Entry} : v ≠ v' → Altered l args args' →
      Altered ((⟨k, v⟩, false) :: l) (⟨k, v⟩ :: args) (⟨k, v'⟩ :: args')
  | lost {c : Entry} {l : List (Entry × Bool)} {args : List Entry} : Altered l args [] →
      Altered ((c, false) :: l) (c :: args) []

theorem dlookup_name (c : Entry) (args : List Entry) : ((c :: args).map lower).dlookup (c.1.map tolower) = some c.2 :=
  List.dlookup_cons_eq _ _ _

theorem dlookup_other {c : Entry} {args : List Entry} {key : Bytes} (hkey : key ≠ c.1.map tolower) :
    ((c :: args).map lower).dlookup key = (args.map lower).dlookup key := List.dlookup_cons_ne _ _ hkey

theorem forall_not_mem_cons {name : Bytes} {names : List Bytes} {P : Bytes → Prop} :
    (∀ key ∉ name :: names, P key) ↔ ∀ key ∉ names, key ≠ name → P key := by
  constructor
  · intro h key hkey hne
    exact h key (List.not_mem_cons_of_ne_of_not_mem hne hkey)
  · intro h key hkey
    obtain ⟨hne, hkey⟩ := List.ne_and_not_mem_of_not_mem_cons hkey
    exact h key hkey hne

/-- Two maps that differ at a name agree outside `names` only if it is one of them. -/
theorem agree_iff (name : Bytes) {names : List Bytes} {f g : Bytes → Option Bytes} (hne : f name ≠ g name) :
    (∀ key ∉ names, f key = g key) ↔ name ∈ names ∧ ∀ key ∉ names, key ≠ name → f key = g key := by
  constructor
  · intro hsame
    refine ⟨?_, fun key hkey _ => hsame key hkey⟩
    by_contra hnew
    exact hne (hsame name hnew)
  · intro hgiven key hkey
    obtain ⟨hname, hsame⟩ := hgiven
    exact hsame key hkey fun heq => hkey (heq ▸ hname)

theorem altered_iff {l : List (Entry × Bool)} {args args' : List Entry} (h : Altered l args args') (names : List Bytes) :
    (∀ key ∉ names, (args.map lower).dlookup key = (args'.map lower).dlookup key) ↔ Repeated names l := by
  induction h generalizing names with
  | nil => exact iff_of_true (fun _ _ => rfl) trivial
  | @same c l args args' _ ih =>
    simp only [Repeated, true_or, true_and]
    rw [← ih, forall_not_mem_cons]
    refine forall₂_congr ?_
    intro key _
    by_cases hkey : key = c.1.map tolower
    · rw [hkey, dlookup_name, dlookup_name]
      exact iff_of_true rfl fun hne => absurd rfl hne
    · rw [dlookup_other hkey, dlookup_other hkey]
      exact ⟨fun hsame _ => hsame, fun hsame => hsame hkey⟩
  | @changed k v v' l args args' hne _ ih =>
    simp only [Repeated, Bool.false_eq_true, false_or]
    rw [← ih, forall_not_mem_cons, agree_iff (k.map tolower)]
    · refine and_congr_right fun _ => forall₃_congr ?_
      intro key _ hkey
      rw [dlookup_other hkey, dlookup_other hkey]
    · intro heq
      have hvalues := (dlookup_name ⟨k, v⟩ args).symm.trans (heq.trans (dlookup_name ⟨k, v'⟩ args'))
      exact hne (Option.some.inj hvalues)
  | @lost c l args _ ih =>
    simp only [Repeated, Bool.false_eq_true, false_or]
    rw [← ih, forall_not_mem_cons, agree_iff (c.1.map tolower)]
    · refine and_congr_right fun _ => forall₃_congr ?_
      intro key _ hkey
      rw [dlookup_other hkey]
    · rw [dlookup_name]
      exact nofun

/-- The text behind a list is no argument of its own. -/
theorem valuedFirst_more {tail : Bytes} (htail : 61 ∉ tail ∧ 38 ∉ tail) (s : Bytes) :
    ValuedFirst (s ++ tail) ↔ ValuedFirst s := by
  induction s using segments_cases with
  | hlast s hs =>
    rw [ValuedFirst, ValuedFirst, List.splitOn_eq_singleton hs, List.splitOn_eq_singleton (by simp [hs, htail.2])]
    exact iff_of_true (List.pairwise_singleton _ _) (List.pairwise_singleton _ _)
  | hstep u rest hu ih =>
    rw [List.append_assoc, List.cons_append, valuedFirst_cons hu, valuedFirst_cons hu, ih]
    refine and_congr_left fun _ => ?_
    simp [htail.1]

/-! ## More than the list -/

/-- A text behind a list: what no `&` of the list ends goes on into it. -/
theorem altered_more {tail : Bytes} (hne : tail ≠ []) (htail : 61 ∉ tail ∧ 38 ∉ tail) (s : Bytes) {n : Nat}
    (hn : s.length < n) : Altered (marks n (s.splitOn 38)) (cutArguments s) (cutArguments (s ++ tail)) := by
  induction s using segments_cases generalizing n with
  | hlast s hs =>
    have hmore : 38 ∉ s ++ tail := by simp [hs, htail.2]
    rw [marks_last hs, cutArguments_last hs, cutArguments_last hmore]
    rcases segment_cases hs with ⟨hequal, hnone⟩ | ⟨k, v, rfl, hk, -, -, hcut⟩
    · rw [hnone, cutSegment_none (by simp [hequal, htail.1])]
      exact .nil
    · rw [hcut, List.append_assoc, List.cons_append, cutSegment_some hk]
      exact .changed (fun heq => hne (List.append_right_eq_self.mp heq.symm)) .nil
  | hstep u rest hu ih =>
    simp only [List.length_append, List.length_cons] at hn
    have hrest := ih (n := n - (u.length + 1)) (by omega)
    rw [marks_step hu, List.append_assoc, List.cons_append, cutArguments_step hu, cutArguments_step hu,
      decide_eq_true (by omega)]
    rcases segment_cases hu with ⟨-, hnone⟩ | ⟨k, v, -, -, -, -, hcut⟩
    · rw [hnone]
      exact hrest
    · rw [hcut]
      exact .same hrest

/-! ## Less than the list -/

/-- The first bytes of a segment: without its argument, or with less of the value. -/
theorem altered_segment {u : Bytes} (hu : 38 ∉ u) {m : Nat} (hm : m < u.length) {l : List (Entry × Bool)}
    {args : List Entry} (hrest : Altered l args []) :
    Altered ((cutSegment u).toList.map (·, false) ++ l) ((cutSegment u).toList ++ args) (cutArguments (u.take m)) := by
  have hcut : 38 ∉ u.take m := fun h => hu (List.mem_of_mem_take h)
  rw [cutArguments_last hcut]
  rcases segment_cases hu with ⟨hequal, hnone⟩ | ⟨k, v, rfl, hk, -, -, hsome⟩
  · rw [hnone, cutSegment_none fun h => hequal (List.mem_of_mem_take h)]
    exact hrest
  · rw [hsome]
    by_cases hname : m ≤ k.length
    · have hshort : 61 ∉ (k ++ 61 :: v).take m := by
        rw [List.take_append_of_le_length hname]
        exact fun h => hk (List.mem_of_mem_take h)
      rw [cutSegment_none hshort]
      exact .lost hrest
    · obtain ⟨j, rfl⟩ : ∃ j, m = k.length + (j + 1) := ⟨m - (k.length + 1), by omega⟩
      rw [List.take_length_add_append, List.take_succ_cons, cutSegment_some hk]
      refine .changed (fun heq => ?_) hrest
      have hlength := congrArg List.length heq
      simp only [List.length_take, List.length_append, List.length_cons] at hlength hm
      omega

/-- Less of a list than up to its `n`-th byte: what no `&` before that ends is cut short, or
    is not there. -/
theorem altered_less (s : Bytes) {n : Nat} (hn : n ≤ s.length) :
    Altered (marks n (s.splitOn 38)) (cutArguments s) (cutArguments (s.take (n - 1))) := by
  induction s using segments_cases generalizing n with
  | hlast s hs =>
    rw [marks_last hs, cutArguments_last hs]
    by_cases hempty : s.length = 0
    · rw [List.eq_nil_of_length_eq_zero hempty, List.take_nil, cutArguments_none (s := []) (by simp),
        cutSegment_none (by simp)]
      exact .nil
    · have hcut := altered_segment hs (m := n - 1) (by omega) Altered.nil
      rwa [List.append_nil, List.append_nil] at hcut
  | hstep u rest hu ih =>
    simp only [List.length_append, List.length_cons] at hn
    have hrest := ih (n := n - (u.length + 1)) (by omega)
    rw [marks_step hu, cutArguments_step hu]
    by_cases hmark : u.length < n
    · -- the segment is there, and maybe some of what is behind it
      have htake : cutArguments ((u ++ 38 :: rest).take (n - 1)) =
          (cutSegment u).toList ++ cutArguments (rest.take (n - (u.length + 1) - 1)) := by
        obtain ⟨j, rfl⟩ : ∃ j, n = u.length + (j + 1) := ⟨n - (u.length + 1), by omega⟩
        rw [show u.length + (j + 1) - (u.length + 1) = j by omega, Nat.add_sub_assoc (by omega), Nat.add_sub_cancel,
          List.take_length_add_append]
        cases j with
        | zero => rw [List.take_zero, List.append_nil, List.take_zero, cutArguments_last hu,
            cutArguments_none (s := []) (by simp), List.append_nil]
        | succ j => rw [List.take_succ_cons, cutArguments_step hu, Nat.add_sub_cancel]
      rw [htake, decide_eq_true hmark]
      rcases segment_cases hu with ⟨-, hnone⟩ | ⟨k, v, -, -, -, -, hcut⟩
      · rw [hnone]
        exact hrest
      · rw [hcut]
        exact .same hrest
    · rw [show n - (u.length + 1) = 0 by omega, List.take_zero, cutArguments_none (s := []) (by simp)] at hrest
      rw [decide_eq_false hmark, List.take_append_of_le_length (by omega), show n - (u.length + 1) = 0 by omega]
      by_cases hempty : u.length = 0
      · rw [List.eq_nil_of_length_eq_zero hempty, List.take_nil, cutArguments_none (s := []) (by simp)]
        exact hrest
      · exact altered_segment hu (by omega) hrest

/-! ## The map -/

/-- The map of what is read is that of a cut list only if what is read is cut at its
    separators: another has a name with an `&`. -/
theorem gets_iff {s : Bytes} (hs : s.length < 2 ^ 64) (q : Bytes) :
    (∀ key, ((arguments s).foldl HttpRequest.emplaceGet ∅).lookup key =
        ((cutArguments q).foldl HttpRequest.emplaceGet ∅).lookup key) ↔
      ValuedFirst s ∧ ∀ key ∉ ([] : List Bytes), ((cutArguments q).map lower).dlookup key =
        ((cutArguments (trimEnds s)).map lower).dlookup key := by
  simp only [lookup_gets, List.not_mem_nil, not_false_eq_true, forall_const]
  by_cases hfirst : ValuedFirst s
  · rw [arguments_valuedFirst hs hfirst, and_iff_right hfirst]
    exact forall_congr' fun key => eq_comm
  · refine iff_of_false (fun hsame => ?_) fun h => hfirst h.1
    obtain ⟨c, hc, hand⟩ := arguments_not_valuedFirst hs hfirst
    have hread : (((arguments s).map lower).dlookup (c.1.map tolower)).isSome :=
      List.dlookup_isSome.mpr (List.mem_map.mpr ⟨lower c, List.mem_map_of_mem hc, rfl⟩)
    rw [hsame, List.dlookup_isSome] at hread
    obtain ⟨a, ha, hname⟩ := List.mem_map.mp hread
    obtain ⟨d, hd, rfl⟩ := List.mem_map.mp ha
    have hsame : d.1.map tolower = c.1.map tolower := hname
    have hmem : 38 ∈ d.1.map tolower := hsame ▸ (mem_map_tolower (by decide)).mpr hand
    exact cutArguments_name hd ((mem_map_tolower (by decide)).mp hmem)

/-- Line ends aside, which a target has none of. -/
theorem gets_self {s : Bytes} (hs : s.length < 2 ^ 64) (hprint : ∀ b ∈ s, isPrint b = true) :
    (∀ key, ((arguments s).foldl HttpRequest.emplaceGet ∅).lookup key =
        ((cutArguments s).foldl HttpRequest.emplaceGet ∅).lookup key) ↔ ValuedFirst s := by
  rw [gets_iff hs, trimEnds_print hprint]
  exact and_iff_left fun _ _ => rfl

theorem gets_more {s tail : Bytes} (hs : (s ++ tail).length < 2 ^ 64) (htail : 61 ∉ tail ∧ 38 ∉ tail)
    (htrim : trimEnds tail ≠ []) {n : Nat} (hn : s.length < n) :
    (∀ key, ((arguments (s ++ tail)).foldl HttpRequest.emplaceGet ∅).lookup key =
        ((cutArguments s).foldl HttpRequest.emplaceGet ∅).lookup key) ↔
      ValuedFirst s ∧ Repeated [] (marks n (s.splitOn 38)) := by
  have hbehind : 61 ∉ trimEnds tail ∧ 38 ∉ trimEnds tail := ⟨trimEnds_not_mem htail.1, trimEnds_not_mem htail.2⟩
  rw [gets_iff hs, trimEnds_append s htrim, altered_iff (altered_more htrim hbehind s hn), valuedFirst_more htail]

theorem gets_less {s : Bytes} (hs : s.length < 2 ^ 64) (hprint : ∀ b ∈ s, isPrint b = true) {n : Nat} (hn : n ≤ s.length) :
    (∀ key, ((arguments (s.take (n - 1))).foldl HttpRequest.emplaceGet ∅).lookup key =
        ((cutArguments s).foldl HttpRequest.emplaceGet ∅).lookup key) ↔
      ValuedFirst (s.take (n - 1)) ∧ Repeated [] (marks n (s.splitOn 38)) := by
  have hshort : (s.take (n - 1)).length < 2 ^ 64 := by
    rw [List.length_take]
    omega
  rw [gets_iff hshort, trimEnds_print fun b hb => hprint b (List.mem_of_mem_take hb), altered_iff (altered_less s hn)]

end Frnetlib.Http
