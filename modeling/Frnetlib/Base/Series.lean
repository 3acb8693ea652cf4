/-
  Frnetlib.Base.Series — texts that are sent in a row and read block by block by a parser
  that knows one at a time.

  The parser is given every block whole, to the last of its symbols; when it has taken a
  text in, it starts anew with the next block. What is behind the end of a text in its last
  block is lost to the next one, so the texts come out as they are exactly when a block ends
  where each of them does (`serve_series`).
-/

import Mathlib.Algebra.Order.Group.Nat
import Mathlib.Data.List.Flatten
import Mathlib.Data.List.Forall2
import Mathlib.Data.List.Induction
import Mathlib.Tactic.Common

namespace Frnetlib.Base

variable {α σ ο ρ : Type} [DecidableEq ο] (step : σ → List α → ο × σ) (fresh : σ) (done : ο)

/-- One more block: the texts taken in, and how far the parser is with the next. -/
def serveBlock (x : List σ × σ) (b : List α) : List σ × σ :=
  let r := step x.2 b
  if r.1 = done then (x.1 ++ [r.2], fresh) else (x.1, r.2)

def serve (blocks : List (List α)) : List σ := (blocks.foldl (serveBlock step fresh done) ([], fresh)).1

/-- How many of the texts are there whole. -/
def whole : List (List α) → List α → Nat
  | [], _ => 0
  | t :: texts, s => if t.length ≤ s.length then whole texts (s.drop t.length) + 1 else 0

/-- A block ends after so many symbols. -/
def EndsAt (blocks : List (List α)) (k : Nat) : Prop := ∃ m, (blocks.take m).flatten.length = k

/-- What a text is to a parser of blocks of at most `n` symbols: its proper prefixes ask for
    more, and it is exactly taken in as itself when nothing is behind it. -/
structure IsText (more : ο) (n : Nat) (t : List α) (exact : σ → Prop) : Prop where
  ne_nil : t ≠ []
  cut : ∀ u, u <+: t → u ≠ t → (step fresh u).1 = more
  absorbs : ∀ u p v, v.length ≤ n → u ++ p <+: t ++ v → (step fresh u).1 = more → step (step fresh u).2 p = step fresh (u ++ p)
  done : ∀ v, v.length ≤ n → (step fresh (t ++ v)).1 = done
  exact : ∀ v, v.length ≤ n → (exact (step fresh (t ++ v)).2 ↔ v = [])

/-! ## The ends of blocks -/

theorem endsAt_zero (blocks : List (List α)) : EndsAt blocks 0 := ⟨0, rfl⟩

/-- Behind some of the blocks. -/
theorem endsAt_append (blocks rest : List (List α)) (k : Nat) :
    EndsAt (blocks ++ rest) (blocks.flatten.length + k) ↔ EndsAt rest k := by
  constructor
  · intro hgiven
    obtain ⟨m, hm⟩ := hgiven
    rw [List.take_append, List.flatten_append, List.length_append] at hm
    by_cases hlong : blocks.length ≤ m
    · rw [List.take_of_length_le hlong] at hm
      exact ⟨m - blocks.length, Nat.add_left_cancel hm⟩
    · have hnone : m - blocks.length = 0 := by omega
      have hle : (blocks.take m).flatten.length ≤ blocks.flatten.length := ((List.take_sublist m blocks).flatten).length_le
      rw [hnone, List.take_zero, List.flatten_nil, List.length_nil] at hm
      have hk : k = 0 := by omega
      rw [hk]
      exact endsAt_zero rest
  · intro hgiven
    obtain ⟨m, hm⟩ := hgiven
    refine ⟨blocks.length + m, ?_⟩
    rw [List.take_length_add_append, List.flatten_append, List.length_append, hm]

/-- Within a block none ends. -/
theorem not_endsAt_inside {qs : List (List α)} {q : List α} (rest : List (List α)) {k : Nat} (hbefore : qs.flatten.length < k)
    (hbehind : k < (qs.flatten ++ q).length) : ¬ EndsAt (qs ++ q :: rest) k := by
  intro hgiven
  obtain ⟨j, rfl⟩ := Nat.exists_eq_add_of_le (Nat.le_of_lt hbefore)
  obtain ⟨m, hm⟩ := (endsAt_append qs (q :: rest) j).mp hgiven
  rw [List.length_append] at hbehind
  cases m with
  | zero =>
    rw [List.take_zero, List.flatten_nil, List.length_nil] at hm
    omega
  | succ m =>
    rw [List.take_succ_cons, List.flatten_cons, List.length_append] at hm
    omega

/-- The block that the `k`-th symbol is in. -/
theorem exists_block {k : Nat} (hk : 0 < k) {blocks : List (List α)} (hle : k ≤ blocks.flatten.length) :
    ∃ qs q rest, blocks = qs ++ q :: rest ∧ qs.flatten.length < k ∧ k ≤ (qs.flatten ++ q).length := by
  induction blocks generalizing k with
  | nil =>
    rw [List.flatten_nil, List.length_nil] at hle
    omega
  | cons b blocks ih =>
    rw [List.flatten_cons, List.length_append] at hle
    by_cases hb : k ≤ b.length
    · exact ⟨[], b, blocks, rfl, hk, hb⟩
    · obtain ⟨qs, q, rest, rfl, hbefore, hbehind⟩ := ih (k := k - b.length) (by omega) (by omega)
      refine ⟨b :: qs, q, rest, rfl, ?_, ?_⟩
      · rw [List.flatten_cons, List.length_append]
        omega
      · rw [List.flatten_cons, List.append_assoc, List.length_append]
        omega

/-! ## The blocks of one text -/

section

variable {step fresh done} {more : ο} {n : Nat} {t : List α} {exact : σ → Prop}

theorem serve_prior (blocks : List (List α)) (xs : List σ) (x : σ) :
    blocks.foldl (serveBlock step fresh done) (xs, x) =
      (xs ++ (blocks.foldl (serveBlock step fresh done) ([], x)).1, (blocks.foldl (serveBlock step fresh done) ([], x)).2) := by
  induction blocks generalizing xs x with
  | nil => simp
  | cons b blocks ih =>
    rw [List.foldl_cons, List.foldl_cons]
    by_cases hdone : (step x b).1 = done
    · have hserve : ∀ ys, serveBlock step fresh done (ys, x) b = (ys ++ [(step x b).2], fresh) := fun ys => if_pos hdone
      rw [hserve, hserve, ih, ih ([] ++ [_]), List.nil_append, List.append_assoc]
    · have hserve : ∀ ys, serveBlock step fresh done (ys, x) b = (ys, (step x b).2) := fun ys => if_neg hdone
      rw [hserve, hserve, ih]

/-- As long as it is not there whole. -/
theorem IsText.waiting (h : IsText step fresh done more n t exact) (hstart : step fresh [] = (more, fresh)) (hmore : more ≠ done)
    {blocks : List (List α)} (hpre : blocks.flatten <+: t) (hne : blocks.flatten ≠ t) :
    blocks.foldl (serveBlock step fresh done) ([], fresh) = ([], (step fresh blocks.flatten).2) := by
  induction blocks using List.reverseRecOn with
  | nil => rw [List.foldl_nil, List.flatten_nil, hstart]
  | append_singleton blocks b ih =>
    have hflat : (blocks ++ [b]).flatten = blocks.flatten ++ b := by simp
    rw [hflat] at hpre hne ⊢
    have hbefore : blocks.flatten <+: t := (List.prefix_append _ _).trans hpre
    have hshort : blocks.flatten ≠ t := by
      intro heq
      refine hne (hpre.eq_of_length_le ?_)
      rw [heq, List.length_append]
      exact Nat.le_add_right _ _
    have habsorbs := h.absorbs blocks.flatten b [] (Nat.zero_le n) (by rwa [List.append_nil]) (h.cut _ hbefore hshort)
    rw [List.foldl_append, ih hbefore hshort, List.foldl_cons, List.foldl_nil]
    unfold serveBlock
    simp only
    rw [habsorbs, if_neg fun hdone => hmore ((h.cut _ hpre hne).symm.trans hdone)]

/-- The block that a text ends in. -/
theorem IsText.taken (h : IsText step fresh done more n t exact) (hstart : step fresh [] = (more, fresh)) (hmore : more ≠ done)
    {qs : List (List α)} {q v : List α} (hbefore : qs.flatten.length < t.length) (hv : qs.flatten ++ q = t ++ v)
    (hq : q.length ≤ n) (rest : List (List α)) :
    serve step fresh done (qs ++ q :: rest) = (step fresh (t ++ v)).2 :: serve step fresh done rest := by
  have hqs : qs.flatten <+: t := List.prefix_of_prefix_length_le ⟨q, hv⟩ (List.prefix_append t v) (Nat.le_of_lt hbefore)
  have hne : qs.flatten ≠ t := fun heq => Nat.ne_of_lt hbefore (congrArg List.length heq)
  have hvn : v.length ≤ n := by
    have hlength := congrArg List.length hv
    rw [List.length_append, List.length_append] at hlength
    omega
  have habsorbs := h.absorbs qs.flatten q v hvn (hv.symm ▸ List.prefix_rfl) (h.cut _ hqs hne)
  rw [hv] at habsorbs
  have hserve : serveBlock step fresh done ([], (step fresh qs.flatten).2) q = ([(step fresh (t ++ v)).2], fresh) := by
    unfold serveBlock
    simp only
    rw [habsorbs, if_pos (h.done v hvn), List.nil_append]
  unfold serve
  rw [List.foldl_append, h.waiting hstart hmore hqs hne, List.foldl_cons, hserve, serve_prior]
  rfl

end

/-! ## The series -/

variable {step fresh done} {more : ο}

theorem serve_none (hstart : step fresh [] = (more, fresh)) (hmore : more ≠ done) {blocks : List (List α)}
    (h : blocks.flatten = []) : serve step fresh done blocks = [] := by
  induction blocks with
  | nil => rfl
  | cons b blocks ih =>
    obtain ⟨rfl, hrest⟩ := List.append_eq_nil_iff.mp (List.flatten_cons.symm.trans h)
    have hserve : serveBlock step fresh done ([], fresh) [] = ([], fresh) := by
      unfold serveBlock
      simp only
      rw [hstart, if_neg hmore]
    unfold serve
    rw [List.foldl_cons, hserve]
    exact ih hrest

/-- What has come of the texts that are there whole is what they are exactly when a block
    ends where each of them does. -/
theorem serve_series (hstart : step fresh [] = (more, fresh)) (hmore : more ≠ done) {n : Nat} {text : ρ → List α}
    {exact : ρ → σ → Prop} {xs : List ρ} (h : ∀ x ∈ xs, IsText step fresh done more n (text x) (exact x))
    {blocks : List (List α)} (hn : ∀ b ∈ blocks, b.length ≤ n) (hflat : blocks.flatten <+: (xs.map text).flatten) :
    List.Forall₂ exact (xs.take (whole (xs.map text) blocks.flatten)) (serve step fresh done blocks) ↔
      ∀ i ≤ whole (xs.map text) blocks.flatten, EndsAt blocks ((xs.map text).take i).flatten.length := by
  induction xs generalizing blocks with
  | nil =>
    have hnone : blocks.flatten = [] := List.prefix_nil.mp hflat
    rw [serve_none hstart hmore hnone, List.take_nil, List.map_nil]
    refine iff_of_true .nil fun i _ => ?_
    rw [List.take_nil]
    exact endsAt_zero blocks
  | cons x xs ih =>
    have hx := h x List.mem_cons_self
    rw [List.map_cons, List.flatten_cons] at hflat
    rw [List.map_cons, whole]
    by_cases hle : (text x).length ≤ blocks.flatten.length
    · rw [if_pos hle]
      obtain ⟨qs, q, rest, rfl, hbefore, hbehind⟩ := exists_block (List.length_pos_iff.mpr hx.ne_nil) hle
      have hall : (qs ++ q :: rest).flatten = qs.flatten ++ q ++ rest.flatten := by simp
      rw [hall] at hflat ⊢
      obtain ⟨v, hv⟩ : text x <+: qs.flatten ++ q :=
        List.prefix_of_prefix_length_le (List.prefix_append _ _) ((List.prefix_append _ _).trans hflat) hbehind
      have hq : q.length ≤ n := hn q (List.mem_append_right qs List.mem_cons_self)
      have hvn : v.length ≤ n := by
        have hlength := congrArg List.length hv
        rw [List.length_append, List.length_append] at hlength
        omega
      rw [hx.taken hstart hmore hbefore hv.symm hq rest, List.take_succ_cons, List.forall₂_cons, hx.exact v hvn, ← hv,
        List.append_assoc, List.drop_left]
      by_cases hnil : v = []
      · subst hnil
        rw [List.append_nil] at hv
        rw [← hv] at hflat
        have hrest : rest.flatten <+: (xs.map text).flatten := (List.prefix_append_right_inj _).mp hflat
        have hblocks : qs ++ q :: rest = (qs ++ [q]) ++ rest := by simp
        have hlength : (qs ++ [q]).flatten.length = (text x).length := by rw [hv]; simp
        have hshift : ∀ i, EndsAt (qs ++ q :: rest) ((text x :: xs.map text).take (i + 1)).flatten.length ↔
            EndsAt rest ((xs.map text).take i).flatten.length := by
          intro i
          rw [List.take_succ_cons, List.flatten_cons, List.length_append, hblocks, ← hlength]
          exact endsAt_append _ _ _
        rw [List.nil_append, and_iff_right rfl,
          ih (fun y hy => h y (List.mem_cons_of_mem x hy))
            (fun b hb => hn b (List.mem_append_right qs (List.mem_cons_of_mem q hb))) hrest]
        constructor
        · intro hends i hi
          cases i with
          | zero => exact endsAt_zero _
          | succ i => exact (hshift i).mpr (hends i (Nat.le_of_succ_le_succ hi))
        · intro hends i hi
          exact (hshift i).mp (hends (i + 1) (Nat.succ_le_succ hi))
      · -- the rest of the block is lost to the next text
        refine iff_of_false (fun hgiven => hnil hgiven.1) fun hends => ?_
        have hfirst := hends 1 (Nat.le_add_left _ _)
        rw [List.take_succ_cons, List.take_zero, List.flatten_cons, List.flatten_nil, List.append_nil] at hfirst
        refine not_endsAt_inside rest hbefore ?_ hfirst
        rw [← hv, List.length_append]
        exact Nat.lt_add_of_pos_right (List.length_pos_iff.mpr hnil)
    · rw [if_neg hle]
      have hpre : blocks.flatten <+: text x :=
        List.prefix_of_prefix_length_le hflat (List.prefix_append _ _) (Nat.le_of_not_le hle)
      have hne : blocks.flatten ≠ text x := fun heq => hle (by rw [heq])
      have hserve : serve step fresh done blocks = [] := by
        unfold serve
        rw [hx.waiting hstart hmore hpre hne]
      rw [hserve, List.take_zero]
      refine iff_of_true .nil fun i hi => ?_
      obtain rfl : i = 0 := Nat.le_zero.mp hi
      exact endsAt_zero blocks

end Frnetlib.Base
