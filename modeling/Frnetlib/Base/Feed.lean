/-
  Frnetlib.Base.Feed — consumers fed a byte stream piece by piece.

  A consumer is a step `σ → List α → ρ × σ`; `more` is the answer by which it asks
  for the next piece. `feed` calls it on each piece in turn. A consumer absorbs a
  cut between `u` and `p` when the call on `p`, after a call on `u` that answered
  `more`, is the call on `u ++ p`.

  Proved: if every cut of a run is absorbed, the run is one call on everything fed
  (`feed_absorbed`, `feed_last`); and if moreover every proper prefix of a text answers
  `more`, every way to cut it gives `more` for all pieces but the last, and the last
  piece the answer and the state of the whole (`feed_cut`).
-/

import Mathlib.Data.List.Induction
import Mathlib.Data.List.Infix
import Mathlib.Tactic.Common

namespace Frnetlib.Base

variable {σ α ρ : Type} (step : σ → List α → ρ × σ)

def feed : σ → List (List α) → List ρ × σ
  | x, [] => ([], x)
  | x, p :: ps =>
    let r := step x p
    let t := feed r.2 ps
    (r.1 :: t.1, t.2)

theorem prefix_length_lt {u s : List α} (hu : u <+: s) (hne : u ≠ s) : u.length < s.length :=
  Nat.lt_of_le_of_ne hu.length_le fun heq => hne (hu.eq_of_length heq)

theorem feed_append (x : σ) (ps qs : List (List α)) :
    feed step x (ps ++ qs) =
      ((feed step x ps).1 ++ (feed step (feed step x ps).2 qs).1, (feed step (feed step x ps).2 qs).2) := by
  induction ps generalizing x with
  | nil => simp [feed]
  | cons p ps ih => simp [feed, ih]

theorem feed_snoc (x : σ) (ps : List (List α)) (p : List α) :
    feed step x (ps ++ [p]) =
      ((feed step x ps).1 ++ [(step (feed step x ps).2 p).1], (step (feed step x ps).2 p).2) := by
  rw [feed_append]; simp [feed]

theorem feed_length (x : σ) (ps : List (List α)) : (feed step x ps).1.length = ps.length := by
  induction ps generalizing x with
  | nil => rfl
  | cons p ps ih => rw [feed, List.length_cons, ih, List.length_cons]

/-- What every answer of a run has, every call of it has. -/
theorem forall_feed {P : ρ → Prop} (x : σ) (ps : List (List α)) :
    (∀ a ∈ (feed step x ps).1, P a) ↔ ∀ qs q, qs ++ [q] <+: ps → P (step (feed step x qs).2 q).1 := by
  induction ps using List.reverseRecOn with
  | nil => simp [feed]
  | append_singleton ps p ih =>
    rw [feed_snoc, List.forall_mem_append, List.forall_mem_singleton, ih]
    constructor
    · intro hgiven qs q hq
      obtain ⟨hps, hp⟩ := hgiven
      rcases List.prefix_concat_iff.mp hq with heq | hpre
      · obtain ⟨rfl, hsame⟩ := List.append_inj' heq rfl
        cases hsame
        exact hp
      · exact hps qs q hpre
    · intro h
      exact ⟨fun qs q hq => h qs q (hq.trans (List.prefix_append _ _)), h ps p List.prefix_rfl⟩

variable {step} {more : ρ} {x₀ : σ}

/-- Every cut of the run absorbed and every answer `more`: the state is the one a
    single call on everything fed leaves, and that call answers `more` too. -/
theorem feed_absorbed (h0 : step x₀ [] = (more, x₀)) (ps : List (List α))
    (habs : ∀ qs p, qs ++ [p] <+: ps → step x₀ qs.flatten = (more, (feed step x₀ qs).2) →
      step (feed step x₀ qs).2 p = step x₀ (qs.flatten ++ p))
    (hmore : ∀ r ∈ (feed step x₀ ps).1, r = more) :
    step x₀ ps.flatten = (more, (feed step x₀ ps).2) := by
  induction ps using List.reverseRecOn with
  | nil => simpa [feed] using h0
  | append_singleton ps p ih =>
    rw [feed_snoc] at hmore ⊢
    have hps := ih (fun qs q hq => habs qs q (hq.trans (List.prefix_append _ _)))
      (fun r hr => hmore r (List.mem_append_left _ hr))
    have hlast := hmore _ (List.mem_append_right _ (List.mem_singleton.mpr rfl))
    rw [List.flatten_append, List.flatten_singleton, ← habs ps p List.prefix_rfl hps]
    exact Prod.ext hlast rfl

/-- As long as everything fed so far answers `more`, and every cut is absorbed, the
    pieces answer it and leave the state of one call. -/
theorem feed_more (h0 : step x₀ [] = (more, x₀)) {s : List α}
    (habs : ∀ u p, u ++ p <+: s → (step x₀ u).1 = more → step (step x₀ u).2 p = step x₀ (u ++ p))
    {qs : List (List α)} (hqs : qs.flatten <+: s) (hmore : ∀ u, u <+: qs.flatten → (step x₀ u).1 = more) :
    feed step x₀ qs = (List.replicate qs.length more, (step x₀ qs.flatten).2) := by
  induction qs using List.reverseRecOn with
  | nil => simp [feed, h0]
  | append_singleton qs q ih =>
    have hflat : (qs ++ [q]).flatten = qs.flatten ++ q := by simp
    rw [hflat] at hqs hmore
    have hpre : qs.flatten <+: qs.flatten ++ q := List.prefix_append _ _
    rw [feed_snoc, ih (hpre.trans hqs) fun u hu => hmore u (hu.trans hpre), habs _ _ hqs (hmore _ hpre),
      hmore _ List.prefix_rfl, hflat, List.length_append, List.replicate_add]
    rfl

/-- And the piece after them gets the answer and the state of one call on everything. -/
theorem feed_last (h0 : step x₀ [] = (more, x₀)) {s : List α}
    (habs : ∀ u p, u ++ p <+: s → (step x₀ u).1 = more → step (step x₀ u).2 p = step x₀ (u ++ p))
    {qs : List (List α)} {q : List α} (hs : qs.flatten ++ q = s) (hmore : ∀ u, u <+: qs.flatten → (step x₀ u).1 = more) :
    feed step x₀ (qs ++ [q]) = (List.replicate qs.length more ++ [(step x₀ s).1], (step x₀ s).2) := by
  have hqs : qs.flatten <+: s := ⟨q, hs⟩
  rw [feed_snoc, feed_more h0 habs hqs hmore, habs _ _ (by rw [hs]) (hmore _ List.prefix_rfl), hs]

/-- A text whose proper prefixes all answer `more`, every cut absorbed: however it is
    cut into non-empty pieces, all but the last answer `more` and the last piece gives
    the answer and the state of one call on the whole. -/
theorem feed_cut (h0 : step x₀ [] = (more, x₀)) {s : List α}
    (hpre : ∀ u, u <+: s → u ≠ s → (step x₀ u).1 = more)
    (habs : ∀ u p, u ++ p <+: s → (step x₀ u).1 = more → step (step x₀ u).2 p = step x₀ (u ++ p))
    (ps : List (List α)) (hne : ∀ p ∈ ps, p ≠ []) (hs : ps.flatten = s) (hs0 : s ≠ []) :
    feed step x₀ ps = (List.replicate (ps.length - 1) more ++ [(step x₀ s).1], (step x₀ s).2) := by
  rcases List.eq_nil_or_concat ps with rfl | ⟨qs, q, rfl⟩
  · exact absurd hs.symm (by simpa using hs0)
  · rw [List.concat_eq_append] at hne hs ⊢
    have hflat : qs.flatten ++ q = s := by simpa using hs
    have hq : 0 < q.length := List.length_pos_iff.mpr (hne q (by simp))
    rw [feed_last h0 habs hflat fun u hu => hpre u (hu.trans ⟨q, hflat⟩) ?_, List.length_append,
      List.length_singleton, Nat.add_sub_cancel]
    intro heq
    subst heq
    have hle := hu.length_le
    rw [← hflat, List.length_append] at hle
    omega

end Frnetlib.Base
