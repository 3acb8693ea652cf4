/-
  Frnetlib.Base.Run — the runs of a partial step, and what holds all along them.

  A step takes a state and a call to an outcome and the next state; where it gives `none`
  there is no such run. `Always` is what holds at every step of the run a list of calls
  makes, `run` the state after it.
-/

namespace Frnetlib.Base

universe u v w

variable {σ : Type u} {α : Type v} {ο : Type w}

/-- `p` holds of every step of the run. -/
def Always (step : σ → α → Option (ο × σ)) (p : σ → α → ο → σ → Prop) : σ → List α → Prop
  | _, [] => True
  | s, a :: l =>
    match step s a with
    | none => True
    | some (o, s') => p s a o s' ∧ Always step p s' l

def run (step : σ → α → Option (ο × σ)) : σ → List α → Option σ
  | s, [] => some s
  | s, a :: l =>
    match step s a with
    | none => none
    | some (_, s') => run step s' l

section

variable {step : σ → α → Option (ο × σ)} {p : σ → α → ο → σ → Prop}

instance Always.decidable [∀ s a o s', Decidable (p s a o s')] (s : σ) : (l : List α) → Decidable (Always step p s l)
  | [] => isTrue trivial
  | a :: l =>
    match h : step s a with
    | none => isTrue (by simp [Always, h])
    | some (o, s') =>
      have : Decidable (Always step p s' l) := Always.decidable s' l
      decidable_of_iff (p s a o s' ∧ Always step p s' l) (by simp [Always, h])

theorem always_cons_none {s : σ} {a : α} (h : step s a = none) (l : List α) : Always step p s (a :: l) := by
  simp [Always, h]

theorem always_cons {s s' : σ} {a : α} {o : ο} (h : step s a = some (o, s')) (l : List α) :
    Always step p s (a :: l) ↔ p s a o s' ∧ Always step p s' l := by
  simp [Always, h]

/-- Where the steps that keep to `good` keep an invariant and have the property, and no
    other step has it, the property holds along a run exactly when the run keeps to
    `good`. -/
theorem always_iff_of_step {inv : σ → Prop} {good : σ → α → Prop}
    (hgood : ∀ s a o s', inv s → step s a = some (o, s') → good s a → inv s' ∧ p s a o s')
    (hbad : ∀ s a o s', inv s → step s a = some (o, s') → ¬ good s a → ¬ p s a o s')
    {s : σ} (hs : inv s) (l : List α) :
    Always step p s l ↔ Always step (fun s a _ _ => good s a) s l := by
  induction l generalizing s with
  | nil => exact Iff.rfl
  | cons a l ih =>
    match hstep : step s a with
    | none => exact iff_of_true (always_cons_none hstep l) (always_cons_none hstep l)
    | some (o, s') =>
      rw [always_cons hstep, always_cons hstep]
      constructor
      · intro hgiven
        obtain ⟨hp, hl⟩ := hgiven
        have hg : good s a := Classical.byContradiction fun hg => hbad s a o s' hs hstep hg hp
        exact ⟨hg, (ih (hgood s a o s' hs hstep hg).1).mp hl⟩
      · intro hgiven
        obtain ⟨hg, hl⟩ := hgiven
        obtain ⟨hinv, hp⟩ := hgood s a o s' hs hstep hg
        exact ⟨hp, (ih hinv).mpr hl⟩

/-- The steps that keep to `good` keep an invariant and have the property, so a run that
    keeps to `good` has it. -/
theorem always_of_good {inv : σ → Prop} {good : σ → α → Prop}
    (hgood : ∀ s a o s', inv s → step s a = some (o, s') → good s a → inv s' ∧ p s a o s')
    {s : σ} (hs : inv s) {l : List α} (hl : Always step (fun s a _ _ => good s a) s l) : Always step p s l := by
  induction l generalizing s with
  | nil => trivial
  | cons a l ih =>
    match hstep : step s a with
    | none => exact always_cons_none hstep l
    | some (o, s') =>
      rw [always_cons hstep] at hl ⊢
      obtain ⟨hinv, hp⟩ := hgood s a o s' hs hstep hl.1
      exact ⟨hp, ih hinv hl.2⟩

theorem always_true (s : σ) (l : List α) : Always step (fun _ _ _ _ => True) s l := by
  induction l generalizing s with
  | nil => trivial
  | cons a l ih =>
    match hstep : step s a with
    | none => exact always_cons_none hstep l
    | some (o, s') => exact (always_cons hstep l).mpr ⟨trivial, ih s'⟩

/-- Where every step keeps an invariant and has the property, every run has it. -/
theorem always_of_step {inv : σ → Prop} (h : ∀ s a o s', inv s → step s a = some (o, s') → inv s' ∧ p s a o s')
    {s : σ} (hs : inv s) (l : List α) : Always step p s l :=
  always_of_good (fun s a o s' hs hstep _ => h s a o s' hs hstep) hs (always_true s l)

theorem exists_of_run_cons {s t : σ} {a : α} {l : List α} (h : run step s (a :: l) = some t) :
    ∃ o s', step s a = some (o, s') ∧ run step s' l = some t := by
  rw [run] at h
  match hstep : step s a with
  | none =>
    rw [hstep] at h
    cases h
  | some (o, s') =>
    rw [hstep] at h
    exact ⟨o, s', rfl, h⟩

/-- What every step keeps holds at the end of a run. -/
theorem run_keeps {inv : σ → Prop} (hinv : ∀ s a o s', inv s → step s a = some (o, s') → inv s') {s t : σ} (hs : inv s)
    {l : List α} (hrun : run step s l = some t) : inv t := by
  induction l generalizing s with
  | nil =>
    cases hrun
    exact hs
  | cons a l ih =>
    obtain ⟨o, s', hstep, hrest⟩ := exists_of_run_cons hrun
    exact ih (hinv s a o s' hs hstep) hrest

/-- The same, where a step that does not keep to `good` may have the property but then
    leaves the run `lost`, which no later step mends and the end of the run shows. -/
theorem always_run_iff {inv lost fine : σ → Prop} {good : σ → α → Prop}
    (hgood : ∀ s a o s', inv s → step s a = some (o, s') → good s a → inv s' ∧ p s a o s')
    (hbad : ∀ s a o s', inv s → step s a = some (o, s') → ¬ good s a → p s a o s' → lost s')
    (hlost : ∀ s a o s', lost s → step s a = some (o, s') → lost s')
    (hfine : ∀ s, inv s → fine s) (hnot : ∀ s, lost s → ¬ fine s)
    {s t : σ} (hs : inv s) {l : List α} (hrun : run step s l = some t) :
    (Always step p s l ∧ fine t) ↔ Always step (fun s a _ _ => good s a) s l := by
  induction l generalizing s with
  | nil =>
    cases hrun
    exact iff_of_true ⟨trivial, hfine _ hs⟩ trivial
  | cons a l ih =>
    obtain ⟨o, s', hstep, hrest⟩ := exists_of_run_cons hrun
    rw [always_cons hstep, always_cons hstep]
    by_cases hg : good s a
    · obtain ⟨hinv, hp⟩ := hgood s a o s' hs hstep hg
      rw [← ih hinv hrest, and_assoc]
      exact ⟨fun h => ⟨hg, h.2⟩, fun h => ⟨hp, h.2⟩⟩
    · refine iff_of_false (fun h => ?_) (fun h => hg h.1)
      have hls : lost s' := hbad s a o s' hs hstep hg h.1.1
      exact hnot t (run_keeps hlost hls hrest) h.2

end

end Frnetlib.Base
