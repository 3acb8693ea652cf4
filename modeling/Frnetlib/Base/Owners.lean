/-
  Frnetlib.Base.Owners — the resources of a ledger (`Base.Ledger`) and who has which.

  Each owner has one resource or none. `Owned`: what is held is what the owners have, no
  two have the same, and only what was held has been closed. An operation of one owner is
  seen from that owner: `Beside others has log` says this with the others' resources as a
  set, and an owner's operation keeps `Owned` exactly when it keeps `Beside`
  (`Owned.update_iff`).

  Taking what was opened and closing what one has keep it in both directions
  (`beside_opens`, `beside_closes`); writing over what one has does not (`Beside.kept`).
-/

import Frnetlib.Base.Ledger
import Mathlib.Data.Finset.Basic
import Mathlib.Logic.Function.Basic

namespace Frnetlib.Base.Ledger

variable {ι α : Type} [DecidableEq α]

structure Owned (owner : ι → Option α) (log : List (Event α)) : Prop where
  fresh : Fresh log
  owns : Owns log
  sole : ∀ {i j : ι} {a : α}, owner i = some a → owner j = some a → i = j
  held : ∀ a, a ∈ held log ↔ ∃ i, owner i = some a

/-- One owner `has` this, the others have `others`, and nothing else is held. -/
structure Beside (others : Finset α) (has : Option α) (log : List (Event α)) : Prop where
  fresh : Fresh log
  owns : Owns log
  held : ∀ a, a ∈ held log ↔ a ∈ others ∨ has = some a
  apart : ∀ a, has = some a → a ∉ others

section

variable {others : Finset α} {log : List (Event α)} {a : α} {has : Option α}

theorem beside_none : Beside others none log ↔ Fresh log ∧ Owns log ∧ Ledger.held log = others := by
  constructor
  · intro h
    exact ⟨h.fresh, h.owns, Finset.ext fun b => by simpa using h.held b⟩
  · intro hgiven
    obtain ⟨hfresh, howns, rfl⟩ := hgiven
    exact ⟨hfresh, howns, by simp, by simp⟩

theorem beside_opens (ha : a ∉ Ledger.held log) :
    Beside others (some a) (log ++ [.opens a]) ↔ Beside others none log := by
  rw [beside_none]
  constructor
  · intro h
    refine ⟨((fresh_opens log a).mp h.fresh).1, (owns_opens log a).mp h.owns, Finset.ext fun b => ?_⟩
    have hb := h.held b
    rw [held_opens, Finset.mem_insert] at hb
    by_cases hba : b = a
    · subst hba
      exact iff_of_false ha (h.apart b rfl)
    · simpa [hba, Ne.symm hba] using hb
  · intro hgiven
    obtain ⟨hfresh, howns, rfl⟩ := hgiven
    refine ⟨(fresh_opens log a).mpr ⟨hfresh, ha⟩, (owns_opens log a).mpr howns, fun b => ?_, fun b hb => ?_⟩
    · rw [held_opens, Finset.mem_insert, Option.some.injEq, or_comm, eq_comm]
    · cases hb
      exact ha

theorem beside_closes : Beside others none (log ++ [.closes a]) ↔ Beside others (some a) log := by
  rw [beside_none, fresh_closes, owns_closes, held_closes]
  constructor
  · intro hgiven
    obtain ⟨hfresh, ⟨howns, ha⟩, rfl⟩ := hgiven
    refine ⟨hfresh, howns, fun b => ?_, fun b hb => ?_⟩
    · rw [Finset.mem_erase, Option.some.injEq]
      by_cases hba : b = a
      · simp [hba, ha]
      · simp [hba, Ne.symm hba]
    · cases hb
      exact Finset.notMem_erase a _
  · intro h
    refine ⟨h.fresh, ⟨h.owns, (h.held a).mpr (.inr rfl)⟩, Finset.ext fun b => ?_⟩
    rw [Finset.mem_erase, h.held, Option.some.injEq]
    by_cases hba : b = a
    · subst hba
      simp [h.apart b rfl]
    · simp [hba, Ne.symm hba]

/-- Nothing is held that is neither the owner's nor the others'. -/
theorem Beside.kept (h : Beside others has log) (ha : a ∈ Ledger.held log) (hother : a ∉ others) : has = some a :=
  ((h.held a).mp ha).resolve_left hother

/-- What is opened is written over what the owner has. -/
theorem Beside.taken_iff (h : Beside others has log) (ha : a ∉ Ledger.held log) :
    Beside others (some a) (log ++ [.opens a]) ↔ has = none := by
  rw [beside_opens ha]
  constructor
  · intro hnone
    cases has with
    | none => rfl
    | some b => exact (hnone.kept ((h.held b).mpr (.inr rfl)) (h.apart b rfl)).symm
  · rintro rfl
    exact h

/-- What is opened is one of the others' for now. -/
theorem Beside.opened (h : Beside others has log) (ha : a ∉ Ledger.held log) :
    Beside (insert a others) has (log ++ [.opens a]) := by
  refine ⟨(fresh_opens log a).mpr ⟨h.fresh, ha⟩, (owns_opens log a).mpr h.owns, fun b => ?_, fun b hb => ?_⟩
  · rw [held_opens, Finset.mem_insert, Finset.mem_insert, h.held, or_assoc]
  · rw [Finset.mem_insert, not_or]
    exact ⟨fun hba => ha (hba ▸ (h.held b).mpr (.inr hb)), h.apart b hb⟩

theorem Beside.given (h : Beside (insert a others) none log) (ha : a ∉ others) : Beside others (some a) log := by
  refine ⟨h.fresh, h.owns, fun b => ?_, fun b hb => ?_⟩
  · rw [h.held, Finset.mem_insert, Option.some.injEq]
    simp [or_comm, eq_comm]
  · cases hb
    exact ha

theorem Beside.reopened (h : Beside others has log) (ha : a ∉ Ledger.held log) :
    Beside others has (log ++ [.opens a] ++ [.closes a]) := by
  refine ⟨(fresh_closes _ a).mpr (h.opened ha).fresh, (owns_closes _ a).mpr ⟨(h.opened ha).owns, by simp⟩, fun b => ?_,
    h.apart⟩
  rw [held_closes, held_opens, Finset.erase_insert ha, h.held]

end

/-- What the others have. -/
def others (owner : ι → Option α) (log : List (Event α)) (i : ι) : Finset α :=
  (held log).filter fun a => owner i ≠ some a

variable {owner : ι → Option α} {log : List (Event α)}

theorem Owned.beside (h : Owned owner log) (i : ι) : Beside (others owner log i) (owner i) log := by
  refine ⟨h.fresh, h.owns, fun a => ?_, fun a ha => ?_⟩
  · by_cases ha : owner i = some a
    · simp [ha, (h.held a).mpr ⟨i, ha⟩]
    · simp [others, ha]
  · simp [others, ha]

theorem Owned.update_iff [DecidableEq ι] (h : Owned owner log) (i : ι) (has : Option α) (log' : List (Event α)) :
    Owned (Function.update owner i has) log' ↔ Beside (others owner log i) has log' := by
  have hothers : ∀ a, a ∈ others owner log i ↔ ∃ j, j ≠ i ∧ owner j = some a := by
    intro a
    rw [others, Finset.mem_filter, h.held]
    constructor
    · intro hgiven
      obtain ⟨⟨j, hj⟩, hi⟩ := hgiven
      exact ⟨j, fun hji => hi (hji ▸ hj), hj⟩
    · intro hgiven
      obtain ⟨j, hji, hj⟩ := hgiven
      exact ⟨⟨j, hj⟩, fun hi => hji (h.sole hj hi)⟩
  have hafter : ∀ a, (∃ j, Function.update owner i has j = some a) ↔ a ∈ others owner log i ∨ has = some a := by
    intro a
    rw [hothers]
    constructor
    · intro hgiven
      obtain ⟨j, hj⟩ := hgiven
      by_cases hji : j = i
      · subst hji
        exact .inr (by simpa using hj)
      · exact .inl ⟨j, hji, by simpa [hji] using hj⟩
    · rintro (⟨j, hji, hj⟩ | ha)
      · exact ⟨j, by simpa [hji] using hj⟩
      · exact ⟨i, by simpa using ha⟩
  constructor
  · intro hafter'
    refine ⟨hafter'.fresh, hafter'.owns, fun a => (hafter'.held a).trans (hafter a), fun a ha hother => ?_⟩
    obtain ⟨j, hji, hj⟩ := (hothers a).mp hother
    exact hji (hafter'.sole (i := j) (j := i) (a := a) (by simpa [hji] using hj) (by simpa using ha))
  · intro hbeside
    refine ⟨hbeside.fresh, hbeside.owns, ?_, fun a => (hbeside.held a).trans (hafter a).symm⟩
    intro j k a hj hk
    have hnot : ∀ l, l ≠ i → owner l = some a → has ≠ some a := fun l hl hla hha =>
      hbeside.apart a hha ((hothers a).mpr ⟨l, hl, hla⟩)
    by_cases hji : j = i <;> by_cases hki : k = i
    · rw [hji, hki]
    · subst hji
      exact absurd (by simpa using hj) (hnot k hki (by simpa [hki] using hk))
    · subst hki
      exact absurd (by simpa using hk) (hnot j hji (by simpa [hji] using hj))
    · exact h.sole (by simpa [hji] using hj) (by simpa [hki] using hk)

/-- Once nobody has anything the ledger is settled. -/
theorem Owned.settled (h : Owned owner log) (hnone : ∀ i, owner i = none) : Settled log := by
  refine (settled_iff h.fresh).mpr ⟨h.owns, Finset.eq_empty_of_forall_notMem fun a ha => ?_⟩
  obtain ⟨i, hi⟩ := (h.held a).mp ha
  rw [hnone i] at hi
  cases hi

/-- Once one owner is left, what it has is the last thing to be closed. -/
theorem Owned.settled_last [DecidableEq ι] (h : Owned owner log) {i : ι} {a : α} (hi : owner i = some a)
    (hnone : ∀ j, j ≠ i → owner j = none) : Settled (log ++ [.closes a]) := by
  have hbeside := h.beside i
  rw [hi] at hbeside
  refine ((h.update_iff i none _).mpr (beside_closes.mpr hbeside)).settled fun j => ?_
  by_cases hj : j = i
  · simp [hj]
  · simp [hj, hnone j hj]

end Frnetlib.Base.Ledger
