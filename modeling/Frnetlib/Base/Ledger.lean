/-
  Frnetlib.Base.Ledger — the log of a client that opens and closes numbered resources.

  What gives out the numbers gives no number that is open; once closed, a number may be
  given again. `held` is what a log leaves open. A log is settled when the client closes
  only what it holds, and what it opened is closed once before it is given again or the
  log ends. Of a log whose numbers are fresh this is that nothing else is closed and that
  nothing is held in the end (`settled_iff`).
-/

import Mathlib.Data.Finset.Basic
import Mathlib.Tactic.Common

namespace Frnetlib.Base

inductive Event (α : Type) where
  | opens (a : α)
  | closes (a : α)
  deriving DecidableEq, Repr

namespace Ledger

variable {α : Type} [DecidableEq α]

/-- What is open after the log, where `s` is open before it. -/
def heldFrom : Finset α → List (Event α) → Finset α
  | s, [] => s
  | s, .opens a :: log => heldFrom (insert a s) log
  | s, .closes a :: log => heldFrom (s.erase a) log

def held (log : List (Event α)) : Finset α := heldFrom ∅ log

/-- Only what is not open is opened. -/
def FreshFrom : Finset α → List (Event α) → Prop
  | _, [] => True
  | s, .opens a :: log => a ∉ s ∧ FreshFrom (insert a s) log
  | s, .closes a :: log => FreshFrom (s.erase a) log

def Fresh (log : List (Event α)) : Prop := FreshFrom ∅ log

/-- Only what is open is closed. -/
def OwnsFrom : Finset α → List (Event α) → Prop
  | _, [] => True
  | s, .opens a :: log => OwnsFrom (insert a s) log
  | s, .closes a :: log => a ∈ s ∧ OwnsFrom (s.erase a) log

def Owns (log : List (Event α)) : Prop := OwnsFrom ∅ log

/-- How often `a` is closed before it is opened again. -/
def closings (a : α) : List (Event α) → Nat
  | [] => 0
  | .opens b :: log => if b = a then 0 else closings a log
  | .closes b :: log => if b = a then closings a log + 1 else closings a log

def ClosedOnce : List (Event α) → Prop
  | [] => True
  | .opens a :: log => closings a log = 1 ∧ ClosedOnce log
  | .closes _ :: log => ClosedOnce log

def Settled (log : List (Event α)) : Prop := Owns log ∧ ClosedOnce log

instance OwnsFrom.decidable (s : Finset α) : (log : List (Event α)) → Decidable (OwnsFrom s log)
  | [] => isTrue trivial
  | .opens a :: log => OwnsFrom.decidable (insert a s) log
  | .closes a :: log =>
    have : Decidable (OwnsFrom (s.erase a) log) := OwnsFrom.decidable (s.erase a) log
    inferInstanceAs (Decidable (a ∈ s ∧ OwnsFrom (s.erase a) log))

instance ClosedOnce.decidable : (log : List (Event α)) → Decidable (ClosedOnce log)
  | [] => isTrue trivial
  | .opens a :: log =>
    have : Decidable (ClosedOnce log) := ClosedOnce.decidable log
    inferInstanceAs (Decidable (closings a log = 1 ∧ ClosedOnce log))
  | .closes _ :: log => ClosedOnce.decidable log

instance (log : List (Event α)) : Decidable (Settled log) :=
  have : Decidable (Owns log) := OwnsFrom.decidable ∅ log
  inferInstanceAs (Decidable (Owns log ∧ ClosedOnce log))

/-! ## One more event -/

theorem heldFrom_append (s : Finset α) (log log' : List (Event α)) :
    heldFrom s (log ++ log') = heldFrom (heldFrom s log) log' := by
  induction log generalizing s with
  | nil => rfl
  | cons e log ih => cases e <;> exact ih _

@[simp] theorem held_opens (log : List (Event α)) (a : α) : held (log ++ [.opens a]) = insert a (held log) :=
  heldFrom_append ∅ log _

@[simp] theorem held_closes (log : List (Event α)) (a : α) : held (log ++ [.closes a]) = (held log).erase a :=
  heldFrom_append ∅ log _

theorem freshFrom_append (s : Finset α) (log log' : List (Event α)) :
    FreshFrom s (log ++ log') ↔ FreshFrom s log ∧ FreshFrom (heldFrom s log) log' := by
  induction log generalizing s with
  | nil => simp [FreshFrom, heldFrom]
  | cons e log ih =>
    cases e with
    | opens a => simp only [List.cons_append, FreshFrom, heldFrom, ih, and_assoc]
    | closes a => exact ih _

@[simp] theorem fresh_opens (log : List (Event α)) (a : α) :
    Fresh (log ++ [.opens a]) ↔ Fresh log ∧ a ∉ held log := by
  simp [Fresh, freshFrom_append, FreshFrom, held]

@[simp] theorem fresh_closes (log : List (Event α)) (a : α) : Fresh (log ++ [.closes a]) ↔ Fresh log := by
  simp [Fresh, freshFrom_append, FreshFrom]

theorem ownsFrom_append (s : Finset α) (log log' : List (Event α)) :
    OwnsFrom s (log ++ log') ↔ OwnsFrom s log ∧ OwnsFrom (heldFrom s log) log' := by
  induction log generalizing s with
  | nil => simp [OwnsFrom, heldFrom]
  | cons e log ih =>
    cases e with
    | opens a => exact ih _
    | closes a => simp only [List.cons_append, OwnsFrom, heldFrom, ih, and_assoc]

@[simp] theorem owns_opens (log : List (Event α)) (a : α) : Owns (log ++ [.opens a]) ↔ Owns log := by
  simp [Owns, ownsFrom_append, OwnsFrom]

@[simp] theorem owns_closes (log : List (Event α)) (a : α) :
    Owns (log ++ [.closes a]) ↔ Owns log ∧ a ∈ held log := by
  simp [Owns, ownsFrom_append, OwnsFrom, held]

/-! ## Closed once -/

/-- What is not open is not closed before it is opened again. -/
theorem closings_closed {s : Finset α} {log : List (Event α)} (hown : OwnsFrom s log) {a : α} (ha : a ∉ s) :
    closings a log = 0 := by
  induction log generalizing s with
  | nil => rfl
  | cons e log ih =>
    cases e with
    | opens b =>
      by_cases hb : b = a
      · exact if_pos hb
      · rw [closings, if_neg hb]
        exact ih hown (by simp [ha, Ne.symm hb])
    | closes b =>
      obtain ⟨hmem, hown⟩ := hown
      have hb : b ≠ a := fun h => ha (h ▸ hmem)
      rw [closings, if_neg hb]
      exact ih hown (by simp [ha])

/-- The induction is on the log: an event moves one number between what is open and what
    the rest of the log speaks of. -/
theorem closedOnce_iff {s : Finset α} {log : List (Event α)} (hfresh : FreshFrom s log) (hown : OwnsFrom s log) :
    ((∀ a ∈ s, closings a log = 1) ∧ ClosedOnce log) ↔ heldFrom s log = ∅ := by
  induction log generalizing s with
  | nil => simp [closings, ClosedOnce, heldFrom, Finset.eq_empty_iff_forall_notMem]
  | cons e log ih =>
    cases e with
    | opens b =>
      obtain ⟨hb, hfresh⟩ := hfresh
      rw [heldFrom, ← ih hfresh hown, Finset.forall_mem_insert, ClosedOnce]
      have hsame : (∀ a ∈ s, closings a (.opens b :: log) = 1) ↔ ∀ a ∈ s, closings a log = 1 := by
        refine forall₂_congr fun a ha => ?_
        have hne : b ≠ a := fun h => hb (h ▸ ha)
        rw [closings, if_neg hne]
      rw [hsame]
      tauto
    | closes b =>
      obtain ⟨hb, hown⟩ := hown
      rw [heldFrom, ← ih hfresh hown, ClosedOnce]
      have hself : closings b log = 0 := closings_closed hown (Finset.notMem_erase b s)
      have hsame : (∀ a ∈ s, closings a (.closes b :: log) = 1) ↔ ∀ a ∈ s.erase b, closings a log = 1 := by
        constructor
        · intro h a ha
          obtain ⟨hne, ha⟩ := Finset.mem_erase.mp ha
          have hone := h a ha
          rwa [closings, if_neg (Ne.symm hne)] at hone
        · intro h a ha
          by_cases hab : b = a
          · subst hab
            rw [closings, if_pos rfl, hself]
          · rw [closings, if_neg hab]
            exact h a (Finset.mem_erase.mpr ⟨Ne.symm hab, ha⟩)
      rw [hsame]

theorem settled_iff {log : List (Event α)} (hfresh : Fresh log) : Settled log ↔ Owns log ∧ held log = ∅ := by
  refine and_congr_right fun hown => ?_
  rw [held, ← closedOnce_iff hfresh hown]
  simp

end Ledger

end Frnetlib.Base
