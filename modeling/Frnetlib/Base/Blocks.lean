/-
  Frnetlib.Base.Blocks — a state that takes in a text block by block, `n` symbols at a time.

  `absorb step n x s` is the state after the whole blocks of `s`, and `unabsorbed n s` what is
  left behind them, fewer than `n` symbols. One who keeps what is left and puts it before
  what comes next is where one call on everything is (`absorb_unabsorbed`).
-/

import Mathlib.Algebra.Order.Group.Nat
import Mathlib.Tactic.Common

namespace Frnetlib.Base

variable {α σ : Type} (step : σ → List α → σ) (n : Nat)

def absorbBlocks : Nat → σ → List α → σ
  | 0, x, _ => x
  | k + 1, x, s => absorbBlocks k (step x (s.take n)) (s.drop n)

def absorb (x : σ) (s : List α) : σ := absorbBlocks step n (s.length / n) x s

def unabsorbed (s : List α) : List α := s.drop (n * (s.length / n))

variable {step n}

theorem absorb_short (x : σ) {s : List α} (h : s.length < n) : absorb step n x s = x := by
  rw [absorb, Nat.div_eq_of_lt h, absorbBlocks]

theorem unabsorbed_short {s : List α} (h : s.length < n) : unabsorbed n s = s := by
  rw [unabsorbed, Nat.div_eq_of_lt h, Nat.mul_zero, List.drop_zero]

theorem length_cons_block (hn : 0 < n) {b : List α} (hb : b.length = n) (s : List α) :
    (b ++ s).length / n = s.length / n + 1 := by
  rw [List.length_append, hb, Nat.add_comm, Nat.add_div_right _ hn]

/-- One block, and then what is behind it. -/
theorem absorb_block (hn : 0 < n) {b : List α} (hb : b.length = n) (x : σ) (s : List α) :
    absorb step n x (b ++ s) = absorb step n (step x b) s := by
  rw [absorb, length_cons_block hn hb, absorbBlocks, List.take_left' hb, List.drop_left' hb, absorb]

theorem unabsorbed_block (hn : 0 < n) {b : List α} (hb : b.length = n) (s : List α) : unabsorbed n (b ++ s) = unabsorbed n s := by
  rw [unabsorbed, length_cons_block hn hb, Nat.mul_succ, Nat.add_comm, ← List.drop_drop, List.drop_left' hb, unabsorbed]

/-- What is left of the first text is put before the second. -/
theorem absorb_unabsorbed (hn : 0 < n) (x : σ) (s t : List α) :
    absorb step n (absorb step n x s) (unabsorbed n s ++ t) = absorb step n x (s ++ t) ∧
      unabsorbed n (unabsorbed n s ++ t) = unabsorbed n (s ++ t) := by
  generalize hm : s.length = m
  induction m using Nat.strongRecOn generalizing s x with
  | ind m ih =>
    by_cases hshort : s.length < n
    · rw [absorb_short x hshort, unabsorbed_short hshort]
      exact ⟨rfl, rfl⟩
    · have hb : (s.take n).length = n := List.length_take_of_le (Nat.le_of_not_lt hshort)
      have hsplit : s.take n ++ s.drop n = s := List.take_append_drop n s
      have hlt : (s.drop n).length < m := by
        rw [List.length_drop]
        omega
      obtain ⟨habsorb, hleft⟩ := ih _ hlt (step x (s.take n)) (s.drop n) rfl
      rw [← hsplit, List.append_assoc, absorb_block hn hb, absorb_block hn hb, unabsorbed_block hn hb, unabsorbed_block hn hb]
      exact ⟨habsorb, hleft⟩

theorem absorb_one (hn : 0 < n) (x : σ) {b : List α} (hb : b.length = n) : absorb step n x b = step x b := by
  have h : absorb step n x (b ++ []) = absorb step n (step x b) [] := absorb_block hn hb x []
  rwa [List.append_nil, absorb_short (step x b) (s := []) hn] at h

end Frnetlib.Base
