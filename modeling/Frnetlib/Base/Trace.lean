/-
  Frnetlib.Base.Trace — computations that log what they do, and the accesses to strings
  that are logged.

  A `Traced ω α` comes to a result or throws, and has logged some `ω` either way. `Comes P x o`:
  that is what `x` comes to, and everything it logs satisfies `P`; it goes through `pure`,
  bind, `attempt` and loops over a list. An `Unsigned` is a number the code computed, and
  whether a subtraction on the way to it wrapped around: as a length that is harmless where
  it reaches the end (`Access.Safe`).
-/

import Frnetlib.Base.Numeral
import Frnetlib.Base.Search

namespace Frnetlib.Base

structure Traced (ω α : Type) where
  log : List ω
  result : Option α

namespace Traced

variable {ω α β : Type}

def pure (a : α) : Traced ω α := ⟨[], some a⟩

def throw : Traced ω α := ⟨[], none⟩

/-- Nothing is done after a throw. -/
def bind (x : Traced ω α) (f : α → Traced ω β) : Traced ω β :=
  match x.result with
  | none => ⟨x.log, none⟩
  | some a => ⟨x.log ++ (f a).log, (f a).result⟩

instance : Monad (Traced ω) where
  pure := Traced.pure
  bind := Traced.bind

/-- The exception is caught. -/
def attempt (x : Traced ω α) : Traced ω (Option α) := ⟨x.log, some x.result⟩

/-! ## What a computation comes to -/

variable {P : ω → Prop}

/-- Its result, or none for a throw; and all it logs on the way satisfies `P`. -/
structure Comes (P : ω → Prop) (x : Traced ω α) (o : Option α) : Prop where
  result : x.result = o
  logs : ∀ w ∈ x.log, P w

theorem Comes.pure (a : α) : Comes P (Pure.pure a) (some a) := ⟨rfl, fun w hw => by cases hw⟩

theorem Comes.throw : Comes P (Traced.throw : Traced ω α) none := ⟨rfl, fun w hw => by cases hw⟩

theorem Comes.attempt {x : Traced ω α} {o : Option α} (h : Comes P x o) : Comes P x.attempt (some o) :=
  ⟨congrArg some h.result, h.logs⟩

theorem Comes.bind {x : Traced ω α} {f : α → Traced ω β} {a : α} {o : Option β} (hx : Comes P x (some a))
    (hf : Comes P (f a) o) : Comes P (x >>= f) o := by
  change Comes P (Traced.bind x f) o
  unfold Traced.bind
  rw [hx.result]
  refine ⟨hf.result, ?_⟩
  intro w hw
  rcases List.mem_append.mp hw with hw | hw
  · exact hx.logs w hw
  · exact hf.logs w hw

/-- All it logs satisfies `P`, whatever it comes to. -/
def Logs (P : ω → Prop) (x : Traced ω α) : Prop := ∀ w ∈ x.log, P w

theorem Logs.pure (a : α) : Logs P (Pure.pure a : Traced ω α) := fun w hw => by cases hw

theorem Logs.bind {x : Traced ω α} {f : α → Traced ω β} (hx : Logs P x) (hf : ∀ a, Logs P (f a)) : Logs P (x >>= f) := by
  change Logs P (Traced.bind x f)
  unfold Traced.bind
  cases x.result with
  | none => exact hx
  | some a =>
    intro w hw
    rcases List.mem_append.mp hw with hw | hw
    · exact hx w hw
    · exact hf a w hw

/-- A loop over a list, by what each round comes to. -/
theorem Comes.foldlM {f : β → α → Traced ω β} {g : β → α → β} {l : List α}
    (h : ∀ b, ∀ a ∈ l, Comes P (f b a) (some (g b a))) (b : β) : Comes P (l.foldlM f b) (some (l.foldl g b)) := by
  induction l generalizing b with
  | nil => exact .pure b
  | cons a l ih =>
    rw [List.foldlM_cons, List.foldl_cons]
    exact (h b a (by simp)).bind (ih (fun b a ha => h b a (List.mem_cons_of_mem _ ha)) _)

end Traced

/-! ## Accesses to strings -/

/-- A 64-bit number, and whether a subtraction on the way to it wrapped around. -/
structure Unsigned where
  value : Nat
  wrapped : Bool

def Unsigned.of (n : Nat) : Unsigned := ⟨n, false⟩

def Unsigned.sub (a b : Unsigned) : Unsigned :=
  ⟨usub a.value b.value, a.wrapped || b.wrapped || decide (a.value < b.value)⟩

@[simp] theorem of_value (n : Nat) : (Unsigned.of n).value = n := rfl
@[simp] theorem of_wrapped (n : Nat) : (Unsigned.of n).wrapped = false := rfl

/-- A number that nothing was taken from did not wrap around. -/
theorem of_unwrapped {n : Nat} {p : Prop} (h : (Unsigned.of n).wrapped = true) : p := by cases h

@[simp] theorem sub_value (a b : Unsigned) : (a.sub b).value = usub a.value b.value := rfl

@[simp] theorem sub_wrapped (a b : Unsigned) :
    (a.sub b).wrapped = true ↔ a.wrapped = true ∨ b.wrapped = true ∨ a.value < b.value := by
  simp [Unsigned.sub, or_assoc]

inductive Access where
  | substr (size pos : Nat) (length : Unsigned)
  | index (size i : Nat)

/-- Within the string; a length that wrapped around means to the end. -/
def Access.Safe : Access → Prop
  | .substr size pos length => pos ≤ size ∧ (length.wrapped = true → size ≤ pos + length.value)
  | .index size i => i < size

variable {α : Type}

/-- `s.substr(pos, length)`. -/
def substrAt (s : List α) (pos : Nat) (length : Unsigned) : Traced Access (List α) :=
  ⟨[.substr s.length pos length], substr s pos length.value⟩

/-- `s[i]`. -/
def charAt (s : List α) (i : Nat) : Traced Access α := ⟨[.index s.length i], s[i]?⟩

theorem substrAt_safe {s : List α} {pos : Nat} {length : Unsigned} (hpos : pos ≤ s.length)
    (hend : length.wrapped = true → s.length ≤ pos + length.value) :
    (substrAt s pos length).Comes Access.Safe (substr s pos length.value) := by
  refine ⟨rfl, ?_⟩
  intro w hw
  rw [List.mem_singleton.mp hw]
  exact ⟨hpos, hend⟩

theorem charAt_safe {s : List α} {i : Nat} {a : α} (h : s[i]? = some a) : (charAt s i).Comes Access.Safe (some a) := by
  refine ⟨h, ?_⟩
  intro w hw
  rw [List.mem_singleton.mp hw]
  exact (List.getElem?_eq_some_iff.mp h).1

/-- The length from a position up to `e`, whatever their order. -/
theorem substrAt_upto {s : List α} {b : Nat} {e : Unsigned} (hs : s.length < 2 ^ 64) (hb : b ≤ s.length)
    (he : e.wrapped = true → s.length ≤ e.value) :
    (substrAt s b (e.sub (.of b))).Comes Access.Safe (substr s b (usub e.value b)) := by
  refine substrAt_safe hb ?_
  intro hwrap
  rw [sub_value, of_value]
  by_cases hlt : e.value < b
  · rw [usub_of_lt hlt (by omega)]
    omega
  · have hwrapped : e.wrapped = true := by simpa [hlt] using hwrap
    have hend := he hwrapped
    rw [usub_of_le (by omega)]
    omega

/-- The length behind a separator at `b` up to `e`, whatever their order. -/
theorem substrAt_behind {s : List α} {b e : Nat} (hs : s.length < 2 ^ 64) (hb : b < s.length) :
    (substrAt s (b + 1) (((Unsigned.of e).sub (.of b)).sub (.of 1))).Comes Access.Safe
      (substr s (b + 1) (usub (usub e b) 1)) := by
  refine substrAt_safe hb ?_
  intro hwrap
  rw [sub_value, sub_value, of_value, of_value, of_value]
  by_cases hlt : e < b
  · rw [usub_of_lt hlt (by omega), usub_of_le (by omega)]
    omega
  · rw [usub_of_le (show b ≤ e by omega)]
    by_cases heq : e = b
    · rw [heq, Nat.sub_self, usub_of_lt (by omega) (by omega)]
      omega
    · exfalso
      rw [sub_wrapped, sub_wrapped, sub_value, of_value, of_value, of_value, usub_of_le (by omega)] at hwrap
      simp only [of_wrapped, Bool.false_eq_true, false_or] at hwrap
      omega

/-- What is left of a string behind `b`, less what is behind `e`: the length from `b` up to
    `e`, whatever their order, and to the end for an `e` beyond it. -/
theorem substrAt_less {s : List α} {b e : Nat} (hs : s.length < 2 ^ 64) (hb : b ≤ s.length) (he : e < 2 ^ 64) :
    (substrAt s b (((Unsigned.of s.length).sub (.of b)).sub ((Unsigned.of s.length).sub (.of e)))).Comes Access.Safe
      (substr s b (usub (usub s.length b) (usub s.length e))) := by
  refine substrAt_safe hb ?_
  intro hwrap
  simp only [sub_wrapped, sub_value, of_value, of_wrapped, Bool.false_eq_true, false_or] at hwrap ⊢
  rw [usub_of_le hb] at hwrap ⊢
  by_cases hbeyond : s.length < e
  · rw [usub_of_lt hbeyond he, usub_of_lt (by omega) (by omega)]
    omega
  · rw [usub_of_le (show e ≤ s.length by omega)] at hwrap ⊢
    rw [usub_of_lt (by omega) (by omega)]
    omega

end Frnetlib.Base
