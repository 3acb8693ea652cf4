/-
  Frnetlib.Net.Prompt — receiving over any schedule against receiving from a socket that
  gives what it is asked for at once.

  `Prompt` is that socket: its state is the bytes still to be received. On any reliable
  stream a receiving function comes to what it comes to on `Prompt` with the same bytes, or
  waits where that does, or is told that it would block and takes nothing (`Answers`). This
  passes through the loops of `Net.Socket` and through `andThen`; so whatever the peer sent,
  and however it arrives, the results of the calls are those on `Prompt`, and with enough
  calls all of them (`calls_answer`).
-/

import Frnetlib.Net.Stream

namespace Frnetlib.Socket

open Base Receiver

structure Prompt where
  stream : Bytes
  deriving DecidableEq, Repr

namespace Prompt

def receiveRaw (n : Nat) (w : Prompt) : Option (Status × Bytes × Prompt) :=
  if w.stream = [] then none else some (.success, w.stream.take n, ⟨w.stream.drop n⟩)

theorem receiveRaw_some {n : Nat} {w w' : Prompt} {st : Status} {b : Bytes} (h : receiveRaw n w = some (st, b, w')) :
    w.stream ≠ [] ∧ st = .success ∧ b = w.stream.take n ∧ w'.stream = w.stream.drop n := by
  unfold receiveRaw at h
  by_cases hempty : w.stream = []
  · rw [if_pos hempty] at h
    cases h
  · rw [if_neg hempty] at h
    cases h
    exact ⟨hempty, rfl, rfl, rfl⟩

instance : BlockingReceiver Prompt where
  receiveRaw := receiveRaw
  pending := stream
  left := fun w => w.stream.length
  raw_left := by
    intro n w st b w' h hn
    obtain ⟨hne, -, -, hw'⟩ := receiveRaw_some h
    have hpos := List.length_pos_iff.mpr hne
    rw [hw', List.length_drop]
    omega
  raw_length := by
    intro n w st b w' h
    obtain ⟨-, -, hb, -⟩ := receiveRaw_some h
    rw [hb, List.length_take]
    exact Nat.min_le_left _ _
  raw_fails := by
    intro n w st b w' h hst
    exact absurd (receiveRaw_some h).2.1 hst
  raw_pending := by
    intro n w st b w' h
    obtain ⟨-, -, hb, hw'⟩ := receiveRaw_some h
    rw [hb, hw', List.take_append_drop]
  raw_status := fun h _ => .inl (receiveRaw_some h).2.1
  raw_returns := by
    intro n w _ hne h
    have hne : w.stream ≠ [] := hne
    rw [receiveRaw, if_neg hne] at h
    cases h
  raw_blocking := by
    intro n w b w' h
    cases (receiveRaw_some h).2.1

@[simp] theorem pending_eq (w : Prompt) : pending w = w.stream := rfl

/-- It takes all it is asked for, or waits. -/
theorem receiveAll_eq (n : Nat) (w : Prompt) :
    receiveAll n w = if n ≤ w.stream.length then some (.success, w.stream.take n, ⟨w.stream.drop n⟩) else none := by
  rcases receiveAll_fifo n w with ⟨w', hw, hle, hp, -⟩ | ⟨w', -, hp, hlt⟩ | ⟨hw, hlt⟩
  · have hw' : w' = ⟨w.stream.drop n⟩ := congrArg Prompt.mk hp
    rw [hw, hw']
    exact (if_pos hle).symm
  · -- nothing would block: what is left would be as much as before
    have hp : w'.stream = w.stream := hp
    have hlt : w'.stream.length < w.stream.length := hlt
    rw [hp] at hlt
    exact absurd hlt (Nat.lt_irrefl _)
  · rw [hw]
    exact (if_neg (Nat.not_le.mpr hlt)).symm

theorem receiveRest_eq (n : Nat) (w : Prompt) :
    receiveRest n w = if n ≤ w.stream.length then some (.success, w.stream.take n, ⟨w.stream.drop n⟩) else none := by
  rw [← receiveAll_eq]
  cases hall : receiveAll n w with
  | none => exact receiveRest_none hall
  | some r =>
    obtain ⟨st, b, w'⟩ := r
    rw [receiveAll_eq] at hall
    by_cases hle : n ≤ w.stream.length
    · rw [if_pos hle] at hall
      cases hall
      exact receiveRest_done (by rw [receiveAll_eq, if_pos hle])
    · rw [if_neg hle] at hall
      cases hall

theorem receiveRest_iff {n : Nat} {w w' : Prompt} {st : Status} {b : Bytes} :
    receiveRest n w = some (st, b, w') ↔ st = .success ∧ b.length = n ∧ w.stream = b ++ w'.stream := by
  rw [receiveRest_eq]
  constructor
  · intro h
    by_cases hle : n ≤ w.stream.length
    · rw [if_pos hle] at h
      cases h
      exact ⟨rfl, List.length_take_of_le hle, (List.take_append_drop n _).symm⟩
    · rw [if_neg hle] at h
      cases h
  · intro hgiven
    obtain ⟨rfl, rfl, hw⟩ := hgiven
    have hle : b.length ≤ w.stream.length := by rw [hw, List.length_append]; omega
    rw [if_pos hle, hw, List.take_left, List.drop_left]

theorem receiveAll_iff {n : Nat} {w w' : Prompt} {st : Status} {b : Bytes} :
    receiveAll n w = some (st, b, w') ↔ st = .success ∧ b.length = n ∧ w.stream = b ++ w'.stream := by
  rw [receiveAll_eq, ← receiveRest_eq]
  exact receiveRest_iff

theorem andThen_iff {α β : Type} {x : Prompt → Option (Status × α × Prompt)} {fail : α → β}
    {f : α → Prompt → Option (Status × β × Prompt)} (hx : ∀ {w st a w'}, x w = some (st, a, w') → st = .success)
    {w : Prompt} {r : Status × β × Prompt} :
    andThen x fail f w = some r ↔ ∃ a w₁, x w = some (.success, a, w₁) ∧ f a w₁ = some r := by
  rw [andThen]
  cases hxw : x w with
  | none => simp
  | some r' =>
    obtain ⟨st, a, w₁⟩ := r'
    obtain rfl := hx hxw
    simp

end Prompt

/-! ## Over any schedule -/

section

variable {σ α β : Type} [FifoReceiver σ]

/-- Once a message has begun: the same result, or both wait. -/
def Follows (x : σ → Option (Status × α × σ)) (y : Prompt → Option (Status × α × Prompt)) : Prop :=
  ∀ w, (∃ st a w', x w = some (st, a, w') ∧ y ⟨pending w⟩ = some (st, a, ⟨pending w'⟩) ∧ st ≠ .wouldBlock ∧
      left w' ≤ left w) ∨ (x w = none ∧ y ⟨pending w⟩ = none)

/-- Before it begins the call may also be told that it would block. -/
def Answers (x : σ → Option (Status × α × σ)) (y : Prompt → Option (Status × α × Prompt)) : Prop :=
  ∀ w, (∃ st a w', x w = some (st, a, w') ∧ y ⟨pending w⟩ = some (st, a, ⟨pending w'⟩) ∧ st ≠ .wouldBlock ∧
      left w' ≤ left w) ∨ (x w = none ∧ y ⟨pending w⟩ = none) ∨ Retried (x w) w

theorem follows_receiveRest (n : Nat) : Follows (σ := σ) (receiveRest n) (receiveRest n) := by
  intro w
  rw [Prompt.receiveRest_eq]
  rcases receiveRest_fifo n w with ⟨w', hw, hle, hp, hl⟩ | ⟨hw, hlt⟩
  · rw [if_pos hle]
    exact .inl ⟨.success, _, w', hw, by rw [hp], by decide, hl⟩
  · rw [if_neg (Nat.not_le.mpr hlt)]
    exact .inr ⟨hw, rfl⟩

theorem answers_receiveAll (n : Nat) : Answers (σ := σ) (receiveAll n) (receiveAll n) := by
  intro w
  rw [Prompt.receiveAll_eq]
  rcases receiveAll_fifo n w with ⟨w', hw, hle, hp, hl⟩ | ⟨w', hw, hp, hl⟩ | ⟨hw, hlt⟩
  · rw [if_pos hle]
    exact .inl ⟨.success, _, w', hw, by rw [hp], by decide, hl⟩
  · exact .inr (.inr ⟨[], w', hw, hp, hl⟩)
  · rw [if_neg (Nat.not_le.mpr hlt)]
    exact .inr (.inl ⟨hw, rfl⟩)

theorem Follows.pure {st : Status} (a : α) (h : st ≠ .wouldBlock) :
    Follows (σ := σ) (fun w => some (st, a, w)) (fun w => some (st, a, w)) := fun w =>
  .inl ⟨st, a, w, rfl, rfl, h, Nat.le_refl _⟩

theorem Follows.none : Follows (σ := σ) (α := α) (fun _ => none) (fun _ => none) := fun _ => .inr ⟨rfl, rfl⟩

theorem Follows.map {x : σ → Option (Status × α × σ)} {y : Prompt → Option (Status × α × Prompt)} (h : Follows x y)
    (f : α → β) :
    Follows (fun w => (x w).map fun r => (r.1, f r.2.1, r.2.2)) fun w => (y w).map fun r => (r.1, f r.2.1, r.2.2) := by
  intro w
  rcases h w with ⟨st, a, w', hx, hy, hst, hl⟩ | ⟨hx, hy⟩
  · refine .inl ⟨st, f a, w', ?_, ?_, hst, hl⟩
    · simp only [hx, Option.map_some]
    · simp only [hy, Option.map_some]
  · refine .inr ⟨?_, ?_⟩
    · simp only [hx, Option.map_none]
    · simp only [hy, Option.map_none]

theorem Follows.andThen {x : σ → Option (Status × α × σ)} {y : Prompt → Option (Status × α × Prompt)} {fail : α → β}
    {f : α → σ → Option (Status × β × σ)} {g : α → Prompt → Option (Status × β × Prompt)} (hx : Follows x y)
    (hf : ∀ a, Follows (f a) (g a)) : Follows (Socket.andThen x fail f) (Socket.andThen y fail g) := by
  intro w
  rcases hx w with ⟨st, a, w', hxw, hyw, hst, hl⟩ | ⟨hxw, hyw⟩
  · rw [Socket.andThen, Socket.andThen, hxw, hyw]
    by_cases hsuccess : st = .success
    · simp only [hsuccess, ne_eq, not_true_eq_false, if_false]
      rcases hf a w' with ⟨st₂, b, w₂, hfw, hgw, hst₂, hl₂⟩ | hnone
      · exact .inl ⟨st₂, b, w₂, hfw, hgw, hst₂, Nat.le_trans hl₂ hl⟩
      · exact .inr hnone
    · simp only [ne_eq, hsuccess, not_false_eq_true, if_true]
      exact .inl ⟨st, fail a, w', rfl, rfl, hst, hl⟩
  · rw [Socket.andThen, Socket.andThen, hxw, hyw]
    exact .inr ⟨rfl, rfl⟩

theorem Answers.andThen {x : σ → Option (Status × α × σ)} {y : Prompt → Option (Status × α × Prompt)} {fail : α → β}
    {f : α → σ → Option (Status × β × σ)} {g : α → Prompt → Option (Status × β × Prompt)} (hx : Answers x y)
    (hf : ∀ a, Follows (f a) (g a)) : Answers (Socket.andThen x fail f) (Socket.andThen y fail g) := by
  intro w
  rcases hx w with ⟨st, a, w', hxw, hyw, hst, hl⟩ | ⟨hxw, hyw⟩ | ⟨a, w', hxw, hp, hl⟩
  · rw [Socket.andThen, Socket.andThen, hxw, hyw]
    by_cases hsuccess : st = .success
    · simp only [hsuccess, ne_eq, not_true_eq_false, if_false]
      rcases hf a w' with ⟨st₂, b, w₂, hfw, hgw, hst₂, hl₂⟩ | hnone
      · exact .inl ⟨st₂, b, w₂, hfw, hgw, hst₂, Nat.le_trans hl₂ hl⟩
      · exact .inr (.inl hnone)
    · simp only [ne_eq, hsuccess, not_false_eq_true, if_true]
      exact .inl ⟨st, fail a, w', rfl, rfl, hst, hl⟩
  · rw [Socket.andThen, Socket.andThen, hxw, hyw]
    exact .inr (.inl ⟨rfl, rfl⟩)
  · refine .inr (.inr ⟨fail a, w', ?_, hp, hl⟩)
    rw [Socket.andThen, hxw]
    rfl

/-- A message takes at least a byte. -/
def Consumes (y : Prompt → Option (Status × α × Prompt)) : Prop :=
  ∀ w st a w', y w = some (st, a, w') → w'.stream.length < w.stream.length

/-- The calls that were not told that it would block had the results of calls on `Prompt`,
    and took the same bytes; enough of them leave what the next call would wait on. -/
theorem calls_answer {x : σ → Option (Status × α × σ)} {y : Prompt → Option (Status × α × Prompt)} (h : Answers x y)
    (hy : Consumes y) (n : Nat) (w : σ) :
    ∃ k, (calls x n w).1.filter (fun r => r.1 ≠ .wouldBlock) = (calls y k ⟨pending w⟩).1 ∧
      pending (calls x n w).2 = (calls y k ⟨pending w⟩).2.stream ∧
      (left w + (pending w).length ≤ n → y ⟨pending (calls x n w).2⟩ = none) := by
  induction n generalizing w with
  | zero =>
    refine ⟨0, rfl, rfl, fun hn => ?_⟩
    cases hcall : y ⟨pending w⟩ with
    | none => exact hcall
    | some r =>
      obtain ⟨st, a, w'⟩ := r
      have hlt := hy _ st a w' hcall
      have hempty : (pending w).length = 0 := by omega
      rw [hempty] at hlt
      exact absurd hlt (Nat.not_lt_zero _)
  | succ n ih =>
    rcases h w with ⟨st, a, w', hx, hyw, hst, hl⟩ | ⟨hx, hyw⟩ | ⟨a, w', hx, hp, hl⟩
    · obtain ⟨k, hk, hpk, hall⟩ := ih w'
      have hlt : (pending w').length < (pending w).length := hy _ st a ⟨pending w'⟩ hyw
      refine ⟨k + 1, ?_, ?_, fun hn => ?_⟩
      · rw [calls_succ hx, calls_succ hyw, List.filter_cons_of_pos (by simpa using hst), hk]
      · rw [calls_succ hx, calls_succ hyw]
        exact hpk
      · rw [calls_succ hx]
        exact hall (by omega)
    · refine ⟨0, ?_, ?_, fun _ => ?_⟩
      · rw [calls_none hx]
        rfl
      · rw [calls_none hx]
        rfl
      · rw [calls_none hx]
        exact hyw
    · obtain ⟨k, hk, hpk, hall⟩ := ih w'
      refine ⟨k, ?_, ?_, fun hn => ?_⟩
      · rw [calls_succ hx, List.filter_cons_of_neg (by simp), hk, hp]
      · rw [calls_succ hx, ← hp]
        exact hpk
      · rw [calls_succ hx]
        exact hall (by rw [hp]; omega)

end

end Frnetlib.Socket
