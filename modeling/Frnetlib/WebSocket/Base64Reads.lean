/-
  Frnetlib.WebSocket.Base64Reads — what `fr::Base64::encode` reads of the string and of the
  table.

  `encodeTraced` is `encode` with its accesses in the log and its rounds counted
  (`encodeTraced_eq`). From two bytes on every index is within the string and the loop
  makes a round for every three bytes; a shorter string makes `input.size() - 2` wrap, and
  the first round reads at its end (`reads_within`). An index into the table is below 64
  whatever is read.
-/

import Frnetlib.Base.Trace
import Frnetlib.WebSocket.Base64

namespace Frnetlib.Base64

open Base

inductive Access where
  | input (i : Nat)
  | table (index : Nat)

/-- `input[i]` -/
def readAt (input : Bytes) (i : Nat) : Traced Access UInt8 := ⟨[.input i], charAt input i⟩

/-- `base64_table[index]` -/
def tableAt (index : Nat) : Traced Access UInt8 := ⟨[.table index], some (look index)⟩

/-- The body of the loop: what it appends. -/
def roundTraced (input : Bytes) (a : Nat) : Traced Access Bytes := do
  let c ← tableAt (first (← readAt input a))
  let d ← tableAt (second (← readAt input a) (← readAt input (a + 1)))
  let e ← tableAt (third (← readAt input (a + 1)) (← readAt input (a + 2)))
  let f ← tableAt (fourth (← readAt input (a + 2)))
  pure [c, d, e, f]

theorem roundTraced_result (input : Bytes) (a : Nat) :
    (roundTraced input a).result =
      match charAt input a, charAt input (a + 1), charAt input (a + 2) with
      | some x, some y, some z => some [look (first x), look (second x y), look (third y z), look (fourth z)]
      | _, _, _ => none := by
  cases hx : charAt input a with
  | none => simp [roundTraced, readAt, Bind.bind, Traced.bind, hx]
  | some x =>
    cases hy : charAt input (a + 1) with
    | none => simp [roundTraced, readAt, tableAt, Bind.bind, Traced.bind, hx, hy]
    | some y =>
      cases hz : charAt input (a + 2) with
      | none => simp [roundTraced, readAt, tableAt, Bind.bind, Traced.bind, hx, hy, hz]
      | some z => simp [roundTraced, readAt, tableAt, Bind.bind, Traced.bind, hx, hy, hz, Pure.pure, Traced.pure]

theorem roundTraced_le {input : Bytes} {a : Nat} {out : Bytes} (h : (roundTraced input a).result = some out) :
    a + 2 ≤ input.length := by
  rw [roundTraced_result] at h
  cases hz : charAt input (a + 2) with
  | none =>
    rw [hz] at h
    simp at h
  | some z => exact charAt_le hz

/-- The loop from `a` on: what it appends, the `a` it ends with and its rounds. -/
def encodeFromTraced (input : Bytes) (a : Nat) : Traced Access (Bytes × Nat × Nat) :=
  if a < usub input.length 2 then
    match h : (roundTraced input a).result with
    | none => ⟨(roundTraced input a).log, none⟩
    | some out =>
      have := roundTraced_le h
      let rest := encodeFromTraced input (a + 3)
      ⟨(roundTraced input a).log ++ rest.log, rest.result.map fun r => (out ++ r.1, r.2.1, r.2.2 + 1)⟩
  else pure ([], a, 0)
termination_by input.length - a

def encodeRestTraced (input : Bytes) (a : Nat) : Traced Access Bytes :=
  if a < input.length then do
    let c ← tableAt (first (← readAt input a))
    if a = usub input.length 2 then
      let d ← tableAt (second (← readAt input a) (← readAt input (a + 1)))
      let e ← tableAt (thirdLast (← readAt input (a + 1)))
      pure (c :: d :: e :: bytes "=")
    else
      let d ← tableAt (secondLast (← readAt input a))
      pure (c :: d :: bytes "==")
  else pure []

/-- What is returned, and the rounds of the loop. -/
def encodeTraced (input : Bytes) : Traced Access (Bytes × Nat) := do
  let (out, a, rounds) ← encodeFromTraced input 0
  let rest ← encodeRestTraced input a
  pure (out ++ rest, rounds)

/-! ## It is `encode` -/

theorem encodeFromTraced_result (input : Bytes) (a : Nat) :
    (encodeFromTraced input a).result.map (fun r => (r.1, r.2.1)) = encodeFrom input a := by
  fun_induction encodeFromTraced input a with
  | case1 a hround hnone =>
    rw [roundTraced_result] at hnone
    rw [encodeFrom, if_pos hround]
    split
    · rename_i x y z hx hy hz
      rw [hx, hy, hz] at hnone
      cases hnone
    · rfl
  | case2 a hround out hout hle rest ih =>
    rw [roundTraced_result] at hout
    rw [encodeFrom, if_pos hround]
    split
    · rename_i x y z hx hy hz
      rw [hx, hy, hz] at hout
      cases hout
      rw [← ih, Option.map_map, Option.map_map]
      rfl
    · rename_i hno
      split at hout
      · rename_i x y z hx hy hz
        exact absurd hz (hno x y z hx hy)
      · cases hout
  | case3 a hround => rw [encodeFrom, if_neg hround]; rfl

theorem encodeRestTraced_result (input : Bytes) (a : Nat) :
    (encodeRestTraced input a).result = encodeRest input a := by
  unfold encodeRestTraced encodeRest
  by_cases hlt : a < input.length
  · rw [if_pos hlt, if_pos hlt]
    cases hx : charAt input a with
    | none => simp [readAt, Bind.bind, Traced.bind, hx]
    | some x =>
      by_cases hend : a = usub input.length 2
      · cases hy : charAt input (a + 1) <;>
          simp [readAt, tableAt, Bind.bind, Traced.bind, Pure.pure, Traced.pure, hx, hy, ← hend]
      · simp [readAt, tableAt, Bind.bind, Traced.bind, Pure.pure, Traced.pure, hx, hend]
  · rw [if_neg hlt, if_neg hlt]
    rfl

theorem encodeTraced_eq (input : Bytes) : (encodeTraced input).result.map Prod.fst = encode input := by
  have hfrom := encodeFromTraced_result input 0
  unfold encodeTraced encode
  rw [← hfrom]
  cases hr : (encodeFromTraced input 0).result with
  | none => simp [Bind.bind, Traced.bind, hr]
  | some r =>
    simp only [Bind.bind, Traced.bind, hr, Option.map_some, ← encodeRestTraced_result]
    cases (encodeRestTraced input r.2.1).result <;> rfl

/-! ## The indices into the table -/

def Access.InTable : Access → Prop
  | .input _ => True
  | .table index => index < 64

theorem readAt_inTable (input : Bytes) (i : Nat) : (readAt input i).Logs Access.InTable := by
  intro w hw
  rw [List.mem_singleton.mp hw]
  trivial

theorem tableAt_inTable {index : Nat} (h : index < 64) : (tableAt index).Logs Access.InTable := by
  intro w hw
  rw [List.mem_singleton.mp hw]
  exact h

theorem roundTraced_inTable (input : Bytes) (a : Nat) : (roundTraced input a).Logs Access.InTable := by
  unfold roundTraced
  apply (readAt_inTable input a).bind
  intro x
  apply (tableAt_inTable (first_lt x)).bind
  intro c
  apply (readAt_inTable input a).bind
  intro x
  apply (readAt_inTable input (a + 1)).bind
  intro y
  apply (tableAt_inTable (second_lt x y)).bind
  intro d
  apply (readAt_inTable input (a + 1)).bind
  intro y
  apply (readAt_inTable input (a + 2)).bind
  intro z
  apply (tableAt_inTable (third_lt y z)).bind
  intro e
  apply (readAt_inTable input (a + 2)).bind
  intro z
  apply (tableAt_inTable (fourth_lt z)).bind
  intro f
  exact .pure _

theorem encodeFromTraced_inTable (input : Bytes) (a : Nat) : (encodeFromTraced input a).Logs Access.InTable := by
  fun_induction encodeFromTraced input a with
  | case1 a hround hnone => exact roundTraced_inTable input a
  | case2 a hround out hout hle rest ih =>
    intro w hw
    rcases List.mem_append.mp hw with hw | hw
    · exact roundTraced_inTable input a w hw
    · exact ih w hw
  | case3 a hround => exact .pure _

theorem encodeRestTraced_inTable (input : Bytes) (a : Nat) : (encodeRestTraced input a).Logs Access.InTable := by
  unfold encodeRestTraced
  split
  · apply (readAt_inTable input a).bind
    intro x
    apply (tableAt_inTable (first_lt x)).bind
    intro c
    split
    · apply (readAt_inTable input a).bind
      intro x
      apply (readAt_inTable input (a + 1)).bind
      intro y
      apply (tableAt_inTable (second_lt x y)).bind
      intro d
      apply (readAt_inTable input (a + 1)).bind
      intro y
      apply (tableAt_inTable (thirdLast_lt y)).bind
      intro e
      exact .pure _
    · apply (readAt_inTable input a).bind
      intro x
      apply (tableAt_inTable (secondLast_lt x)).bind
      intro d
      exact .pure _
  · exact .pure _

theorem encodeTraced_inTable (input : Bytes) : (encodeTraced input).Logs Access.InTable := by
  apply (encodeFromTraced_inTable input 0).bind
  intro r
  apply (encodeRestTraced_inTable input r.2.1).bind
  intro rest
  exact .pure _

/-! ## The indices into the string -/

def Access.Within (size : Nat) : Access → Prop
  | .input i => i < size
  | .table _ => True

theorem readAt_within {input : Bytes} {i : Nat} (h : i < input.length) :
    ∃ x, (readAt input i).Comes (Access.Within input.length) (some x) := by
  refine ⟨input[i], ?_, ?_⟩
  · change charAt input i = _
    rw [charAt, if_neg (by omega)]
    exact List.getElem?_eq_getElem h
  · intro w hw
    rw [List.mem_singleton.mp hw]
    exact h

theorem tableAt_within (size index : Nat) : (tableAt index).Comes (Access.Within size) (some (look index)) := by
  refine ⟨rfl, ?_⟩
  intro w hw
  rw [List.mem_singleton.mp hw]
  trivial

theorem roundTraced_within {input : Bytes} {a : Nat} (h : a + 2 < input.length) :
    ∃ out, (roundTraced input a).Comes (Access.Within input.length) (some out) := by
  have hfirst : a < input.length := by omega
  have hsecond : a + 1 < input.length := by omega
  obtain ⟨x, hx⟩ := readAt_within hfirst
  obtain ⟨y, hy⟩ := readAt_within hsecond
  obtain ⟨z, hz⟩ := readAt_within h
  refine ⟨[look (first x), look (second x y), look (third y z), look (fourth z)], ?_⟩
  unfold roundTraced
  apply hx.bind
  apply (tableAt_within _ _).bind
  apply hx.bind
  apply hy.bind
  apply (tableAt_within _ _).bind
  apply hy.bind
  apply hz.bind
  apply (tableAt_within _ _).bind
  apply hz.bind
  apply (tableAt_within _ _).bind
  exact .pure _

/-- A round for every three bytes that are left. -/
theorem encodeFromTraced_within {input : Bytes} (h : 2 ≤ input.length) (a : Nat) (ha : a ≤ input.length) :
    ∃ out, (encodeFromTraced input a).Comes (Access.Within input.length)
      (some (out, a + 3 * ((input.length - a) / 3), (input.length - a) / 3)) := by
  fun_induction encodeFromTraced input a with
  | case1 a hround hnone =>
    rw [usub_of_le h] at hround
    have hlast : a + 2 < input.length := by omega
    obtain ⟨out, hout⟩ := roundTraced_within hlast
    rw [hout.result] at hnone
    cases hnone
  | case2 a hround out hout hle rest ih =>
    rw [usub_of_le h] at hround
    have hlast : a + 2 < input.length := by omega
    obtain ⟨out', hout'⟩ := roundTraced_within hlast
    obtain ⟨more, hmore⟩ := ih (by omega)
    have hrounds : (input.length - a) / 3 = (input.length - (a + 3)) / 3 + 1 := by omega
    refine ⟨out ++ more, ?_, ?_⟩
    · rw [hmore.result, hrounds]
      simp only [Option.map_some, Option.some.injEq, Prod.mk.injEq, true_and, and_true]
      omega
    · intro w hw
      rcases List.mem_append.mp hw with hw | hw
      · exact hout'.logs w hw
      · exact hmore.logs w hw
  | case3 a hround =>
    rw [usub_of_le h] at hround
    rw [show (input.length - a) / 3 = 0 by omega]
    exact ⟨[], .pure _⟩

theorem encodeRestTraced_within {input : Bytes} {a : Nat} (h : 2 ≤ input.length) (ha : input.length ≤ a + 2) :
    ∃ rest, (encodeRestTraced input a).Comes (Access.Within input.length) (some rest) := by
  unfold encodeRestTraced
  by_cases hlt : a < input.length
  · rw [if_pos hlt]
    obtain ⟨x, hx⟩ := readAt_within hlt
    by_cases hend : a = usub input.length 2
    · have hsecond : a + 1 < input.length := by
        rw [usub_of_le h] at hend
        omega
      obtain ⟨y, hy⟩ := readAt_within hsecond
      refine ⟨look (first x) :: look (second x y) :: look (thirdLast y) :: bytes "=", ?_⟩
      apply hx.bind
      apply (tableAt_within _ _).bind
      rw [if_pos hend]
      apply hx.bind
      apply hy.bind
      apply (tableAt_within _ _).bind
      apply hy.bind
      apply (tableAt_within _ _).bind
      exact .pure _
    · refine ⟨look (first x) :: look (secondLast x) :: bytes "==", ?_⟩
      apply hx.bind
      apply (tableAt_within _ _).bind
      rw [if_neg hend]
      apply hx.bind
      apply (tableAt_within _ _).bind
      exact .pure _
  · rw [if_neg hlt]
    exact ⟨[], .pure _⟩

theorem encodeTraced_within {input : Bytes} (h : 2 ≤ input.length) :
    ∃ out, (encodeTraced input).Comes (Access.Within input.length) (some (out, input.length / 3)) := by
  obtain ⟨out, hout⟩ := encodeFromTraced_within h 0 (Nat.zero_le _)
  obtain ⟨rest, hrest⟩ := encodeRestTraced_within (a := 0 + 3 * ((input.length - 0) / 3)) h (by omega)
  refine ⟨out ++ rest, ?_⟩
  unfold encodeTraced
  apply hout.bind
  apply hrest.bind
  exact .pure _

/-! ## Shorter strings -/

theorem bind_logs {α β : Type} {x : Traced Access α} {f : α → Traced Access β} {w : Access} (h : w ∈ x.log) :
    w ∈ (x >>= f).log := by
  change w ∈ (Traced.bind x f).log
  unfold Traced.bind
  cases x.result with
  | none => exact h
  | some a => exact List.mem_append_left _ h

theorem encodeFromTraced_first {input : Bytes} {a : Nat} {w : Access} (hround : a < usub input.length 2)
    (hw : w ∈ (roundTraced input a).log) : w ∈ (encodeFromTraced input a).log := by
  unfold encodeFromTraced
  rw [if_pos hround]
  split
  · exact hw
  · exact List.mem_append_left _ hw

/-- The loop bound has wrapped, and the first round reads at the end. -/
theorem encodeTraced_short {input : Bytes} (h : input.length < 2) :
    .input input.length ∈ (encodeTraced input).log := by
  have hround : 0 < usub input.length 2 := by
    rw [usub_of_lt h (by omega)]
    omega
  apply bind_logs
  apply encodeFromTraced_first hround
  rcases input with _ | ⟨x, _ | ⟨y, s⟩⟩
  · simp [roundTraced, readAt, charAt, Bind.bind, Traced.bind]
  · simp [roundTraced, readAt, tableAt, charAt, Bind.bind, Traced.bind]
  · simp only [List.length_cons] at h
    omega

theorem reads_within (input : Bytes) :
    (∀ index, .table index ∈ (encodeTraced input).log → index < 64) ∧
    (((∀ i, .input i ∈ (encodeTraced input).log → i < input.length) ∧
      ∃ out, (encodeTraced input).result = some (out, input.length / 3)) ↔ 2 ≤ input.length) := by
  refine ⟨fun index h => encodeTraced_inTable input _ h, ?_, ?_⟩
  · intro ⟨hreads, _⟩
    apply Nat.le_of_not_lt
    intro hshort
    exact absurd (hreads _ (encodeTraced_short hshort)) (Nat.lt_irrefl _)
  · intro h
    obtain ⟨out, hout⟩ := encodeTraced_within h
    exact ⟨fun i hi => hout.logs _ hi, out, hout.result⟩

/-- The empty string: its terminating NUL is read. -/
theorem reads_within_empty : ¬ ∀ i, .input i ∈ (encodeTraced []).log → i < ([] : Bytes).length := by
  intro h
  exact absurd (h 0 (encodeTraced_short (by decide))) (by decide)

end Frnetlib.Base64
