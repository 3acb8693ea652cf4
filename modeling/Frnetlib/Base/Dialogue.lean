/-
  Frnetlib.Base.Dialogue — two parties that take turns over two byte streams.

  The client puts a text on its wire and then takes what comes on the other, in blocks, until
  its consumer is done with an answer; then it goes on to its next text. The server takes until
  its consumer is done with a text, and puts the answer to what the consumer made of it. Any
  move of either party may be next, and moves any number of bytes.

  A text is understood if every way to cut it is answered `more` up to the last piece and
  `done` then, with one object (`Understood`). Where all the texts and all the answers are,
  every run hands over the first texts and the first answers, in order (`Inv`); it makes a
  bounded number of moves, and cannot get stuck before the last answer (`dialogue_faithful`).
-/

import Frnetlib.Base.Feed
import Frnetlib.Base.Run
import Mathlib.Algebra.GroupWithZero.Nat

namespace Frnetlib.Base

variable {α ρ σ τ : Type}

/-! ## Texts that are understood -/

def Understood (step : σ → List α → ρ × σ) (more done : ρ) (x₀ : σ) (s : List α) (y : σ) : Prop :=
  ∀ ps : List (List α), (∀ p ∈ ps, p ≠ []) → ps.flatten = s →
    feed step x₀ ps = (List.replicate (ps.length - 1) more ++ [done], y)

section

variable {step : σ → List α → ρ × σ} {more done : ρ} {x₀ y : σ} {s : List α}

theorem Understood.ne_nil (h : Understood step more done x₀ s y) : s ≠ [] := by
  intro hnil
  have hfeed := h [] nofun hnil.symm
  cases congrArg Prod.fst hfeed

/-- A piece that does not reach the end is answered `more`. -/
theorem Understood.piece_more (h : Understood step more done x₀ s y) {ps : List (List α)} {p rest : List α}
    (hne : ∀ q ∈ ps, q ≠ []) (hp : p ≠ []) (hrest : rest ≠ []) (hs : ps.flatten ++ p ++ rest = s) :
    (step (feed step x₀ ps).2 p).1 = more := by
  have hall : ∀ q ∈ ps ++ [p] ++ [rest], q ≠ [] := by
    simp only [List.mem_append, List.mem_singleton]
    rintro q ((hq | rfl) | rfl)
    · exact hne q hq
    · exact hp
    · exact hrest
  have hfeed := congrArg Prod.fst (h (ps ++ [p] ++ [rest]) hall (by simpa using hs))
  rw [feed_snoc, feed_snoc] at hfeed
  have hinit := (List.append_inj' hfeed rfl).1
  have hmem : (step (feed step x₀ ps).2 p).1 ∈ List.replicate ((ps ++ [p] ++ [rest]).length - 1) more := by
    rw [← hinit]
    simp
  exact List.eq_of_mem_replicate hmem

/-- The piece that reaches it is answered `done`. -/
theorem Understood.piece_done (h : Understood step more done x₀ s y) {ps : List (List α)} {p : List α}
    (hne : ∀ q ∈ ps, q ≠ []) (hp : p ≠ []) (hs : ps.flatten ++ p = s) : step (feed step x₀ ps).2 p = (done, y) := by
  have hall : ∀ q ∈ ps ++ [p], q ≠ [] := by
    simp only [List.mem_append, List.mem_singleton]
    rintro q (hq | rfl)
    · exact hne q hq
    · exact hp
  have hfeed := h (ps ++ [p]) hall (by simpa using hs)
  rw [feed_snoc] at hfeed
  obtain ⟨hanswers, hstate⟩ := Prod.mk.inj hfeed
  exact Prod.ext (List.singleton_inj.mp (List.append_inj' hanswers rfl).2) hstate

end

/-! ## The two parties -/

/-- The consumers with the objects they start from, and the answer to a text that was
    understood. -/
structure Parties (α ρ σ τ : Type) where
  more : ρ
  done : ρ
  /-- The size of the blocks that are taken. -/
  limit : Nat
  ask : σ → List α → ρ × σ
  ask₀ : σ
  answer : σ → List α
  reply : τ → List α → ρ × τ
  reply₀ : τ

namespace Parties

inductive Turn (β α : Type) where
  | puts (rest : List α)
  | takes (x : β)
  | over

structure Dialogue (σ τ α : Type) where
  /-- The texts behind the current one. -/
  outstanding : List (List α)
  client : Turn τ α
  server : Turn σ α
  up : List α
  down : List α
  asked : List σ
  answered : List τ

/-- A party moves `n + 1` bytes, or as many as there are. -/
inductive Move where
  | clientPuts (n : Nat)
  | serverTakes (n : Nat)
  | serverPuts (n : Nat)
  | clientTakes (n : Nat)
  deriving DecidableEq, Repr

/-- After its last byte a party takes. -/
def Turn.after {β : Type} (x₀ : β) (rest : List α) : Turn β α := if rest.isEmpty then .takes x₀ else .puts rest

def Turn.begin {β : Type} : List (List α) → Turn β α
  | [] => .over
  | t :: _ => .puts t

variable (P : Parties α ρ σ τ)

def block (n : Nat) (wire : List α) : List α := wire.take (min (n + 1) P.limit)

def move [DecidableEq ρ] (s : Dialogue σ τ α) : Move → Option (Unit × Dialogue σ τ α)
  | .clientPuts n =>
    match s.client with
    | .puts rest => some ((), { s with client := .after P.reply₀ (rest.drop (n + 1)), up := s.up ++ rest.take (n + 1) })
    | _ => none
  | .serverTakes n =>
    match s.server with
    | .takes x =>
      if s.up.isEmpty then none
      else
        let r := P.ask x (P.block n s.up)
        let s := { s with up := s.up.drop (P.block n s.up).length }
        if r.1 = P.more then some ((), { s with server := .takes r.2 })
        else if r.1 = P.done then some ((), { s with server := .puts (P.answer r.2), asked := s.asked ++ [r.2] })
        else some ((), { s with server := .over })
    | _ => none
  | .serverPuts n =>
    match s.server with
    | .puts rest => some ((), { s with server := .after P.ask₀ (rest.drop (n + 1)), down := s.down ++ rest.take (n + 1) })
    | _ => none
  | .clientTakes n =>
    match s.client with
    | .takes x =>
      if s.down.isEmpty then none
      else
        let r := P.reply x (P.block n s.down)
        let s := { s with down := s.down.drop (P.block n s.down).length }
        if r.1 = P.more then some ((), { s with client := .takes r.2 })
        else if r.1 = P.done then
          some ((), { s with client := .begin s.outstanding, outstanding := s.outstanding.tail, answered := s.answered ++ [r.2] })
        else some ((), { s with client := .over })
    | _ => none

/-- The client has these texts to send. -/
def start (texts : List (List α)) : Dialogue σ τ α :=
  ⟨texts.tail, .begin texts, .takes P.ask₀, [], [], [], []⟩

/-! ## The invariant -/

/-- A text, and what the two consumers make of it and of its answer. -/
structure Exchange (α σ τ : Type) where
  text : List α
  asked : σ
  answered : τ

variable {P}

structure Good (P : Parties α ρ σ τ) (e : Exchange α σ τ) : Prop where
  text : Understood P.ask P.more P.done P.ask₀ e.text e.asked
  answer : Understood P.reply P.more P.done P.reply₀ (P.answer e.asked) e.answered

/-- The bytes of the exchanges, each once put and once taken. -/
def work (P : Parties α ρ σ τ) (es : List (Exchange α σ τ)) : Nat :=
  (es.map fun e => 2 * e.text.length + 2 * (P.answer e.asked).length).sum

/-- The parties are at an exchange, behind those that are past: the text is partly taken,
    partly on the wire and partly still to be put, or its answer is. `n` is what is left to
    be done. -/
inductive At (P : Parties α ρ σ τ) (past : List (Exchange α σ τ)) (e : Exchange α σ τ) (future : List (Exchange α σ τ)) :
    Nat → Dialogue σ τ α → Prop where
  | asking {ps : List (List α)} {up rest : List α} (hne : ∀ p ∈ ps, p ≠ []) (htext : ps.flatten ++ up ++ rest = e.text)
      (hmore : up ++ rest ≠ []) :
      At P past e future (up.length + 2 * rest.length + 2 * (P.answer e.asked).length + work P future)
        ⟨future.map Exchange.text, .after P.reply₀ rest, .takes (feed P.ask P.ask₀ ps).2, up, [],
          past.map Exchange.asked, past.map Exchange.answered⟩
  | answering {ps : List (List α)} {down rest : List α} (hne : ∀ p ∈ ps, p ≠ [])
      (htext : ps.flatten ++ down ++ rest = P.answer e.asked) (hmore : down ++ rest ≠ []) :
      At P past e future (down.length + 2 * rest.length + work P future)
        ⟨future.map Exchange.text, .takes (feed P.reply P.reply₀ ps).2, .after P.ask₀ rest, [], down,
          (past ++ [e]).map Exchange.asked, past.map Exchange.answered⟩

/-- The parties are at one of the exchanges, or past all of them. -/
inductive Inv (P : Parties α ρ σ τ) (es : List (Exchange α σ τ)) : Nat → Dialogue σ τ α → Prop where
  | at {past : List (Exchange α σ τ)} {e : Exchange α σ τ} {future : List (Exchange α σ τ)} {n : Nat} {s : Dialogue σ τ α}
      (hes : es = past ++ e :: future) (h : At P past e future n s) : Inv P es n s
  | finished : Inv P es 0 ⟨[], .over, .takes P.ask₀, [], [], es.map Exchange.asked, es.map Exchange.answered⟩

/-! ## What one move does to it -/

theorem after_ne {β : Type} (x₀ : β) {rest : List α} (h : rest ≠ []) : Turn.after x₀ rest = .puts rest := by
  cases rest with
  | nil => exact absurd rfl h
  | cons a rest => rfl

theorem block_ne_nil (hlimit : 0 < P.limit) (n : Nat) {wire : List α} (h : wire ≠ []) : P.block n wire ≠ [] := by
  intro hnil
  rw [block, List.take_eq_nil_iff] at hnil
  rcases hnil with hnil | hnil
  · omega
  · exact h hnil

theorem block_drop (n : Nat) (wire : List α) : P.block n wire ++ wire.drop (P.block n wire).length = wire := by
  rw [block, List.length_take]
  have hmin : wire.drop (min (min (n + 1) P.limit) wire.length) = wire.drop (min (n + 1) P.limit) := by
    by_cases hle : min (n + 1) P.limit ≤ wire.length
    · rw [Nat.min_eq_left hle]
    · rw [Nat.min_eq_right (by omega), List.drop_length, List.drop_of_length_le (by omega)]
  rw [hmin, List.take_append_drop]

/-- The next block of a text that is partly taken, partly on the wire and partly still to be
    put: it ends the text, or there is more of it. -/
theorem block_cases {β : Type} {step : β → List α → ρ × β} {x₀ y : β} {text : List α}
    (h : Understood step P.more P.done x₀ text y) (hlimit : 0 < P.limit) (k : Nat) {ps : List (List α)} {wire rest : List α}
    (hps : ∀ p ∈ ps, p ≠ []) (htext : ps.flatten ++ wire ++ rest = text) (hwire : wire ≠ []) :
    (step (feed step x₀ ps).2 (P.block k wire) = (P.done, y) ∧ wire.drop (P.block k wire).length = [] ∧ rest = []) ∨
    ∃ qs : List (List α), step (feed step x₀ ps).2 (P.block k wire) = (P.more, (feed step x₀ qs).2) ∧ (∀ q ∈ qs, q ≠ []) ∧
      qs.flatten ++ wire.drop (P.block k wire).length ++ rest = text ∧ wire.drop (P.block k wire).length ++ rest ≠ [] ∧
      (wire.drop (P.block k wire).length).length < wire.length := by
  have hblock := block_ne_nil hlimit k hwire
  have hdrop := block_drop (P := P) k wire
  by_cases hend : wire.drop (P.block k wire).length ++ rest = []
  · obtain ⟨hdropped, rfl⟩ := List.append_eq_nil_iff.mp hend
    rw [hdropped, List.append_nil] at hdrop
    rw [List.append_nil, ← hdrop] at htext
    exact .inl ⟨h.piece_done hps hblock htext, hdropped, rfl⟩
  · have hlen := congrArg List.length hdrop
    have hpos := List.length_pos_iff.mpr hblock
    rw [List.length_append] at hlen
    have htext' : ps.flatten ++ P.block k wire ++ (wire.drop (P.block k wire).length ++ rest) = text := by
      rw [← htext, ← List.append_assoc, List.append_assoc ps.flatten, hdrop]
    refine .inr ⟨ps ++ [P.block k wire], ?_, ?_, ?_, hend, by omega⟩
    · rw [feed_snoc]
      exact Prod.ext (h.piece_more hps hblock hend htext') rfl
    · simp only [List.mem_append, List.mem_singleton]
      rintro q (hq | rfl)
      · exact hps q hq
      · exact hblock
    · rw [← htext', List.flatten_append, List.flatten_singleton, List.append_assoc _ _ rest]

/-- The next exchange begins, or there is none. -/
theorem Good.begin {es past future : List (Exchange α σ τ)} (hes : es = past ++ future) (h : ∀ e ∈ future, Good P e) :
    Inv P es (work P future) ⟨(future.map Exchange.text).tail, .begin (future.map Exchange.text), .takes P.ask₀, [], [],
      past.map Exchange.asked, past.map Exchange.answered⟩ := by
  cases future with
  | nil =>
    rw [List.append_nil] at hes
    subst hes
    exact .finished
  | cons e future =>
    have htext := (h e (by simp)).text.ne_nil
    have hturn : Turn.begin (β := τ) ((e :: future).map Exchange.text) = .after P.reply₀ e.text :=
      (after_ne P.reply₀ htext).symm
    have hwork : work P (e :: future) =
        ([] : List α).length + 2 * e.text.length + 2 * (P.answer e.asked).length + work P future := by
      simp [work]
    rw [hturn, hwork]
    exact .at hes (.asking (List.forall_mem_nil _) (by simp) (by simpa using htext))

variable [DecidableEq ρ] {past future es : List (Exchange α σ τ)} {e : Exchange α σ τ} {n : Nat}
  {s s' : Dialogue σ τ α} {m : Move} {u : Unit}

theorem asking_step (hlimit : 0 < P.limit) (hne : P.done ≠ P.more) (he : Good P e) {ps : List (List α)} {up rest : List α}
    (hps : ∀ p ∈ ps, p ≠ []) (htext : ps.flatten ++ up ++ rest = e.text)
    (hr : P.move ⟨future.map Exchange.text, .after P.reply₀ rest, .takes (feed P.ask P.ask₀ ps).2, up, [],
      past.map Exchange.asked, past.map Exchange.answered⟩ m = some (u, s')) :
    ∃ n' < up.length + 2 * rest.length + 2 * (P.answer e.asked).length + work P future, At P past e future n' s' := by
  have hanswer := he.answer.ne_nil
  cases m with
  | clientPuts k =>
    by_cases hrest : rest = []
    · subst hrest
      cases hr
    · have hpos := List.length_pos_iff.mpr hrest
      rw [after_ne P.reply₀ hrest] at hr
      cases hr
      refine ⟨_, ?_, .asking hps ?_ ?_⟩
      · simp only [List.length_append, List.length_take, List.length_drop]
        omega
      · rw [← htext]
        simp [List.append_assoc]
      · simp [hrest]
  | serverTakes k =>
    by_cases hup : up = []
    · subst hup
      cases hr
    · have hempty : up.isEmpty = false := by simpa using hup
      rcases block_cases he.text hlimit k hps htext hup with
        ⟨hdone, hdropped, rfl⟩ | ⟨qs, hmore, hqs, hqtext, hrest, hlt⟩
      · simp only [move, hempty, hdone, hdropped, if_neg hne, if_true, Bool.false_eq_true, if_false] at hr
        cases hr
        have hasked : past.map Exchange.asked ++ [e.asked] = (past ++ [e]).map Exchange.asked := by simp
        have hpos := List.length_pos_iff.mpr hup
        rw [← after_ne P.ask₀ hanswer, hasked]
        refine ⟨([] : List α).length + 2 * (P.answer e.asked).length + work P future, ?_, ?_⟩
        · simp only [List.length_nil]
          omega
        · exact .answering (List.forall_mem_nil _) (List.nil_append _) (by simpa using hanswer)
      · simp only [move, hempty, hmore, if_true, Bool.false_eq_true, if_false] at hr
        cases hr
        exact ⟨_, by omega, .asking hqs hqtext hrest⟩
  | serverPuts k => cases hr
  | clientTakes k =>
    by_cases hrest : rest = []
    · subst hrest
      cases hr
    · rw [after_ne P.reply₀ hrest] at hr
      cases hr

theorem answering_step (hlimit : 0 < P.limit) (hne : P.done ≠ P.more) (he : Good P e) (hfuture : ∀ e ∈ future, Good P e)
    (hes : es = past ++ e :: future) {ps : List (List α)} {down rest : List α}
    (hps : ∀ p ∈ ps, p ≠ []) (htext : ps.flatten ++ down ++ rest = P.answer e.asked)
    (hr : P.move ⟨future.map Exchange.text, .takes (feed P.reply P.reply₀ ps).2, .after P.ask₀ rest, [], down,
      (past ++ [e]).map Exchange.asked, past.map Exchange.answered⟩ m = some (u, s')) :
    ∃ n' < down.length + 2 * rest.length + work P future, Inv P es n' s' := by
  cases m with
  | clientPuts k => cases hr
  | serverTakes k =>
    by_cases hrest : rest = []
    · subst hrest
      cases hr
    · rw [after_ne P.ask₀ hrest] at hr
      cases hr
  | serverPuts k =>
    by_cases hrest : rest = []
    · subst hrest
      cases hr
    · have hpos := List.length_pos_iff.mpr hrest
      rw [after_ne P.ask₀ hrest] at hr
      cases hr
      refine ⟨_, ?_, .at hes (.answering hps ?_ ?_)⟩
      · simp only [List.length_append, List.length_take, List.length_drop]
        omega
      · rw [← htext]
        simp [List.append_assoc]
      · simp [hrest]
  | clientTakes k =>
    by_cases hdown : down = []
    · subst hdown
      cases hr
    · have hempty : down.isEmpty = false := by simpa using hdown
      rcases block_cases he.answer hlimit k hps htext hdown with
        ⟨hdone, hdropped, rfl⟩ | ⟨qs, hmore, hqs, hqtext, hrest, hlt⟩
      · simp only [move, hempty, hdone, hdropped, if_neg hne, if_true, Bool.false_eq_true, if_false] at hr
        cases hr
        have hanswered : past.map Exchange.answered ++ [e.answered] = (past ++ [e]).map Exchange.answered := by simp
        have hpos := List.length_pos_iff.mpr hdown
        rw [hanswered]
        exact ⟨work P future, by omega, Good.begin (by rw [hes, List.append_assoc]; rfl) hfuture⟩
      · simp only [move, hempty, hmore, if_true, Bool.false_eq_true, if_false] at hr
        cases hr
        exact ⟨_, by omega, .at hes (.answering hqs hqtext hrest)⟩

theorem move_inv (hlimit : 0 < P.limit) (hne : P.done ≠ P.more) (hgood : ∀ e ∈ es, Good P e) (h : Inv P es n s)
    (hr : P.move s m = some (u, s')) : ∃ n' < n, Inv P es n' s' := by
  cases h with
  | «at» hes h =>
    subst hes
    have he := hgood _ (List.mem_append_right _ List.mem_cons_self)
    have hfuture := fun e he => hgood e (List.mem_append_right _ (List.mem_cons_of_mem _ he))
    cases h with
    | asking hps htext hmore =>
      obtain ⟨n', hlt, h⟩ := asking_step hlimit hne he hps htext hr
      exact ⟨n', hlt, .at rfl h⟩
    | answering hps htext hmore => exact answering_step hlimit hne he hfuture rfl hps htext hr
  | finished => cases m <;> cases hr

/-! ## Runs -/

theorem run_inv (hlimit : 0 < P.limit) (hne : P.done ≠ P.more) (hgood : ∀ e ∈ es, Good P e) {moves : List Move}
    (h : Inv P es n s) (hrun : run P.move s moves = some s') : ∃ n', n' + moves.length ≤ n ∧ Inv P es n' s' := by
  induction moves generalizing n s with
  | nil =>
    cases hrun
    exact ⟨n, Nat.le_refl _, h⟩
  | cons m moves ih =>
    obtain ⟨u, s₁, hmove, hrest⟩ := exists_of_run_cons hrun
    obtain ⟨n₁, hlt, h₁⟩ := move_inv hlimit hne hgood h hmove
    obtain ⟨n', hle, h'⟩ := ih h₁ hrest
    exact ⟨n', by rw [List.length_cons]; omega, h'⟩

/-- The first texts and the first answers, in order; the answer to the last text may be on
    its way. -/
structure Faithful (es : List (Exchange α σ τ)) (s : Dialogue σ τ α) : Prop where
  asked : s.asked <+: es.map Exchange.asked
  answered : s.answered <+: es.map Exchange.answered
  behind : s.answered.length ≤ s.asked.length ∧ s.asked.length ≤ s.answered.length + 1

omit [DecidableEq ρ] in
theorem Inv.faithful (h : Inv P es n s) : Faithful es s := by
  cases h with
  | @«at» past e future _ _ hes h =>
    subst hes
    have hpast : ∀ {β : Type} (f : Exchange α σ τ → β), past.map f <+: (past ++ e :: future).map f := fun f => by
      rw [List.map_append]
      exact List.prefix_append _ _
    cases h with
    | asking => exact ⟨hpast _, hpast _, by simp⟩
    | answering =>
      refine ⟨?_, hpast _, by simp⟩
      have heq : past ++ e :: future = past ++ [e] ++ future := by simp
      rw [heq]
      exact List.IsPrefix.map _ (List.prefix_append (past ++ [e]) future)
  | finished => exact ⟨List.prefix_rfl, List.prefix_rfl, by simp⟩

/-- Before the last answer one of the parties can move. -/
theorem Inv.stuck (h : Inv P es n s) (hstuck : ∀ m, P.move s m = none) : s.answered = es.map Exchange.answered := by
  cases h with
  | «at» hes h =>
    exfalso
    cases h with
    | @asking ps up rest hps htext hmore =>
      by_cases hrest : rest = []
      · subst hrest
        have hup : up.isEmpty = false := by simpa using hmore
        have hmove := hstuck (.serverTakes 0)
        simp only [move, hup, Bool.false_eq_true, if_false] at hmove
        split at hmove
        · cases hmove
        · split at hmove <;> cases hmove
      · have hmove := hstuck (.clientPuts 0)
        rw [after_ne P.reply₀ hrest] at hmove
        cases hmove
    | @answering ps down rest hps htext hmore =>
      by_cases hrest : rest = []
      · subst hrest
        have hdown : down.isEmpty = false := by simpa using hmore
        have hmove := hstuck (.clientTakes 0)
        simp only [move, hdown, Bool.false_eq_true, if_false] at hmove
        split at hmove
        · cases hmove
        · split at hmove <;> cases hmove
      · have hmove := hstuck (.serverPuts 0)
        rw [after_ne P.ask₀ hrest] at hmove
        cases hmove
  | finished => rfl

/-- Along any run the parties are faithful; it makes no more than two moves a byte, and when
    neither party can move all is answered. -/
theorem dialogue_faithful (hlimit : 0 < P.limit) (hne : P.done ≠ P.more) (hgood : ∀ e ∈ es, Good P e)
    {moves : List Move} (hrun : run P.move (P.start (es.map Exchange.text)) moves = some s) :
    Faithful es s ∧ moves.length ≤ work P es ∧ ((∀ m, P.move s m = none) → s.answered = es.map Exchange.answered) := by
  have hstart : Inv P es (work P es) (P.start (es.map Exchange.text)) := Good.begin (List.nil_append es).symm hgood
  obtain ⟨n, hle, h⟩ := run_inv hlimit hne hgood hstart hrun
  exact ⟨h.faithful, by omega, h.stuck⟩

end Parties

end Frnetlib.Base
