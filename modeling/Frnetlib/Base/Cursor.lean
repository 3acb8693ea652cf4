/-
  Frnetlib.Base.Cursor — values taken off the front of what is left to read.

  An extraction is an `EStateM ε σ α`. A `View` says what it may do to its state: the
  part still unread, the states an extraction may start in, and how the rest may move.

  `Reads x s Q`: wherever the unread part starts with `s`, `x` succeeds, consumes
  exactly `s`, and its result satisfies `Q`. `Yields x P E`: whatever the unread part,
  `x` either consumes some front `s` of it with a result `a` such that `P s a`, or
  throws an exception that satisfies `E`. `Reads` is completeness and `Yields`
  soundness with respect to a format. `Moves x`: whatever the state and the outcome, the
  rest moves as it may. `Twins R x`: from two states that `R` relates, `x` comes to the
  same result or the same exception, and to states that `R` relates. All go through
  `pure`, bind, `mapM` and loops of a count (`iterate`).
-/

import Mathlib.Control.Basic
import Mathlib.Data.List.Forall2
import Mathlib.Tactic.Common

namespace Frnetlib.Base

structure View (σ β : Type) where
  unread : σ → List β
  ok : σ → Prop
  moved : σ → σ → Prop
  moved_refl : ∀ c, moved c c
  moved_trans : ∀ {a b c}, moved a b → moved b c → moved a c
  moved_ok : ∀ {a b}, moved a b → ok a → ok b

/-- `n` rounds of `body`, each given what the one before returned. -/
def iterate {m : Type → Type} [Monad m] (body : α → m α) : Nat → α → m α
  | 0, a => pure a
  | n + 1, a => do
    let b ← body a
    iterate body n b

namespace View

variable {σ β ε α γ δ : Type} (V : View σ β)

def Reads (x : EStateM ε σ α) (s : List β) (Q : α → Prop) : Prop :=
  ∀ c rest, V.ok c → V.unread c = s ++ rest →
    ∃ a c', x c = .ok a c' ∧ Q a ∧ V.unread c' = rest ∧ V.moved c c'

def Yields (x : EStateM ε σ α) (P : List β → α → Prop) (E : ε → Prop) : Prop :=
  ∀ c, V.ok c →
    (∃ a c' s, x c = .ok a c' ∧ V.unread c = s ++ V.unread c' ∧ P s a ∧ V.moved c c') ∨
    (∃ e c', x c = .error e c' ∧ E e ∧ V.moved c c')

variable {V}

theorem bind_ok {x : EStateM ε σ α} {f : α → EStateM ε σ γ} {c c' : σ} {a : α} (h : x c = .ok a c') :
    (x >>= f) c = f a c' := by
  change EStateM.bind x f c = f a c'
  rw [EStateM.bind, h]

theorem bind_error {x : EStateM ε σ α} {f : α → EStateM ε σ γ} {c c' : σ} {e : ε} (h : x c = .error e c') :
    (x >>= f) c = .error e c' := by
  change EStateM.bind x f c = .error e c'
  rw [EStateM.bind, h]

/-! ## Completeness -/

theorem Reads.mono {x : EStateM ε σ α} {s : List β} {P Q : α → Prop} (h : V.Reads x s P)
    (hpq : ∀ a, P a → Q a) : V.Reads x s Q := by
  intro c rest hc hs
  obtain ⟨a, c', hx, hp, hr⟩ := h c rest hc hs
  exact ⟨a, c', hx, hpq a hp, hr⟩

theorem Reads.pure {a : α} {Q : α → Prop} (h : Q a) : V.Reads (Pure.pure a : EStateM ε σ α) [] Q := by
  intro c rest _ hs
  exact ⟨a, c, rfl, h, hs, V.moved_refl c⟩

theorem Reads.bind {x : EStateM ε σ α} {f : α → EStateM ε σ γ} {s t : List β} {P : α → Prop} {Q : γ → Prop}
    (hx : V.Reads x s P) (hf : ∀ a, P a → V.Reads (f a) t Q) : V.Reads (x >>= f) (s ++ t) Q := by
  intro c rest hc hs
  rw [List.append_assoc] at hs
  obtain ⟨a, c₁, hx, ha, hu₁, hm₁⟩ := hx c _ hc hs
  obtain ⟨b, c₂, hy, hb, hu₂, hm₂⟩ := hf a ha c₁ rest (V.moved_ok hm₁ hc) hu₁
  exact ⟨b, c₂, (bind_ok hx).trans hy, hb, hu₂, V.moved_trans hm₁ hm₂⟩

/-- What is computed from the result of an extraction reads no further. -/
theorem Reads.bind_pure {x : EStateM ε σ α} {f : α → γ} {s : List β} {P : α → Prop} {Q : γ → Prop}
    (hx : V.Reads x s P) (hf : ∀ a, P a → Q (f a)) : V.Reads (x >>= fun a => Pure.pure (f a)) s Q := by
  have h := Reads.bind (t := []) hx fun a ha => Reads.pure (hf a ha)
  rwa [List.append_nil] at h

/-- One text for each element, in order. -/
theorem Reads.mapM {f : α → EStateM ε σ γ} {enc : δ → List β} {Q : δ → γ → Prop} {xs : List α} {ws : List δ}
    (h : List.Forall₂ (fun x w => V.Reads (f x) (enc w) (Q w)) xs ws) :
    V.Reads (xs.mapM f) (ws.flatMap enc) (List.Forall₂ Q ws) := by
  induction h with
  | nil => rw [List.mapM_nil]; exact Reads.pure .nil
  | cons hx _ ih =>
    rw [List.mapM_cons, List.flatMap_cons]
    exact hx.bind fun a ha => ih.bind_pure fun as has => .cons ha has

/-- A loop over the texts `ws`, by an invariant that names those already read. -/
theorem Reads.iterate {body : α → EStateM ε σ α} {enc : δ → List β} {I : List δ → α → Prop} :
    ∀ (ws us : List δ) {a : α}, I us a →
      (∀ vs w, vs ++ [w] <+: us ++ ws → us <+: vs → ∀ a, I vs a → V.Reads (body a) (enc w) (I (vs ++ [w]))) →
      V.Reads (Base.iterate body ws.length a) (ws.flatMap enc) (I (us ++ ws))
  | [], us, a, h0, _ => by rw [List.append_nil]; exact Reads.pure h0
  | w :: ws, us, a, h0, hstep => by
    have hsplit : us ++ w :: ws = us ++ [w] ++ ws := by simp
    rw [List.length_cons, Base.iterate, List.flatMap_cons, hsplit]
    have hw : us ++ [w] <+: us ++ w :: ws := ⟨ws, hsplit.symm⟩
    refine (hstep us w hw List.prefix_rfl a h0).bind fun b hb => ?_
    refine Reads.iterate ws (us ++ [w]) hb fun vs v hv hu => ?_
    rw [← hsplit] at hv
    exact hstep vs v hv ((List.prefix_append _ _).trans hu)

/-! ## Soundness -/

variable {E : ε → Prop}

theorem Yields.mono {x : EStateM ε σ α} {P Q : List β → α → Prop} (h : V.Yields x P E)
    (hpq : ∀ s a, P s a → Q s a) : V.Yields x Q E := by
  intro c hc
  rcases h c hc with ⟨a, c', s, hx, hs, hp, hm⟩ | he
  · exact .inl ⟨a, c', s, hx, hs, hpq s a hp, hm⟩
  · exact .inr he

theorem Yields.pure {a : α} {P : List β → α → Prop} (h : P [] a) :
    V.Yields (Pure.pure a : EStateM ε σ α) P E := by
  intro c _
  exact .inl ⟨a, c, [], rfl, rfl, h, V.moved_refl c⟩

theorem Yields.bind {x : EStateM ε σ α} {f : α → EStateM ε σ γ} {P : List β → α → Prop} {Q : List β → γ → Prop}
    (hx : V.Yields x P E) (hf : ∀ s a, P s a → V.Yields (f a) (fun t b => Q (s ++ t) b) E) :
    V.Yields (x >>= f) Q E := by
  intro c hc
  rcases hx c hc with ⟨a, c₁, s, hx, hs, hp, hm₁⟩ | ⟨e, c₁, hx, he, hm₁⟩
  · rcases hf s a hp c₁ (V.moved_ok hm₁ hc) with ⟨b, c₂, t, hy, ht, hq, hm₂⟩ | ⟨e, c₂, hy, he, hm₂⟩
    · refine .inl ⟨b, c₂, s ++ t, (bind_ok hx).trans hy, ?_, hq, V.moved_trans hm₁ hm₂⟩
      rw [hs, ht, List.append_assoc]
    · exact .inr ⟨e, c₂, (bind_ok hx).trans hy, he, V.moved_trans hm₁ hm₂⟩
  · exact .inr ⟨e, c₁, bind_error hx, he, hm₁⟩

theorem Yields.bind_pure {x : EStateM ε σ α} {f : α → γ} {P : List β → α → Prop} {Q : List β → γ → Prop}
    (hx : V.Yields x P E) (hf : ∀ s a, P s a → Q s (f a)) : V.Yields (x >>= fun a => Pure.pure (f a)) Q E := by
  refine hx.bind fun s a hp => Yields.pure ?_
  rw [List.append_nil]
  exact hf s a hp

/-- If every element yields its own text, the list yields the texts joined. -/
theorem Yields.mapM {f : α → EStateM ε σ γ} {enc : γ → List β} {G : γ → Prop} {xs : List α}
    (h : ∀ x ∈ xs, V.Yields (f x) (fun s a => s = enc a ∧ G a) E) :
    V.Yields (xs.mapM f)
      (fun s as => s = as.flatMap enc ∧ as.length = xs.length ∧ ∀ a ∈ as, G a) E := by
  induction xs with
  | nil => rw [List.mapM_nil]; exact Yields.pure ⟨rfl, rfl, by simp⟩
  | cons x xs ih =>
    rw [List.mapM_cons]
    refine (h x List.mem_cons_self).bind ?_
    intro s a ⟨hs, hg⟩
    refine (ih fun y hy => h y (List.mem_cons_of_mem _ hy)).bind_pure ?_
    intro t as ⟨ht, hlen, hgs⟩
    refine ⟨by rw [hs, ht, List.flatMap_cons], by simp [hlen], ?_⟩
    intro b hb
    rcases List.mem_cons.mp hb with rfl | hb
    · exact hg
    · exact hgs b hb

/-! ## Whatever happens -/

/-- The state a run leaves, whether it returns or throws. -/
def after (x : EStateM ε σ α) (c : σ) : σ :=
  match x c with
  | .ok _ c' => c'
  | .error _ c' => c'

def Moves (x : EStateM ε σ α) : Prop := ∀ c, V.moved c (after x c)

theorem Moves.pure (a : α) : V.Moves (Pure.pure a : EStateM ε σ α) := fun c => V.moved_refl c

theorem Moves.throw (e : ε) : V.Moves (throw e : EStateM ε σ α) := fun c => V.moved_refl c

theorem Moves.bind {x : EStateM ε σ α} {f : α → EStateM ε σ γ} (hx : V.Moves x) (hf : ∀ a, V.Moves (f a)) :
    V.Moves (x >>= f) := by
  intro c
  have hx := hx c
  unfold after at hx ⊢
  rcases hxc : x c with ⟨a, c₁⟩ | ⟨e, c₁⟩
  · rw [hxc] at hx
    rw [bind_ok hxc]
    exact V.moved_trans hx (hf a c₁)
  · rw [hxc] at hx
    rw [bind_error hxc]
    exact hx

theorem Moves.mapM {f : α → EStateM ε σ γ} (h : ∀ a, V.Moves (f a)) (xs : List α) : V.Moves (xs.mapM f) := by
  induction xs with
  | nil => rw [List.mapM_nil]; exact Moves.pure _
  | cons x xs ih =>
    rw [List.mapM_cons]
    exact (h x).bind fun a => ih.bind fun as => Moves.pure _

theorem Moves.iterate {body : α → EStateM ε σ α} (h : ∀ a, V.Moves (body a)) (n : Nat) (a : α) :
    V.Moves (Base.iterate body n a) := by
  induction n generalizing a with
  | zero => exact Moves.pure a
  | succ n ih => exact (h a).bind ih

/-! ## From two states -/

def Twins (R : σ → σ → Prop) (x : EStateM ε σ α) : Prop :=
  ∀ c d, R c d →
    (∃ a c' d', x c = .ok a c' ∧ x d = .ok a d' ∧ R c' d') ∨
    (∃ e c' d', x c = .error e c' ∧ x d = .error e d' ∧ R c' d')

variable {R : σ → σ → Prop}

theorem Twins.pure (a : α) : Twins R (Pure.pure a : EStateM ε σ α) :=
  fun c d h => .inl ⟨a, c, d, rfl, rfl, h⟩

theorem Twins.throw (e : ε) : Twins R (throw e : EStateM ε σ α) :=
  fun c d h => .inr ⟨e, c, d, rfl, rfl, h⟩

theorem Twins.bind {x : EStateM ε σ α} {f : α → EStateM ε σ γ} (hx : Twins R x) (hf : ∀ a, Twins R (f a)) :
    Twins R (x >>= f) := by
  intro c d h
  rcases hx c d h with ⟨a, c₁, d₁, hc, hd, h₁⟩ | ⟨e, c₁, d₁, hc, hd, h₁⟩
  · rw [bind_ok hc, bind_ok hd]
    exact hf a c₁ d₁ h₁
  · exact .inr ⟨e, c₁, d₁, bind_error hc, bind_error hd, h₁⟩

theorem Twins.mapM {f : α → EStateM ε σ γ} (h : ∀ a, Twins R (f a)) (xs : List α) : Twins R (xs.mapM f) := by
  induction xs with
  | nil => rw [List.mapM_nil]; exact Twins.pure _
  | cons x xs ih =>
    rw [List.mapM_cons]
    exact (h x).bind fun a => ih.bind fun as => Twins.pure _

theorem Twins.iterate {body : α → EStateM ε σ α} (h : ∀ a, Twins R (body a)) (n : Nat) (a : α) :
    Twins R (Base.iterate body n a) := by
  induction n generalizing a with
  | zero => exact Twins.pure a
  | succ n ih => exact (h a).bind ih

end View

end Frnetlib.Base
