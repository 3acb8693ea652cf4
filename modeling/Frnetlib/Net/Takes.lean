/-
  Frnetlib.Net.Takes — what receiving takes of a stream, whatever the socket does.

  `Takes` is partial correctness of a receiving function: of every call that returns,
  the bytes taken, the status and the result. It follows the structure of the function
  (`Takes.map`, `Takes.andThen`), down to the two loops. `receive_all` that answers
  anything but Success or Disconnected has taken nothing (`takes_receiveAll`); the loop
  around it, once a message has begun, answers neither WouldBlock nor Timeout
  (`takes_receiveRest`).
-/

import Frnetlib.Net.Stream

namespace Frnetlib.Socket

open Base Receiver

variable {σ α β : Type} [Receiver σ]

def Takes (x : σ → Option (Status × β × σ)) (Q : Bytes → Status → β → Prop) : Prop :=
  ∀ w st b w', x w = some (st, b, w') → ∃ t, pending w = t ++ pending w' ∧ Q t st b

/-- The answers after which a call may be made again. -/
def Paused (st : Status) : Prop := st = .wouldBlock ∨ st = .timeout

instance (st : Status) : Decidable (Paused st) := inferInstanceAs (Decidable (_ ∨ _))

/-- Every read that succeeds brings at least a byte. -/
def NeverEmpty (σ : Type) [Receiver σ] : Prop :=
  ∀ {n : Nat} {w : σ} {b : Bytes} {w' : σ}, 0 < n → receiveRaw n w = some (.success, b, w') → b ≠ []

theorem Takes.mono {x : σ → Option (Status × β × σ)} {P Q : Bytes → Status → β → Prop} (h : Takes x P)
    (hPQ : ∀ t st b, P t st b → Q t st b) : Takes x Q := by
  intro w st b w' hx
  obtain ⟨t, ht, hP⟩ := h w st b w' hx
  exact ⟨t, ht, hPQ t st b hP⟩

theorem Takes.pure {Q : Bytes → Status → β → Prop} {st : Status} {b : β} (h : Q [] st b) :
    Takes (fun w : σ => some (st, b, w)) Q := by
  intro w st' b' w' hx
  cases hx
  exact ⟨[], rfl, h⟩

theorem Takes.none {Q : Bytes → Status → β → Prop} : Takes (fun _ : σ => none) Q := by
  intro w st b w' h
  cases h

theorem Takes.map {x : σ → Option (Status × α × σ)} {P : Bytes → Status → α → Prop} (h : Takes x P) (f : α → β)
    {Q : Bytes → Status → β → Prop} (hPQ : ∀ t st a, P t st a → Q t st (f a)) :
    Takes (fun w => (x w).map fun r => (r.1, f r.2.1, r.2.2)) Q := by
  intro w st b w' hx
  obtain ⟨⟨st', a, w₁⟩, hx', he⟩ := Option.map_eq_some_iff.mp hx
  cases he
  obtain ⟨t, ht, hP⟩ := h _ _ _ _ hx'
  exact ⟨t, ht, hPQ _ _ _ hP⟩

theorem Takes.andThen {x : σ → Option (Status × α × σ)} {fail : α → β} {f : α → σ → Option (Status × β × σ)}
    {P : Bytes → Status → α → Prop} {Q : Bytes → Status → β → Prop} (hx : Takes x P)
    (hfail : ∀ t st a, P t st a → st ≠ .success → Q t st (fail a))
    (hf : ∀ s a, P s .success a → Takes (f a) fun t st b => Q (s ++ t) st b) : Takes (andThen x fail f) Q := by
  intro w st b w' h
  rw [Socket.andThen] at h
  rcases hxw : x w with _ | ⟨st', a, w₁⟩
  · rw [hxw] at h
    cases h
  · rw [hxw] at h
    obtain ⟨s, hs, hP⟩ := hx w st' a w₁ hxw
    by_cases hst : st' = .success
    · subst hst
      obtain ⟨t, ht, hQ⟩ := hf s a hP w₁ st b w' h
      refine ⟨s ++ t, ?_, hQ⟩
      rw [hs, ht, List.append_assoc]
    · simp only [if_pos hst] at h
      cases h
      exact ⟨s, hs, hfail _ _ _ hP hst⟩

/-! ## The loops -/

/-- The loop with `remaining` bytes missing: what it returns is what it took, and with
    some of it taken its only failure is Disconnected. -/
theorem receiveAllFrom_takes {size remaining : Nat} {w w' : σ} {st : Status} {b : Bytes} (hle : remaining ≤ size)
    (h : receiveAllFrom size remaining w = some (st, b, w')) :
    pending w = b ++ pending w' ∧ (st = .success → b.length = remaining) ∧
      (st ≠ .success → st ≠ .disconnected → remaining = size ∧ b = []) := by
  generalize hm : left w = m
  induction m using Nat.strongRecOn generalizing remaining w st b with
  | ind m ih =>
    rw [receiveAllFrom] at h
    by_cases hr : remaining = 0
    · rw [dif_pos hr] at h
      cases h
      exact ⟨rfl, fun _ => hr.symm, fun hst => absurd rfl hst⟩
    · rw [dif_neg hr] at h
      split at h
      · cases h
      · rename_i status c w₁ hraw
        have hlt := raw_left hraw (by omega)
        have hlen := raw_length hraw
        have hpend := raw_pending hraw
        -- Another round of the loop, after `c`.
        have hagain : (receiveAllFrom size (remaining - c.length) w₁).map (prepend c) = some (st, b, w') →
            pending w = b ++ pending w' ∧ (st = .success → b.length = remaining) ∧
              (st ≠ .success → st ≠ .disconnected → remaining = size ∧ b = []) := by
          intro hmap
          obtain ⟨⟨st₂, b₂, w₂⟩, h₂, he⟩ := Option.map_eq_some_iff.mp hmap
          cases he
          obtain ⟨hp, hsuccess, hother⟩ := ih (left w₁) (by omega) (by omega) h₂ rfl
          refine ⟨?_, ?_, ?_⟩
          · rw [hpend, hp, List.append_assoc]
          · intro hst
            change (c ++ b₂).length = remaining
            have hlen₂ : b₂.length = remaining - c.length := hsuccess hst
            rw [List.length_append]
            omega
          · intro hst hst'
            obtain ⟨hsize, hb⟩ := hother hst hst'
            have hc : c = [] := List.eq_nil_of_length_eq_zero (by omega)
            refine ⟨by omega, ?_⟩
            rw [hb, hc]
            rfl
        by_cases hst : status = .success
        · subst hst
          exact hagain h
        · have hc : c = [] := raw_fails hraw hst
          subst hc
          simp only [ne_eq, hst, not_false_eq_true, if_true, List.length_nil, Nat.sub_zero] at h hagain
          split at h
          · rename_i hsize
            cases h
            exact ⟨hpend, fun hs => absurd hs hst, fun _ _ => ⟨hsize.symm, rfl⟩⟩
          · split at h
            · exact hagain h
            · cases h
              exact ⟨hpend, fun hs => Status.noConfusion hs, fun _ hs => absurd rfl hs⟩

theorem takes_receiveAll (n : Nat) :
    Takes (σ := σ) (receiveAll n) fun t st b =>
      b = t ∧ (st = .success → t.length = n) ∧ (Paused st → t = []) := by
  intro w st b w' h
  obtain ⟨hp, hsuccess, hother⟩ := receiveAllFrom_takes (Nat.le_refl n) h
  refine ⟨b, hp, rfl, hsuccess, ?_⟩
  intro hst
  rcases hst with rfl | rfl
  · exact (hother (by decide) (by decide)).2
  · exact (hother (by decide) (by decide)).2

theorem takes_receiveRest (n : Nat) :
    Takes (σ := σ) (receiveRest n) fun t st b => b = t ∧ (st = .success → t.length = n) ∧ ¬ Paused st := by
  intro w st b w' h
  generalize hm : left w = m
  induction m using Nat.strongRecOn generalizing w with
  | ind m ih =>
    rw [receiveRest] at h
    split at h
    · cases h
    · rename_i status c w₁ hall
      obtain ⟨t, ht, hc, hsuccess, hpaused⟩ := takes_receiveAll n w status c w₁ hall
      by_cases hst : status = .wouldBlock
      · rw [dif_pos hst] at h
        have hlt : left w₁ < left w := receiveAll_left (hst ▸ hall)
        have hnil := hpaused (.inl hst)
        rw [hnil, List.nil_append] at ht
        rw [ht]
        exact ih (left w₁) (by omega) w₁ h rfl
      · rw [dif_neg hst] at h
        cases h
        refine ⟨t, ht, hc, ?_, ?_⟩
        · intro hs
          apply hsuccess
          by_cases htime : status = .timeout
          · rw [if_pos htime] at hs
            cases hs
          · rwa [if_neg htime] at hs
        · intro hpause
          by_cases htime : status = .timeout
          · rw [if_pos htime] at hpause
            rcases hpause with hs | hs
            · cases hs
            · cases hs
          · rw [if_neg htime] at hpause
            rcases hpause with hs | hs
            · exact hst hs
            · exact htime hs

end Frnetlib.Socket
