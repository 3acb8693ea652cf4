/-
  Frnetlib.WebSocket.Untrusted — what receiving a frame takes of any stream, on any
  socket.

  A receive that would block or timed out has taken nothing; one that succeeds has taken
  the first two bytes, a length as they announce it, and at least as many bytes as that
  length says (`receive_takes`).
-/

import Frnetlib.Net.Takes
import Frnetlib.WebSocket.WebFrame

namespace Frnetlib

open Base Socket

namespace WebFrame

variable {σ : Type} [Receiver σ]

/-- The bytes `s` are the length that the seven bits announce. -/
def Announces (bits : Nat) (s : Bytes) (payloadLength : Nat) : Prop :=
  if bits = 126 then s.length = 2 ∧ payloadLength = ofBe s
  else if bits = 127 then s.length = 8 ∧ payloadLength = ofBe s
  else s = [] ∧ payloadLength = bits

theorem receiveLength_takes (bits : Nat) :
    Takes (σ := σ) (receiveLength bits) fun t st payloadLength =>
      (st = .success → Announces bits t payloadLength) ∧ ¬ Paused st := by
  unfold receiveLength Announces
  by_cases h126 : bits = 126
  · simp only [if_pos h126]
    refine (takes_receiveRest 2).map ofBe ?_
    intro t st b ⟨hb, hlen, hpaused⟩
    exact ⟨fun hst => ⟨hlen hst, by rw [hb]⟩, hpaused⟩
  · simp only [if_neg h126]
    by_cases h127 : bits = 127
    · simp only [if_pos h127]
      refine (takes_receiveRest 8).map ofBe ?_
      intro t st b ⟨hb, hlen, hpaused⟩
      exact ⟨fun hst => ⟨hlen hst, by rw [hb]⟩, hpaused⟩
    · simp only [if_neg h127]
      exact Takes.pure ⟨fun _ => ⟨rfl, rfl⟩, by decide⟩

theorem receiveMask_takes (mask : Bool) :
    Takes (σ := σ) (receiveMask mask) fun _ st _ => ¬ Paused st := by
  unfold receiveMask
  by_cases hmask : mask = true
  · simp only [if_pos hmask]
    exact (takes_receiveRest 4).mono fun _ _ _ h => h.2.2
  · simp only [if_neg hmask]
    exact Takes.pure (by decide)

theorem applyMask_length (mask : Bool) (maskKey payload : Bytes) :
    (applyMask mask maskKey payload).length = payload.length := by
  unfold applyMask
  split
  · generalize 0 = a
    induction payload generalizing a with
    | nil => rfl
    | cons b s ih => rw [maskFrom, List.length_cons, ih, List.length_cons]
  · rfl

/-- Two bytes, the length that they announce, and at least that many bytes more. -/
def Accepted (t : Bytes) (payloadLength : Nat) : Prop :=
  ∃ b s p, t = b ++ (s ++ p) ∧ b.length = 2 ∧ Announces (ofBe b &&& 0x7F) s payloadLength ∧ payloadLength ≤ p.length

theorem receive_takes (maxReceiveSize : Nat) (g : WebFrame) :
    Takes (σ := σ) (receive maxReceiveSize g) fun t st frame =>
      (st = .success → Accepted t frame.payload.length) ∧ (Paused st → t = []) := by
  unfold receive
  refine (takes_receiveAll 2).andThen ?_ ?_
  · intro t st b ⟨_, _, hpaused⟩ hst
    exact ⟨fun h => absurd h hst, hpaused⟩
  · intro b b' ⟨hb, hlen, _⟩
    subst hb
    simp only
    split
    · exact Takes.pure ⟨fun h => Status.noConfusion h, fun h => absurd h (by decide)⟩
    · refine (receiveLength_takes _).andThen ?_ ?_
      · intro t st n ⟨_, hpaused⟩ hst
        exact ⟨fun h => absurd h hst, fun h => absurd h hpaused⟩
      · intro s n ⟨hannounces, _⟩
        split
        · exact Takes.pure ⟨fun h => Status.noConfusion h, fun h => absurd h (by decide)⟩
        · refine (receiveMask_takes _).andThen ?_ ?_
          · intro t st m hpaused hst
            exact ⟨fun h => absurd h hst, fun h => absurd h hpaused⟩
          · intro k m _
            split
            · exact Takes.none
            · refine (takes_receiveRest n).andThen ?_ ?_
              · intro t st p ⟨_, _, hpaused⟩ hst
                exact ⟨fun h => absurd h hst, fun h => absurd h hpaused⟩
              · intro p p' ⟨hp, hplen, _⟩
                subst hp
                refine Takes.pure ⟨fun _ => ?_, fun h => absurd h (by decide)⟩
                have hn : (resized n p').length = n := by simp [resized, hplen rfl]
                rw [applyMask_length, hn]
                refine ⟨b', s, k ++ p', by simp, hlen rfl, hannounces rfl, ?_⟩
                rw [List.length_append, hplen rfl]
                exact Nat.le_add_left _ _

end WebFrame

end Frnetlib
