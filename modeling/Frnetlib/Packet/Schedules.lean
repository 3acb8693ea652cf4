/-
  Frnetlib.Packet.Schedules — what `Packet::receive` (`Packet.h`) makes of any bytes, however
  they arrive.

  A length over the limit is refused once its four bytes are taken, and nothing after them;
  anything else is a packet as soon as all of it is there (`packets_any_schedule`).
-/

import Frnetlib.Net.Prompt
import Frnetlib.Packet.Framing

namespace Frnetlib

open Base Socket Prompt

namespace Packet

section

variable {σ : Type} [FifoReceiver σ]

theorem receive_answers (maxReceiveSize : Nat) (p : Packet) :
    Answers (σ := σ) (receive maxReceiveSize p) (receive maxReceiveSize p) := by
  unfold receive
  refine (answers_receiveAll 4).andThen fun b => ?_
  simp only
  split
  · exact Follows.pure p (by decide)
  · exact (follows_receiveRest (σ := σ) _).map fun b' => { p with buffer := store (makeRoom p.buffer (ofBe b)) b' }

end

theorem receive_prompt_iff {maxReceiveSize : Nat} {s rest : Bytes} {st : Status} {p : Packet} :
    receive maxReceiveSize fresh (⟨s⟩ : Prompt) = some (st, p, ⟨rest⟩) ↔
      (st = .success ∧ ∃ data, data.length < 2 ^ 32 ∧ (maxReceiveSize = 0 ∨ data.length ≤ maxReceiveSize) ∧
        s = frame data ++ rest ∧ p = fresh.addRaw data) ∨
      (st = .maxPacketSizeExceeded ∧ maxReceiveSize ≠ 0 ∧ p = fresh ∧
        ∃ length, s = length ++ rest ∧ length.length = 4 ∧ maxReceiveSize < ofBe length) := by
  have hall : ∀ {n w st b w'}, receiveAll n w = some (st, b, w') → st = .success := fun h => (receiveAll_iff.mp h).1
  unfold receive
  rw [andThen_iff hall]
  constructor
  · intro hgiven
    obtain ⟨length, w₁, hlength, hr⟩ := hgiven
    obtain ⟨-, hlen, hs⟩ := receiveAll_iff.mp hlength
    have hs : s = length ++ w₁.stream := hs
    simp only at hr
    by_cases hmax : maxReceiveSize ≠ 0 ∧ maxReceiveSize < ofBe length
    · rw [if_pos hmax] at hr
      cases hr
      exact .inr ⟨rfl, hmax.1, rfl, length, hs, hlen, hmax.2⟩
    · rw [if_neg hmax, Option.map_eq_some_iff] at hr
      obtain ⟨⟨st', data, w₂⟩, hrest, heq⟩ := hr
      cases heq
      obtain ⟨rfl, hdata, hw⟩ := receiveRest_iff.mp hrest
      have hlt : data.length < 2 ^ 32 := by
        have hbound := ofBe_lt length
        rw [hlen] at hbound
        omega
      refine .inl ⟨rfl, data, hlt, by omega, ?_, ?_⟩
      · rw [hs, hw, frame, hdata, ← hlen, be_ofBe, List.append_assoc]
      · rw [← hdata, store_fresh]
        rfl
  · rintro (⟨rfl, data, hlt, hmax, rfl, rfl⟩ | ⟨rfl, hmax, rfl, length, rfl, hlen, hlt⟩)
    · have hofBe : ofBe (be 4 data.length) = data.length := ofBe_be hlt
      refine ⟨be 4 data.length, ⟨data ++ rest⟩, receiveAll_iff.mpr ⟨rfl, be_length _ _, ?_⟩, ?_⟩
      · exact List.append_assoc _ _ _
      · simp only [hofBe]
        rw [if_neg (by omega), Option.map_eq_some_iff]
        refine ⟨(.success, data, ⟨rest⟩), receiveRest_iff.mpr ⟨rfl, rfl, rfl⟩, ?_⟩
        rw [store_fresh]
        rfl
    · refine ⟨length, ⟨rest⟩, receiveAll_iff.mpr ⟨rfl, hlen, rfl⟩, ?_⟩
      simp only
      rw [if_pos ⟨hmax, hlt⟩]

theorem receive_consumes (maxReceiveSize : Nat) : Consumes (receive maxReceiveSize fresh) := by
  intro w st p w' hr
  rcases receive_prompt_iff.mp hr with ⟨-, data, -, -, hw, -⟩ | ⟨-, -, -, length, hw, hlen, -⟩
  · rw [hw, frame, List.length_append, List.length_append, be_length]
    omega
  · rw [hw, List.length_append, hlen]
    omega

/-- Whatever the peer sent, and however it arrives: the receives into fresh packets that are
    not told that it would block have the results of receives that find all of it there, in
    order, and take the same bytes, and enough of them leave only what the next one would
    wait on. There a receive gives the payload of the frame the bytes begin with, or takes
    just the four bytes of a length over the limit. -/
theorem packets_any_schedule {σ : Type} [FifoReceiver σ] (maxReceiveSize : Nat) (n : Nat) (w : σ) :
    (let run := calls (receive maxReceiveSize fresh) n w
      ∃ k, let ideal := calls (receive maxReceiveSize fresh) k (⟨Receiver.pending w⟩ : Prompt)
        run.1.filter (fun r => r.1 ≠ .wouldBlock) = ideal.1 ∧ Receiver.pending run.2 = ideal.2.stream ∧
          (Receiver.left w + (Receiver.pending w).length ≤ n →
            receive maxReceiveSize fresh (⟨Receiver.pending run.2⟩ : Prompt) = none)) ∧
    ∀ s st p rest, receive maxReceiveSize fresh (⟨s⟩ : Prompt) = some (st, p, ⟨rest⟩) ↔
      (st = .success ∧ ∃ data, data.length < 2 ^ 32 ∧ (maxReceiveSize = 0 ∨ data.length ≤ maxReceiveSize) ∧
        s = frame data ++ rest ∧ p = fresh.addRaw data) ∨
      (st = .maxPacketSizeExceeded ∧ maxReceiveSize ≠ 0 ∧ p = fresh ∧
        ∃ length, s = length ++ rest ∧ length.length = 4 ∧ maxReceiveSize < ofBe length) :=
  ⟨calls_answer (receive_answers maxReceiveSize fresh) (receive_consumes maxReceiveSize) n w,
    fun _ _ _ _ => receive_prompt_iff⟩

end Packet

end Frnetlib
