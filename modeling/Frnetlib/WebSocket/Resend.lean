/-
  Frnetlib.WebSocket.Resend — what `WebFrame::send` leaves in the frame it sends.

  `send` is const, and its payload mutable: what is masked is the payload itself, so a
  frame that a client sends is left with the masked payload, and its next send masks that
  again, with another key. A send is `Harmless` if there is no key, or none of its bytes
  that reach the payload changes it. Only such sends leave the frame as it was, whatever
  comes of them; and what the peer receives of one frame sent again and again is the same
  each time exactly when every send but the last is one (`send_effect`).
-/

import Frnetlib.WebSocket.FrameStream

namespace Frnetlib

open Base Socket

namespace WebFrame

/-! ## Masks that change nothing -/

theorem xor_eq_self {b m : UInt8} : b ^^^ m = b ↔ m = 0 := by
  constructor
  · intro h
    calc m = (b ^^^ b) ^^^ m := by rw [UInt8.xor_self, UInt8.zero_xor]
      _ = b ^^^ (b ^^^ m) := UInt8.xor_assoc _ _ _
      _ = 0 := by rw [h, UInt8.xor_self]
  · rintro rfl
    exact UInt8.xor_zero

theorem maskFrom_eq_self {mask s : Bytes} {a : Nat} :
    maskFrom mask a s = s ↔ ∀ i < s.length, mask.getD ((a + i) % 4) 0 = 0 := by
  induction s generalizing a with
  | nil => exact iff_of_true rfl fun i hi => absurd hi (Nat.not_lt_zero i)
  | cons b s ih =>
    rw [maskFrom, List.cons.injEq, xor_eq_self, ih]
    constructor
    · rintro ⟨hfirst, hrest⟩ (_ | i) hi
      · exact hfirst
      · rw [show a + (i + 1) = a + 1 + i by omega]
        exact hrest i (Nat.lt_of_succ_lt_succ hi)
    · intro h
      refine ⟨h 0 (Nat.zero_lt_succ _), ?_⟩
      intro i hi
      rw [show a + 1 + i = a + (i + 1) by omega]
      exact h (i + 1) (Nat.succ_lt_succ hi)

/-- No byte of the key that reaches the payload changes it. -/
def Harmless (frame : WebFrame) (key : UInt32) : Prop :=
  frame.isClient = true → ∀ b ∈ (maskBytes key).take frame.payload.length, b = 0

instance (frame : WebFrame) (key : UInt32) : Decidable (frame.Harmless key) := inferInstanceAs (Decidable (_ → _))

/-- The four bytes of the key, over and over. -/
theorem mask_zero {mask : Bytes} (hmask : mask.length = 4) {n : Nat} :
    (∀ i < n, mask.getD ((0 + i) % 4) 0 = 0) ↔ ∀ b ∈ mask.take n, b = 0 := by
  constructor
  · intro h b hb
    rcases List.mem_iff_getElem.mp hb with ⟨i, hi, rfl⟩
    rw [List.length_take] at hi
    have hi' := h i (by omega)
    rw [Nat.zero_add, Nat.mod_eq_of_lt (by omega), List.getD_eq_getElem?_getD, List.getElem?_eq_getElem (by omega),
      Option.getD_some] at hi'
    rw [List.getElem_take]
    exact hi'
  · intro h i hi
    have hlt : (0 + i) % 4 < mask.length := by omega
    rw [List.getD_eq_getElem?_getD, List.getElem?_eq_getElem hlt, Option.getD_some]
    apply h
    rw [List.mem_take_iff_getElem]
    exact ⟨(0 + i) % 4, by omega, rfl⟩

theorem masked_eq_iff {frame : WebFrame} {key : UInt32} : frame.masked key = frame.payload ↔ frame.Harmless key := by
  unfold masked applyMask Harmless
  by_cases hclient : frame.isClient = true
  · rw [if_pos hclient, maskFrom_eq_self, mask_zero (by simp [maskBytes])]
    exact ⟨fun h _ => h, fun h => h hclient⟩
  · rw [if_neg hclient]
    exact iff_of_true rfl fun h => absurd h hclient

/-! ## The frame after a send -/

/-- What `send` leaves, with the counter already incremented. -/
def after (frame : WebFrame) (key : UInt32) : WebFrame := { frame with payload := frame.masked key }

theorem send_after {τ : Type} [RawSender τ] (frame : WebFrame) (key : UInt32) (w : τ) :
    (frame.send key w).2.1 = frame.after (frame.nextKey key) := rfl

theorem after_eq {frame : WebFrame} {key : UInt32} (h : frame.Harmless key) : frame.after key = frame := by
  rw [after, masked_eq_iff.mpr h]

/-- One frame sent through whatever sockets, with the counter's value before each send: the
    frame after each. -/
def resend {τ : Type} [RawSender τ] : WebFrame → List (UInt32 × τ) → List WebFrame
  | _, [] => []
  | frame, (key, w) :: sends => (frame.send key w).2.1 :: resend (frame.send key w).2.1 sends

def Same (frame g : WebFrame) : Prop := g.payload = frame.payload ∧ g.opcode = frame.opcode ∧ g.final = frame.final

theorem resend_same {τ : Type} [RawSender τ] (frame : WebFrame) (sends : List (UInt32 × τ)) :
    (∀ g ∈ frame.resend sends, frame.Same g) ↔ ∀ s ∈ sends, frame.Harmless (frame.nextKey s.1) := by
  induction sends with
  | nil => exact iff_of_true (fun g hg => by cases hg) (fun s hs => by cases hs)
  | cons s sends ih =>
    rw [resend, List.forall_mem_cons, List.forall_mem_cons, send_after]
    have hfirst : frame.Same (frame.after (frame.nextKey s.1)) ↔ frame.Harmless (frame.nextKey s.1) := by
      rw [← masked_eq_iff]
      exact ⟨fun h => h.1, fun h => ⟨h, rfl, rfl⟩⟩
    rw [hfirst]
    apply and_congr_right
    intro hharmless
    rw [after_eq hharmless]
    exact ih

/-! ## What is delivered -/

/-- One frame sent again and again: the statuses of the sends that have returned. -/
def sendAgain {τ : Type} [RawSender τ] : WebFrame → List UInt32 → τ → List Status × WebFrame × τ
  | frame, [], w => ([], frame, w)
  | frame, key :: keys, w =>
    match frame.send key w with
    | (none, frame', _, w') => ([], frame', w')
    | (some st, frame', _, w') =>
      let r := sendAgain frame' keys w'
      (st :: r.1, r.2)

/-- The key and the frame of each send. -/
def remasked : WebFrame → List UInt32 → List (UInt32 × WebFrame)
  | _, [] => []
  | frame, key :: keys => (frame.nextKey key, frame) :: remasked (frame.after (frame.nextKey key)) keys

theorem remasked_length (frame : WebFrame) (keys : List UInt32) : (frame.remasked keys).length = keys.length := by
  induction keys generalizing frame with
  | nil => rfl
  | cons key keys ih => rw [remasked, List.length_cons, ih, List.length_cons]

theorem remasked_take (frame : WebFrame) (keys : List UInt32) (k : Nat) :
    (frame.remasked keys).take k = frame.remasked (keys.take k) := by
  induction keys generalizing frame k with
  | nil => simp [remasked]
  | cons key keys ih =>
    cases k with
    | zero => rfl
    | succ k => rw [remasked, List.take_succ_cons, List.take_succ_cons, remasked, ih]

theorem remasked_sendable {frame : WebFrame} {isClient : Bool} {maxReceiveSize : Nat}
    (h : frame.Sendable isClient maxReceiveSize) (keys : List UInt32) :
    ∀ kf ∈ frame.remasked keys, kf.2.Sendable isClient maxReceiveSize := by
  induction keys generalizing frame with
  | nil =>
    intro kf hkf
    cases hkf
  | cons key keys ih =>
    rw [remasked, List.forall_mem_cons]
    refine ⟨h, ih ?_⟩
    have hlen := masked_length frame (frame.nextKey key)
    exact ⟨h.client, h.opcode, hlen.symm ▸ h.length, hlen.symm ▸ h.limit⟩

theorem sendAgain_eq {τ : Type} [RawSender τ] (frame : WebFrame) (keys : List UInt32) (w : τ) :
    (frame.sendAgain keys w).1 = (sendEach ((frame.remasked keys).map fun kf => kf.2.text kf.1) w).1 ∧
      (frame.sendAgain keys w).2.2 = (sendEach ((frame.remasked keys).map fun kf => kf.2.text kf.1) w).2 := by
  induction keys generalizing frame w with
  | nil => exact ⟨rfl, rfl⟩
  | cons key keys ih =>
    rw [sendAgain, remasked, List.map_cons, sendEach, send]
    rcases sendLoop (frame.text (frame.nextKey key)) 0 w with ⟨_ | st, w'⟩
    · exact ⟨rfl, rfl⟩
    · obtain ⟨h₁, h₂⟩ := ih (frame.after (frame.nextKey key)) w'
      exact ⟨congrArg (st :: ·) h₁, h₂⟩

/-- The first send that changes the frame shows in the next. -/
theorem remasked_same (frame : WebFrame) (keys : List UInt32) :
    (∀ kf ∈ frame.remasked keys, kf.2.payload = frame.payload) ↔
      ∀ key ∈ keys.dropLast, frame.Harmless (frame.nextKey key) := by
  induction keys with
  | nil => exact iff_of_true (fun kf h => by cases h) (fun key h => by cases h)
  | cons key keys ih =>
    cases keys with
    | nil => exact iff_of_true (by simp [remasked]) (fun key h => by cases h)
    | cons next keys =>
      rw [remasked, List.forall_mem_cons, List.dropLast_cons_cons, List.forall_mem_cons]
      simp only [true_and]
      constructor
      · intro h
        have hharmless : frame.Harmless (frame.nextKey key) := by
          rw [← masked_eq_iff]
          exact h (_, frame.after (frame.nextKey key)) (by rw [remasked]; exact List.mem_cons_self)
        rw [after_eq hharmless] at h
        exact ⟨hharmless, ih.mp h⟩
      · rintro ⟨hharmless, hrest⟩
        rw [after_eq hharmless]
        exact ih.mpr hrest

/-- A frame of either class. Sent with any values of the counter through any sockets, whatever
    comes of it, it is the same after every send exactly when every send is harmless. Sent with
    any values of the counter over a reliable FIFO stream, as far as the sends and the bytes
    have come: the payload that was received each time is the frame's exactly when every send
    that was received but the last is harmless; and with all sent and arrived, enough receives
    get one frame for each send. -/
theorem send_effect (frame : WebFrame) :
    (∀ {ρ : Type} [RawSender ρ] (sends : List (UInt32 × ρ)),
      (∀ g ∈ frame.resend sends, frame.Same g) ↔ ∀ s ∈ sends, frame.Harmless (frame.nextKey s.1)) ∧
    ∀ {σ τ : Type} [FifoReceiver σ] [FifoSender τ] (maxReceiveSize : Nat) (g : WebFrame) (keys : List UInt32) (tx : τ)
      (rx : σ) (n : Nat), frame.Sendable (!g.isClient) maxReceiveSize →
      Connected tx (frame.sendAgain keys tx).2.2 rx →
      let sent := frame.sendAgain keys tx
      let run := calls (receive maxReceiveSize g) n rx
      ∃ k, k ≤ keys.length ∧ (received run.1).length = k ∧
        ((∀ r ∈ received run.1, r.payload = frame.payload) ↔
          ∀ key ∈ (keys.take k).dropLast, frame.Harmless (frame.nextKey key)) ∧
        (sent.1.length = keys.length → Sender.out sent.2.2 = Sender.out tx ++ Receiver.pending rx →
          Receiver.left rx + keys.length ≤ n → k = keys.length) := by
  refine ⟨fun sends => resend_same frame sends, ?_⟩
  intro σ τ _ _ maxReceiveSize g keys tx rx n hframe hconn sent run
  obtain ⟨hstatuses, hwriter⟩ := sendAgain_eq frame keys tx
  rw [hwriter] at hconn
  obtain ⟨-, k, htaken, hall⟩ := stream_faithful (receive_delivers maxReceiveSize g) (remasked_sendable hframe keys) hconn n
  rw [← hstatuses, ← hwriter, remasked_length] at hall
  have hle : k ≤ keys.length := remasked_length frame keys ▸ htaken.le
  have hreceived : received run.1 = (frame.remasked (keys.take k)).map fun kf => { kf.2 with isClient := g.isClient } := by
    rw [← remasked_take]
    exact forall₂_map htaken.messages
  refine ⟨k, hle, ?_, ?_, hall⟩
  · rw [hreceived, List.length_map, remasked_length, List.length_take, Nat.min_eq_left hle]
  · rw [hreceived, ← remasked_same, List.forall_mem_map]

/-- A client's frame, sent once: its payload is the masked one, and the second send delivers that. -/
theorem send_effect_not :
    ¬ ∀ (frame : WebFrame) (key : UInt32) (w : FifoWriter), frame.Same (frame.send key w).2.1 := by
  intro h
  have hsame := (h ⟨true, [104], .text, true⟩ 0 frameWriter).1
  rw [send_after] at hsame
  exact absurd hsame (by decide)

end WebFrame

end Frnetlib
