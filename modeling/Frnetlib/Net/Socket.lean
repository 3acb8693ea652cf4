/-
  Frnetlib.Net.Socket — `fr::Socket` (`Socket.h`, `Socket.cpp`): the status values,
  what the layers above need of `receive_raw` and `send_raw`, and the loops written
  over them.

  A call on a socket is a partial function of the socket's state: `none` is a call
  that has not returned (it waits for the network). `Receiver` is any socket's
  `receive_raw`: it stores at most the bytes asked for, none when it fails, and what
  it stores comes off the front of the bytes still to be received. `RawSender` is any
  socket's `send_raw`, `Sender` that of a socket which goes on from `sent`: what it puts
  on the wire are the bytes of the buffer from there on, as far as it got. `left` bounds
  the calls a state still allows, so that the retry loops end.

  `receiveAll` is `Socket::receive_all`. `receiveRest` is the loop around it that
  `Packet::receive` and `WebFrame::receive` contain, once a message has begun: as long
  as it would block, again, and a timeout is a lost connection. `sendLoop` is the loop
  that `Packet::send`, `WebFrame::send` and `Http::send` each contain: call `send_raw`
  until it answers anything but WouldBlock.

  `FifoReceiver` and `FifoSender` are the sockets of a connection that is a reliable
  FIFO byte stream: the only failure is WouldBlock, and a read with bytes pending
  returns. On a `BlockingReceiver` there is no WouldBlock either.
-/

import Frnetlib.Base.Numeral

namespace Frnetlib

open Base

inductive Status where
  | unknown
  | success
  | listenFailed
  | bindFailed
  | disconnected
  | error
  | wouldBlock
  | connectionFailed
  | handshakeFailed
  | verificationFailed
  | maxPacketSizeExceeded
  | notEnoughData
  | parseError
  | httpHeaderTooBig
  | httpBodyTooBig
  | addressLookupFailure
  | sendError
  | receiveError
  | acceptError
  | sslError
  | noRouteToHost
  | timeout
  deriving DecidableEq, Repr

namespace Socket

/-! ## Receiving -/

class Receiver (σ : Type) where
  receiveRaw : Nat → σ → Option (Status × Bytes × σ)
  /-- The bytes still to be received, in order. -/
  pending : σ → Bytes
  left : σ → Nat
  raw_left : ∀ {n w st b w'}, receiveRaw n w = some (st, b, w') → 0 < n → left w' < left w
  raw_length : ∀ {n w st b w'}, receiveRaw n w = some (st, b, w') → b.length ≤ n
  raw_fails : ∀ {n w st b w'}, receiveRaw n w = some (st, b, w') → st ≠ .success → b = []
  raw_pending : ∀ {n w st b w'}, receiveRaw n w = some (st, b, w') → pending w = b ++ pending w'

class FifoReceiver (σ : Type) extends Receiver σ where
  raw_status : ∀ {n w st b w'}, receiveRaw n w = some (st, b, w') → 0 < n → st = .success ∨ st = .wouldBlock
  raw_returns : ∀ {n w}, 0 < n → pending w ≠ [] → receiveRaw n w ≠ none

/-- A socket in blocking mode. -/
class BlockingReceiver (σ : Type) extends FifoReceiver σ where
  raw_blocking : ∀ {n w b w'}, receiveRaw n w ≠ some (.wouldBlock, b, w')

open Receiver

variable {α β σ : Type} [Receiver σ]

/-- What is stored before the rest of a read. -/
def prepend (b : Bytes) (r : Status × Bytes × σ) : Status × Bytes × σ := (r.1, b ++ r.2.1, r.2.2)

/-- `Socket::receive_all`'s loop: `remaining` bytes are missing of the `size` asked
    for. The bytes it returns are what it stored from `size - remaining` on. -/
def receiveAllFrom (size remaining : Nat) (w : σ) : Option (Status × Bytes × σ) :=
  if hr : remaining = 0 then some (.success, [], w)
  else
    match h : receiveRaw remaining w with
    | none => none
    | some (status, b, w') =>
      have := raw_left h (by omega)
      let remaining' := remaining - b.length
      if status ≠ .success then
        if size = remaining' then some (status, b, w')
        else if status = .wouldBlock then
          (receiveAllFrom size remaining' w').map (prepend b)
        else some (.disconnected, b, w')
      else (receiveAllFrom size remaining' w').map (prepend b)
termination_by left w

def receiveAll (size : Nat) (w : σ) : Option (Status × Bytes × σ) := receiveAllFrom size size w

/-- `if(status != Success) return status;` after a read, leaving what `fail` makes of the
    bytes; else on with them. -/
def andThen (x : σ → Option (Status × α × σ)) (fail : α → β) (f : α → σ → Option (Status × β × σ)) (w : σ) :
    Option (Status × β × σ) :=
  match x w with
  | none => none
  | some (status, a, w') => if status ≠ .success then some (status, fail a, w') else f a w'

theorem receiveAllFrom_left {size remaining : Nat} {w w' : σ} {st : Status} {b : Bytes}
    (h : receiveAllFrom size remaining w = some (st, b, w')) (hr : remaining ≠ 0) : left w' < left w := by
  -- Whatever the loop does after its first `receive_raw`, it does not raise `left` again.
  suffices ∀ m remaining (w w' : σ) st b, left w = m → receiveAllFrom size remaining w = some (st, b, w') →
      left w' ≤ left w ∧ (remaining ≠ 0 → left w' < left w) from (this _ _ _ _ _ _ rfl h).2 hr
  intro m
  induction m using Nat.strongRecOn with
  | ind m ih =>
    intro remaining w w' st b hm h
    rw [receiveAllFrom] at h
    by_cases hr : remaining = 0
    · rw [dif_pos hr] at h
      cases h
      exact ⟨Nat.le_refl _, fun h => absurd hr h⟩
    · rw [dif_neg hr] at h
      split at h
      · cases h
      · rename_i status c w₁ hraw
        have hlt := raw_left hraw (by omega)
        have hagain : ∀ {r : Nat}, (receiveAllFrom size r w₁).map (prepend c) = some (st, b, w') →
            left w' < left w := by
          intro r hmap
          obtain ⟨⟨st₂, b₂, w₂⟩, h₂, he⟩ := Option.map_eq_some_iff.mp hmap
          cases he
          exact Nat.lt_of_le_of_lt (ih _ (hm ▸ hlt) r w₁ _ _ _ rfl h₂).1 hlt
        have hlt' : left w' < left w := by
          simp only at h
          split at h
          · split at h
            · cases h; exact hlt
            · split at h
              · exact hagain h
              · cases h; exact hlt
          · exact hagain h
        exact ⟨Nat.le_of_lt hlt', fun _ => hlt'⟩

theorem receiveAll_zero (w : σ) : receiveAll 0 w = some (.success, [], w) := by
  rw [receiveAll, receiveAllFrom, dif_pos rfl]

theorem receiveAll_left {size : Nat} {w w' : σ} {b : Bytes} (h : receiveAll size w = some (.wouldBlock, b, w')) :
    left w' < left w := by
  refine receiveAllFrom_left h ?_
  intro heq
  subst heq
  rw [receiveAll_zero] at h
  cases h

def receiveRest (size : Nat) (w : σ) : Option (Status × Bytes × σ) :=
  match h : receiveAll size w with
  | none => none
  | some (status, b, w') =>
    if hs : status = .wouldBlock then
      have := receiveAll_left (hs ▸ h)
      receiveRest size w'
    else some (if status = .timeout then .disconnected else status, b, w')
termination_by left w

/-! ## Sending -/

class RawSender (τ : Type) where
  /-- `send_raw(data, size, sent)`: the status and the new `sent`, `none` while the
      call has not returned. -/
  sendRaw : Bytes → Nat → τ → Option (Status × Nat) × τ
  /-- The bytes put on the wire so far. -/
  out : τ → Bytes
  left : τ → Nat
  raw_left : ∀ {data sent w sent' w'}, sendRaw data sent w = (some (.wouldBlock, sent'), w') → left w' < left w

class Sender (τ : Type) extends RawSender τ where
  raw_out : ∀ {data sent w r w'}, sendRaw data sent w = (r, w') → sent ≤ data.length →
    ∃ k, sent ≤ k ∧ k ≤ data.length ∧ out w' = out w ++ (data.take k).drop sent ∧
      ∀ st sent', r = some (st, sent') → sent' = k ∧ (st = .success → k = data.length)

namespace Sender

export RawSender (sendRaw out left raw_left)

end Sender

class FifoSender (τ : Type) extends Sender τ where
  raw_status : ∀ {data sent w st sent' w'}, sendRaw data sent w = (some (st, sent'), w') →
    st = .success ∨ st = .wouldBlock

/-- The part of a buffer between two offsets, in two pieces. -/
theorem slice_join {data : Bytes} {a b c : Nat} (hab : a ≤ b) (hbc : b ≤ c) (hb : b ≤ data.length) :
    (data.take b).drop a ++ (data.take c).drop b = (data.take c).drop a := by
  have htake : data.take b = (data.take c).take b := by rw [List.take_take, Nat.min_eq_left hbc]
  rw [htake, ← List.drop_append_of_le_length, List.take_append_drop]
  rw [List.length_take, List.length_take]; omega

variable {τ : Type} [RawSender τ]

def sendLoop (data : Bytes) (sent : Nat) (w : τ) : Option Status × τ :=
  match h : Sender.sendRaw data sent w with
  | (none, w') => (none, w')
  | (some (st, sent'), w') =>
    if hs : st = .wouldBlock then
      have := Sender.raw_left (hs ▸ h)
      sendLoop data sent' w'
    else (some st, w')
termination_by Sender.left w

theorem sendLoop_done {data : Bytes} {sent sent' : Nat} {w w' : τ} {st : Status}
    (h : Sender.sendRaw data sent w = (some (st, sent'), w')) (hst : st ≠ .wouldBlock) :
    sendLoop data sent w = (some st, w') := by
  rw [sendLoop]
  split
  · rename_i h'; rw [h] at h'; cases h'
  · rename_i h'; rw [h] at h'; cases h'; exact dif_neg hst

theorem sendLoop_again {data : Bytes} {sent sent' : Nat} {w w' : τ}
    (h : Sender.sendRaw data sent w = (some (.wouldBlock, sent'), w')) :
    sendLoop data sent w = sendLoop data sent' w' := by
  rw [sendLoop]
  split
  · rename_i h'; rw [h] at h'; cases h'
  · rename_i h'; rw [h] at h'; cases h'; exact dif_pos rfl

/-- Messages sent one after the other, each through `sendLoop`: the statuses of the
    calls that have returned. -/
def sendEach : List Bytes → τ → List Status × τ
  | [], w => ([], w)
  | data :: rest, w =>
    match sendLoop data 0 w with
    | (none, w') => ([], w')
    | (some st, w') =>
      let r := sendEach rest w'
      (st :: r.1, r.2)

end Socket

end Frnetlib
