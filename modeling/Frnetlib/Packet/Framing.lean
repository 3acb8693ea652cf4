/-
  Frnetlib.Packet.Framing — packets sent through sockets: `Packet::send` and
  `Packet::receive` (`Packet.h`).

  A packet on the wire is a frame, the payload's length in four bytes and the payload.
  `send` writes the length over the header of the buffer, in arithmetic of 32 bits, and
  sends the buffer. `receive` reads the length, then the payload into the buffer after
  the header.

  Proved: receiving delivers the frames of a FIFO stream (`receive_delivers`), so
  between two TCP sockets whose calls of `::send` and `::recv` take and return what
  they like, and fail with EINTR or EWOULDBLOCK as often as they like, the k-th
  successful receive gives the k-th payload and the receiver has then taken exactly
  the first k frames (`packet_framing`).
-/

import Frnetlib.Net.Stream
import Frnetlib.Net.TcpSocket
import Frnetlib.Packet.Packet

namespace Frnetlib

open Base Socket

namespace Packet

/-- What follows the header. -/
def payload (p : Packet) : Bytes := p.buffer.drop packetHeaderLength

/-! ## Sending -/

/-- The length `send` writes: `(uint32_t)buffer.size() - PACKET_HEADER_LENGTH`, stored in
    a `uint32_t`. -/
def headerLength (p : Packet) : Nat := usub (p.buffer.length % 2 ^ 32) packetHeaderLength % 2 ^ 32

def stampHeader (p : Packet) : Packet := { p with buffer := be 4 p.headerLength ++ p.buffer.drop packetHeaderLength }

def send {τ : Type} [RawSender τ] (p : Packet) (w : τ) : Option Status × Packet × τ :=
  let r := sendLoop p.stampHeader.buffer 0 w
  (r.1, p.stampHeader, r.2)

/-- Packets sent one after the other: the statuses of the sends that have returned. -/
def sendAll {τ : Type} [RawSender τ] : List Packet → τ → List Status × τ
  | [], w => ([], w)
  | p :: ps, w =>
    match p.send w with
    | (none, _, w') => ([], w')
    | (some st, _, w') =>
      let r := sendAll ps w'
      (st :: r.1, r.2)

/-! ## Receiving -/

/-- Room for the payload: `resize` if the buffer is too short. -/
def makeRoom (buffer : Bytes) (packetLength : Nat) : Bytes :=
  if buffer.length < packetLength + packetHeaderLength then
    buffer ++ List.replicate (packetLength + packetHeaderLength - buffer.length) 0
  else buffer

/-- Bytes stored in the buffer after the header. -/
def store (buffer b : Bytes) : Bytes :=
  buffer.take packetHeaderLength ++ b ++ buffer.drop (packetHeaderLength + b.length)

def receive {σ : Type} [Receiver σ] (maxReceiveSize : Nat) (p : Packet) : σ → Option (Status × Packet × σ) :=
  andThen (receiveAll 4) (fun _ => p) fun b w =>
    let packetLength := ofBe b
    if maxReceiveSize ≠ 0 ∧ maxReceiveSize < packetLength then some (.maxPacketSizeExceeded, p, w)
    else
      (receiveRest packetLength w).map fun r =>
        (r.1, { p with buffer := store (makeRoom p.buffer packetLength) r.2.1 }, r.2.2)

/-! ## Frames -/

/-- A payload on the wire. -/
def frame (data : Bytes) : Bytes := be 4 data.length ++ data

theorem headerLength_eq {p : Packet} (hp : packetHeaderLength ≤ p.buffer.length) (hlen : p.payload.length < 2 ^ 32) :
    p.headerLength = p.payload.length := by
  simp only [payload, List.length_drop, packetHeaderLength] at hlen ⊢
  simp only [packetHeaderLength] at hp
  rw [headerLength, packetHeaderLength]
  by_cases h : 4 ≤ p.buffer.length % 2 ^ 32
  · rw [usub_of_le h]; omega
  · -- The size wrapped below the header's: the subtraction wraps it back.
    rw [usub, if_neg h]; omega

theorem stampHeader_eq {p : Packet} (hp : packetHeaderLength ≤ p.buffer.length) (hlen : p.payload.length < 2 ^ 32) :
    p.stampHeader.buffer = frame p.payload := by
  rw [stampHeader, headerLength_eq hp hlen]
  rfl

theorem sendAll_eq {τ : Type} [Sender τ] (ps : List Packet) (w : τ) :
    sendAll ps w = sendEach (ps.map fun p => p.stampHeader.buffer) w := by
  induction ps generalizing w with
  | nil => rfl
  | cons p ps ih =>
    rw [sendAll, List.map_cons, sendEach, send]
    rcases sendLoop p.stampHeader.buffer 0 w with ⟨_ | st, w'⟩
    · rfl
    · simp only [ih]

/-- A packet that can be framed, and that a receiver with this limit takes. -/
structure Sendable (maxReceiveSize : Nat) (p : Packet) : Prop where
  header : packetHeaderLength ≤ p.buffer.length
  length : p.payload.length < 2 ^ 32
  limit : maxReceiveSize = 0 ∨ p.payload.length ≤ maxReceiveSize

variable {σ : Type} [FifoReceiver σ] {maxReceiveSize : Nat}

theorem store_fresh (data : Bytes) : store (makeRoom fresh.buffer data.length) data = (fresh.addRaw data).buffer := by
  have hfresh : fresh.buffer.length = 4 := rfl
  have hroom : makeRoom fresh.buffer data.length = fresh.buffer ++ List.replicate data.length 0 := by
    rw [makeRoom, hfresh, packetHeaderLength]
    by_cases h : 4 < data.length + 4
    · rw [if_pos h, Nat.add_sub_cancel]
    · rw [if_neg h, show data.length = 0 by omega]; rfl
  have hlen : (fresh.buffer ++ List.replicate data.length 0).length ≤ packetHeaderLength + data.length := by
    rw [List.length_append, List.length_replicate]; exact Nat.le_refl _
  rw [hroom, store, List.drop_of_length_le hlen, List.append_nil]
  exact congrArg (· ++ data) (List.take_left' hfresh)

theorem receive_delivers :
    Delivers (σ := σ) (receive maxReceiveSize fresh) (Sendable maxReceiveSize) (fun p => frame p.payload)
      (fun p q => q = fresh.addRaw p.payload) := by
  refine Delivers.of_awaits (by decide) fun p hp => ?_
  refine ⟨be 4 p.payload.length, p.payload, _, rfl, be_length _ _, rfl, ?_⟩
  have hofBe : ofBe (be 4 p.payload.length) = p.payload.length := ofBe_be hp.length
  have hlimit := hp.limit
  simp only [hofBe, if_neg (show ¬(maxReceiveSize ≠ 0 ∧ maxReceiveSize < p.payload.length) by omega)]
  have h := (Awaits.rest (σ := σ) p.payload rfl).map fun b =>
    { fresh with buffer := store (makeRoom fresh.buffer p.payload.length) b }
  rw [store_fresh] at h
  exact h

end Packet

/-! ## Between two sockets -/

/-- Packets sent over a reliable FIFO connection, as far as the sends have come, and any
    number of receives into fresh packets, as far as the bytes have come: every send
    that has returned succeeded, every receive that has succeeded or would block; the
    k-th success gave the k-th payload, and exactly the first k frames were taken. With
    all packets sent and arrived, enough receives get them all. -/
theorem packet_framing (packets : List Packet) (maxReceiveSize : Nat)
    (hp : ∀ p ∈ packets, p.Sendable maxReceiveSize) (tx : FifoWriter) (rx : FifoReader)
    (hconn : Connected tx (Packet.sendAll packets tx).2 rx) (n : Nat) :
    let sent := Packet.sendAll packets tx
    let run := calls (Packet.receive maxReceiveSize Packet.fresh) n rx
    (∀ st ∈ sent.1, st = .success) ∧
    (∀ r ∈ run.1, r.1 = .success ∨ r.1 = .wouldBlock) ∧
    ∃ k, k ≤ packets.length ∧
      received run.1 = (packets.take k).map (fun p => Packet.fresh.addRaw p.payload) ∧
      rx.1.stream = (packets.take k).flatMap (fun p => Packet.frame p.payload) ++ run.2.1.stream ∧
      (sent.1.length = packets.length → sent.2.1.wire = tx.1.wire ++ rx.1.stream →
        Receiver.left rx + packets.length ≤ n → k = packets.length) := by
  intro sent run
  have hsent : sent = sendEach (packets.map fun p => Packet.frame p.payload) tx := by
    refine (Packet.sendAll_eq packets tx).trans (congrArg (sendEach · tx) ?_)
    exact List.map_congr_left fun p h => Packet.stampHeader_eq (hp p h).header (hp p h).length
  rw [show (Packet.sendAll packets tx).2 = (sendEach (packets.map fun p => Packet.frame p.payload) tx).2 from
    congrArg Prod.snd hsent] at hconn
  obtain ⟨hsucc, k, htaken, hall⟩ := stream_faithful Packet.receive_delivers hp hconn n
  rw [hsent]
  exact ⟨hsucc, htaken.status, k, htaken.le, forall₂_map htaken.messages, htaken.took, hall⟩

/-- Six bytes that go out as two, a block, an interrupt, three and one. -/
def sampleWriter : FifoWriter := ⟨⟨false, [], [.accepted 2, .ewouldblock, .eintr, .accepted 3]⟩, by decide⟩

/-- The six bytes come in as one, a block, two, an interrupt and the rest. -/
def sampleReader : FifoReader :=
  ⟨⟨false, [0, 0, 0, 2, 104, 105], [.received 0, .ewouldblock, .received 1, .eintr]⟩, by decide⟩

theorem sendAll_sample : Packet.sendAll [Packet.fresh.addRaw (bytes "hi")] sampleWriter =
    ([.success], ⟨⟨false, [0, 0, 0, 2, 104, 105], []⟩, by decide⟩) := by
  have hdata : (Packet.fresh.addRaw (bytes "hi")).stampHeader.buffer = [0, 0, 0, 2, 104, 105] := rfl
  have hblock : Sender.sendRaw [0, 0, 0, 2, 104, 105] 0 sampleWriter =
      (some (.wouldBlock, 2), ⟨⟨false, [0, 0], [.eintr, .accepted 3]⟩, by decide⟩) := rfl
  rw [Packet.sendAll, Packet.send, hdata, sendLoop_again hblock, sendLoop_done rfl (by decide)]
  rfl

theorem packet_framing_sample :
    received (calls (Packet.receive 2 Packet.fresh) 11 sampleReader).1 = [Packet.fresh.addRaw (bytes "hi")] := by
  obtain ⟨_, _, k, _, hrec, _, hall⟩ := packet_framing [Packet.fresh.addRaw (bytes "hi")] 2
    (by intro q hq; rw [List.mem_singleton.mp hq]; exact ⟨by decide, by decide, .inr (by decide)⟩)
    sampleWriter sampleReader (by rw [sendAll_sample]; exact ⟨_, rfl, List.prefix_rfl⟩) 11
  rw [sendAll_sample] at hall
  have hk : k = 1 := hall rfl rfl (by decide)
  rw [hk] at hrec
  exact hrec

end Frnetlib
