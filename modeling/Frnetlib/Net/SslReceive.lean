/-
  Frnetlib.Net.SslReceive — `fr::SSLSocket::receive_raw` (`SSLSocket.cpp`) over the results
  of `mbedtls_ssl_read`, without a receive timeout.

  The receiving end is the stream of the bytes that the other end's writes will still bring,
  decrypted, and the schedule of the results of the next calls. A call that wants to be made
  again is a timeout in blocking mode, and otherwise another round of the loop: `receive_raw`
  is that of a `TcpSocket` whose calls were interrupted there (`receiveRawFrom_tcp`). So an
  end whose calls do not fail, and in blocking mode do not want to be made again, is the end
  of a reliable stream on which nothing would block (`SslStream`).

  Packets that went out with Success are all received, and leave nothing behind, exactly when
  none of them was torn (`ssl_packets`).
-/

import Frnetlib.Net.Retry
import Frnetlib.Net.SslSocket
import Mathlib.Algebra.GroupWithZero.Nat

namespace Frnetlib

open Base Socket

/-! ## Receiving -/

inductive ReadResult where
  /-- `k + 1` bytes, or fewer if fewer were asked for or are there. -/
  | received (k : Nat)
  | closed
  | wantRead
  | wantWrite
  | failed
  deriving DecidableEq, Repr

structure SslReader where
  isBlocking : Bool
  stream : Bytes
  schedule : List ReadResult
  deriving DecidableEq, Repr

namespace SslReader

/-- `mbedtls_ssl_read` of at most `count` bytes; it waits while there are none. -/
def read (w : SslReader) (dataSize count : Nat) (rest : List ReadResult) : Option (Status × Bytes × SslReader) :=
  if w.stream = [] then none
  else
    let b := w.stream.take (min count dataSize)
    if b = [] then some (.disconnected, [], { w with schedule := rest })
    else some (.success, b, { w with stream := w.stream.drop b.length, schedule := rest })

def receiveRawFrom (w : SslReader) (dataSize : Nat) : List ReadResult → Option (Status × Bytes × SslReader)
  | [] => w.read dataSize dataSize []
  | .received k :: rest => w.read dataSize (k + 1) rest
  | .closed :: rest => some (.disconnected, [], { w with schedule := rest })
  | .wantRead :: rest =>
    if w.isBlocking then some (.timeout, [], { w with schedule := rest }) else w.receiveRawFrom dataSize rest
  | .wantWrite :: rest =>
    if w.isBlocking then some (.timeout, [], { w with schedule := rest }) else w.receiveRawFrom dataSize rest
  | .failed :: rest => some (.sslError, [], { w with schedule := rest })

def receiveRaw (dataSize : Nat) (w : SslReader) : Option (Status × Bytes × SslReader) :=
  w.receiveRawFrom dataSize w.schedule

end SslReader

/-! ## As the calls of a `TcpSocket` -/

/-- A call that wants to be made again is an interrupt, or in blocking mode a timeout. -/
def ReadResult.asRecv (isBlocking : Bool) : ReadResult → RecvResult
  | .received k => .received k
  | .closed => .closed
  | .wantRead | .wantWrite => if isBlocking then .ewouldblock else .eintr
  | .failed => .failed

namespace SslReader

def asTcp (w : SslReader) : TcpReader := ⟨w.isBlocking, w.stream, w.schedule.map (·.asRecv w.isBlocking)⟩

/-- The status of `SSLSocket` for a call that failed. -/
def status : Status → Status
  | .receiveError => .sslError
  | st => st

theorem status_success {st : Status} : status st = .success ↔ st = .success := by cases st <;> decide

theorem read_tcp (w : SslReader) (dataSize count : Nat) (rest : List ReadResult) :
    (w.read dataSize count rest = none ∧ w.asTcp.recv dataSize count (rest.map (·.asRecv w.isBlocking)) = none) ∨
    ∃ st b w', w.read dataSize count rest = some (status st, b, w') ∧
      w.asTcp.recv dataSize count (rest.map (·.asRecv w.isBlocking)) = some (st, b, w'.asTcp) ∧
      w'.isBlocking = w.isBlocking ∧ w'.schedule = rest := by
  unfold read TcpReader.recv
  by_cases hempty : w.stream = []
  · exact .inl ⟨if_pos hempty, if_pos hempty⟩
  · have hempty' : ¬ w.asTcp.stream = [] := hempty
    rw [if_neg hempty, if_neg hempty']
    by_cases hb : w.stream.take (min count dataSize) = []
    · have hb' : w.asTcp.stream.take (min count dataSize) = [] := hb
      exact .inr ⟨.disconnected, [], { w with schedule := rest }, if_pos hb, if_pos hb', rfl, rfl⟩
    · have hb' : ¬ w.asTcp.stream.take (min count dataSize) = [] := hb
      exact .inr ⟨.success, w.stream.take (min count dataSize), _, if_neg hb, if_neg hb', rfl, rfl⟩

/-- Both return the same bytes and go on alike, or neither has returned. -/
theorem receiveRawFrom_tcp (w : SslReader) (n : Nat) (s : List ReadResult) :
    (w.receiveRawFrom n s = none ∧ w.asTcp.receiveRawFrom n (s.map (·.asRecv w.isBlocking)) = none) ∨
    ∃ st b w', w.receiveRawFrom n s = some (status st, b, w') ∧
      w.asTcp.receiveRawFrom n (s.map (·.asRecv w.isBlocking)) = some (st, b, w'.asTcp) ∧
      w'.isBlocking = w.isBlocking ∧ w'.schedule <:+ s := by
  induction s with
  | nil =>
    rcases w.read_tcp n n [] with h | ⟨st, b, w', hssl, htcp, hb, hsched⟩
    · exact .inl h
    · exact .inr ⟨st, b, w', hssl, htcp, hb, hsched ▸ List.suffix_rfl⟩
  | cons r rest ih =>
    have hsuffix : rest <:+ r :: rest := List.suffix_cons _ _
    -- The loop goes on, or the call ends.
    have hwant : (if w.isBlocking then some (.timeout, [], { w with schedule := rest }) else w.receiveRawFrom n rest) =
          w.receiveRawFrom n (r :: rest) → r.asRecv w.isBlocking = (if w.isBlocking then .ewouldblock else .eintr) →
        (w.receiveRawFrom n (r :: rest) = none ∧ w.asTcp.receiveRawFrom n ((r :: rest).map (·.asRecv w.isBlocking)) = none) ∨
        ∃ st b w', w.receiveRawFrom n (r :: rest) = some (status st, b, w') ∧
          w.asTcp.receiveRawFrom n ((r :: rest).map (·.asRecv w.isBlocking)) = some (st, b, w'.asTcp) ∧
          w'.isBlocking = w.isBlocking ∧ w'.schedule <:+ r :: rest := by
      intro heq hr
      rw [List.map_cons, hr, ← heq]
      by_cases hblocking : w.isBlocking = true
      · rw [if_pos hblocking, if_pos hblocking]
        refine .inr ⟨.timeout, [], { w with schedule := rest }, rfl, ?_, rfl, hsuffix⟩
        have hblocking' : w.asTcp.isBlocking = true := hblocking
        rw [TcpReader.receiveRawFrom, if_pos hblocking']
        rfl
      · rw [if_neg hblocking, if_neg hblocking]
        rcases ih with h | ⟨st, b, w', hssl, htcp, hb, hsched⟩
        · exact .inl h
        · exact .inr ⟨st, b, w', hssl, htcp, hb, hsched.trans hsuffix⟩
    cases r with
    | received k =>
      rcases w.read_tcp n (k + 1) rest with h | ⟨st, b, w', hssl, htcp, hb, hsched⟩
      · exact .inl h
      · exact .inr ⟨st, b, w', hssl, htcp, hb, hsched ▸ hsuffix⟩
    | closed => exact .inr ⟨.disconnected, [], { w with schedule := rest }, rfl, rfl, rfl, hsuffix⟩
    | wantRead => exact hwant rfl rfl
    | wantWrite => exact hwant rfl rfl
    | failed => exact .inr ⟨.receiveError, [], { w with schedule := rest }, rfl, rfl, rfl, hsuffix⟩

theorem receiveRaw_tcp {n : Nat} {w w' : SslReader} {st : Status} {b : Bytes} (h : w.receiveRaw n = some (st, b, w')) :
    ∃ st', status st' = st ∧ w.asTcp.receiveRaw n = some (st', b, w'.asTcp) ∧ w'.isBlocking = w.isBlocking ∧
      w'.schedule <:+ w.schedule := by
  rcases w.receiveRawFrom_tcp n w.schedule with ⟨hnone, -⟩ | ⟨st', b', w₁, hssl, htcp, hb, hsched⟩
  · rw [receiveRaw, hnone] at h
    cases h
  · rw [receiveRaw, hssl] at h
    cases h
    exact ⟨st', rfl, htcp, hb, hsched⟩

instance : Socket.Receiver SslReader where
  receiveRaw := receiveRaw
  pending := stream
  left := fun w => Socket.Receiver.left w.asTcp
  raw_left := by
    intro n w st b w' h hn
    obtain ⟨st', -, htcp, -, -⟩ := receiveRaw_tcp h
    exact Socket.Receiver.raw_left htcp hn
  raw_length := by
    intro n w st b w' h
    obtain ⟨st', -, htcp, -, -⟩ := receiveRaw_tcp h
    exact (TcpReader.receiveRawFrom_spec htcp).1
  raw_fails := by
    intro n w st b w' h hst
    obtain ⟨st', hstatus, htcp, -, -⟩ := receiveRaw_tcp h
    refine (TcpReader.receiveRawFrom_spec htcp).2.2.2.1 fun hsuccess => hst ?_
    rw [← hstatus, status_success.mpr hsuccess]
  raw_pending := by
    intro n w st b w' h
    obtain ⟨st', -, htcp, -, -⟩ := receiveRaw_tcp h
    exact (TcpReader.receiveRawFrom_spec htcp).2.1

end SslReader

/-! ## A connection that does not fail -/

/-- It brings something, or the loop of `receive_raw` goes on. -/
def ReadResult.reliable (isBlocking : Bool) : ReadResult → Bool
  | .received _ => true
  | .wantRead | .wantWrite => !isBlocking
  | .closed | .failed => false

abbrev SslStream := { w : SslReader // ∀ r ∈ w.schedule, r.reliable w.isBlocking = true }

namespace SslStream

theorem receiveRaw_stream {w : SslStream} {n : Nat} {st : Status} {b : Bytes} {w' : SslReader}
    (h : w.1.receiveRaw n = some (st, b, w')) : ∀ r ∈ w'.schedule, r.reliable w'.isBlocking = true := by
  obtain ⟨_, -, -, hb, hsched⟩ := SslReader.receiveRaw_tcp h
  intro r hr
  rw [hb]
  exact w.2 r (hsched.subset hr)

def receiveRaw (n : Nat) (w : SslStream) : Option (Status × Bytes × SslStream) :=
  match h : w.1.receiveRaw n with
  | none => none
  | some (st, b, w') => some (st, b, ⟨w', receiveRaw_stream h⟩)

theorem receiveRaw_some {n : Nat} {w w' : SslStream} {st : Status} {b : Bytes} (h : receiveRaw n w = some (st, b, w')) :
    w.1.receiveRaw n = some (st, b, w'.1) := by
  rw [receiveRaw] at h
  split at h
  · cases h
  · rename_i heq
    cases h
    exact heq

/-- Its calls are reliable, and none of them fails with EWOULDBLOCK. -/
theorem asTcp_reliable (w : SslStream) : ∀ r ∈ w.1.asTcp.schedule, r.reliable w.1.asTcp.isBlocking = true ∧ r ≠ .ewouldblock := by
  intro r hr
  obtain ⟨r', hr', rfl⟩ := List.mem_map.mp hr
  have hreliable := w.2 r' hr'
  have hmode : w.1.asTcp.isBlocking = w.1.isBlocking := rfl
  rw [hmode]
  generalize w.1.isBlocking = isBlocking at hreliable
  cases r' with
  | received k => exact ⟨rfl, by simp [ReadResult.asRecv]⟩
  | _ => cases isBlocking <;> revert hreliable <;> decide

theorem receiveRawFrom_success {w w' : TcpReader} {n : Nat} {st : Status} {b : Bytes} {s : List RecvResult}
    (hs : ∀ r ∈ s, r.reliable w.isBlocking = true ∧ r ≠ .ewouldblock) (h : w.receiveRawFrom n s = some (st, b, w')) :
    st ≠ .wouldBlock ∧ (0 < n → st = .success) := by
  have hrecv : ∀ {count rest}, (0 < n → count ≠ 0) → w.recv n count rest = some (st, b, w') →
      st ≠ .wouldBlock ∧ (0 < n → st = .success) := by
    intro count rest hcount hr
    rcases TcpReader.recv_spec hr with ⟨_, _, _, _, ⟨rfl, _⟩ | ⟨rfl, _, hzero⟩⟩
    · exact ⟨by decide, fun _ => rfl⟩
    · exact ⟨by decide, fun hn => absurd hzero (by have := hcount hn; omega)⟩
  induction s with
  | nil => exact hrecv (fun hn => by omega) h
  | cons r rest ih =>
    obtain ⟨hr, hblock⟩ := hs r List.mem_cons_self
    cases r with
    | received k => exact hrecv (fun _ => Nat.succ_ne_zero k) h
    | eintr => exact ih (fun r hr => hs r (List.mem_cons_of_mem _ hr)) h
    | ewouldblock => exact absurd rfl hblock
    | closed => simp [RecvResult.reliable] at hr
    | failed => simp [RecvResult.reliable] at hr

theorem receiveRaw_success {n : Nat} {w w' : SslStream} {st : Status} {b : Bytes} (h : receiveRaw n w = some (st, b, w')) :
    st ≠ .wouldBlock ∧ (0 < n → st = .success) := by
  obtain ⟨st', hst, htcp, -, -⟩ := SslReader.receiveRaw_tcp (receiveRaw_some h)
  obtain ⟨hblock, hsuccess⟩ := receiveRawFrom_success w.asTcp_reliable htcp
  rw [← hst]
  refine ⟨fun heq => hblock ?_, fun hn => SslReader.status_success.mpr (hsuccess hn)⟩
  cases st' with
  | wouldBlock => rfl
  | _ => cases heq

instance : Socket.BlockingReceiver SslStream where
  receiveRaw := receiveRaw
  pending := fun w => w.1.stream
  left := fun w => Socket.Receiver.left w.1
  raw_left := by
    intro n w st b w' h hn
    exact Socket.Receiver.raw_left (σ := SslReader) (receiveRaw_some h) hn
  raw_length := by
    intro n w st b w' h
    exact Socket.Receiver.raw_length (σ := SslReader) (receiveRaw_some h)
  raw_fails := by
    intro n w st b w' h hst
    exact Socket.Receiver.raw_fails (σ := SslReader) (receiveRaw_some h) hst
  raw_pending := by
    intro n w st b w' h
    obtain ⟨_, -, htcp, -, -⟩ := SslReader.receiveRaw_tcp (receiveRaw_some h)
    exact (TcpReader.receiveRawFrom_spec htcp).2.1
  raw_status := fun h hn => .inl ((receiveRaw_success h).2 hn)
  raw_returns := by
    intro n w _ hne h
    rw [receiveRaw] at h
    split at h
    · rename_i hnone
      rcases w.1.receiveRawFrom_tcp n w.1.schedule with ⟨-, htcp⟩ | ⟨st, b, w', hssl, -, -, -⟩
      · exact FifoReader.receiveRawFrom_returns hne _ htcp
      · rw [SslReader.receiveRaw, hssl] at hnone
        cases hnone
    · cases h
  raw_blocking := fun h => (receiveRaw_success h).1 rfl

end SslStream

/-! ## What successful calls have taken -/

namespace Socket

open Receiver

variable {σ β : Type} [Receiver σ]

/-- Where a success takes as many bytes as its result says, and a call that would block
    none: so do any number of them. -/
theorem calls_size {receive : σ → Option (Status × β × σ)} {size : β → Nat}
    (h : Takes receive fun t st b => (st = .success → t.length = size b) ∧ (Paused st → t = [])) (n : Nat) (w : σ)
    (hstatus : ∀ r ∈ (calls receive n w).1, r.1 = .success ∨ r.1 = .wouldBlock) :
    (pending w).length = ((received (calls receive n w).1).map size).sum + (pending (calls receive n w).2).length := by
  induction n generalizing w with
  | zero => simp [calls, received]
  | succ n ih =>
    rcases hcall : receive w with _ | ⟨st, b, w'⟩
    · simp [calls_none hcall, received]
    · obtain ⟨t, ht, hsuccess, hpaused⟩ := h w st b w' hcall
      rw [calls_succ hcall] at hstatus ⊢
      have hrest := ih w' fun r hr => hstatus r (List.mem_cons_of_mem _ hr)
      rw [ht, List.length_append, hrest]
      rcases hstatus _ List.mem_cons_self with hst | hst
      · have hst : st = .success := hst
        subst hst
        simp [received, hsuccess rfl, Nat.add_assoc]
      · have hst : st = .wouldBlock := hst
        subst hst
        simp [received, hpaused (.inl rfl)]

end Socket

/-! ## Packets -/

namespace Packet

/-- What a success has taken is the header and the payload it returns. -/
theorem receive_size {σ : Type} [Receiver σ] (maxReceiveSize : Nat) :
    Takes (σ := σ) (receive maxReceiveSize fresh) fun t st p =>
      (st = .success → t.length = 4 + p.payload.length) ∧ (Paused st → t = []) := by
  unfold receive
  refine (takes_receiveAll (σ := σ) 4).andThen ?_ ?_
  · intro t st b ⟨_, _, hpaused⟩ hst
    exact ⟨fun h => absurd h hst, hpaused⟩
  · intro header b ⟨hb, hlen, _⟩
    by_cases hmax : maxReceiveSize ≠ 0 ∧ maxReceiveSize < ofBe b
    · simp only [if_pos hmax]
      exact Takes.pure ⟨fun h => Status.noConfusion h, fun h => absurd h (by decide)⟩
    · simp only [if_neg hmax]
      refine (takes_receiveRest (σ := σ) (ofBe b)).map
        (fun b' => { fresh with buffer := store (makeRoom fresh.buffer (ofBe b)) b' }) ?_
      intro t st b' ⟨hb', hlen', hpaused⟩
      refine ⟨fun hst => ?_, fun hst => absurd hst hpaused⟩
      have hsize := hlen' hst
      subst hb'
      rw [List.length_append, hlen rfl, ← hsize, store_fresh]
      rfl

variable {maxReceiveSize : Nat}

/-- None of the packets goes on the wire more than once. -/
def untorn : List Packet → SslWriter → Bool
  | [], _ => true
  | p :: ps, w => !SslWriter.torn p.stampHeader.buffer.length 0 w.schedule && untorn ps (p.send w).2.2

/-- What successful sends put on the wire. -/
theorem sendAll_ssl (ps : List Packet) (w : SslWriter) (hlen : (sendAll ps w).1.length = ps.length)
    (hstatus : ∀ st ∈ (sendAll ps w).1, st = .success) :
    ∃ put, (sendAll ps w).2.wire = w.wire ++ put ∧
      (ps.flatMap fun p => p.stampHeader.buffer).length ≤ put.length ∧
      (untorn ps w = true → put = ps.flatMap fun p => p.stampHeader.buffer) ∧
      (put.length = (ps.flatMap fun p => p.stampHeader.buffer).length → untorn ps w = true) := by
  induction ps generalizing w with
  | nil => exact ⟨[], (List.append_nil _).symm, Nat.le_refl _, fun _ => rfl, fun _ => rfl⟩
  | cons p ps ih =>
    rw [sendAll] at hlen hstatus ⊢
    rcases hsend : p.send w with ⟨_ | st, p', w'⟩
    · rw [hsend] at hlen
      cases hlen
    · rw [hsend] at hlen hstatus
      simp only [List.length_cons, Nat.add_right_cancel_iff] at hlen
      obtain ⟨hst, hrest⟩ := List.forall_mem_cons.mp hstatus
      subst hst
      have hloop : sendLoop p.stampHeader.buffer 0 w = (some .success, w') := by
        simp only [send, Prod.mk.injEq] at hsend
        exact Prod.ext hsend.1 hsend.2.2
      obtain ⟨vain, hwire, hvain⟩ := SslWriter.sendLoop_ssl hloop
      obtain ⟨put, hput, hle, huntorn, hsame⟩ := ih w' hlen hrest
      have hstep : untorn (p :: ps) w = true ↔ vain = [] ∧ untorn ps w' = true := by
        rw [untorn, hsend, Bool.and_eq_true, Bool.not_eq_true', hvain]
      refine ⟨vain ++ p.stampHeader.buffer ++ put, ?_, ?_, ?_, ?_⟩
      · simp only
        rw [hput, hwire]
        simp only [List.append_assoc]
      · simp only [List.flatMap_cons, List.length_append]
        omega
      · intro h
        obtain ⟨hnil, hps⟩ := hstep.mp h
        rw [hnil, huntorn hps, List.flatMap_cons, List.nil_append]
      · intro h
        simp only [List.flatMap_cons, List.length_append] at h
        exact hstep.mpr ⟨List.eq_nil_of_length_eq_zero (by omega), hsame (by omega)⟩

end Packet

/-- Packets that are sent through an `SSLSocket`, each with Success, and received through
    another, all bytes having come: receives that do not fail give all of them and leave
    nothing on the stream, exactly when no packet was sent again from its start after a part
    of it. -/
theorem ssl_packets (packets : List Packet) (maxReceiveSize : Nat) (hp : ∀ p ∈ packets, p.Sendable maxReceiveSize)
    (tx : SslWriter) (hall : (Packet.sendAll packets tx).1.length = packets.length)
    (hsuccess : ∀ st ∈ (Packet.sendAll packets tx).1, st = .success) (rx : SslStream)
    (hrx : (Packet.sendAll packets tx).2.wire = tx.wire ++ rx.1.stream) :
    (∃ n, let run := calls (Packet.receive maxReceiveSize Packet.fresh) n rx
      (∀ r ∈ run.1, r.1 = .success ∨ r.1 = .wouldBlock) ∧
        received run.1 = packets.map (fun p => Packet.fresh.addRaw p.payload) ∧ run.2.1.stream = []) ↔
      Packet.untorn packets tx = true := by
  obtain ⟨put, hput, hle, huntorn, hsame⟩ := Packet.sendAll_ssl packets tx hall hsuccess
  obtain rfl : put = rx.1.stream := List.append_cancel_left (hput.symm.trans hrx)
  have htexts : (packets.flatMap fun p => p.stampHeader.buffer) = packets.flatMap fun p => Packet.frame p.payload := by
    rw [List.flatMap_def, List.flatMap_def]
    exact congrArg _ (List.map_congr_left fun p h => Packet.stampHeader_eq (hp p h).header (hp p h).length)
  constructor
  · intro hgiven
    obtain ⟨n, hstatus, hreceived, hempty⟩ := hgiven
    have hsize := calls_size (Packet.receive_size (σ := SslStream) maxReceiveSize) n rx hstatus
    have hpayload : ∀ data, (Packet.fresh.addRaw data).payload = data := fun _ => rfl
    have hframes : (packets.map fun p => 4 + p.payload.length).sum =
        (packets.flatMap fun p => Packet.frame p.payload).length := by
      rw [List.length_flatMap]
      exact congrArg List.sum (List.map_congr_left fun p _ => by rw [Packet.frame, List.length_append, be_length])
    rw [hreceived, List.map_map] at hsize
    have hleft : (Receiver.pending (calls (Packet.receive maxReceiveSize Packet.fresh) n rx).2).length = 0 :=
      congrArg List.length hempty
    rw [hleft, Nat.add_zero] at hsize
    exact hsame (hsize.trans (hframes.trans (congrArg List.length htexts.symm)))
  · intro h
    have hstream : Receiver.pending rx = packets.flatMap fun p => Packet.frame p.payload := (huntorn h).trans htexts
    have hdelivers : Delivers (σ := SslStream) (Packet.receive maxReceiveSize Packet.fresh) (Packet.Sendable maxReceiveSize)
      (fun p => Packet.frame p.payload) (fun p q => q = Packet.fresh.addRaw p.payload) := Packet.receive_delivers
    obtain ⟨k, htaken, hall⟩ :=
      calls_deliver hdelivers packets hp (Receiver.left rx + packets.length) rx (hstream ▸ List.prefix_rfl)
    have hk : k = packets.length := hall hstream (Nat.le_refl _)
    subst hk
    obtain ⟨-, hmessages, hstatus, htook⟩ := htaken
    rw [List.take_length] at hmessages htook
    exact ⟨_, hstatus, forall₂_map hmessages, List.append_right_eq_self.mp (htook.symm.trans hstream)⟩

/-- The six bytes as two, a call that wants to be made again, and the rest. -/
def sampleSslStream : SslStream := ⟨⟨false, [0, 0, 0, 2, 1, 2], [.received 1, .wantRead]⟩, by decide⟩

theorem sendAll_calm : Packet.sendAll [tornPacket] calmWriter = ([.success], ⟨false, [9, 0, 0, 0, 2, 1, 2], []⟩) := by
  have hagain : RawSender.sendRaw tornPacket.stampHeader.buffer 0 calmWriter =
    (some (.wouldBlock, 0), ⟨false, [9], [.accepted 2, .accepted 2]⟩) := rfl
  have hdone : RawSender.sendRaw tornPacket.stampHeader.buffer 0 (⟨false, [9], [.accepted 2, .accepted 2]⟩ : SslWriter) =
    (some (.success, 6), ⟨false, [9, 0, 0, 0, 2, 1, 2], []⟩) := rfl
  have hsend := (sendLoop_again hagain).trans (sendLoop_done hdone (by decide))
  rw [Packet.sendAll, Packet.send, hsend]
  rfl

theorem ssl_packets_sample : ∃ n, let run := calls (Packet.receive 2 Packet.fresh) n sampleSslStream
    (∀ r ∈ run.1, r.1 = .success ∨ r.1 = .wouldBlock) ∧
      received run.1 = [Packet.fresh.addRaw tornPacket.payload] ∧ run.2.1.stream = [] :=
  (ssl_packets [tornPacket] 2
    (by intro q hq; rw [List.mem_singleton.mp hq]; exact ⟨by decide, by decide, .inr (by decide)⟩)
    calmWriter (by rw [sendAll_calm]; rfl) (by rw [sendAll_calm]; decide) sampleSslStream
    (by rw [sendAll_calm]; rfl)).mpr (by rw [Packet.untorn]; decide)

end Frnetlib
