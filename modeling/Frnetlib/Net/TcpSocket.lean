/-
  Frnetlib.Net.TcpSocket — `fr::TcpSocket::receive_raw` and `send_raw`
  (`TcpSocket.cpp`) over the results of `::recv` and `::send`.

  A connection's receiving end is the stream of the bytes that will still arrive and
  the schedule of the results of its next calls of `::recv`; how many bytes a call
  returns, and when it fails, is the schedule's. After its last entry `::recv` returns
  all it was asked for, as far as there is any. The sending end is the wire, what
  `::send` accepted so far, and the schedule of the next calls of `::send`, after
  which all is accepted; `waits` is a call that has not returned.

  A schedule is reliable when the calls fail only with EINTR or, on a non-blocking
  socket, EWOULDBLOCK. The ends with a reliable schedule, `FifoReader` and
  `FifoWriter`, are those of a reliable FIFO byte stream (`FifoReceiver`,
  `FifoSender`). A `BlockingReader` is moreover in blocking mode, as a `TcpSocket` is
  when it has connected and when it is accepted.
-/

import Frnetlib.Net.Socket

namespace Frnetlib

open Base

/-! ## Receiving -/

inductive RecvResult where
  /-- `k + 1` bytes, or fewer if fewer were asked for or are there. -/
  | received (k : Nat)
  | closed
  | ewouldblock
  | eintr
  | failed
  deriving DecidableEq, Repr

structure TcpReader where
  isBlocking : Bool
  stream : Bytes
  schedule : List RecvResult
  deriving DecidableEq, Repr

namespace TcpReader

/-- `::recv` of at most `count` bytes; it waits while there are none. -/
def recv (w : TcpReader) (bufferSize count : Nat) (rest : List RecvResult) : Option (Status × Bytes × TcpReader) :=
  if w.stream = [] then none
  else
    let b := w.stream.take (min count bufferSize)
    if b = [] then some (.disconnected, [], { w with schedule := rest })
    else some (.success, b, { w with stream := w.stream.drop b.length, schedule := rest })

def receiveRawFrom (w : TcpReader) (bufferSize : Nat) : List RecvResult → Option (Status × Bytes × TcpReader)
  | [] => w.recv bufferSize bufferSize []
  | .received k :: rest => w.recv bufferSize (k + 1) rest
  | .closed :: rest => some (.disconnected, [], { w with schedule := rest })
  | .ewouldblock :: rest =>
    some (if w.isBlocking then .timeout else .wouldBlock, [], { w with schedule := rest })
  | .eintr :: rest => w.receiveRawFrom bufferSize rest
  | .failed :: rest => some (.receiveError, [], { w with schedule := rest })

def receiveRaw (bufferSize : Nat) (w : TcpReader) : Option (Status × Bytes × TcpReader) :=
  w.receiveRawFrom bufferSize w.schedule

theorem recv_spec {w w' : TcpReader} {bufferSize count : Nat} {rest : List RecvResult} {st : Status} {b : Bytes}
    (h : w.recv bufferSize count rest = some (st, b, w')) :
    b.length ≤ bufferSize ∧ w.stream = b ++ w'.stream ∧ w'.isBlocking = w.isBlocking ∧ w'.schedule = rest ∧
      ((st = .success ∧ b ≠ []) ∨ (st = .disconnected ∧ b = [] ∧ (count = 0 ∨ bufferSize = 0))) := by
  simp only [recv] at h
  split at h
  · cases h
  · rename_i hne
    split at h
    · rename_i hb
      cases h
      refine ⟨Nat.zero_le _, rfl, rfl, rfl, .inr ⟨rfl, rfl, ?_⟩⟩
      have hmin : min count bufferSize = 0 := (List.take_eq_nil_iff.mp hb).resolve_right hne
      omega
    · rename_i hb
      cases h
      refine ⟨?_, ?_, rfl, rfl, .inl ⟨rfl, hb⟩⟩
      · rw [List.length_take]; omega
      · have hpre : w.stream.take (min count bufferSize) <+: w.stream := List.take_prefix _ _
        exact (List.prefix_iff_eq_append.mp hpre).symm

/-- A call takes at least one entry of the schedule, or bytes at its end. -/
theorem receiveRawFrom_spec {w w' : TcpReader} {bufferSize : Nat} {st : Status} {b : Bytes} {s : List RecvResult}
    (h : w.receiveRawFrom bufferSize s = some (st, b, w')) :
    b.length ≤ bufferSize ∧ w.stream = b ++ w'.stream ∧ w'.isBlocking = w.isBlocking ∧ (st ≠ .success → b = []) ∧
      w'.schedule <:+ s ∧ (0 < bufferSize → w'.schedule.length < s.length ∨ (w'.schedule = s ∧ b ≠ [])) := by
  induction s with
  | nil =>
    obtain ⟨hlen, hs, hb, hsched, hst⟩ := recv_spec h
    refine ⟨hlen, hs, hb, ?_, hsched ▸ List.suffix_rfl, ?_⟩
    · grind
    · grind
  | cons r rest ih =>
    have hdone : ∀ {st'}, some (st', [], { w with schedule := rest }) = some (st, b, w') → st' ≠ .success →
        b.length ≤ bufferSize ∧ w.stream = b ++ w'.stream ∧ w'.isBlocking = w.isBlocking ∧
          (st ≠ .success → b = []) ∧ w'.schedule <:+ r :: rest ∧
          (0 < bufferSize → w'.schedule.length < (r :: rest).length ∨ (w'.schedule = r :: rest ∧ b ≠ [])) := by
      intro st' he _
      cases he
      exact ⟨Nat.zero_le _, rfl, rfl, fun _ => rfl, List.suffix_cons _ _, fun _ => .inl (by simp)⟩
    cases r with
    | received k =>
      obtain ⟨hlen, hs, hb, hsched, hst⟩ := recv_spec h
      refine ⟨hlen, hs, hb, ?_, hsched ▸ List.suffix_cons _ _, fun _ => .inl (by rw [hsched]; simp)⟩
      grind
    | closed => exact hdone h (by decide)
    | ewouldblock => exact hdone h (by cases w.isBlocking <;> decide)
    | eintr =>
      obtain ⟨hlen, hs, hb, hst, hsuf, hmove⟩ := ih h
      refine ⟨hlen, hs, hb, hst, hsuf.trans (List.suffix_cons _ _), fun hpos => .inl ?_⟩
      have := hsuf.length_le
      simp only [List.length_cons]; omega
    | failed => exact hdone h (by decide)

instance : Socket.Receiver TcpReader where
  receiveRaw := receiveRaw
  pending := stream
  left := fun w => w.schedule.length + w.stream.length
  raw_left := by
    intro n w st b w' h hn
    obtain ⟨_, hs, _, _, _, hmove⟩ := receiveRawFrom_spec h
    have hlen := congrArg List.length hs
    rw [List.length_append] at hlen
    rcases hmove hn with hlt | ⟨heq, hb⟩
    · omega
    · have := List.length_pos_iff.mpr hb
      rw [heq]; omega
  raw_length := fun h => (receiveRawFrom_spec h).1
  raw_fails := fun h => (receiveRawFrom_spec h).2.2.2.1
  raw_pending := fun h => (receiveRawFrom_spec h).2.1

end TcpReader

/-! ## A reliable connection's receiving end -/

def RecvResult.reliable (isBlocking : Bool) : RecvResult → Bool
  | .received _ => true
  | .eintr => true
  | .ewouldblock => !isBlocking
  | _ => false

abbrev FifoReader := { w : TcpReader // ∀ r ∈ w.schedule, r.reliable w.isBlocking = true }

namespace FifoReader

theorem receiveRaw_reliable {w : FifoReader} {n : Nat} {st : Status} {b : Bytes} {w' : TcpReader}
    (h : w.1.receiveRaw n = some (st, b, w')) : ∀ r ∈ w'.schedule, r.reliable w'.isBlocking = true := by
  obtain ⟨_, _, hb, _, hsuf, _⟩ := TcpReader.receiveRawFrom_spec h
  intro r hr
  rw [hb]
  exact w.2 r (hsuf.subset hr)

def receiveRaw (n : Nat) (w : FifoReader) : Option (Status × Bytes × FifoReader) :=
  match h : w.1.receiveRaw n with
  | none => none
  | some (st, b, w') => some (st, b, ⟨w', receiveRaw_reliable h⟩)

theorem receiveRaw_some {n : Nat} {w w' : FifoReader} {st : Status} {b : Bytes}
    (h : receiveRaw n w = some (st, b, w')) : w.1.receiveRaw n = some (st, b, w'.1) := by
  rw [receiveRaw] at h
  split at h
  · cases h
  · rename_i heq; cases h; exact heq

theorem receiveRawFrom_reliable {w w' : TcpReader} {n : Nat} {st : Status} {b : Bytes} {s : List RecvResult}
    (hs : ∀ r ∈ s, r.reliable w.isBlocking = true) (hn : 0 < n) (h : w.receiveRawFrom n s = some (st, b, w')) :
    st = .success ∨ st = .wouldBlock := by
  induction s with
  | nil =>
    rcases TcpReader.recv_spec h with ⟨_, _, _, _, ⟨hst, _⟩ | ⟨_, _, hzero⟩⟩
    · exact .inl hst
    · omega
  | cons r rest ih =>
    have hr := hs r List.mem_cons_self
    cases r with
    | received k =>
      rcases TcpReader.recv_spec h with ⟨_, _, _, _, ⟨hst, _⟩ | ⟨_, _, hzero⟩⟩
      · exact .inl hst
      · omega
    | closed => simp [RecvResult.reliable] at hr
    | ewouldblock =>
      simp only [RecvResult.reliable, Bool.not_eq_true'] at hr
      simp only [TcpReader.receiveRawFrom, hr] at h
      cases h
      exact .inr rfl
    | eintr => exact ih (fun r hr => hs r (List.mem_cons_of_mem _ hr)) h
    | failed => simp [RecvResult.reliable] at hr

theorem receiveRawFrom_returns {w : TcpReader} {n : Nat} (hw : w.stream ≠ []) (s : List RecvResult) :
    w.receiveRawFrom n s ≠ none := by
  have hrecv : ∀ count rest, w.recv n count rest ≠ none := by
    intro count rest
    rw [TcpReader.recv, if_neg hw]
    simp only
    split <;> simp
  induction s with
  | nil => exact hrecv _ _
  | cons r rest ih =>
    cases r with
    | received k => exact hrecv _ _
    | eintr => exact ih
    | _ => simp [TcpReader.receiveRawFrom]

instance : Socket.FifoReceiver FifoReader where
  receiveRaw := receiveRaw
  pending := fun w => w.1.stream
  left := fun w => Socket.Receiver.left w.1
  raw_left := fun h hn => Socket.Receiver.raw_left (receiveRaw_some h) hn
  raw_length := fun h => (TcpReader.receiveRawFrom_spec (receiveRaw_some h)).1
  raw_fails := fun h => (TcpReader.receiveRawFrom_spec (receiveRaw_some h)).2.2.2.1
  raw_pending := fun h => (TcpReader.receiveRawFrom_spec (receiveRaw_some h)).2.1
  raw_status := by
    intro n w st b w' h hn
    exact receiveRawFrom_reliable w.2 hn (receiveRaw_some h)
  raw_returns := by
    intro n w _ hne h
    rw [receiveRaw] at h
    split at h
    · rename_i hnone
      exact receiveRawFrom_returns hne _ hnone
    · cases h

end FifoReader

abbrev BlockingReader := { w : FifoReader // w.1.isBlocking = true }

namespace BlockingReader

theorem receiveRawFrom_blocking {w : TcpReader} (hw : w.isBlocking = true) {n : Nat} {b : Bytes} {w' : TcpReader}
    (s : List RecvResult) : w.receiveRawFrom n s ≠ some (.wouldBlock, b, w') := by
  have hrecv : ∀ count rest, w.recv n count rest ≠ some (.wouldBlock, b, w') := by
    intro count rest h
    rcases TcpReader.recv_spec h with ⟨_, _, _, _, ⟨hst, _⟩ | ⟨hst, _⟩⟩
    · cases hst
    · cases hst
  induction s with
  | nil => exact hrecv _ _
  | cons r rest ih =>
    cases r with
    | received k => exact hrecv _ _
    | eintr => exact ih
    | ewouldblock => simp [TcpReader.receiveRawFrom, hw]
    | _ => simp [TcpReader.receiveRawFrom]

theorem receiveRaw_isBlocking {w : BlockingReader} {n : Nat} {st : Status} {b : Bytes} {w' : FifoReader}
    (h : FifoReader.receiveRaw n w.1 = some (st, b, w')) : w'.1.isBlocking = true := by
  obtain ⟨_, _, hb, _⟩ := TcpReader.receiveRawFrom_spec (FifoReader.receiveRaw_some h)
  exact hb.trans w.2

def receiveRaw (n : Nat) (w : BlockingReader) : Option (Status × Bytes × BlockingReader) :=
  match h : FifoReader.receiveRaw n w.1 with
  | none => none
  | some (st, b, w') => some (st, b, ⟨w', receiveRaw_isBlocking h⟩)

theorem receiveRaw_some {n : Nat} {w w' : BlockingReader} {st : Status} {b : Bytes}
    (h : receiveRaw n w = some (st, b, w')) : FifoReader.receiveRaw n w.1 = some (st, b, w'.1) := by
  rw [receiveRaw] at h
  split at h
  · cases h
  · rename_i heq; cases h; exact heq

instance : Socket.BlockingReceiver BlockingReader where
  receiveRaw := receiveRaw
  pending := fun w => Socket.Receiver.pending w.1
  left := fun w => Socket.Receiver.left w.1
  raw_left := fun h hn => Socket.Receiver.raw_left (receiveRaw_some h) hn
  raw_length := fun h => (TcpReader.receiveRawFrom_spec (FifoReader.receiveRaw_some (receiveRaw_some h))).1
  raw_fails := fun h => (TcpReader.receiveRawFrom_spec (FifoReader.receiveRaw_some (receiveRaw_some h))).2.2.2.1
  raw_pending := fun h => (TcpReader.receiveRawFrom_spec (FifoReader.receiveRaw_some (receiveRaw_some h))).2.1
  raw_status := by
    intro n w st b w' h hn
    exact FifoReader.receiveRawFrom_reliable w.1.2 hn (FifoReader.receiveRaw_some (receiveRaw_some h))
  raw_returns := by
    intro n w hn hne h
    rw [receiveRaw] at h
    split at h
    · rename_i hnone
      exact Socket.FifoReceiver.raw_returns hn hne hnone
    · cases h
  raw_blocking := by
    intro n w b w' h
    exact receiveRawFrom_blocking w.2 _ (FifoReader.receiveRaw_some (receiveRaw_some h))

end BlockingReader

/-! ## Sending -/

inductive SendResult where
  /-- At most `k` bytes taken. -/
  | accepted (k : Nat)
  | ewouldblock
  | eintr
  | failed
  | waits
  deriving DecidableEq, Repr

structure TcpWriter where
  isBlocking : Bool
  wire : Bytes
  schedule : List SendResult
  deriving DecidableEq, Repr

namespace TcpWriter

def sendRawFrom (isBlocking : Bool) (data : Bytes) :
    List SendResult → Nat → Bytes → Option (Status × Nat) × TcpWriter
  | [], sent, wire => (some (.success, max sent data.length), ⟨isBlocking, wire ++ data.drop sent, []⟩)
  | r :: rest, sent, wire =>
    if data.length ≤ sent then (some (.success, sent), ⟨isBlocking, wire, r :: rest⟩)
    else
      match r with
      | .accepted k =>
        let n := min k (data.length - sent)
        sendRawFrom isBlocking data rest (sent + n) (wire ++ (data.drop sent).take n)
      | .ewouldblock => (some (if isBlocking then .timeout else .wouldBlock, sent), ⟨isBlocking, wire, rest⟩)
      | .eintr => sendRawFrom isBlocking data rest sent wire
      | .failed => (some (.sendError, sent), ⟨isBlocking, wire, rest⟩)
      | .waits => (none, ⟨isBlocking, wire, rest⟩)

def sendRaw (data : Bytes) (sent : Nat) (w : TcpWriter) : Option (Status × Nat) × TcpWriter :=
  sendRawFrom w.isBlocking data w.schedule sent w.wire

/-- A part of the buffer from `sent` on is on the wire, all of it after Success. -/
def Put (data : Bytes) (sent : Nat) (wire : Bytes) (r : Option (Status × Nat)) (w' : TcpWriter) : Prop :=
  ∃ k, sent ≤ k ∧ k ≤ data.length ∧ w'.wire = wire ++ (data.take k).drop sent ∧
    ∀ st sent', r = some (st, sent') → sent' = k ∧ (st = .success → k = data.length)

/-- A call that ends with nothing more on the wire. -/
theorem Put.stopped {data : Bytes} {sent : Nat} {wire : Bytes} {r : Option (Status × Nat)} {w' : TcpWriter}
    (hle : sent ≤ data.length) (hw : w'.wire = wire)
    (hr : ∀ st sent', r = some (st, sent') → sent' = sent ∧ (st = .success → data.length ≤ sent)) :
    Put data sent wire r w' := by
  refine ⟨sent, Nat.le_refl _, hle, by simp [hw], fun st sent' he => ?_⟩
  exact ⟨(hr st sent' he).1, fun hs => Nat.le_antisymm hle ((hr st sent' he).2 hs)⟩

theorem Put.later {data : Bytes} {sent n : Nat} {wire : Bytes} {w' : TcpWriter} {r : Option (Status × Nat)}
    (hn : sent + n ≤ data.length) (h : Put data (sent + n) (wire ++ (data.drop sent).take n) r w') :
    Put data sent wire r w' := by
  obtain ⟨k, hk, hkd, hwire, hst⟩ := h
  have hpart : (data.drop sent).take n = (data.take (sent + n)).drop sent := by
    rw [List.drop_take, Nat.add_sub_cancel_left]
  refine ⟨k, by omega, hkd, ?_, hst⟩
  rw [hwire, hpart, List.append_assoc, Socket.slice_join (by omega) hk hn]

theorem sendRawFrom_put (isBlocking : Bool) (data : Bytes) (s : List SendResult) {sent : Nat} (wire : Bytes)
    (hle : sent ≤ data.length) :
    Put data sent wire (sendRawFrom isBlocking data s sent wire).1 (sendRawFrom isBlocking data s sent wire).2 := by
  induction s generalizing sent wire with
  | nil =>
    refine ⟨data.length, hle, Nat.le_refl _, by simp [sendRawFrom], fun st sent' he => ?_⟩
    cases he
    exact ⟨Nat.max_eq_right hle, fun _ => rfl⟩
  | cons r rest ih =>
    rw [sendRawFrom.eq_def]
    simp only
    by_cases hdone : data.length ≤ sent
    · rw [if_pos hdone]
      refine Put.stopped hle rfl fun st sent' he => ?_
      cases he
      exact ⟨rfl, fun _ => hdone⟩
    · rw [if_neg hdone]
      cases r with
      | accepted k => exact Put.later (by omega) (ih _ (by omega))
      | ewouldblock =>
        refine Put.stopped hle rfl fun st sent' he => ?_
        cases he
        exact ⟨rfl, by cases isBlocking <;> simp⟩
      | eintr => exact ih wire hle
      | failed =>
        refine Put.stopped hle rfl fun st sent' he => ?_
        cases he
        exact ⟨rfl, by simp⟩
      | waits =>
        refine Put.stopped hle rfl fun st sent' he => ?_
        cases he

/-- A call takes a first part of the schedule, and at least one entry to block. -/
theorem sendRawFrom_schedule (isBlocking : Bool) (data : Bytes) (s : List SendResult) (sent : Nat) (wire : Bytes) :
    (sendRawFrom isBlocking data s sent wire).2.isBlocking = isBlocking ∧
      (sendRawFrom isBlocking data s sent wire).2.schedule <:+ s ∧
      ∀ sent', (sendRawFrom isBlocking data s sent wire).1 = some (.wouldBlock, sent') →
        (sendRawFrom isBlocking data s sent wire).2.schedule.length < s.length := by
  induction s generalizing sent wire with
  | nil => exact ⟨rfl, List.suffix_rfl, fun _ he => by cases he⟩
  | cons r rest ih =>
    rw [sendRawFrom.eq_def]
    simp only
    split
    · exact ⟨rfl, List.suffix_rfl, fun _ he => by cases he⟩
    · have hsuf : rest <:+ r :: rest := List.suffix_cons _ _
      have hagain := fun sent' wire' =>
        (⟨(ih sent' wire').1, (ih sent' wire').2.1.trans hsuf, fun _ he => Nat.lt_succ_of_lt ((ih sent' wire').2.2 _ he)⟩ :
          _ ∧ _ <:+ r :: rest ∧ ∀ x, _ = some (Status.wouldBlock, x) → _ < rest.length + 1)
      cases r with
      | accepted k => exact hagain _ _
      | eintr => exact hagain _ _
      | _ => exact ⟨rfl, hsuf, fun _ _ => Nat.lt_succ_self _⟩

theorem sendRaw_put {data : Bytes} {sent : Nat} {w w' : TcpWriter} {r : Option (Status × Nat)}
    (h : sendRaw data sent w = (r, w')) (hle : sent ≤ data.length) : Put data sent w.wire r w' := by
  have hspec := sendRawFrom_put w.isBlocking data w.schedule w.wire hle
  rw [show sendRawFrom w.isBlocking data w.schedule sent w.wire = _ from h] at hspec
  exact hspec

theorem sendRaw_left {data : Bytes} {sent sent' : Nat} {w w' : TcpWriter}
    (h : sendRaw data sent w = (some (.wouldBlock, sent'), w')) : w'.schedule.length < w.schedule.length := by
  have hspec := (sendRawFrom_schedule w.isBlocking data w.schedule sent w.wire).2.2 sent'
  rw [show sendRawFrom w.isBlocking data w.schedule sent w.wire = _ from h] at hspec
  exact hspec rfl

instance : Socket.Sender TcpWriter where
  sendRaw := sendRaw
  out := wire
  left := fun w => w.schedule.length
  raw_left := sendRaw_left
  raw_out := sendRaw_put

end TcpWriter

/-! ## A reliable connection's sending end -/

def SendResult.reliable (isBlocking : Bool) : SendResult → Bool
  | .accepted _ => true
  | .eintr => true
  | .waits => true
  | .ewouldblock => !isBlocking
  | .failed => false

abbrev FifoWriter := { w : TcpWriter // ∀ r ∈ w.schedule, r.reliable w.isBlocking = true }

namespace FifoWriter

theorem sendRaw_reliable (data : Bytes) (sent : Nat) (w : FifoWriter) :
    ∀ r ∈ (w.1.sendRaw data sent).2.schedule, r.reliable (w.1.sendRaw data sent).2.isBlocking = true := by
  obtain ⟨hb, hs, _⟩ := TcpWriter.sendRawFrom_schedule w.1.isBlocking data w.1.schedule sent w.1.wire
  intro r hr
  rw [TcpWriter.sendRaw, hb]
  exact w.2 r (hs.subset hr)

def sendRaw (data : Bytes) (sent : Nat) (w : FifoWriter) : Option (Status × Nat) × FifoWriter :=
  ((w.1.sendRaw data sent).1, ⟨(w.1.sendRaw data sent).2, sendRaw_reliable data sent w⟩)

theorem sendRaw_eq {data : Bytes} {sent : Nat} {w w' : FifoWriter} {r : Option (Status × Nat)}
    (h : sendRaw data sent w = (r, w')) : w.1.sendRaw data sent = (r, w'.1) := by
  cases h
  rfl

theorem sendRawFrom_status {isBlocking : Bool} {data : Bytes} {s : List SendResult}
    (hs : ∀ r ∈ s, r.reliable isBlocking = true) (sent : Nat) (wire : Bytes) :
    ∀ st sent', (TcpWriter.sendRawFrom isBlocking data s sent wire).1 = some (st, sent') →
      st = .success ∨ st = .wouldBlock := by
  induction s generalizing sent wire with
  | nil =>
    intro st sent' he
    cases he
    exact .inl rfl
  | cons r rest ih =>
    have hr := hs r List.mem_cons_self
    have ih := ih fun r hr => hs r (List.mem_cons_of_mem _ hr)
    rw [TcpWriter.sendRawFrom.eq_def]
    simp only
    split
    · intro st sent' he
      cases he
      exact .inl rfl
    · cases r with
      | accepted k => exact ih _ _
      | eintr => exact ih _ _
      | ewouldblock =>
        simp only [SendResult.reliable, Bool.not_eq_true'] at hr
        intro st sent' he
        rw [hr] at he
        cases he
        exact .inr rfl
      | failed => simp [SendResult.reliable] at hr
      | waits =>
        intro st sent' he
        cases he

instance : Socket.FifoSender FifoWriter where
  sendRaw := sendRaw
  out := fun w => w.1.wire
  left := fun w => w.1.schedule.length
  raw_left := fun h => TcpWriter.sendRaw_left (sendRaw_eq h)
  raw_out := fun h hle => TcpWriter.sendRaw_put (sendRaw_eq h) hle
  raw_status := by
    intro data sent w st sent' w' h
    exact sendRawFrom_status w.2 sent w.1.wire st sent' (congrArg Prod.fst (sendRaw_eq h))

end FifoWriter

end Frnetlib
