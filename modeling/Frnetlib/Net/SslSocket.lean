/-
  Frnetlib.Net.SslSocket — `fr::SSLSocket::send_raw` (`SSLSocket.cpp`) over the results of
  `mbedtls_ssl_write`.

  The sending end is what `mbedtls_ssl_write` accepted so far and the schedule of its next
  calls, after which all is accepted. `send_raw` starts from the first byte whatever
  `sent` was. So a message whose callers carry `sent` from call to call is on the wire
  exactly once only if no call that wanted to be made again had been given a part of it:
  `torn` says on the schedule whether one is, and Success means the message, behind the
  parts that were sent in vain (`sendLoop_ssl`). A `Sender`, as `TcpSocket` is, has no
  such parts (`sendLoop_out`).
-/

import Frnetlib.Http.Receive
import Frnetlib.Net.TcpSocket
import Frnetlib.Packet.Framing
import Frnetlib.WebSocket.WebFrame

namespace Frnetlib

open Base Socket

inductive WriteResult where
  /-- `k + 1` bytes, or all that is offered. -/
  | accepted (k : Nat)
  | wantRead
  | wantWrite
  | failed
  | waits
  deriving DecidableEq, Repr

structure SslWriter where
  isBlocking : Bool
  wire : Bytes
  schedule : List WriteResult
  deriving DecidableEq, Repr

namespace SslWriter

/-- The loop of `send_raw`, with `sent` bytes of this call accepted. -/
def sendRawFrom (isBlocking : Bool) (data : Bytes) :
    List WriteResult → Nat → Bytes → Option (Status × Nat) × SslWriter
  | [], sent, wire => (some (.success, max sent data.length), ⟨isBlocking, wire ++ data.drop sent, []⟩)
  | r :: rest, sent, wire =>
    if data.length ≤ sent then (some (.success, sent), ⟨isBlocking, wire, r :: rest⟩)
    else
      match r with
      | .accepted k =>
        let status := min (k + 1) (data.length - sent)
        sendRawFrom isBlocking data rest (sent + status) (wire ++ (data.drop sent).take status)
      | .wantRead => (some (if isBlocking then .timeout else .wouldBlock, sent), ⟨isBlocking, wire, rest⟩)
      | .wantWrite => (some (if isBlocking then .timeout else .wouldBlock, sent), ⟨isBlocking, wire, rest⟩)
      | .failed => (some (.sslError, sent), ⟨isBlocking, wire, rest⟩)
      | .waits => (none, ⟨isBlocking, wire, rest⟩)

/-- `sent = 0;` comes first. -/
def sendRaw (data : Bytes) (_sent : Nat) (w : SslWriter) : Option (Status × Nat) × SslWriter :=
  sendRawFrom w.isBlocking data w.schedule 0 w.wire

/-- Along the results, with `sent` bytes of the message accepted by the call: one of the
    calls ends with MBEDTLS_ERR_SSL_WANT_READ or MBEDTLS_ERR_SSL_WANT_WRITE after a part
    of the message. -/
def torn (size : Nat) : Nat → List WriteResult → Bool
  | _, [] => false
  | sent, r :: rest =>
    if size ≤ sent then false
    else
      match r with
      | .accepted k => torn size (sent + min (k + 1) (size - sent)) rest
      | .wantRead => decide (sent ≠ 0) || torn size 0 rest
      | .wantWrite => decide (sent ≠ 0) || torn size 0 rest
      | .failed => false
      | .waits => false

theorem torn_done {size sent : Nat} (h : size ≤ sent) (s : List WriteResult) : torn size sent s = false := by
  cases s with
  | nil => rfl
  | cons r rest => rw [torn.eq_def]; exact if_pos h

theorem slice_take {data : Bytes} {sent n k : Nat} (hk : sent + n ≤ k) (hkd : k ≤ data.length) :
    (data.drop sent).take n ++ (data.take k).drop (sent + n) = (data.take k).drop sent := by
  have hpart : (data.drop sent).take n = (data.take (sent + n)).drop sent := by
    rw [List.drop_take, Nat.add_sub_cancel_left]
  rw [hpart, slice_join (Nat.le_add_right _ _) hk (by omega)]

/-- What one call puts on the wire when it succeeds, and when it would block. -/
theorem sendRawFrom_spec {isBlocking : Bool} {data : Bytes} {s : List WriteResult} {sent k : Nat} {wire : Bytes}
    {st : Status} {w' : SslWriter} (hle : sent ≤ data.length)
    (h : sendRawFrom isBlocking data s sent wire = (some (st, k), w')) (hst : st = .success ∨ st = .wouldBlock) :
    sent ≤ k ∧ k ≤ data.length ∧ w'.wire = wire ++ (data.take k).drop sent ∧ w'.isBlocking = isBlocking ∧
      (st = .success → k = data.length ∧ torn data.length sent s = false) ∧
      (st = .wouldBlock → k < data.length ∧ w'.schedule.length < s.length ∧
        torn data.length sent s = (decide (k ≠ 0) || torn data.length 0 w'.schedule)) := by
  induction s generalizing sent wire with
  | nil =>
    cases h
    rw [Nat.max_eq_right hle, List.take_length]
    exact ⟨hle, Nat.le_refl _, rfl, rfl, fun _ => ⟨rfl, rfl⟩, fun h => Status.noConfusion h⟩
  | cons r rest ih =>
    rw [sendRawFrom.eq_def] at h
    simp only at h
    by_cases hdone : data.length ≤ sent
    · rw [if_pos hdone] at h
      cases h
      exact ⟨Nat.le_refl _, hle, by simp, rfl, fun _ => ⟨Nat.le_antisymm hle hdone, torn_done hdone _⟩,
        fun h => Status.noConfusion h⟩
    · rw [if_neg hdone] at h
      -- The call ends, and is to be made again on a non-blocking socket.
      have hwant : (some (if isBlocking then Status.timeout else .wouldBlock, sent),
            (⟨isBlocking, wire, rest⟩ : SslWriter)) = (some (st, k), w') →
          torn data.length sent (r :: rest) = (decide (sent ≠ 0) || torn data.length 0 rest) →
          sent ≤ k ∧ k ≤ data.length ∧ w'.wire = wire ++ (data.take k).drop sent ∧ w'.isBlocking = isBlocking ∧
            (st = .success → k = data.length ∧ torn data.length sent (r :: rest) = false) ∧
            (st = .wouldBlock → k < data.length ∧ w'.schedule.length < (r :: rest).length ∧
              torn data.length sent (r :: rest) = (decide (k ≠ 0) || torn data.length 0 w'.schedule)) := by
        intro he htorn
        cases he
        refine ⟨Nat.le_refl _, hle, by simp, rfl, fun hs => ?_, fun _ => ⟨by omega, Nat.lt_succ_self _, htorn⟩⟩
        cases isBlocking <;> cases hs
      cases r with
      | accepted k' =>
        obtain ⟨hk, hkd, hwire, hb, hsuccess, hblock⟩ := ih (by omega) h
        have htorn : torn data.length sent (.accepted k' :: rest) =
            torn data.length (sent + min (k' + 1) (data.length - sent)) rest := by rw [torn, if_neg hdone]
        rw [htorn]
        refine ⟨by omega, hkd, ?_, hb, hsuccess, fun hs => ?_⟩
        · rw [hwire, List.append_assoc, slice_take hk hkd]
        · obtain ⟨hlt, hsched, heq⟩ := hblock hs
          exact ⟨hlt, Nat.lt_succ_of_lt hsched, heq⟩
      | wantRead => exact hwant h (by rw [torn, if_neg hdone])
      | wantWrite => exact hwant h (by rw [torn, if_neg hdone])
      | failed =>
        cases h
        rcases hst with hst | hst <;> cases hst
      | waits => cases h

instance : RawSender SslWriter where
  sendRaw := sendRaw
  out := wire
  left := fun w => w.schedule.length
  raw_left := by
    intro data sent w sent' w' h
    obtain ⟨_, _, _, _, _, hblock⟩ := sendRawFrom_spec (Nat.zero_le _) h (.inr rfl)
    exact (hblock rfl).2.1

/-- A message whose send succeeds: what was sent of it in vain, and then all of it. -/
theorem sendLoop_ssl {data : Bytes} {sent : Nat} {w w' : SslWriter}
    (h : sendLoop data sent w = (some .success, w')) :
    ∃ vain, w'.wire = w.wire ++ (vain ++ data) ∧ (vain = [] ↔ torn data.length 0 w.schedule = false) := by
  generalize hm : w.schedule.length = m
  induction m using Nat.strongRecOn generalizing sent w with
  | ind m ih =>
    rcases hraw : RawSender.sendRaw data sent w with ⟨_ | ⟨st, k⟩, w₁⟩
    · rw [sendLoop] at h
      split at h
      · cases h
      · rename_i heq
        rw [hraw] at heq
        cases heq
    · by_cases hst : st = .wouldBlock
      · subst hst
        rw [sendLoop_again hraw] at h
        obtain ⟨_, _, hwire, _, _, hblock⟩ := sendRawFrom_spec (Nat.zero_le _) hraw (.inr rfl)
        obtain ⟨hk, hsched, htorn⟩ := hblock rfl
        obtain ⟨vain, hwire', hvain⟩ := ih w₁.schedule.length (hm ▸ hsched) h rfl
        refine ⟨data.take k ++ vain, ?_, ?_⟩
        · rw [hwire', hwire, List.drop_zero, List.append_assoc, List.append_assoc]
        · have hpart : data.take k = [] ↔ k = 0 := by
            rw [List.take_eq_nil_iff]
            constructor
            · intro hnil
              rcases hnil with hnil | hnil
              · exact hnil
              · rw [hnil] at hk
                exact absurd hk (Nat.not_lt_zero _)
            · exact Or.inl
          rw [htorn, List.append_eq_nil_iff, hpart, hvain]
          simp
      · rw [sendLoop_done hraw hst] at h
        cases h
        obtain ⟨_, _, hwire, _, hsuccess, _⟩ := sendRawFrom_spec (Nat.zero_le _) hraw (.inl rfl)
        obtain ⟨hk, htorn⟩ := hsuccess rfl
        rw [hk, List.take_length, List.drop_zero] at hwire
        exact ⟨[], hwire, fun _ => htorn, fun _ => rfl⟩

theorem sendLoop_once {data : Bytes} {w : SslWriter} (h : (sendLoop data 0 w).1 = some .success) :
    (sendLoop data 0 w).2.wire = w.wire ++ data ↔ torn data.length 0 w.schedule = false := by
  have hloop : sendLoop data 0 w = (some .success, (sendLoop data 0 w).2) := Prod.ext h rfl
  obtain ⟨vain, hwire, hvain⟩ := sendLoop_ssl hloop
  rw [hwire, List.append_cancel_left_eq, ← hvain]
  constructor
  · intro heq
    have hlen := congrArg List.length heq
    rw [List.length_append] at hlen
    exact List.eq_nil_of_length_eq_zero (by omega)
  · intro heq
    subst heq
    rfl

end SslWriter

/-- A socket that goes on from `sent`: after Success the message is on the wire once. -/
theorem Socket.sendLoop_out {τ : Type} [Sender τ] {data : Bytes} {sent : Nat} {w : τ} (hle : sent ≤ data.length)
    (h : (sendLoop data sent w).1 = some .success) :
    Sender.out (sendLoop data sent w).2 = Sender.out w ++ data.drop sent := by
  obtain ⟨k, -, -, hout, hdone⟩ := sendLoop_part data w hle
  rw [hout, hdone h, List.take_length]

/-- A packet, a frame, a request or a response sent through an `SSLSocket` in either mode:
    after Success its bytes have been accepted exactly once if and only if no call of
    `mbedtls_ssl_write` wanted to be made again after a part of them. Through a
    `TcpSocket` they always have. -/
theorem ssl_send (w : SslWriter) (v : TcpWriter) (p : Packet) (frame : WebFrame) (key : UInt32) (o : Order)
    (request : HttpRequest) (response : HttpResponse) (host : Bytes) :
    ((p.send w).1 = some .success →
      ((p.send w).2.2.wire = w.wire ++ p.stampHeader.buffer ↔
        SslWriter.torn p.stampHeader.buffer.length 0 w.schedule = false)) ∧
    ((frame.send key w).1 = some .success →
      ((frame.send key w).2.2.2.wire = w.wire ++ frame.text (frame.nextKey key) ↔
        SslWriter.torn (frame.text (frame.nextKey key)).length 0 w.schedule = false)) ∧
    ((Http.send (request.construct o) host w).1 = some .success →
      ((Http.send (request.construct o) host w).2.wire = w.wire ++ request.construct o host ↔
        SslWriter.torn (request.construct o host).length 0 w.schedule = false)) ∧
    ((Http.send (response.construct o) host w).1 = some .success →
      ((Http.send (response.construct o) host w).2.wire = w.wire ++ response.construct o host ↔
        SslWriter.torn (response.construct o host).length 0 w.schedule = false)) ∧
    ((p.send v).1 = some .success → (p.send v).2.2.wire = v.wire ++ p.stampHeader.buffer) ∧
    ((frame.send key v).1 = some .success → (frame.send key v).2.2.2.wire = v.wire ++ frame.text (frame.nextKey key)) ∧
    ((Http.send (request.construct o) host v).1 = some .success →
      (Http.send (request.construct o) host v).2.wire = v.wire ++ request.construct o host) ∧
    ((Http.send (response.construct o) host v).1 = some .success →
      (Http.send (response.construct o) host v).2.wire = v.wire ++ response.construct o host) := by
  have htcp : ∀ {data : Bytes}, (sendLoop data 0 v).1 = some .success → (sendLoop data 0 v).2.wire = v.wire ++ data :=
    fun h => sendLoop_out (Nat.zero_le _) h
  exact ⟨SslWriter.sendLoop_once, SslWriter.sendLoop_once, SslWriter.sendLoop_once, SslWriter.sendLoop_once, htcp, htcp,
    htcp, htcp⟩

def tornPacket : Packet := Packet.fresh.pack .u16 258

/-- A call that wants to be made again before anything of the packet is accepted, and one
    that takes it in two parts. -/
def calmWriter : SslWriter := ⟨false, [9], [.wantRead, .accepted 2, .accepted 2]⟩

/-- A call that takes three bytes, then one that wants to be made again. -/
def tornWriter : SslWriter := ⟨false, [9], [.accepted 2, .wantWrite]⟩

theorem calmWriter_sends : (tornPacket.send calmWriter).1 = some .success := by
  have hagain : RawSender.sendRaw tornPacket.stampHeader.buffer 0 calmWriter =
    (some (.wouldBlock, 0), ⟨false, [9], [.accepted 2, .accepted 2]⟩) := rfl
  have hdone : RawSender.sendRaw tornPacket.stampHeader.buffer 0 (⟨false, [9], [.accepted 2, .accepted 2]⟩ : SslWriter) =
    (some (.success, 6), ⟨false, [9, 0, 0, 0, 2, 1, 2], []⟩) := rfl
  exact congrArg Prod.fst ((sendLoop_again hagain).trans (sendLoop_done hdone (by decide)))

theorem ssl_send_sample : (tornPacket.send calmWriter).2.2.wire = [9] ++ [0, 0, 0, 2, 1, 2] :=
  ((ssl_send calmWriter ⟨false, [], []⟩ tornPacket (.new true .text) 0 .kept .fresh .fresh []).1 calmWriter_sends).mpr
    (by decide)

/-- The first three bytes are on the wire twice. -/
theorem ssl_send_torn : tornPacket.stampHeader.buffer = [0, 0, 0, 2, 1, 2] ∧
    (tornPacket.send tornWriter).1 = some .success ∧
    (tornPacket.send tornWriter).2.2.wire = [9] ++ [0, 0, 0] ++ [0, 0, 0, 2, 1, 2] := by
  have hagain : RawSender.sendRaw tornPacket.stampHeader.buffer 0 tornWriter =
    (some (.wouldBlock, 3), ⟨false, [9, 0, 0, 0], []⟩) := rfl
  have hdone : RawSender.sendRaw tornPacket.stampHeader.buffer 3 (⟨false, [9, 0, 0, 0], []⟩ : SslWriter) =
    (some (.success, 6), ⟨false, [9, 0, 0, 0, 0, 0, 0, 2, 1, 2], []⟩) := rfl
  have hsend := (sendLoop_again hagain).trans (sendLoop_done hdone (by decide))
  exact ⟨by decide, congrArg Prod.fst hsend, congrArg (fun r => SslWriter.wire r.2) hsend⟩

end Frnetlib
