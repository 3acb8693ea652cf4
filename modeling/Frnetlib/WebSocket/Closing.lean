/-
  Frnetlib.WebSocket.Closing — what the other end sees of `WebSocket::disconnect`.

  An end of a connection sends frames and receives them, in any order (`history`). What
  it puts on the wire are the texts of the frames it sent, and it receives as by calls in
  a row. `disconnect` sends a `ClientWebFrame` whichever end it is called on. So a server
  that has received all the frames of a client gets the Disconnect frame next, and a
  client gets an error: a masked frame is none from a server (`close_understood`).
-/

import Frnetlib.WebSocket.FrameStream
import Frnetlib.WebSocket.Untrusted
import Frnetlib.WebSocket.WebSocket

namespace Frnetlib

open Base Socket

namespace WebFrame

variable {σ : Type} [FifoReceiver σ]

/-- Receives that gave all the frames of a stream, and otherwise would have blocked, took
    the frames' texts and nothing of what is behind them. -/
theorem calls_took {maxReceiveSize : Nat} {g : WebFrame} (n : Nat) (kfs : List (UInt32 × WebFrame)) {rest : Bytes}
    (hkfs : ∀ kf ∈ kfs, kf.2.Sendable (!g.isClient) maxReceiveSize) (w : σ)
    (hw : Receiver.pending w = kfs.flatMap (fun kf => kf.2.text kf.1) ++ rest)
    (hstatus : ∀ r ∈ (calls (receive maxReceiveSize g) n w).1, r.1 = .success ∨ r.1 = .wouldBlock)
    (hlen : (received (calls (receive maxReceiveSize g) n w).1).length = kfs.length) :
    Receiver.pending (calls (receive maxReceiveSize g) n w).2 = rest := by
  induction n generalizing kfs w with
  | zero =>
    obtain rfl : kfs = [] := List.eq_nil_of_length_eq_zero hlen.symm
    exact hw
  | succ n ih =>
    rcases hcall : receive maxReceiveSize g w with _ | ⟨st, frame, w'⟩
    · rw [calls_none hcall] at hlen ⊢
      obtain rfl : kfs = [] := List.eq_nil_of_length_eq_zero hlen.symm
      exact hw
    · obtain ⟨t, ht, _, hpaused⟩ := receive_takes maxReceiveSize g w st frame w' hcall
      rw [calls_succ hcall] at hlen hstatus ⊢
      have hrest := fun r hr => hstatus r (List.mem_cons_of_mem _ hr)
      rcases hstatus _ List.mem_cons_self with hst | hst
      · subst hst
        rw [received, List.filterMap_cons, if_pos rfl] at hlen
        cases kfs with
        | nil => cases hlen
        | cons kf kfs =>
          rw [List.flatMap_cons, List.append_assoc] at hw
          have htook : Receiver.pending w' = kfs.flatMap (fun kf => kf.2.text kf.1) ++ rest := by
            obtain ⟨b, w₁, hblock, _⟩ | ⟨b, w₁, hsuccess, _, hp, _⟩ :=
              (receive_delivers maxReceiveSize g).whole (hkfs kf List.mem_cons_self) hw
            · rw [hcall] at hblock
              cases hblock
            · rw [hcall] at hsuccess
              cases hsuccess
              exact hp
          exact ih kfs (fun x hx => hkfs x (List.mem_cons_of_mem _ hx)) w' htook hrest (Nat.succ.inj hlen)
      · have hst' : st = .wouldBlock := hst
        subst hst'
        rw [hpaused (.inl rfl), List.nil_append] at ht
        rw [received, List.filterMap_cons, if_neg (by simp)] at hlen
        exact ih kfs hkfs w' (ht ▸ hw) hrest hlen

/-- A frame of the receiver's own class: its first two bytes are enough to refuse it. -/
theorem receive_refuses {maxReceiveSize : Nat} {g frame : WebFrame} (hop : frame.opcode.named = true)
    (hclass : frame.isClient = g.isClient) {key : UInt32} {w : σ} (hw : Receiver.pending w = frame.text key) :
    Retried (receive maxReceiveSize g w) w ∨ ∃ g' w', receive maxReceiveSize g w = some (.error, g', w') := by
  have htext : Receiver.pending w = be 2 frame.first2Bytes ++ (lengthBytes frame.payload.length ++
      ((if frame.isClient then maskBytes key else []) ++ frame.masked key)) := by
    rw [hw, text, List.append_assoc, List.append_assoc]
  unfold receive
  rcases receiveAll_fifo 2 w with ⟨w', hw', _⟩ | ⟨w', hw', hp, hl⟩ | ⟨_, hlt⟩
  · rw [andThen_header (be_length _ _) htext hw']
    have hofBe : ofBe (be 2 frame.first2Bytes) = frame.first2Bytes := ofBe_be (first2Bytes_lt hop)
    simp only [hofBe, first2Bytes_mask hop, bool_toNat_ne_zero, hclass, if_true]
    exact .inr ⟨_, _, rfl⟩
  · left
    refine ⟨{ g with payload := [] }, w', ?_, hp, hl⟩
    rw [andThen, hw']
    rfl
  · rw [htext, List.length_append, be_length] at hlt
    omega

end WebFrame

namespace WebSocket

variable {σ τ : Type} [Receiver σ] [Sender τ]

/-! ## An end of a connection -/

/-- `Socket::receive` of a frame. -/
def receiveFrame (s : WebSocket σ τ) (maxReceiveSize : Nat) (frame : WebFrame) :
    Option (Status × WebFrame × WebSocket σ τ) :=
  (frame.receive maxReceiveSize s.rx).map fun r => (r.1, r.2.1, { s with rx := r.2.2 })

inductive Event where
  /-- A frame is sent, when the process's other sockets have left the counter there. -/
  | sends (key : UInt32) (frame : WebFrame)
  | receives
  deriving DecidableEq

/-- An event at a client or at a server: what is received, and the socket after it. -/
def act (isClient : Bool) (maxReceiveSize : Nat) : Event → WebSocket σ τ →
    Option (List (Status × WebFrame) × WebSocket σ τ)
  | .sends key frame, s =>
    let r := ({ s with currentMaskKey := key } : WebSocket σ τ).sendFrame frame
    r.1.map fun _ => ([], r.2)
  | .receives, s => (s.receiveFrame maxReceiveSize (.new isClient .text)).map fun r => ([(r.1, r.2.1)], r.2.2)

/-- Events one after the other, all of which have come to an end. -/
def history (isClient : Bool) (maxReceiveSize : Nat) : List Event → WebSocket σ τ →
    Option (List (Status × WebFrame) × WebSocket σ τ)
  | [], s => some ([], s)
  | e :: es, s =>
    match act isClient maxReceiveSize e s with
    | none => none
    | some (rs, s) => (history isClient maxReceiveSize es s).map fun r => (rs ++ r.1, r.2)

/-- The frames sent, each with the counter it is sent with. -/
def Event.sent : Event → Option (UInt32 × WebFrame)
  | .sends key frame => some (frame.nextKey key, frame)
  | .receives => none

/-- `disconnect` sends this frame, on either side. -/
def disconnectFrame : WebFrame := { WebFrame.new true .text with opcode := .disconnect }

/-- What an end receives, it receives as by calls in a row. -/
theorem history_calls {isClient : Bool} {maxReceiveSize : Nat} {es : List Event} {s s' : WebSocket σ τ}
    {rs : List (Status × WebFrame)} (h : history isClient maxReceiveSize es s = some (rs, s')) :
    ∃ n, rs = (calls (WebFrame.receive maxReceiveSize (.new isClient .text)) n s.rx).1 ∧
      s'.rx = (calls (WebFrame.receive maxReceiveSize (.new isClient .text)) n s.rx).2 := by
  induction es generalizing s rs with
  | nil =>
    cases h
    exact ⟨0, rfl, rfl⟩
  | cons e es ih =>
    rw [history] at h
    rcases hact : act isClient maxReceiveSize e s with _ | ⟨rs₁, s₁⟩
    · rw [hact] at h
      cases h
    · rw [hact] at h
      obtain ⟨⟨rs₂, s₂⟩, hes, heq⟩ := Option.map_eq_some_iff.mp h
      cases heq
      obtain ⟨n, hrs, hrx⟩ := ih hes
      cases e with
      | sends key frame =>
        obtain ⟨st, _, heq⟩ := Option.map_eq_some_iff.mp hact
        have hrx₁ : s₁.rx = s.rx := by
          cases heq
          unfold sendFrame
          split <;> rfl
        cases heq
        rw [hrx₁] at hrs hrx
        exact ⟨n, hrs, hrx⟩
      | receives =>
        obtain ⟨r, hr, heq⟩ := Option.map_eq_some_iff.mp hact
        obtain ⟨⟨st, frame, rx⟩, hcall, hr⟩ := Option.map_eq_some_iff.mp hr
        cases hr
        cases heq
        refine ⟨n + 1, ?_, ?_⟩
        · rw [calls_succ hcall, hrs]
          rfl
        · rw [calls_succ hcall, hrx]

end WebSocket

namespace WebSocket

variable {σ τ : Type} [FifoSender τ]

theorem sendFrame_fifo {s : WebSocket σ τ} (hconn : s.connected = true) {frame : WebFrame} {st : Status}
    (h : (s.sendFrame frame).1 = some st) :
    (s.sendFrame frame).2.connected = true ∧
      Sender.out (s.sendFrame frame).2.tx = Sender.out s.tx ++ frame.text (frame.nextKey s.currentMaskKey) := by
  rw [sendFrame, if_pos hconn] at h ⊢
  obtain ⟨k, _, _, hout, hnone | ⟨_, hk⟩⟩ :=
    sendLoop_fifo (frame.text (frame.nextKey s.currentMaskKey)) s.tx (Nat.zero_le _)
  · have hnone' : (frame.send s.currentMaskKey s.tx).1 = none := hnone
    rw [hnone'] at h
    cases h
  · rw [hk, List.take_length, List.drop_zero] at hout
    exact ⟨hconn, hout⟩

theorem disconnect_sends {s : WebSocket σ τ} (hconn : s.connected = true) (h : s.disconnect.1 = .returned ()) :
    Sender.out s.disconnect.2.tx =
      Sender.out s.tx ++ disconnectFrame.text (disconnectFrame.nextKey s.currentMaskKey) := by
  unfold disconnect at h ⊢
  simp only [if_pos hconn] at h ⊢
  rcases hsend : s.sendFrame { WebFrame.new true .text with opcode := .disconnect } with ⟨_ | st, s'⟩
  · rw [hsend] at h
    cases h
  · have hout := (sendFrame_fifo hconn (congrArg Prod.fst hsend)).2
    rw [hsend] at hout
    have hclose : s'.closeSocket.tx = s'.tx := by
      unfold closeSocket
      split <;> rfl
    change Sender.out s'.closeSocket.tx = _
    rw [hclose]
    exact hout

theorem history_out [Receiver σ] {isClient : Bool} {maxReceiveSize : Nat} {es : List Event} {s s' : WebSocket σ τ}
    {rs : List (Status × WebFrame)} (hconn : s.connected = true)
    (h : history isClient maxReceiveSize es s = some (rs, s')) :
    s'.connected = true ∧
      Sender.out s'.tx = Sender.out s.tx ++ (es.filterMap Event.sent).flatMap fun kf => kf.2.text kf.1 := by
  induction es generalizing s rs with
  | nil =>
    cases h
    exact ⟨hconn, (List.append_nil _).symm⟩
  | cons e es ih =>
    rw [history] at h
    rcases hact : act isClient maxReceiveSize e s with _ | ⟨rs₁, s₁⟩
    · rw [hact] at h
      cases h
    · rw [hact] at h
      obtain ⟨⟨rs₂, s₂⟩, hes, heq⟩ := Option.map_eq_some_iff.mp h
      cases heq
      cases e with
      | sends key frame =>
        obtain ⟨st, hst, heq⟩ := Option.map_eq_some_iff.mp hact
        obtain ⟨hconn₁, hout₁⟩ :=
          sendFrame_fifo (s := { s with currentMaskKey := key }) hconn hst
        cases heq
        obtain ⟨hconn', hout⟩ := ih hconn₁ hes
        refine ⟨hconn', ?_⟩
        rw [hout, hout₁, List.filterMap_cons, Event.sent, List.flatMap_cons, List.append_assoc]
      | receives =>
        obtain ⟨r, hr, heq⟩ := Option.map_eq_some_iff.mp hact
        obtain ⟨⟨st, frame, rx⟩, _, hr⟩ := Option.map_eq_some_iff.mp hr
        cases hr
        cases heq
        exact ih (s := { s with rx := rx }) hconn hes

end WebSocket

/-- After any history of frames sent and received, at either end: one of the ends calls
    `disconnect`, and all it has put on the wire arrives at the other, which has received
    the frames that were sent before. The next receive there that has something to read
    gives a frame with opcode Disconnect exactly when the end that closed is the client. -/
theorem close_understood {σ σ' τ τ' : Type} [Receiver σ] [FifoReceiver σ'] [FifoSender τ] [Sender τ']
    (isClient : Bool) (maxReceiveSize maxReceiveSize' : Nat) (closer closer' : WebSocket σ τ)
    (peer peer' : WebSocket σ' τ') (es es' : List WebSocket.Event) (rs rs' : List (Status × WebFrame)) (key : UInt32)
    (hconn : closer.connected = true)
    (hframes : ∀ k frame, .sends k frame ∈ es → frame.Sendable isClient maxReceiveSize')
    (hcloser : WebSocket.history isClient maxReceiveSize es closer = some (rs, closer'))
    (hclosed : ({ closer' with currentMaskKey := key } : WebSocket σ τ).disconnect.1 = .returned ())
    (harrived : Sender.out ({ closer' with currentMaskKey := key } : WebSocket σ τ).disconnect.2.tx =
      Sender.out closer.tx ++ Receiver.pending peer.rx)
    (hpeer : WebSocket.history (!isClient) maxReceiveSize' es' peer = some (rs', peer'))
    (hstatus : ∀ r ∈ rs', r.1 = .success ∨ r.1 = .wouldBlock)
    (hreceived : received rs' = (es.filterMap WebSocket.Event.sent).map fun kf => { kf.2 with isClient := !isClient })
    (g : WebFrame) (hg : g.isClient = !isClient)
    (hnext : ∀ frame peer'', peer'.receiveFrame maxReceiveSize' g ≠ some (.wouldBlock, frame, peer'')) :
    (∃ frame peer'', peer'.receiveFrame maxReceiveSize' g = some (.success, frame, peer'') ∧
      frame.opcode = .disconnect) ↔ isClient = true := by
  obtain ⟨hconn', hout⟩ := WebSocket.history_out hconn hcloser
  have hput := WebSocket.disconnect_sends (s := { closer' with currentMaskKey := key }) hconn' hclosed
  generalize hkey : WebSocket.disconnectFrame.nextKey key = k at hput
  -- what is left at the other end is the frame `disconnect` has sent
  have hpending : Receiver.pending peer.rx =
      (es.filterMap WebSocket.Event.sent).flatMap (fun kf => kf.2.text kf.1) ++ WebSocket.disconnectFrame.text k := by
    rw [hput, hout, List.append_assoc] at harrived
    exact (List.append_cancel_left harrived).symm
  have hgood : ∀ kf ∈ es.filterMap WebSocket.Event.sent,
      kf.2.Sendable (!(WebFrame.new (!isClient) .text).isClient) maxReceiveSize' := by
    intro kf hkf
    obtain ⟨e, he, hsent⟩ := List.mem_filterMap.mp hkf
    cases e with
    | sends k frame =>
      cases hsent
      have hisClient : (!(WebFrame.new (!isClient) .text).isClient) = isClient := by simp [WebFrame.new]
      rw [hisClient]
      exact hframes k frame he
    | receives => cases hsent
  obtain ⟨n, hrs', hrx'⟩ := WebSocket.history_calls hpeer
  have hleft : Receiver.pending peer'.rx = WebSocket.disconnectFrame.text k := by
    rw [hrx']
    refine WebFrame.calls_took n _ hgood peer.rx hpending (hrs' ▸ hstatus) ?_
    rw [← hrs', hreceived, List.length_map]
  -- the next receive
  have hretried : ¬ Retried (g.receive maxReceiveSize' peer'.rx) peer'.rx := by
    intro ⟨frame, rx, hblock, _⟩
    refine hnext frame { peer' with rx := rx } ?_
    rw [WebSocket.receiveFrame, hblock]
    rfl
  cases isClient with
  | true =>
    refine ⟨fun _ => rfl, fun _ => ?_⟩
    have hdisconnect : (k, WebSocket.disconnectFrame).2.Sendable (!g.isClient) maxReceiveSize' := by
      rw [hg]
      exact ⟨rfl, rfl, Nat.two_pow_pos 62, .inr (Nat.zero_le _)⟩
    rw [← List.append_nil (WebSocket.disconnectFrame.text k)] at hleft
    obtain hr | ⟨frame, rx, hsuccess, hframe, _⟩ :=
      (WebFrame.receive_delivers maxReceiveSize' g).whole hdisconnect hleft
    · exact absurd hr hretried
    · refine ⟨frame, { peer' with rx := rx }, ?_, ?_⟩
      · rw [WebSocket.receiveFrame, hsuccess]
        rfl
      · rw [hframe]
        rfl
  | false =>
    refine ⟨?_, fun h => Bool.noConfusion h⟩
    intro ⟨frame, peer'', hsuccess, _⟩
    have hrefused : Retried (g.receive maxReceiveSize' peer'.rx) peer'.rx ∨
        ∃ g' rx, g.receive maxReceiveSize' peer'.rx = some (.error, g', rx) :=
      WebFrame.receive_refuses rfl hg.symm hleft
    rcases hrefused with hr | ⟨g', rx, herror⟩
    · exact absurd hr hretried
    · rw [WebSocket.receiveFrame, herror] at hsuccess
      cases hsuccess

/-! A client that sends a frame and closes, and a server that closes. -/

def closingFrame : WebFrame := ⟨true, bytes "hi", .text, true⟩

def closingTexts : Bytes := [0x81, 0x82, 8, 0, 0, 0, 96, 105, 0x88, 0x80, 10, 0, 0, 0]

/-- With the first `k` bytes taken. -/
def closingReader (k : Nat) : FifoReader := ⟨⟨true, closingTexts.drop k, []⟩, List.forall_mem_nil _⟩

def closingWriter (k : Nat) : FifoWriter := ⟨⟨true, closingTexts.take k, []⟩, List.forall_mem_nil _⟩

def closingEnd (k : Nat) : WebSocket FifoReader FifoWriter := ⟨3, [], 0, closingReader k, closingWriter 0⟩

theorem receiveAll_whole {σ : Type} [Receiver σ] {n : Nat} {w w' : σ} {b : Bytes}
    (h : Receiver.receiveRaw n w = some (.success, b, w')) (hn : n ≠ 0) (hb : b.length = n) :
    receiveAll n w = some (.success, b, w') := by
  rw [receiveAll, receiveAllFrom, dif_neg hn]
  split
  · rename_i hnone
    rw [h] at hnone
    cases hnone
  · rename_i heq
    rw [h] at heq
    cases heq
    simp only [ne_eq, not_true_eq_false, if_false, hb, Nat.sub_self]
    rw [receiveAllFrom, dif_pos rfl]
    simp [prepend]

theorem closingFrame_received : WebFrame.receive 0 (.new false .text) (closingReader 0) =
    some (.success, ⟨false, bytes "hi", .text, true⟩, closingReader 8) := by
  have hheader : receiveAll 2 (closingReader 0) = some (.success, [0x81, 0x82], closingReader 2) :=
    receiveAll_whole rfl (by decide) rfl
  have hmask : receiveRest 4 (closingReader 2) = some (.success, [8, 0, 0, 0], closingReader 6) :=
    receiveRest_done (receiveAll_whole rfl (by decide) rfl)
  have hpayload : receiveRest 2 (closingReader 6) = some (.success, [96, 105], closingReader 8) :=
    receiveRest_done (receiveAll_whole rfl (by decide) rfl)
  have hfirst : ofBe [0x81, 0x82] = 33154 := by decide
  have hmasked : WebFrame.applyMask true [8, 0, 0, 0] (WebFrame.resized 2 [96, 105]) = bytes "hi" := by decide
  rw [WebFrame.receive, andThen, hheader]
  simp only [hfirst, ne_eq, not_true_eq_false, if_false]
  simp [andThen, WebFrame.receiveLength, WebFrame.receiveMask, WebFrame.maxSize, WebFrame.new, hmask, hpayload, hmasked,
    Opcode.ofNat]

theorem closing_received (isClient : Bool) : WebFrame.receive 0 (.new isClient .text) (closingReader 8) =
    if isClient then some (.error, ⟨true, [], .disconnect, true⟩, closingReader 10)
    else some (.success, ⟨false, [], .disconnect, true⟩, closingReader 14) := by
  have hheader : receiveAll 2 (closingReader 8) = some (.success, [0x88, 0x80], closingReader 10) :=
    receiveAll_whole rfl (by decide) rfl
  have hmask : receiveRest 4 (closingReader 10) = some (.success, [10, 0, 0, 0], closingReader 14) :=
    receiveRest_done (receiveAll_whole rfl (by decide) rfl)
  have hpayload : receiveRest 0 (closingReader 14) = some (.success, [], closingReader 14) :=
    receiveRest_done (receiveAll_zero _)
  have hfirst : ofBe [0x88, 0x80] = 34944 := by decide
  rw [WebFrame.receive, andThen, hheader]
  simp only [hfirst, ne_eq, not_true_eq_false, if_false]
  cases isClient
  · simp [andThen, WebFrame.receiveLength, WebFrame.receiveMask, WebFrame.maxSize, WebFrame.new, hmask, hpayload,
      WebFrame.applyMask, WebFrame.resized, WebFrame.maskFrom, Opcode.ofNat]
  · simp [WebFrame.new, Opcode.ofNat]

theorem closing_sent : WebSocket.history true 0 [.sends 7 closingFrame] (closingEnd 14) =
    some ([], { closingEnd 14 with currentMaskKey := 8, tx := closingWriter 8 }) := by
  have hraw : Sender.sendRaw (closingFrame.text 8) 0 (closingWriter 0) = (some (.success, 8), closingWriter 8) := rfl
  have hsend : closingFrame.send 7 (closingWriter 0) =
      (some .success, { closingFrame with payload := closingFrame.masked 8 }, 8, closingWriter 8) := by
    rw [WebFrame.send, show closingFrame.nextKey 7 = 8 from rfl, sendLoop_done hraw (by decide)]
  have hframe : ({ closingEnd 14 with currentMaskKey := 7 } : WebSocket FifoReader FifoWriter).sendFrame closingFrame =
      (some .success, { closingEnd 14 with currentMaskKey := 8, tx := closingWriter 8 }) := by
    rw [WebSocket.sendFrame, if_pos (by decide)]
    exact congrArg (fun r : Option Status × WebFrame × UInt32 × FifoWriter =>
      (r.1, ({ closingEnd 14 with currentMaskKey := r.2.2.1, tx := r.2.2.2 } : WebSocket FifoReader FifoWriter))) hsend
  have hact : WebSocket.act true 0 (.sends 7 closingFrame) (closingEnd 14) =
      some ([], { closingEnd 14 with currentMaskKey := 8, tx := closingWriter 8 }) :=
    congrArg (fun r : Option Status × WebSocket FifoReader FifoWriter => r.1.map fun _ => ([], r.2)) hframe
  rw [WebSocket.history, hact]
  rfl

/-- `disconnect`, with the counter at 9, where the first `k` bytes are on the wire. -/
theorem closing_disconnects (k : Nat) :
    let s := { closingEnd k with currentMaskKey := 9, tx := closingWriter 8 }
    s.disconnect = (.returned (), { s with socketDescriptor := -1, currentMaskKey := 10, tx := closingWriter 14 }) := by
  intro s
  have hraw : Sender.sendRaw (WebSocket.disconnectFrame.text 10) 0 (closingWriter 8) =
    (some (.success, 6), closingWriter 14) := rfl
  have hsend : WebSocket.disconnectFrame.send 9 (closingWriter 8) =
      (some .success, { WebSocket.disconnectFrame with payload := WebSocket.disconnectFrame.masked 10 }, 10,
        closingWriter 14) := by
    rw [WebFrame.send, show WebSocket.disconnectFrame.nextKey 9 = 10 from rfl, sendLoop_done hraw (by decide)]
  have hconn : s.connected = true := rfl
  have hframe : s.sendFrame WebSocket.disconnectFrame =
      (some .success, { s with currentMaskKey := 10, tx := closingWriter 14 }) := by
    rw [WebSocket.sendFrame, if_pos hconn]
    exact congrArg (fun r : Option Status × WebFrame × UInt32 × FifoWriter =>
      (r.1, ({ s with currentMaskKey := r.2.2.1, tx := r.2.2.2 } : WebSocket FifoReader FifoWriter))) hsend
  unfold WebSocket.disconnectFrame at hframe
  rw [WebSocket.disconnect]
  simp only [if_pos hconn, hframe]
  rfl

/-- The client closes, and the server gets the frame. -/
theorem close_understood_sample :
    ∃ frame server, (closingEnd 8).receiveFrame 0 (.new false .text) = some (.success, frame, server) ∧
      frame.opcode = .disconnect := by
  have hpeer : WebSocket.history false 0 [.receives] (closingEnd 0) =
      some ([(.success, ⟨false, bytes "hi", .text, true⟩)], closingEnd 8) := by
    have hact : WebSocket.act false 0 .receives (closingEnd 0) =
        some ([(.success, ⟨false, bytes "hi", .text, true⟩)], closingEnd 8) := by
      rw [WebSocket.act, WebSocket.receiveFrame, show (closingEnd 0).rx = closingReader 0 from rfl, closingFrame_received]
      rfl
    rw [WebSocket.history, hact]
    rfl
  refine (close_understood true 0 0 (closingEnd 14) _ (closingEnd 0) (closingEnd 8) [.sends 7 closingFrame] [.receives]
    [] _ 9 rfl ?_ closing_sent ?_ ?_ hpeer ?_ rfl (.new false .text) rfl ?_).mpr rfl
  · intro k frame hframe
    cases List.mem_singleton.mp hframe
    exact ⟨rfl, rfl, by decide, .inl rfl⟩
  · exact congrArg Prod.fst (closing_disconnects 14)
  · exact congrArg (fun r => Sender.out r.2.tx) (closing_disconnects 14)
  · intro r hr
    cases List.mem_singleton.mp hr
    exact .inl rfl
  · intro frame server h
    rw [WebSocket.receiveFrame, show (closingEnd 8).rx = closingReader 8 from rfl, closing_received false] at h
    cases h

/-- The server closes: the client's next receive is an error. -/
theorem close_misunderstood :
    let server := ({ closingEnd 14 with currentMaskKey := 9, tx := closingWriter 8 } : WebSocket FifoReader FifoWriter)
    server.disconnect.1 = .returned () ∧
      Sender.out server.disconnect.2.tx = Sender.out server.tx ++ Receiver.pending (closingEnd 8).rx ∧
      (closingEnd 8).receiveFrame 0 (.new true .text) =
        some (.error, ⟨true, [], .disconnect, true⟩, closingEnd 10) := by
  intro server
  have hdisconnect : server.disconnect =
    (.returned (), { server with socketDescriptor := -1, currentMaskKey := 10, tx := closingWriter 14 }) :=
    closing_disconnects 14
  rw [hdisconnect]
  refine ⟨rfl, rfl, ?_⟩
  rw [WebSocket.receiveFrame, show (closingEnd 8).rx = closingReader 8 from rfl, closing_received true]
  rfl

end Frnetlib
