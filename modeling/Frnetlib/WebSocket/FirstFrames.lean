/-
  Frnetlib.WebSocket.FirstFrames — the frames a server sends right behind its answer.

  `connect` reads the answer in blocks, and what a block has beyond the answer ends up
  in the body of a response that is dropped. So the frames reach the client exactly when
  some read ends where the answer does (`first_frames`): a client that starts anywhere
  else in the stream never receives them all (`calls_late`), because a frame that was
  received took at least its text. A length of 65535 is the exception: it is sent in
  eight bytes and could be read in two, but not from inside those eight
  (`late_extended`).
-/

import Frnetlib.WebSocket.Handshake
import Frnetlib.WebSocket.FrameStream
import Frnetlib.WebSocket.Untrusted

namespace Frnetlib

open Base Socket

namespace WebFrame

/-! ## Starting late -/

theorem lengthBytes_length (size : Nat) :
    (lengthBytes size).length = if size ≤ 125 then 0 else if size < 65535 then 2 else 8 := by
  unfold lengthBytes
  by_cases h7 : size ≤ 125
  · rw [if_neg (by omega), if_pos h7]
    rfl
  · rw [if_pos (by omega), if_neg h7]
    split
    · exact be_length _ _
    · exact be_length _ _

theorem text_length {frame : WebFrame} (hc : frame.isClient = false) (key : UInt32) :
    (frame.text key).length = 2 + (lengthBytes frame.payload.length).length + frame.payload.length := by
  rw [text, hc]
  simp only [List.length_append, be_length, masked_length, Bool.false_eq_true, if_false, List.length_nil, Nat.add_zero]

/-- A frame received took at least its text, or it is one of 65535 bytes whose length was
    read in the short form. -/
theorem accepted_length {t : Bytes} {frame : WebFrame} (hc : frame.isClient = false) (key : UInt32)
    (h : Accepted t frame.payload.length) :
    (frame.text key).length ≤ t.length ∨
      frame.payload.length = 65535 ∧ (frame.text key).length ≤ t.length + 6 ∧ ofBe (t.take 2) &&& 0x7F = 126 := by
  obtain ⟨b, s, p, rfl, hb, hs, hp⟩ := h
  rw [text_length hc, lengthBytes_length, List.take_left' hb]
  simp only [List.length_append, hb]
  have hbits : ofBe b &&& 0x7F < 128 := Nat.lt_of_le_of_lt Nat.and_le_right (by decide)
  generalize ofBe b &&& 0x7F = bits at hs hbits ⊢
  unfold Announces at hs
  by_cases h126 : bits = 126
  · rw [if_pos h126] at hs
    have hlt := ofBe_lt s
    rw [hs.1, ← hs.2] at hlt
    by_cases hlong : frame.payload.length = 65535
    · refine .inr ⟨hlong, ?_, h126⟩
      rw [if_neg (by omega), if_neg (by omega)]
      omega
    · left
      split
      · omega
      · rw [if_pos (by omega)]
        omega
  · rw [if_neg h126] at hs
    left
    by_cases h127 : bits = 127
    · rw [if_pos h127] at hs
      split
      · omega
      · split <;> omega
    · rw [if_neg h127] at hs
      rw [if_pos (by omega)]
      omega

/-- From inside the eight bytes of a length of 65535, no length in two bytes is read. -/
theorem late_extended {frame : WebFrame} (hc : frame.isClient = false) (hlong : frame.payload.length = 65535)
    (key : UInt32) {rest t u : Bytes} {d : Nat} (hd : 0 < d) (hd6 : d ≤ 6)
    (h : (frame.text key ++ rest).drop d = t ++ u) (ht : 2 ≤ t.length) : ofBe (t.take 2) &&& 0x7F = 0 := by
  have hzeros : lengthBytes 65535 = [0, 0, 0, 0, 0, 0, 255, 255] := by decide
  obtain ⟨a, b, hfirst⟩ : ∃ a b, be 2 frame.first2Bytes = [a, b] := ⟨_, _, rfl⟩
  have htake : t.take 2 = ((frame.text key ++ rest).drop d).take 2 := by
    rw [h, List.take_append_of_le_length ht]
  rw [htake, text, hlong, hzeros, hfirst, hc]
  have hlow : ∀ x : UInt8, ofBe [x, 0] &&& 0x7F = 0 := by
    intro x
    have hzero : UInt8.toNat 0 = 0 := rfl
    rw [Nat.and_two_pow_sub_one_eq_mod _ 7]
    simp only [ofBe, hzero, List.length_cons, List.length_nil]
    omega
  obtain rfl | rfl | rfl | rfl | rfl | rfl : d = 1 ∨ d = 2 ∨ d = 3 ∨ d = 4 ∨ d = 5 ∨ d = 6 := by omega
  all_goals exact hlow _

variable {σ : Type} [Receiver σ]

/-- From beyond the first byte of a stream of frames on, no number of receives gives the
    frames. -/
theorem calls_late (maxReceiveSize : Nat) (g : WebFrame) (n : Nat) (kfs : List (UInt32 × WebFrame))
    (hkfs : ∀ kf ∈ kfs, kf.2.isClient = false) (w : σ) {d : Nat} (hd : 0 < d)
    (hlen : d ≤ (kfs.flatMap fun kf => kf.2.text kf.1).length)
    (hw : Receiver.pending w = (kfs.flatMap fun kf => kf.2.text kf.1).drop d) :
    received (calls (receive maxReceiveSize g) n w).1 ≠ kfs.map fun kf => { kf.2 with isClient := g.isClient } := by
  induction n generalizing kfs w d with
  | zero =>
    intro heq
    rw [eq_comm, calls, received, List.filterMap_nil, List.map_eq_nil_iff] at heq
    subst heq
    exact absurd hlen (by simp only [List.flatMap_nil, List.length_nil]; omega)
  | succ n ih =>
    cases kfs with
    | nil => exact absurd hlen (by simp only [List.flatMap_nil, List.length_nil]; omega)
    | cons kf kfs =>
      rcases hcall : receive maxReceiveSize g w with _ | ⟨st, frame, w'⟩
      · rw [calls_none hcall]
        exact List.cons_ne_nil _ _ ∘ Eq.symm
      · obtain ⟨t, ht, haccepted, _⟩ := receive_takes maxReceiveSize g w st frame w' hcall
        have hdrop := hw
        rw [ht] at hdrop
        have htlen := congrArg List.length hdrop
        rw [List.length_append, List.length_drop] at htlen
        have hw' : Receiver.pending w' = ((kf :: kfs).flatMap fun kf => kf.2.text kf.1).drop (d + t.length) := by
          rw [← List.drop_drop, ← hdrop, List.drop_left' rfl]
        rw [calls_succ hcall]
        by_cases hst : st = .success
        · -- one frame on, and still late
          rw [received, List.filterMap_cons, if_pos hst, List.map_cons]
          intro heq
          obtain ⟨hframe, hrest⟩ := List.cons_eq_cons.mp heq
          have hsame : frame = { kf.2 with isClient := g.isClient } := hframe
          have hpayload : frame.payload.length = kf.2.payload.length := by rw [hsame]
          have hc := hkfs kf List.mem_cons_self
          have hlate : (kf.2.text kf.1).length < d + t.length := by
            have hacc := haccepted hst
            rw [hpayload] at hacc
            rcases accepted_length hc kf.1 hacc with hle | ⟨hlong, hle, hbits⟩
            · omega
            · by_cases hd6 : d ≤ 6
              · obtain ⟨b, s, p, rfl, hb, _⟩ := hacc
                have hlow := late_extended hc hlong kf.1 hd hd6 hdrop.symm (by simp [hb])
                rw [hbits] at hlow
                exact absurd hlow (by decide)
              · omega
          rw [List.flatMap_cons] at hw' hlen htlen
          rw [List.length_append] at hlen htlen
          refine ih kfs (fun x hx => hkfs x (List.mem_cons_of_mem _ hx)) w' (d := d + t.length - (kf.2.text kf.1).length)
            (by omega) (by omega) ?_ hrest
          rw [hw', List.drop_append, List.drop_of_length_le (Nat.le_of_lt hlate), List.nil_append]
        · rw [received, List.filterMap_cons, if_neg hst]
          exact ih (kf :: kfs) hkfs w' (by omega) (by omega) hw'

/-- Sends that have all returned put the frames' texts on the wire. -/
theorem sendAll_out {τ : Type} [FifoSender τ] {frames : List WebFrame} {key : UInt32} {w : τ}
    (h : (sendAll frames key w).1.length = frames.length) :
    Sender.out (sendAll frames key w).2.2 = Sender.out w ++ (keyed key frames).flatMap fun kf => kf.2.text kf.1 := by
  obtain ⟨hstatuses, hwriter⟩ := sendAll_eq frames key w
  obtain ⟨s, hs, hout, _, _, hdone⟩ := sendEach_fifo (texts key frames) w
  have hlen : (texts key frames).length = frames.length := by
    rw [texts, List.length_map, ← List.length_map (f := Prod.snd), keyed_frames]
  rw [← hstatuses, h, ← hlen, List.take_length] at hdone
  rw [hwriter, hout, hs.eq_of_length (Nat.le_antisymm hs.length_le hdone.length_le), texts, List.flatMap_def]

end WebFrame

namespace WebSocket

variable {σ τ : Type}

/-! ## The answer -/

/-- A server that has returned has sent an answer to some key. -/
theorem setDescriptor_answers [Receiver σ] [Sender τ] {s : WebSocket σ τ} {o : Order} {sha1Digest : Bytes → Digest}
    {d : Int} (hd : -1 < d) (h : (s.setDescriptor o sha1Digest (some d)).1 = .returned ()) :
    ∃ derivedKey, Http.Value derivedKey ∧ derivedKey.length ≤ 28 ∧
      (sendLoop ((upgradeResponse derivedKey).construct o s.remoteAddress) 0 s.tx).1 ≠ none ∧
      (s.setDescriptor o sha1Digest (some d)).2.tx =
        (sendLoop ((upgradeResponse derivedKey).construct o s.remoteAddress) 0 s.tx).2 := by
  have hd' : d ≠ -1 := by omega
  unfold setDescriptor receiveHttp at h ⊢
  simp only [if_neg hd'] at h ⊢
  generalize Http.receive HttpRequest.parse .fresh s.rx = x at h ⊢
  obtain ⟨outcome, request, rx⟩ := x
  cases outcome with
  | returned status =>
    simp only at h ⊢
    by_cases hst : status = .success
    · simp only [hst, ne_eq, not_true_eq_false, if_false] at h ⊢
      unfold answerUpgrade at h ⊢
      split
      · rename_i hnot
        rw [if_pos hnot] at h
        cases h
      · rename_i hnot
        rw [if_neg hnot] at h
        obtain ⟨derivedKey, hderived, hvalue, hlength⟩ :=
          deriveKey_eq sha1Digest (request.header (bytes "sec-websocket-key"))
        have hconn : connected ({ s with socketDescriptor := d, rx := rx } : WebSocket σ τ) = true := decide_eq_true hd
        refine ⟨derivedKey, hvalue, hlength, ?_⟩
        simp only [hderived, sendHttp, hconn, if_true] at h ⊢
        rcases hsend : sendLoop ((upgradeResponse derivedKey).construct o s.remoteAddress) 0 s.tx with ⟨_ | st, tx⟩
        · simp only [hsend] at h
          cases h
        · exact ⟨Option.some_ne_none st, rfl⟩
    · simp only [ne_eq, hst, not_false_eq_true, if_true] at h
      cases h
  | waits => cases h
  | threw what => cases h
  | undefined => cases h

/-- A client that succeeds has read an answer as it left the socket. -/
theorem connect_succeeds [Receiver σ] [Sender τ] {s : WebSocket σ τ} {o : Order} {sha1Digest : Bytes → Digest}
    {status : Status} {time path : Bytes} {wsProtocols : List Bytes}
    (h : (s.connect o sha1Digest status time path wsProtocols).1 = .returned .success) :
    ∃ (s' : WebSocket σ τ) (websocketKey : Bytes), s'.rx = s.rx ∧
      s.connect o sha1Digest status time path wsProtocols = s'.receiveUpgrade sha1Digest websocketKey := by
  unfold connect at h ⊢
  by_cases hstatus : status = .success
  · simp only [hstatus, ne_eq, not_true_eq_false, if_false] at h ⊢
    cases hkey : Base64.encode time with
    | none =>
      rw [hkey] at h
      cases h
    | some websocketKey =>
      simp only [hkey] at h ⊢
      generalize hdata : (upgradeRequest websocketKey path wsProtocols).construct o s.remoteAddress = data at h ⊢
      have hrx : (s.sendHttp data).2.rx = s.rx := by
        unfold sendHttp
        split <;> rfl
      rcases hsend : s.sendHttp data with ⟨_ | st, s'⟩
      · rw [hsend] at h
        cases h
      · rw [hsend] at h hrx
        by_cases hst : st = .success
        · refine ⟨s', websocketKey, hrx, ?_⟩
          simp [hst]
        · simp only [hst, not_false_eq_true, if_true, Outcome.returned.injEq] at h
  · simp only [ne_eq, hstatus, not_false_eq_true, if_true, Outcome.returned.injEq] at h

/-- What a client that succeeds has taken: the answer, and what came in the block with
    its last byte. -/
theorem connect_takes [FifoReceiver σ] [FifoSender τ] {s : WebSocket σ τ} {o o' : Order} {sha1Digest : Bytes → Digest}
    {status : Status} {time path derivedKey rest host : Bytes} {wsProtocols : List Bytes}
    (hvalue : Http.Value derivedKey) (hlength : derivedKey.length ≤ 28)
    (hrx : Receiver.pending s.rx = (upgradeResponse derivedKey).construct o' host ++ rest)
    (h : (s.connect o sha1Digest status time path wsProtocols).1 = .returned .success) :
    ∃ v, rest = v ++ Receiver.pending (s.connect o sha1Digest status time path wsProtocols).2.rx ∧
      Receiver.left (s.connect o sha1Digest status time path wsProtocols).2.rx ≤ Receiver.left s.rx ∧
      (v = [] ↔ Cut recvChunkSize ((upgradeResponse derivedKey).construct o' host).length s.rx) := by
  obtain ⟨s', websocketKey, hrx', heq⟩ := connect_succeeds h
  rw [heq] at h ⊢
  rw [← hrx'] at hrx ⊢
  have hpre : Receiver.pending s'.rx <+: (upgradeResponse derivedKey).construct o' host ++ rest := by rw [hrx]
  obtain ⟨hwaits, _⟩ | ⟨hblock, _⟩ | ⟨v, rx, hpend, hleft, hcut, hupgrade⟩ :=
    s'.receiveUpgrade_stream sha1Digest websocketKey o' hvalue hlength host hpre
  · rw [hwaits] at h
    cases h
  · rw [hblock] at h
    cases h
  · rw [hupgrade] at h ⊢
    by_cases hkey : deriveKey sha1Digest websocketKey = some derivedKey
    · rw [if_pos hkey]
      rw [hrx, List.append_assoc] at hpend
      exact ⟨v, List.append_cancel_left hpend, hleft, hcut⟩
    · rw [if_neg hkey] at h
      exact absurd h (handshakeFailed_fails _)

end WebSocket

/-- A server that has answered a handshake and then sent any frames, a client to which all
    of it arrives, and whose `connect` has returned Success: its receives give the
    server's frames exactly when one of the reads of `connect` ended with the answer, and
    exactly then `connect` has taken the answer and nothing else. -/
theorem first_frames {σ σ' τ τ' : Type} [FifoReceiver σ] [Receiver σ'] [FifoSender τ] [FifoSender τ']
    (client : WebSocket σ τ) (server : WebSocket σ' τ') (o o' : Order) (sha1Digest : Bytes → Digest) (status : Status)
    (time path : Bytes) (wsProtocols : List Bytes) (descriptor : Int) (hdescriptor : -1 < descriptor)
    (hserver : (server.setDescriptor o' sha1Digest (some descriptor)).1 = .returned ()) (frames : List WebFrame)
    (maxReceiveSize : Nat) (hframes : ∀ frame ∈ frames, frame.Sendable false maxReceiveSize)
    (hsent : (WebFrame.sendAll frames (server.setDescriptor o' sha1Digest (some descriptor)).2.currentMaskKey
      (server.setDescriptor o' sha1Digest (some descriptor)).2.tx).1.length = frames.length)
    (harrived : Sender.out (WebFrame.sendAll frames
        (server.setDescriptor o' sha1Digest (some descriptor)).2.currentMaskKey
        (server.setDescriptor o' sha1Digest (some descriptor)).2.tx).2.2 =
      Sender.out server.tx ++ Receiver.pending client.rx)
    (hclient : (client.connect o sha1Digest status time path wsProtocols).1 = .returned .success) (g : WebFrame)
    (hg : g.isClient = true) :
    let s := server.setDescriptor o' sha1Digest (some descriptor)
    let c := client.connect o sha1Digest status time path wsProtocols
    ∃ response, Sender.out s.2.tx = Sender.out server.tx ++ response ∧
      (∀ n, Receiver.left c.2.rx + frames.length ≤ n →
        (received (calls (WebFrame.receive maxReceiveSize g) n c.2.rx).1 =
            frames.map (fun frame => { frame with isClient := true }) ↔
          Cut recvChunkSize response.length client.rx)) ∧
      (Receiver.pending client.rx = response ++ Receiver.pending c.2.rx ↔
        Cut recvChunkSize response.length client.rx) := by
  intro s c
  obtain ⟨derivedKey, hvalue, hlength, hreturned, htx⟩ := WebSocket.setDescriptor_answers hdescriptor hserver
  generalize hresponse : (WebSocket.upgradeResponse derivedKey).construct o' server.remoteAddress = response at *
  have hout : Sender.out s.2.tx = Sender.out server.tx ++ response := by
    rcases sendLoop_fifo response server.tx (Nat.zero_le _) with ⟨k, _, _, hout, hnone | ⟨_, hk⟩⟩
    · exact absurd hnone hreturned
    · rw [htx, hout, hk, List.take_length, List.drop_zero]
  generalize hkeyed : WebFrame.keyed s.2.currentMaskKey frames = kfs
  have hmap : kfs.map Prod.snd = frames := hkeyed ▸ WebFrame.keyed_frames _ _
  have hmem : ∀ kf ∈ kfs, kf.2.Sendable false maxReceiveSize := fun kf hkf => hframes _ (hmap ▸ List.mem_map_of_mem hkf)
  have hgiven : kfs.map (fun kf => { kf.2 with isClient := g.isClient }) =
      frames.map fun frame => { frame with isClient := true } := by
    rw [← hmap, List.map_map, hg]
    rfl
  -- what is behind the answer, and what `connect` has taken of it
  have hrx : Receiver.pending client.rx = response ++ kfs.flatMap fun kf => kf.2.text kf.1 := by
    rw [WebFrame.sendAll_out hsent, hout, List.append_assoc, hkeyed] at harrived
    exact (List.append_cancel_left harrived).symm
  subst hresponse
  obtain ⟨v, hv, _, hcut⟩ := WebSocket.connect_takes hvalue hlength hrx hclient
  refine ⟨_, hout, ?_, ?_⟩
  · intro n hn
    rw [← hcut, ← hgiven]
    constructor
    · intro hall
      by_contra hne
      have hvlen := List.length_pos_iff.mpr hne
      refine WebFrame.calls_late maxReceiveSize g n kfs (fun kf hkf => (hmem kf hkf).client) c.2.rx hvlen ?_ ?_ hall
      · rw [hv, List.length_append]
        exact Nat.le_add_right _ _
      · rw [hv, List.drop_left' rfl]
    · intro heq
      subst heq
      rw [List.nil_append] at hv
      have hgood : ∀ kf ∈ kfs, kf.2.Sendable (!g.isClient) maxReceiveSize := by rw [hg]; exact hmem
      obtain ⟨k, htaken, hall⟩ :=
        calls_deliver (WebFrame.receive_delivers maxReceiveSize g) kfs hgood n c.2.rx (hv ▸ List.prefix_rfl)
      have hk : k = kfs.length := by
        apply hall hv.symm
        rwa [← List.length_map (f := Prod.snd), hmap]
      have hmessages := htaken.messages
      rw [hk, List.take_length] at hmessages
      exact forall₂_map hmessages
  · rw [← hcut, hrx, List.append_cancel_left_eq]
    constructor
    · intro heq
      rw [← heq] at hv
      have hvlen := congrArg List.length hv
      rw [List.length_append] at hvlen
      exact List.eq_nil_of_length_eq_zero (by omega)
    · intro heq
      subst heq
      exact hv

/-! A server that sends one frame behind its answer, a client that reads both at once, and
  one that reads the answer first. -/

def sampleFrame : WebFrame := ⟨false, bytes "hi", .text, true⟩

def sampleStream : Bytes := sampleResponse ++ [0x81, 2, 104, 105]

def greetedClient (schedule : List RecvResult) (h : ∀ r ∈ schedule, r.reliable true = true) :
    WebSocket BlockingReader FifoWriter :=
  { upgradeClient with rx := ⟨⟨⟨true, sampleStream, schedule⟩, h⟩, rfl⟩ }

theorem upgradeServer_tx :
    (upgradeServer.setDescriptor .kept sampleDigest (some 4)).2.tx = ⟨⟨true, sampleResponse, []⟩, by decide⟩ := by
  obtain ⟨derivedKey, _, _, _, htx⟩ := WebSocket.setDescriptor_answers (by decide) upgradeServer_answers.1
  have hout := upgradeServer_answers.2
  generalize (WebSocket.upgradeResponse derivedKey).construct .kept upgradeServer.remoteAddress = response at htx
  have hraw : Sender.sendRaw response 0 upgradeServer.tx =
    (some (.success, max 0 response.length), ⟨⟨true, [] ++ response.drop 0, []⟩, List.forall_mem_nil _⟩) := rfl
  rw [sendLoop_done hraw (by decide)] at htx
  rw [htx] at hout ⊢
  have hresponse : response = sampleResponse := hout
  subst hresponse
  rfl

theorem upgradeServer_greets (key : UInt32) :
    WebFrame.sendAll [sampleFrame] key (upgradeServer.setDescriptor .kept sampleDigest (some 4)).2.tx =
      ([.success], key, ⟨⟨true, sampleStream, []⟩, by decide⟩) := by
  have hraw : Sender.sendRaw (sampleFrame.text key) 0 (⟨⟨true, sampleResponse, []⟩, by decide⟩ : FifoWriter) =
    (some (.success, 4), ⟨⟨true, sampleStream, []⟩, by decide⟩) := rfl
  rw [upgradeServer_tx, WebFrame.sendAll, WebFrame.send, show sampleFrame.nextKey key = key from rfl,
    sendLoop_done hraw (by decide)]
  rfl

theorem greetedClient_connects (schedule : List RecvResult) (h : ∀ r ∈ schedule, r.reliable true = true) :
    ((greetedClient schedule h).connect .kept sampleDigest .success (bytes "1519900800") samplePath
      [bytes "chat", []]).1 = .returned .success := by
  obtain ⟨_, _, _, hnone, _⟩ | ⟨tx, hconnect, _⟩ := (greetedClient schedule h).connect_sends .kept sampleDigest
    sampleKey_encoded samplePath [bytes "chat", []] rfl
  · exact absurd hnone sends_return
  · have hrx : Receiver.pending (greetedClient schedule h).rx <+: sampleResponse ++ [0x81, 2, 104, 105] := List.prefix_rfl
    rw [hconnect]
    obtain ⟨_, _, hpre, _⟩ | ⟨_, _, hblocks⟩ | ⟨_, _, _, _, _, hupgrade⟩ :=
      WebSocket.receiveUpgrade_stream { greetedClient schedule h with tx := tx } sampleDigest sampleKey .kept
        sampleAccept_value (by decide) [] hrx
    · have hle : (sampleResponse ++ [0x81, 2, 104, 105]).length ≤ sampleResponse.length := hpre.length_le
      rw [List.length_append] at hle
      exact absurd hle (by simp)
    · exact absurd hblocks Http.not_blocks
    · rw [hupgrade, if_pos sampleAccept_derived]

theorem greetedClient_read {schedule : List RecvResult} {h : ∀ r ∈ schedule, r.reliable true = true} {b : Bytes}
    {w : TcpReader} (hraw : TcpReader.receiveRaw recvChunkSize ⟨true, sampleStream, schedule⟩ = some (.success, b, w)) :
    ∃ rx, Receiver.receiveRaw recvChunkSize (greetedClient schedule h).rx = some (.success, b, rx) := by
  rcases hread : Receiver.receiveRaw recvChunkSize (greetedClient schedule h).rx with _ | ⟨st, b', rx⟩
  · exact absurd hread (FifoReceiver.raw_returns (by decide) (show sampleStream ≠ [] by decide +kernel))
  · have hsame := FifoReader.receiveRaw_some (BlockingReader.receiveRaw_some hread)
    cases hraw.symm.trans hsame
    exact ⟨rx, rfl⟩

/-- The client reads the answer first. -/
theorem first_frames_sample :
    let client := greetedClient [.received 134] (by decide)
    let c := client.connect .kept sampleDigest .success (bytes "1519900800") samplePath [bytes "chat", []]
    received (calls (WebFrame.receive 0 (WebFrame.new true .text)) (Receiver.left c.2.rx + 1) c.2.rx).1 =
        [⟨true, bytes "hi", .text, true⟩] ∧
      Receiver.pending client.rx = sampleResponse ++ Receiver.pending c.2.rx := by
  intro client c
  have hgreets := upgradeServer_greets (upgradeServer.setDescriptor .kept sampleDigest (some 4)).2.currentMaskKey
  obtain ⟨response, hout, hall, hexact⟩ := first_frames client upgradeServer .kept .kept sampleDigest .success
    (bytes "1519900800") samplePath [bytes "chat", []] 4 (by decide) upgradeServer_answers.1 [sampleFrame] 0
    (by simp only [List.mem_singleton, forall_eq]; exact ⟨rfl, rfl, by decide, .inl rfl⟩) (by rw [hgreets]; rfl)
    (by rw [hgreets]; rfl) (greetedClient_connects _ _) (WebFrame.new true .text) rfl
  have hresponse : response = sampleResponse := List.append_cancel_left (hout.symm.trans upgradeServer_answers.2)
  have hcut : Cut recvChunkSize response.length client.rx := by
    have hraw : TcpReader.receiveRaw recvChunkSize ⟨true, sampleStream, [.received 134]⟩ =
      some (.success, sampleResponse, ⟨true, [0x81, 2, 104, 105], []⟩) := by decide +kernel
    obtain ⟨rx, hread⟩ := greetedClient_read hraw
    rw [hresponse]
    have hread' := Cut.read hread (.here rx)
    rwa [Nat.add_zero] at hread'
  rw [← hresponse]
  exact ⟨(hall _ (Nat.le_refl _)).mpr hcut, hexact.mpr hcut⟩

/-- The client reads the answer and the frame in one block: the frame is lost. -/
theorem first_frame_lost :
    let s := upgradeServer.setDescriptor .kept sampleDigest (some 4)
    let sent := WebFrame.sendAll [sampleFrame] s.2.currentMaskKey s.2.tx
    let client := greetedClient [] (List.forall_mem_nil _)
    let c := client.connect .kept sampleDigest .success (bytes "1519900800") samplePath [bytes "chat", []]
    s.1 = .returned () ∧ sent.1 = [.success] ∧
      Sender.out sent.2.2 = Sender.out upgradeServer.tx ++ Receiver.pending client.rx ∧ c.1 = .returned .success ∧
      Receiver.pending client.rx ≠ sampleResponse ++ Receiver.pending c.2.rx ∧
      ¬ ∃ n, received (calls (WebFrame.receive 0 (WebFrame.new true .text)) n c.2.rx).1 =
        [⟨true, bytes "hi", .text, true⟩] := by
  intro s sent client c
  have hgreets := upgradeServer_greets s.2.currentMaskKey
  have hclient : c.1 = .returned .success := greetedClient_connects _ _
  have hnotcut : ¬ Cut recvChunkSize sampleResponse.length client.rx := by
    have hraw : TcpReader.receiveRaw recvChunkSize ⟨true, sampleStream, []⟩ =
      some (.success, sampleStream, ⟨true, [], []⟩) := by decide +kernel
    obtain ⟨rx, hread⟩ := greetedClient_read hraw
    rw [cut_read hread (by decide +kernel)]
    intro hcut
    have hle : sampleStream.length ≤ sampleResponse.length := hcut.1
    rw [sampleStream, List.length_append] at hle
    exact absurd hle (by simp)
  have hpending : Receiver.pending client.rx =
      (WebSocket.upgradeResponse sampleAccept).construct .kept [] ++ [0x81, 2, 104, 105] := rfl
  obtain ⟨v, hv, _, hcut⟩ := WebSocket.connect_takes sampleAccept_value (by decide) hpending hclient
  have hne : v ≠ [] := fun hnil => hnotcut (hcut.mp hnil)
  have hvlen := List.length_pos_iff.mpr hne
  refine ⟨upgradeServer_answers.1, congrArg Prod.fst hgreets, congrArg (fun r => Sender.out r.2.2) hgreets, hclient, ?_, ?_⟩
  · intro heq
    have hrest : [0x81, 2, 104, 105] = Receiver.pending c.2.rx := List.append_cancel_left heq
    rw [hrest] at hv
    have hlen : (Receiver.pending c.2.rx).length = (v ++ Receiver.pending c.2.rx).length := congrArg List.length hv
    rw [List.length_append] at hlen
    omega
  · intro hgiven
    obtain ⟨n, hn⟩ := hgiven
    have htext : ∀ key, sampleFrame.text key = [0x81, 2, 104, 105] := fun _ => rfl
    refine WebFrame.calls_late 0 (WebFrame.new true .text) n [(0, sampleFrame)] ?_ c.2.rx hvlen ?_ ?_ hn
    · intro kf hkf
      rw [List.mem_singleton.mp hkf]
      rfl
    · rw [List.flatMap_singleton, htext, hv, List.length_append]
      exact Nat.le_add_right _ _
    · rw [List.flatMap_singleton, htext, hv, List.drop_left' rfl]

end Frnetlib
