/-
  Frnetlib.WebSocket.Handshake — the two halves of the handshake, over two reliable
  FIFO byte streams.

  One lemma for each half says what it comes to on a stream that is, as far as it goes,
  the other's message and then anything else: a server either waits, for the request or
  for its answer to be sent, or has answered (`setDescriptor_stream`); a client waits
  for the answer or returns (`receiveUpgrade_stream`), with what else came in the last
  block lost. So the halves agree (`handshake_agrees`).
-/

import Frnetlib.Net.TcpSocket
import Frnetlib.WebSocket.Upgrade

namespace Frnetlib

open Base Socket

namespace WebSocket

variable {σ τ : Type}

/-! ## Sending -/

theorem closeSocket_tx (s : WebSocket σ τ) : s.closeSocket.tx = s.tx := by
  unfold closeSocket
  split <;> rfl

section Send

variable [FifoSender τ]

theorem sendHttp_fifo (s : WebSocket σ τ) (hconn : s.connected = true) (data : Bytes) :
    (∃ tx part, s.sendHttp data = (none, { s with tx := tx }) ∧ (sendLoop data 0 s.tx).1 = none ∧ part <+: data ∧
      Sender.out tx = Sender.out s.tx ++ part) ∨
    ∃ tx, s.sendHttp data = (some .success, { s with tx := tx }) ∧ Sender.out tx = Sender.out s.tx ++ data := by
  obtain ⟨k, _, _, hout, hst⟩ := sendLoop_fifo data s.tx (Nat.zero_le _)
  rw [List.drop_zero] at hout
  rw [sendHttp, if_pos hconn]
  rcases hst with hnone | ⟨hsuccess, hk⟩
  · rw [hnone]
    exact .inl ⟨_, data.take k, rfl, rfl, List.take_prefix _ _, hout⟩
  · rw [hk, List.take_length] at hout
    rw [hsuccess]
    exact .inr ⟨_, rfl, hout⟩

theorem handshakeFailed_fails (s : WebSocket σ τ) : s.handshakeFailed.1 ≠ .returned .success := by
  unfold handshakeFailed
  split <;> simp

theorem sendFrame_out (s : WebSocket σ τ) (frame : WebFrame) :
    ∃ e, Sender.out (s.sendFrame frame).2.tx = Sender.out s.tx ++ e := by
  unfold sendFrame
  by_cases hconn : s.connected = true
  · rw [if_pos hconn]
    obtain ⟨_, _, _, hout, _⟩ := sendLoop_fifo (frame.text (frame.nextKey s.currentMaskKey)) s.tx (Nat.zero_le _)
    exact ⟨_, hout⟩
  · rw [if_neg hconn]
    exact ⟨[], (List.append_nil _).symm⟩

theorem disconnect_out (s : WebSocket σ τ) : ∃ e, Sender.out s.disconnect.2.tx = Sender.out s.tx ++ e := by
  obtain ⟨e, he⟩ := s.sendFrame_out { WebFrame.new true .text with opcode := .disconnect }
  unfold disconnect
  by_cases hconn : s.connected = true
  · rw [if_pos hconn]
    split
    · rename_i h
      rw [h] at he
      exact ⟨e, he⟩
    · rename_i h
      rw [h] at he
      rw [closeSocket_tx]
      exact ⟨e, he⟩
  · rw [if_neg hconn, closeSocket_tx]
    exact ⟨[], (List.append_nil _).symm⟩

/-- Whatever `disconnect` sends comes after what is on the wire. -/
theorem handshakeFailed_out (s : WebSocket σ τ) :
    ∃ e, Sender.out s.handshakeFailed.2.tx = Sender.out s.tx ++ e := by
  have hdisconnect := s.disconnect_out
  unfold handshakeFailed
  split
  · rename_i h
    rwa [h] at hdisconnect
  · rename_i h
    rwa [h] at hdisconnect

end Send

/-! ## The client -/

section Client

variable [FifoReceiver σ] [FifoSender τ]

/-- Behind the request, on a stream that is an answer to some key and then other bytes. -/
theorem receiveUpgrade_stream (s : WebSocket σ τ) (sha1Digest : Bytes → Digest) (websocketKey : Bytes) (o : Order)
    {derivedKey : Bytes} (hkey : Http.Value derivedKey) (hlength : derivedKey.length ≤ 28) (host : Bytes) {rest : Bytes}
    (hrx : Receiver.pending s.rx <+: (upgradeResponse derivedKey).construct o host ++ rest) :
    ((s.receiveUpgrade sha1Digest websocketKey).1 = .waits ∧ (s.receiveUpgrade sha1Digest websocketKey).2.tx = s.tx ∧
      Receiver.pending s.rx <+: (upgradeResponse derivedKey).construct o host ∧
      Receiver.pending s.rx ≠ (upgradeResponse derivedKey).construct o host) ∨
    ((s.receiveUpgrade sha1Digest websocketKey).1 = .returned .wouldBlock ∧
      (s.receiveUpgrade sha1Digest websocketKey).2.tx = s.tx ∧ Http.Blocks σ) ∨
    ∃ v rx, Receiver.pending s.rx = (upgradeResponse derivedKey).construct o host ++ v ++ Receiver.pending rx ∧
      Receiver.left rx ≤ Receiver.left s.rx ∧
      (v = [] ↔ Cut recvChunkSize ((upgradeResponse derivedKey).construct o host).length s.rx) ∧
      s.receiveUpgrade sha1Digest websocketKey =
        if deriveKey sha1Digest websocketKey = some derivedKey then (.returned .success, { s with rx := rx })
        else ({ s with rx := rx } : WebSocket σ τ).handshakeFailed := by
  obtain ⟨hparses, hread⟩ := upgradeResponse_parses o hkey hlength host
  obtain ⟨expected, hexpected, _⟩ := deriveKey_eq sha1Digest websocketKey
  unfold receiveUpgrade receiveHttp
  obtain ⟨hwaits, hpre, hne⟩ | ⟨hblock, hblocks⟩ | ⟨v, rx, hdone, hp, hv, hl, hcut⟩ :=
    Http.receive_stream hparses s.rx hrx
  · simp only [hwaits]
    exact .inl ⟨trivial, trivial, hpre, hne⟩
  · simp only [hblock]
    exact .inr (.inl ⟨rfl, rfl, hblocks⟩)
  · obtain ⟨hstatus, haccept⟩ := hread v hv
    refine .inr (.inr ⟨v, rx, hp, hl, hcut, ?_⟩)
    simp only [hdone, hstatus, haccept, hexpected]
    by_cases heq : derivedKey = expected
    · simp [heq]
    · simp [heq, Ne.symm heq]

theorem receiveUpgrade_out (s : WebSocket σ τ) (sha1Digest : Bytes → Digest) (websocketKey : Bytes) :
    ∃ e, Sender.out (s.receiveUpgrade sha1Digest websocketKey).2.tx = Sender.out s.tx ++ e := by
  have hsame : ∃ e, Sender.out s.tx = Sender.out s.tx ++ e := ⟨[], (List.append_nil _).symm⟩
  unfold receiveUpgrade receiveHttp
  generalize Http.receive HttpResponse.parse .fresh s.rx = x
  obtain ⟨outcome, response, rx⟩ := x
  cases outcome with
  | returned status =>
    obtain ⟨derivedKey, hderived, _⟩ := deriveKey_eq sha1Digest websocketKey
    simp only [hderived]
    split
    · exact hsame
    · split
      · exact ({ s with rx := rx } : WebSocket σ τ).handshakeFailed_out
      · split
        · exact ({ s with rx := rx } : WebSocket σ τ).handshakeFailed_out
        · exact hsame
  | waits => exact hsame
  | threw what => exact hsame
  | undefined => exact hsame

theorem connect_sends (s : WebSocket σ τ) (o : Order) (sha1Digest : Bytes → Digest) {time websocketKey : Bytes}
    (hkey : Base64.encode time = some websocketKey) (path : Bytes) (wsProtocols : List Bytes) (hconn : s.connected = true) :
    (∃ tx part, s.connect o sha1Digest .success time path wsProtocols = (.waits, { s with tx := tx }) ∧
      (sendLoop ((upgradeRequest websocketKey path wsProtocols).construct o s.remoteAddress) 0 s.tx).1 = none ∧
      part <+: (upgradeRequest websocketKey path wsProtocols).construct o s.remoteAddress ∧
      Sender.out tx = Sender.out s.tx ++ part) ∨
    ∃ tx, s.connect o sha1Digest .success time path wsProtocols =
        ({ s with tx := tx } : WebSocket σ τ).receiveUpgrade sha1Digest websocketKey ∧
      Sender.out tx = Sender.out s.tx ++ (upgradeRequest websocketKey path wsProtocols).construct o s.remoteAddress := by
  unfold connect
  simp only [hkey]
  obtain ⟨tx, part, hsend, hnone, hpart, hout⟩ | ⟨tx, hsend, hout⟩ :=
    s.sendHttp_fifo hconn ((upgradeRequest websocketKey path wsProtocols).construct o s.remoteAddress)
  · refine .inl ⟨tx, part, ?_, hnone, hpart, hout⟩
    simp [hsend]
  · refine .inr ⟨tx, ?_, hout⟩
    simp [hsend]

/-- What `connect` puts on the wire: the request, as far as it got, and then perhaps more. -/
theorem connect_out (s : WebSocket σ τ) (o : Order) (sha1Digest : Bytes → Digest) {time websocketKey : Bytes}
    (hkey : Base64.encode time = some websocketKey) (path : Bytes) (wsProtocols : List Bytes) (hconn : s.connected = true) :
    ∃ put e, Sender.out (s.connect o sha1Digest .success time path wsProtocols).2.tx = Sender.out s.tx ++ put ∧
      put <+: (upgradeRequest websocketKey path wsProtocols).construct o s.remoteAddress ++ e ∧
      ((∀ data, (sendLoop data 0 s.tx).1 ≠ none) →
        put = (upgradeRequest websocketKey path wsProtocols).construct o s.remoteAddress ++ e) := by
  obtain ⟨tx, part, hconnect, hnone, hpart, hout⟩ | ⟨tx, hconnect, hout⟩ :=
    s.connect_sends o sha1Digest hkey path wsProtocols hconn
  · refine ⟨part, [], ?_, by rwa [List.append_nil], fun hsends => absurd hnone (hsends _)⟩
    rw [hconnect]
    exact hout
  · obtain ⟨e, he⟩ := ({ s with tx := tx } : WebSocket σ τ).receiveUpgrade_out sha1Digest websocketKey
    refine ⟨_, e, ?_, List.prefix_rfl, fun _ => rfl⟩
    rw [hconnect, he, ← List.append_assoc, ← hout]

end Client

/-! ## The server -/

section Server

variable [FifoReceiver σ] [FifoSender τ]

/-- On a stream that is a request to upgrade and then other bytes. -/
theorem setDescriptor_stream (s : WebSocket σ τ) (sha1Digest : Bytes → Digest) (o o' : Order)
    {websocketKey path host derivedKey : Bytes} {wsProtocols : List Bytes} (hkey : Http.Value websocketKey)
    (hpath : ∀ b ∈ path, isPrint b = true) (hprotocols : ∀ p ∈ wsProtocols, ∀ b ∈ p, isPrint b = true)
    (hhost : ∀ b ∈ host, isPrint b = true)
    (hsize : ((upgradeRequest websocketKey path wsProtocols).construct o' host).length ≤ maxHttpHeaderSize)
    (hderived : deriveKey sha1Digest websocketKey = some derivedKey) {d : Int} (hd : -1 < d) {rest : Bytes}
    (hrx : Receiver.pending s.rx <+: (upgradeRequest websocketKey path wsProtocols).construct o' host ++ rest) :
    Http.Blocks σ ∨ ∃ part, part <+: (upgradeResponse derivedKey).construct o s.remoteAddress ∧
      Sender.out (s.setDescriptor o sha1Digest (some d)).2.tx = Sender.out s.tx ++ part ∧
      ((s.setDescriptor o sha1Digest (some d)).1 = .waits ∧
          (Receiver.pending s.rx ≠ (upgradeRequest websocketKey path wsProtocols).construct o' host ++ rest ∨
            (sendLoop ((upgradeResponse derivedKey).construct o s.remoteAddress) 0 s.tx).1 = none) ∨
        (s.setDescriptor o sha1Digest (some d)).1 = .returned () ∧
          part = (upgradeResponse derivedKey).construct o s.remoteAddress) := by
  obtain ⟨hparses, hread⟩ := upgradeRequest_parses o' hkey hpath hprotocols hhost hsize
  have hd' : d ≠ -1 := by omega
  unfold setDescriptor receiveHttp
  simp only [if_neg hd']
  rcases Http.receive_stream hparses s.rx hrx with ⟨hwaits, hpre, hne⟩ | ⟨_, hblocks⟩ | ⟨v, rx, hdone, hp, hv, _⟩
  · refine .inr ⟨[], List.nil_prefix, ?_⟩
    simp only [hwaits]
    refine ⟨(List.append_nil _).symm, .inl ⟨trivial, .inl fun heq => ?_⟩⟩
    rw [heq] at hpre hne
    have hrest : rest = [] := List.eq_nil_of_length_eq_zero (by
      have := hpre.length_le
      rw [List.length_append] at this
      omega)
    exact hne (by rw [hrest, List.append_nil])
  · exact .inl hblocks
  · obtain ⟨htype, hupgrade, hwebkey⟩ := hread v hv
    simp only [hdone]
    obtain ⟨tx, part, hsend, hnone, hpart, hout⟩ | ⟨tx, hsend, hout⟩ :=
      sendHttp_fifo { s with socketDescriptor := d, rx := rx } (decide_eq_true hd)
        ((upgradeResponse derivedKey).construct o s.remoteAddress)
    · refine .inr ⟨part, hpart, ?_⟩
      simp [answerUpgrade, htype, hupgrade, hwebkey, hderived, hsend, hout, hnone]
    · refine .inr ⟨_, List.prefix_rfl, ?_⟩
      simp [answerUpgrade, htype, hupgrade, hwebkey, hderived, hsend, hout]

end Server

end WebSocket

/-- A client that connects and a server that it connects to, on sockets in blocking
    mode, for any path, protocols and address of printable characters: however the two
    byte streams are cut and whenever the bytes arrive, neither half fails. Where the
    sends return and all that is sent arrives, the server accepts and the client's
    `connect` returns Success. -/
theorem handshake_agrees {σ σ' τ τ' : Type} [BlockingReceiver σ] [BlockingReceiver σ'] [FifoSender τ] [FifoSender τ']
    (client : WebSocket σ τ) (server : WebSocket σ' τ') (o o' : Order) (sha1Digest : Bytes → Digest)
    (time websocketKey path : Bytes) (wsProtocols : List Bytes) (descriptor : Int) (htime : 2 ≤ time.length)
    (hkey : Base64.encode time = some websocketKey) (hpath : ∀ b ∈ path, isPrint b = true)
    (hprotocols : ∀ p ∈ wsProtocols, ∀ b ∈ p, isPrint b = true)
    (haddress : ∀ b ∈ client.remoteAddress, isPrint b = true) (hclient : client.connected = true)
    (hdescriptor : -1 < descriptor)
    (hsize : ((WebSocket.upgradeRequest websocketKey path wsProtocols).construct o client.remoteAddress).length ≤
      maxHttpHeaderSize)
    (hup : Connected client.tx (client.connect o sha1Digest .success time path wsProtocols).2.tx server.rx)
    (hdown : Connected server.tx (server.setDescriptor o' sha1Digest (some descriptor)).2.tx client.rx) :
    let c := client.connect o sha1Digest .success time path wsProtocols
    let s := server.setDescriptor o' sha1Digest (some descriptor)
    (s.1 = .waits ∨ s.1 = .returned ()) ∧ (c.1 = .waits ∨ c.1 = .returned .success) ∧
      ((∀ data, (sendLoop data 0 client.tx).1 ≠ none) → (∀ data, (sendLoop data 0 server.tx).1 ≠ none) →
        Sender.out c.2.tx = Sender.out client.tx ++ Receiver.pending server.rx →
        Sender.out s.2.tx = Sender.out server.tx ++ Receiver.pending client.rx →
        s.1 = .returned () ∧ c.1 = .returned .success) := by
  intro c s
  have hvalue := WebSocket.encode_value htime hkey
  obtain ⟨derivedKey, hderived, hkeyvalue, hkeylength⟩ := WebSocket.deriveKey_eq sha1Digest websocketKey
  obtain ⟨put, e, hput, hputpre, hputall⟩ := client.connect_out o sha1Digest hkey path wsProtocols hclient
  obtain ⟨up, hup, huprx⟩ := hup
  obtain rfl : up = put := List.append_cancel_left (hup.symm.trans hput)
  -- the server, on what the client has put on the wire
  obtain hblocks | ⟨part, hpart, hout, hs⟩ := server.setDescriptor_stream sha1Digest o' o hvalue hpath hprotocols
    haddress hsize hderived hdescriptor (huprx.trans hputpre)
  · exact absurd hblocks Http.not_blocks
  obtain ⟨down, hdown, hdownrx⟩ := hdown
  obtain rfl : down = part := List.append_cancel_left (hdown.symm.trans hout)
  have hserver : s.1 = .waits ∨ s.1 = .returned () := hs.imp And.left And.left
  have hanswers : (∀ data, (sendLoop data 0 client.tx).1 ≠ none) → (∀ data, (sendLoop data 0 server.tx).1 ≠ none) →
      Sender.out c.2.tx = Sender.out client.tx ++ Receiver.pending server.rx →
      s.1 = .returned () ∧ down = (WebSocket.upgradeResponse derivedKey).construct o' server.remoteAddress := by
    intro hsends hsends' harrived
    have hall : Receiver.pending server.rx = up := List.append_cancel_left (harrived.symm.trans hput)
    rcases hs with ⟨_, hshort | hnone⟩ | hreturned
    · exact absurd (hall.trans (hputall hsends)) hshort
    · exact absurd hnone (hsends' _)
    · exact hreturned
  -- the client, on what the server has answered
  obtain ⟨tx, part, hconnect, hnone, _, _⟩ | ⟨tx, hconnect, _⟩ :=
    client.connect_sends o sha1Digest hkey path wsProtocols hclient
  · have hc : c.1 = .waits := congrArg Prod.fst hconnect
    exact ⟨hserver, .inl hc, fun hsends _ _ _ => absurd hnone (hsends _)⟩
  · have hrx : Receiver.pending client.rx <+:
        (WebSocket.upgradeResponse derivedKey).construct o' server.remoteAddress ++ [] := by
      rw [List.append_nil]
      exact hdownrx.trans hpart
    have hc : c.1 = (({ client with tx := tx } : WebSocket σ τ).receiveUpgrade sha1Digest websocketKey).1 :=
      congrArg Prod.fst hconnect
    obtain ⟨hwaits, _, _, hshort⟩ | ⟨_, _, hblocks⟩ | ⟨v, rx, _, _, _, hupgrade⟩ :=
      ({ client with tx := tx } : WebSocket σ τ).receiveUpgrade_stream sha1Digest websocketKey o' hkeyvalue hkeylength
        server.remoteAddress hrx
    · refine ⟨hserver, .inl (hc.trans hwaits), fun hsends hsends' harrived harrived' => ?_⟩
      have hall : Receiver.pending client.rx = down := List.append_cancel_left (harrived'.symm.trans hout)
      exact absurd (hall.trans (hanswers hsends hsends' harrived).2) hshort
    · exact absurd hblocks Http.not_blocks
    · rw [if_pos hderived] at hupgrade
      have hsuccess : c.1 = .returned .success := hc.trans (congrArg Prod.fst hupgrade)
      exact ⟨hserver, .inr hsuccess, fun hsends hsends' harrived _ => ⟨(hanswers hsends hsends' harrived).1, hsuccess⟩⟩

def sampleKey : Bytes := bytes "MTUxOTkwMDgwMA=="

/-- The digest of the sample's key. -/
def sampleDigest (_ : Bytes) : Digest :=
  ⟨[67, 202, 200, 148, 106, 207, 153, 223, 113, 201, 42, 86, 249, 249, 71, 193, 134, 86, 130, 247], rfl⟩

def sampleAccept : Bytes := bytes "Q8rIlGrPmd9xySpW+flHwYZWgvc="

/-- A path with a space, a query and an `HTTP` in it. -/
def samplePath : Bytes := bytes "chat room?v=HTTP"

def sampleRequest : Bytes :=
  (WebSocket.upgradeRequest sampleKey samplePath [bytes "chat", []]).construct .kept (bytes "localhost:80")

def sampleResponse : Bytes := (WebSocket.upgradeResponse sampleAccept).construct .kept []

def upgradeClient : WebSocket BlockingReader FifoWriter :=
  ⟨3, bytes "localhost:80", 0, ⟨⟨⟨true, sampleResponse, [.received 8, .eintr, .received 100]⟩, by decide⟩, rfl⟩,
    ⟨⟨true, [], []⟩, by decide⟩⟩

def upgradeServer : WebSocket BlockingReader FifoWriter :=
  ⟨-1, [], 0, ⟨⟨⟨true, sampleRequest, [.received 0, .received 60]⟩, by decide⟩, rfl⟩, ⟨⟨true, [], []⟩, by decide⟩⟩

theorem sampleKey_encoded : Base64.encode (bytes "1519900800") = some sampleKey := Base64.encode_eq (by decide)

theorem sampleAccept_derived : WebSocket.deriveKey sampleDigest sampleKey = some sampleAccept := Base64.encode_eq (by decide)

theorem sends_return {data : Bytes} : (sendLoop data 0 upgradeClient.tx).1 ≠ none := by
  have hraw : Sender.sendRaw data 0 upgradeClient.tx = (some (.success, max 0 data.length), _) := rfl
  rw [sendLoop_done hraw (by decide)]
  simp

theorem sampleAccept_value : Http.Value sampleAccept := ⟨by decide, by decide, forall_of_all (by decide)⟩

theorem sampleAddress_print : ∀ b ∈ bytes "localhost:80", isPrint b = true := forall_of_all (by decide)

theorem samplePath_print : ∀ b ∈ samplePath, isPrint b = true := forall_of_all (by decide)

theorem sampleProtocols_print : ∀ p ∈ [bytes "chat", []], ∀ b ∈ p, isPrint b = true := by
  have hchat : ∀ b ∈ bytes "chat", isPrint b = true := forall_of_all (by decide)
  intro p hp b hb
  simp only [List.mem_cons, List.not_mem_nil, or_false] at hp
  rcases hp with rfl | rfl
  · exact hchat b hb
  · cases hb

theorem sampleRequest_size : sampleRequest.length ≤ maxHttpHeaderSize := by decide +kernel

theorem upgradeClient_puts :
    Sender.out (upgradeClient.connect .kept sampleDigest .success (bytes "1519900800") samplePath
      [bytes "chat", []]).2.tx = Sender.out upgradeClient.tx ++ sampleRequest := by
  obtain ⟨_, _, _, hnone, _⟩ | ⟨tx, hconnect, hout⟩ := upgradeClient.connect_sends .kept sampleDigest sampleKey_encoded
    samplePath [bytes "chat", []] (by decide)
  · exact absurd hnone sends_return
  · have hrx : Receiver.pending upgradeClient.rx <+: sampleResponse ++ [] := List.prefix_append _ _
    rw [hconnect]
    refine Eq.trans (congrArg Sender.out ?_) hout
    obtain ⟨_, htx, _⟩ | ⟨_, htx, _⟩ | ⟨_, rx, _, _, _, hupgrade⟩ :=
      WebSocket.receiveUpgrade_stream { upgradeClient with tx := tx } sampleDigest sampleKey .kept sampleAccept_value
        (by decide) [] hrx
    · exact htx
    · exact htx
    · rw [hupgrade, if_pos sampleAccept_derived]

theorem upgradeServer_answers :
    (upgradeServer.setDescriptor .kept sampleDigest (some 4)).1 = .returned () ∧
      Sender.out (upgradeServer.setDescriptor .kept sampleDigest (some 4)).2.tx =
        Sender.out upgradeServer.tx ++ sampleResponse := by
  have hrx : Receiver.pending upgradeServer.rx <+: sampleRequest ++ [] := List.prefix_append _ _
  obtain hblocks | ⟨part, _, hout, ⟨_, hshort | hnone⟩ | ⟨hreturned, hpart⟩⟩ := upgradeServer.setDescriptor_stream sampleDigest
    .kept .kept (WebSocket.encode_value (by decide) sampleKey_encoded) samplePath_print sampleProtocols_print
    sampleAddress_print sampleRequest_size sampleAccept_derived (d := 4) (by decide) hrx
  · exact absurd hblocks Http.not_blocks
  · exact absurd (List.append_nil _).symm hshort
  · exact absurd hnone sends_return
  · refine ⟨hreturned, ?_⟩
    rw [hout, hpart]
    rfl

theorem handshake_agrees_sample :
    (upgradeServer.setDescriptor .kept sampleDigest (some 4)).1 = .returned () ∧
      (upgradeClient.connect .kept sampleDigest .success (bytes "1519900800") samplePath [bytes "chat", []]).1 =
        .returned .success :=
  (handshake_agrees upgradeClient upgradeServer .kept .kept sampleDigest (bytes "1519900800") sampleKey samplePath
    [bytes "chat", []] 4 (by decide) sampleKey_encoded samplePath_print sampleProtocols_print sampleAddress_print (by decide)
    (by decide) sampleRequest_size ⟨_, upgradeClient_puts, List.prefix_rfl⟩ ⟨_, upgradeServer_answers.2, List.prefix_rfl⟩).2.2
    (fun _ => sends_return) (fun _ => sends_return) upgradeClient_puts upgradeServer_answers.2

end Frnetlib
