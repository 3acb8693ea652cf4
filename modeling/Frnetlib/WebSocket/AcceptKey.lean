/-
  Frnetlib.WebSocket.AcceptKey — the value by which a client tells a server that speaks
  the protocol.

  With `Sha1::sha1_digest` for the digest, the value derived from a key is the Base64 text
  of the SHA-1 of the key and the protocol's identifier, 28 characters (`deriveKey_sha1`).
  Of all the responses that a server may write, with any status and headers,
  `connect` takes exactly the 101s that carry this value (`connect_accepts`).
-/

import Frnetlib.WebSocket.Base64Text
import Frnetlib.WebSocket.Handshake
import Frnetlib.WebSocket.Sha1Digest

namespace Frnetlib

open Base Socket

namespace WebSocket

/-- `Sha1::sha1_digest` -/
def sha1Digest (input : Bytes) : Digest := ⟨Sha1.sha1Digest input, Sha1.sha1Digest_length input⟩

/-- What the protocol has a server answer to a key. -/
def acceptKey (websocketKey : Bytes) : Bytes := Base64.rfc4648.encode (SecureHash.sha1 (websocketKey ++ guid))

theorem acceptKey_length (websocketKey : Bytes) : (acceptKey websocketKey).length = 28 := by
  rw [acceptKey, Base64.rfc4648.encode_length, SecureHash.sha1, SecureHash.output_length]

theorem deriveKey_sha1 (websocketKey : Bytes) : deriveKey sha1Digest websocketKey = some (acceptKey websocketKey) := by
  have hlength := Sha1.sha1Digest_length (websocketKey ++ guid)
  change Base64.encode (Sha1.sha1Digest (websocketKey ++ guid)) = _
  rw [Base64.encode_eq (by omega), Base64.text_rfc4648, Sha1.sha1Digest_eq, acceptKey]

example : acceptKey (bytes "MTUxOTkwMDgwMA==") = bytes "Q8rIlGrPmd9xySpW+flHwYZWgvc=" := by decide +kernel

end WebSocket

/-! ## The headers of a response, as the other side reads them -/

/-- One that `construct` does not add is found with its value, or not at all. -/
theorem HttpResponse.Writable.parses_headers {r : HttpResponse} (hr : r.Writable) (hbody : r.body = []) (o : Order)
    (host : Bytes) (hsize : (r.construct o host).length ≤ maxHttpHeaderSize) {k : Bytes}
    (hk : k ∉ [bytes "connection", bytes "content-type", bytes "content-length"]) {v : Bytes} (hv : v.length ≤ recvChunkSize) :
    (HttpResponse.parse .fresh (r.construct o host ++ v)).2.headerData.lookup k = r.headerData.lookup k := by
  have hperm := o.headers_perm r.headerData
  have hlines : ∀ l ∈ r.statusLine :: r.fieldLines o, Http.Plain l :=
    List.forall_mem_cons.mpr ⟨r.statusLine_plain, hr.headers.printable.plain hperm hr.defaults⟩
  obtain ⟨r', hread, -, -, hchunked, hlength, hlookup⟩ := hr.read o (by rw [hbody]; decide)
  rw [hbody] at hlength
  rw [HttpResponse.construct_block o hr host, hbody, List.append_nil] at hsize ⊢
  rw [HttpResponse.parse_block_any hlines r.statusLine_http hread hchunked hlength hsize hv, hlookup]
  by_cases hmem : k ∈ r.headerData
  · obtain ⟨w, hw⟩ := Option.isSome_iff_exists.mp (AList.lookup_isSome.mpr hmem)
    rw [hw]
    exact hr.headers.lookup hperm hr.defaults hw
  · rw [AList.lookup_eq_none.mpr hmem]
    refine hr.headers.printable.named.lookup_other hperm hr.defaults.added hmem fun d hd heq => hk ?_
    rw [← heq]
    exact HttpResponse.defaults_names hd

namespace WebSocket

variable {σ τ : Type} [BlockingReceiver σ] [FifoSender τ]

/-- Behind its request, on a stream that is any response without a body and then anything. -/
theorem receiveUpgrade_accepts (s : WebSocket σ τ) (websocketKey : Bytes) {r : HttpResponse} (hr : r.Writable)
    (hbody : r.body = []) (o : Order) (host : Bytes) (hsize : (r.construct o host).length ≤ maxHttpHeaderSize)
    {rest : Bytes} (hrx : Receiver.pending s.rx = r.construct o host ++ rest) :
    (s.receiveUpgrade sha1Digest websocketKey).1 = .returned .success ↔
      r.status = 101 ∧ r.headerData.lookup (bytes "sec-websocket-accept") = some (acceptKey websocketKey) := by
  obtain ⟨hparses, hread⟩ := hr.parses hbody o host hsize
  have hsome : acceptKey websocketKey ≠ [] := by
    intro hnil
    have hlength := acceptKey_length websocketKey
    rw [hnil] at hlength
    cases hlength
  have hpending : Receiver.pending s.rx <+: r.construct o host ++ rest := by rw [hrx]
  unfold receiveUpgrade receiveHttp
  obtain ⟨-, hpre, hne⟩ | ⟨-, hblocks⟩ | ⟨v, rx, hdone, -, hv, -⟩ := Http.receive_stream hparses s.rx hpending
  · rw [hrx] at hpre hne
    exact absurd ((List.prefix_append _ rest).eq_of_length_le hpre.length_le).symm hne
  · exact absurd hblocks Http.not_blocks
  · obtain ⟨hstatus, -⟩ := hread v hv
    have hheader := hr.parses_headers hbody o host hsize (k := bytes "sec-websocket-accept") (by decide) hv
    have hfound : (HttpResponse.parse .fresh (r.construct o host ++ v)).2.header (bytes "sec-websocket-accept") =
        acceptKey websocketKey ↔ r.headerData.lookup (bytes "sec-websocket-accept") = some (acceptKey websocketKey) := by
      rw [Http.header, show (bytes "sec-websocket-accept").map tolower = bytes "sec-websocket-accept" by decide, hheader]
      cases r.headerData.lookup (bytes "sec-websocket-accept") with
      | none => simp [Ne.symm hsome]
      | some w => simp
    simp only [hdone, deriveKey_sha1, hstatus]
    by_cases hcode : r.status = 101
    · by_cases haccept : (HttpResponse.parse .fresh (r.construct o host ++ v)).2.header (bytes "sec-websocket-accept") =
          acceptKey websocketKey
      · simp [hcode, haccept, hfound.mp haccept]
      · simp [hcode, haccept, mt hfound.mpr haccept, handshakeFailed_fails]
    · simp [hcode, handshakeFailed_fails]

/-- Once its request is out, on a stream that is any response without a body and then
    anything: `connect` succeeds exactly when the response switches protocols and carries
    the value that answers the key, the Base64 text of the time. -/
theorem connect_accepts (s : WebSocket σ τ) (o : Order) {time : Bytes} (htime : 2 ≤ time.length) (path : Bytes)
    (wsProtocols : List Bytes) (hconn : s.connected = true) (hsends : ∀ data, (sendLoop data 0 s.tx).1 ≠ none)
    {r : HttpResponse} (hr : r.Writable) (hbody : r.body = []) (o' : Order) (host : Bytes)
    (hsize : (r.construct o' host).length ≤ maxHttpHeaderSize) {rest : Bytes}
    (hrx : Receiver.pending s.rx = r.construct o' host ++ rest) :
    (s.connect o sha1Digest .success time path wsProtocols).1 = .returned .success ↔
      r.status = 101 ∧
        r.headerData.lookup (bytes "sec-websocket-accept") = some (acceptKey (Base64.rfc4648.encode time)) := by
  have hkey : Base64.encode time = some (Base64.rfc4648.encode time) := by
    rw [Base64.encode_eq htime, Base64.text_rfc4648]
  obtain ⟨_, _, _, hnone, _⟩ | ⟨tx, hconnect, -⟩ := s.connect_sends o sha1Digest hkey path wsProtocols hconn
  · exact absurd hnone (hsends _)
  · rw [hconnect]
    exact receiveUpgrade_accepts { s with tx := tx } _ hr hbody o' host hsize hrx

end WebSocket

/-- The client of the sample, and the response its server gives. -/
theorem connect_accepts_sample :
    (upgradeClient.connect .kept WebSocket.sha1Digest .success (bytes "1519900800") samplePath [bytes "chat", []]).1 =
      .returned .success :=
  (WebSocket.connect_accepts upgradeClient .kept (by decide) samplePath [bytes "chat", []] (by decide) (fun _ => sends_return)
    (WebSocket.upgradeResponse_writable sampleAccept_value) rfl .kept [] (by decide +kernel)
    (List.append_nil sampleResponse).symm).mpr ⟨by decide, by decide +kernel⟩

end Frnetlib
