/-
  Frnetlib.WebSocket.Upgrade — the two messages of the handshake, as the other side
  reads them.

  Whatever printable path, protocols and address the request is made of, it is read as
  a `GET` that asks for the upgrade, with its key (`upgradeRequest_parses`). The answer
  is read as a 101 with the key derived (`upgradeResponse_parses`), and stays far below
  the limit on headers (`upgradeResponse_length`). Both hold for any cuts and whatever
  bytes come in the same block behind the message.
-/

import Frnetlib.Http.RequestLine
import Frnetlib.Http.ResponseRoundTrip
import Frnetlib.WebSocket.WebSocket

namespace Frnetlib

open Base Socket

namespace WebSocket

/-! ## The request -/

theorem upgradeRequest_nil (websocketKey path : Bytes) :
    (upgradeRequest websocketKey path []).headerData.entries =
      [⟨bytes "upgrade", bytes "websocket"⟩, ⟨bytes "connection", bytes "upgrade"⟩,
        ⟨bytes "sec-websocket-version", bytes "13"⟩, ⟨bytes "sec-websocket-key", websocketKey⟩] := by
  unfold upgradeRequest
  simp only
  rw [HttpRequest.setUri_headerData]
  rfl

theorem upgradeRequest_cons (websocketKey path protocol : Bytes) (protocols : List Bytes) :
    (upgradeRequest websocketKey path (protocol :: protocols)).headerData.entries =
      [⟨bytes "upgrade", bytes "websocket"⟩, ⟨bytes "connection", bytes "upgrade"⟩,
        ⟨bytes "sec-websocket-protocol", joinProtocols protocol protocols⟩,
        ⟨bytes "sec-websocket-version", bytes "13"⟩, ⟨bytes "sec-websocket-key", websocketKey⟩] := by
  unfold upgradeRequest
  simp only
  rw [HttpRequest.setUri_headerData]
  rfl

/-- The names of the headers of the request. -/
def upgradeNames : List Bytes :=
  [bytes "upgrade", bytes "connection", bytes "sec-websocket-protocol", bytes "sec-websocket-version",
    bytes "sec-websocket-key"]

theorem joinProtocols_print {first : Bytes} {protocols : List Bytes} (hfirst : ∀ b ∈ first, isPrint b = true)
    (h : ∀ p ∈ protocols, ∀ b ∈ p, isPrint b = true) : ∀ b ∈ joinProtocols first protocols, isPrint b = true := by
  have hcomma : ∀ b ∈ bytes ", ", isPrint b = true := forall_of_all (by decide)
  unfold joinProtocols
  induction protocols generalizing first with
  | nil => exact hfirst
  | cons protocol protocols ih =>
    obtain ⟨hprotocol, hrest⟩ := List.forall_mem_cons.mp h
    refine ih ?_ hrest
    intro b hb
    rcases List.mem_append.mp hb with hb | hb
    · exact hfirst b hb
    · rcases List.mem_append.mp hb with hb | hb
      · exact hcomma b hb
      · exact hprotocol b hb

theorem upgradeRequest_printable {websocketKey : Bytes} (path : Bytes) {wsProtocols : List Bytes}
    (hkey : ∀ b ∈ websocketKey, isPrint b = true) (hprotocols : ∀ p ∈ wsProtocols, ∀ b ∈ p, isPrint b = true) :
    Http.Printable (upgradeRequest websocketKey path wsProtocols).headerData := by
  have hnames : ∀ k ∈ upgradeNames, k.map tolower = k ∧ k.all isPrint = true ∧ 58 ∉ k := by decide
  have hwebsocket : ∀ b ∈ bytes "websocket", isPrint b = true := forall_of_all (by decide)
  have hupgrade : ∀ b ∈ bytes "upgrade", isPrint b = true := forall_of_all (by decide)
  have hversion : ∀ b ∈ bytes "13", isPrint b = true := forall_of_all (by decide)
  intro c hc
  suffices h : c.1 ∈ upgradeNames ∧ ∀ b ∈ c.2, isPrint b = true by
    obtain ⟨hlow, hprint, hcolon⟩ := hnames _ h.1
    exact ⟨hlow, List.all_eq_true.mp hprint, hcolon, h.2⟩
  cases wsProtocols with
  | nil =>
    rw [upgradeRequest_nil] at hc
    simp only [List.mem_cons, List.not_mem_nil, or_false] at hc
    rcases hc with rfl | rfl | rfl | rfl
    · exact ⟨by simp [upgradeNames], hwebsocket⟩
    · exact ⟨by simp [upgradeNames], hupgrade⟩
    · exact ⟨by simp [upgradeNames], hversion⟩
    · exact ⟨by simp [upgradeNames], hkey⟩
  | cons protocol protocols =>
    obtain ⟨hprotocol, hrest⟩ := List.forall_mem_cons.mp hprotocols
    rw [upgradeRequest_cons] at hc
    simp only [List.mem_cons, List.not_mem_nil, or_false] at hc
    rcases hc with rfl | rfl | rfl | rfl | rfl
    · exact ⟨by simp [upgradeNames], hwebsocket⟩
    · exact ⟨by simp [upgradeNames], hupgrade⟩
    · exact ⟨by simp [upgradeNames], joinProtocols_print hprotocol hrest⟩
    · exact ⟨by simp [upgradeNames], hversion⟩
    · exact ⟨by simp [upgradeNames], hkey⟩

theorem upgradeRequest_lookup (websocketKey path : Bytes) (wsProtocols : List Bytes) :
    (upgradeRequest websocketKey path wsProtocols).headerData.lookup (bytes "upgrade") = some (bytes "websocket") ∧
      (upgradeRequest websocketKey path wsProtocols).headerData.lookup (bytes "sec-websocket-key") = some websocketKey ∧
      bytes "content-length" ∉ (upgradeRequest websocketKey path wsProtocols).headerData := by
  rw [← AList.lookup_eq_none]
  simp only [AList.lookup]
  cases wsProtocols with
  | nil =>
    rw [upgradeRequest_nil]
    exact ⟨rfl, rfl, rfl⟩
  | cons protocol protocols =>
    rw [upgradeRequest_cons]
    exact ⟨rfl, rfl, rfl⟩

/-- The request is a fresh one but for its headers and its target. -/
theorem upgradeRequest_eq (websocketKey path : Bytes) (wsProtocols : List Bytes) :
    ∃ headerData : StrMap, upgradeRequest websocketKey path wsProtocols =
      { HttpRequest.fresh with toHttp := ({ Http.fresh with headerData := headerData } : Http).setUri path } := by
  cases wsProtocols with
  | nil => exact ⟨_, rfl⟩
  | cons protocol protocols => exact ⟨_, rfl⟩

theorem upgradeRequest_target (websocketKey : Bytes) {path : Bytes} (wsProtocols : List Bytes)
    (hpath : ∀ b ∈ path, isPrint b = true) :
    47 ∈ (upgradeRequest websocketKey path wsProtocols).uri ∧
      ∀ b ∈ (upgradeRequest websocketKey path wsProtocols).uri, isPrint b = true := by
  obtain ⟨headerData, heq⟩ := upgradeRequest_eq websocketKey path wsProtocols
  rw [heq]
  exact HttpRequest.setUri_target rfl hpath

/-- The lines of its header block, with the target in the first. -/
theorem upgradeRequest_construct (o : Order) (websocketKey path : Bytes) (wsProtocols : List Bytes) (host : Bytes) :
    (upgradeRequest websocketKey path wsProtocols).construct o host =
      Http.block ((bytes "GET" ++ SP :: ((upgradeRequest websocketKey path wsProtocols).uri ++ bytes " HTTP/1.1")) ::
        (upgradeRequest websocketKey path wsProtocols).fieldLines o host) := by
  obtain ⟨headerData, heq⟩ := upgradeRequest_eq websocketKey path wsProtocols
  obtain ⟨uri, huri⟩ := HttpRequest.setUri_eq { Http.fresh with headerData := headerData } path
  rw [huri] at heq
  rw [heq, HttpRequest.construct_block o rfl]
  have hline : bytes "GET" ++ SP :: (uri ++ []) ++ SP :: bytes "HTTP/1.1" =
      bytes "GET" ++ SP :: (uri ++ bytes " HTTP/1.1") := by
    rw [List.append_nil, List.append_assoc, List.cons_append]
    rfl
  rw [← hline]
  exact List.append_nil _

theorem upgradeRequest_defaults (websocketKey path : Bytes) (wsProtocols : List Bytes) {host : Bytes} {d : Entry}
    (hd : d ∈ (upgradeRequest websocketKey path wsProtocols).defaults host) :
    d.1.map tolower = bytes "connection" ∨ d.1.map tolower = bytes "host" := by
  obtain ⟨headerData, heq⟩ := upgradeRequest_eq websocketKey path wsProtocols
  obtain ⟨uri, huri⟩ := HttpRequest.setUri_eq { Http.fresh with headerData := headerData } path
  rcases HttpRequest.mem_defaults hd with ⟨rfl, _⟩ | ⟨rfl, _⟩ | ⟨_, hbody⟩
  · exact .inl (show (bytes "Connection").map tolower = _ by decide)
  · exact .inr (show (bytes "Host").map tolower = _ by decide)
  · rw [heq, huri] at hbody
    exact absurd rfl hbody

/-- However it comes in, and whatever comes right behind it, the request is read as one
    that asks for the upgrade, with its key. -/
theorem upgradeRequest_parses (o : Order) {websocketKey path host : Bytes} {wsProtocols : List Bytes}
    (hkey : Http.Value websocketKey) (hpath : ∀ b ∈ path, isPrint b = true)
    (hprotocols : ∀ p ∈ wsProtocols, ∀ b ∈ p, isPrint b = true) (hhost : ∀ b ∈ host, isPrint b = true)
    (hsize : ((upgradeRequest websocketKey path wsProtocols).construct o host).length ≤ maxHttpHeaderSize) :
    Http.Parses HttpRequest.parse .fresh ((upgradeRequest websocketKey path wsProtocols).construct o host) ∧
      ∀ v, v.length ≤ recvChunkSize →
        let r := (HttpRequest.parse .fresh ((upgradeRequest websocketKey path wsProtocols).construct o host ++ v)).2
        r.requestType = .get ∧ r.header (bytes "Upgrade") = bytes "websocket" ∧
          r.header (bytes "sec-websocket-key") = websocketKey := by
  have hm := upgradeRequest_printable path hkey.2.2 hprotocols
  obtain ⟨hupgrade, hwebkey, hlength⟩ := upgradeRequest_lookup websocketKey path wsProtocols
  obtain ⟨hslash, huri⟩ := upgradeRequest_target websocketKey wsProtocols hpath
  have hperm := o.headers_perm (upgradeRequest websocketKey path wsProtocols).headerData
  have hds := HttpRequest.defaults_lines hlength hhost
  have hvalue : Http.Value (bytes "websocket") := ⟨by decide, by decide, forall_of_all (by decide)⟩
  have hnone := hm.named.lookup_other hperm hds.added hlength fun d hd => by
    rcases upgradeRequest_defaults websocketKey path wsProtocols hd with hd | hd
    · rw [hd]; decide
    · rw [hd]; decide
  obtain ⟨r, hread, htype, hzero, hlookup⟩ := HttpRequest.readHeader_get hslash hnone
  have hlines : ∀ l ∈ (bytes "GET" ++ SP :: ((upgradeRequest websocketKey path wsProtocols).uri ++ bytes " HTTP/1.1")) ::
      (upgradeRequest websocketKey path wsProtocols).fieldLines o host, Http.Plain l := by
    have hget : ∀ b ∈ bytes "GET", isPrint b = true := forall_of_all (by decide)
    have hversion : ∀ b ∈ bytes " HTTP/1.1", isPrint b = true := forall_of_all (by decide)
    refine List.forall_mem_cons.mpr ⟨Http.plain_of_print (by simp) fun b hb => ?_, hm.plain hperm hds⟩
    simp only [List.mem_append, List.mem_cons] at hb
    rcases hb with hb | rfl | hb | hb
    · exact hget b hb
    · decide
    · exact huri b hb
    · exact hversion b hb
  rw [upgradeRequest_construct] at hsize ⊢
  have hget : Http.requestTypeToString .get <+: bytes "GET" ++ SP ::
      ((upgradeRequest websocketKey path wsProtocols).uri ++ bytes " HTTP/1.1") := List.prefix_append _ _
  refine ⟨HttpRequest.parses_block hlines (by decide) hget hread hzero hsize, fun v hv => ?_⟩
  obtain ⟨post, hparse⟩ := HttpRequest.parse_block_any hlines (by decide) hget hread hzero hsize hv
  simp only [hparse]
  refine ⟨htype, ?_, ?_⟩
  · rw [Http.header, show (bytes "Upgrade").map tolower = bytes "upgrade" by decide, hlookup,
      hm.named.lookup hperm hds.added hupgrade hvalue]
    rfl
  · rw [Http.header, show (bytes "sec-websocket-key").map tolower = bytes "sec-websocket-key" by decide, hlookup,
      hm.named.lookup hperm hds.added hwebkey hkey]
    rfl

end WebSocket

/-! ## The response -/

/-- A response without a body that `construct` writes, and what comes right behind it. -/
theorem HttpResponse.Writable.parses {r : HttpResponse} (hr : r.Writable) (hbody : r.body = []) (o : Order) (host : Bytes)
    (hsize : (r.construct o host).length ≤ maxHttpHeaderSize) :
    Http.Parses HttpResponse.parse .fresh (r.construct o host) ∧
      ∀ v, v.length ≤ recvChunkSize →
        let x := (HttpResponse.parse .fresh (r.construct o host ++ v)).2
        x.status = r.status ∧ ∀ k w, r.headerData.lookup k = some w → x.headerData.lookup k = some w := by
  have hperm := o.headers_perm r.headerData
  have hlines : ∀ l ∈ r.statusLine :: r.fieldLines o, Http.Plain l :=
    List.forall_mem_cons.mpr ⟨r.statusLine_plain, hr.headers.printable.plain hperm hr.defaults⟩
  obtain ⟨r', hread, hstatus, _, hchunked, hlength, hlookup⟩ := hr.read o (by rw [hbody]; decide)
  rw [hbody] at hlength
  rw [HttpResponse.construct_block o hr host, hbody, List.append_nil] at hsize ⊢
  refine ⟨HttpResponse.parses_block hlines r.statusLine_http hread hchunked hlength hsize, fun v hv => ?_⟩
  simp only [HttpResponse.parse_block_any hlines r.statusLine_http hread hchunked hlength hsize hv]
  refine ⟨hstatus, fun k w hk => ?_⟩
  rw [hlookup]
  exact hr.headers.lookup hperm hr.defaults hk

namespace WebSocket

theorem upgradeResponse_entries (derivedKey : Bytes) :
    (upgradeResponse derivedKey).headerData.entries =
      [⟨bytes "sec-websocket-accept", derivedKey⟩, ⟨bytes "connection", bytes "Upgrade"⟩,
        ⟨bytes "upgrade", bytes "websocket"⟩] := rfl

theorem upgradeResponse_writable {derivedKey : Bytes} (hkey : Http.Value derivedKey) :
    (upgradeResponse derivedKey).Writable where
  status := show (101 : Int) ∈ requestStatus by decide
  version := .inr rfl
  headers := by
    intro c hc
    rw [upgradeResponse_entries] at hc
    simp only [List.mem_cons, List.not_mem_nil, or_false] at hc
    rcases hc with rfl | rfl | rfl
    · exact ⟨show (bytes "sec-websocket-accept").map tolower = bytes "sec-websocket-accept" by decide,
        forall_of_all (show (bytes "sec-websocket-accept").all _ = true by decide),
        show _ ∉ bytes "sec-websocket-accept" by decide, hkey⟩
    · exact ⟨by decide, forall_of_all (by decide), by decide, by decide, by decide, forall_of_all (by decide)⟩
    · exact ⟨by decide, forall_of_all (by decide), by decide, by decide, by decide, forall_of_all (by decide)⟩
  content_length := AList.lookup_eq_none.mp (by rw [AList.lookup, upgradeResponse_entries]; rfl)
  transfer_encoding := AList.lookup_eq_none.mp (by rw [AList.lookup, upgradeResponse_entries]; rfl)

theorem upgradeResponse_length (o : Order) {derivedKey : Bytes} (hkey : Http.Value derivedKey)
    (hlength : derivedKey.length ≤ 28) (host : Bytes) :
    ((upgradeResponse derivedKey).construct o host).length ≤ maxHttpHeaderSize := by
  have hperm := o.headers_perm (upgradeResponse derivedKey).headerData
  have hlen := ((hperm.map Http.fieldText).flatMap_right (· ++ crlf)).length_eq
  have hdefaults : (upgradeResponse derivedKey).defaults = [⟨bytes "content-type", bytes "text/html"⟩] := rfl
  have hbody : (upgradeResponse derivedKey).body = [] := rfl
  have hstatus : (upgradeResponse derivedKey).statusLine = bytes "HTTP/1.1" ++ SP :: (toDec 101 ++ [SP]) := rfl
  have hline : (upgradeResponse derivedKey).statusLine.length = 13 := by
    rw [hstatus]
    decide
  rw [HttpResponse.construct_block o (upgradeResponse_writable hkey) host, Http.block_cons, hbody, Http.block,
    HttpResponse.fieldLines, hdefaults, List.map_append, List.flatMap_append]
  simp only [List.length_append, List.length_cons, List.length_nil, hlen, upgradeResponse_entries, List.map_cons, List.map_nil,
    List.flatMap_cons, List.flatMap_nil, Http.fieldText, hline]
  simp [bytes, crlf, maxHttpHeaderSize]
  omega

/-- However it comes in, and whatever comes right behind it, the answer is read as a 101
    with the key. -/
theorem upgradeResponse_parses (o : Order) {derivedKey : Bytes} (hkey : Http.Value derivedKey)
    (hlength : derivedKey.length ≤ 28) (host : Bytes) :
    Http.Parses HttpResponse.parse .fresh ((upgradeResponse derivedKey).construct o host) ∧
      ∀ v, v.length ≤ recvChunkSize →
        let r := (HttpResponse.parse .fresh ((upgradeResponse derivedKey).construct o host ++ v)).2
        r.status = 101 ∧ r.header (bytes "sec-websocket-accept") = derivedKey := by
  obtain ⟨hparses, hread⟩ :=
    (upgradeResponse_writable hkey).parses rfl o host (upgradeResponse_length o hkey hlength host)
  refine ⟨hparses, fun v hv => ?_⟩
  obtain ⟨hstatus, hlookup⟩ := hread v hv
  refine ⟨hstatus, ?_⟩
  have haccept : (upgradeResponse derivedKey).headerData.lookup (bytes "sec-websocket-accept") = some derivedKey := by
    rw [AList.lookup, upgradeResponse_entries]
    rfl
  rw [Http.header, show (bytes "sec-websocket-accept").map tolower = bytes "sec-websocket-accept" by decide,
    hlookup _ _ haccept]
  rfl

/-! ## The keys -/

theorem text_value {s : Bytes} (hs : s ≠ []) : Http.Value (Base64.text s) := by
  have hprint := Base64.text_print s
  have hne : Base64.text s ≠ [] := by
    intro hnil
    have hlen := Base64.text_length s
    have hpos := List.length_pos_iff.mpr hs
    rw [hnil, List.length_nil] at hlen
    omega
  refine ⟨hne, fun hhead => ?_, fun b hb => (hprint b hb).1⟩
  exact (hprint SP (List.mem_of_mem_head? (by rw [hhead]; rfl))).2 rfl

theorem encode_value {s key : Bytes} (hs : 2 ≤ s.length) (h : Base64.encode s = some key) : Http.Value key := by
  rw [Base64.encode_eq hs] at h
  cases h
  refine text_value ?_
  intro heq
  subst heq
  exact absurd hs (by decide)

/-- A digest is long enough to be encoded, and short enough for a header. -/
theorem deriveKey_eq (sha1Digest : Bytes → Digest) (websocketKey : Bytes) :
    ∃ derivedKey, deriveKey sha1Digest websocketKey = some derivedKey ∧ Http.Value derivedKey ∧
      derivedKey.length ≤ 28 := by
  have hdigest := (sha1Digest (websocketKey ++ guid)).2
  refine ⟨Base64.text (sha1Digest (websocketKey ++ guid)).1, Base64.encode_eq (by omega), text_value ?_, ?_⟩
  · intro hnil
    rw [hnil] at hdigest
    exact absurd hdigest (by decide)
  · rw [Base64.text_length, hdigest]

end WebSocket

end Frnetlib
