/-
  Frnetlib.Http.RewriteResponse — a response that was read, written by `construct` and
  read again, and the same of both kinds of messages (`reserialised`).

  A chunked body has been decoded, but the header that announces its chunks is written
  again, and reading what is no longer in chunks cannot give it back. A code below zero
  is written as the unsigned number it is not.
-/

import Frnetlib.Http.ResponseRoundTrip
import Frnetlib.Http.RewriteRequest

namespace Frnetlib

open Base

namespace HttpResponse

variable {x : HttpResponse}

/-! ## What was read -/

/-- What a response holds after its header was read. -/
structure HeadRead (r : HttpResponse) : Prop extends Legible r where
  rest : r.uri = bytes "/" ∧ r.getData = ∅ ∧ r.postData = ∅
  unannounced : bytes "content-length" ∉ r.headerData → r.contentLength = 0

theorem headRead_of_read {text : Bytes} {r : HttpResponse} (h : readHead text = (true, r)) : HeadRead r := by
  unfold readHead at h
  cases hsplit : Http.splitString text LF false with
  | nil =>
    rw [hsplit] at h
    cases h
  | cons line lines =>
    rw [hsplit] at h
    obtain ⟨stored, hs, hread, hlength⟩ := readHeader_line h
    obtain ⟨code, version, rfl, hcode, hversion⟩ := status_read hs
    have hfree : ∀ l ∈ lines, LF ∉ l := fun l hl => Http.splitString_free (hsplit ▸ List.mem_cons_of_mem _ hl)
    have hmap := Http.stored_read (h := { fresh.toHttp with status := code, version := version }) Http.stored_empty hfree
    have hfields : r.status = code ∧ r.version = version ∧ r.uri = bytes "/" ∧ r.getData = ∅ ∧ r.postData = ∅ := by
      rw [hread, Http.parseHeaderLines_eq]
      exact ⟨rfl, rfl, rfl, rfl, rfl⟩
    obtain ⟨hcode', hversion', hrest⟩ := hfields
    rw [← hread] at hmap
    refine ⟨⟨hversion' ▸ hversion, hcode' ▸ hcode, hmap, ?_⟩, hrest, ?_⟩
    · intro v hv
      rcases hlength with ⟨hnone, -⟩ | ⟨v', hv', hn⟩
      · rw [hnone] at hv
        cases hv
      · rw [hv'] at hv
        cases hv
        exact hn
    · intro hnot
      rcases hlength with ⟨-, hzero⟩ | ⟨v, hv, -⟩
      · exact hzero
      · exact absurd (AList.lookup_isSome.mp (by rw [hv]; rfl)) hnot

theorem chunks_success {body : Bytes} {chunkOffset : Nat} (h : (chunks body chunkOffset).1 = some .success) :
    (chunks body chunkOffset).2.1.length < body.length := by
  induction body, chunkOffset using chunks.induct with
  | case1 body chunkOffset hlt hr =>
    rw [chunks_more hr] at h
    cases h
  | case2 body chunkOffset hlt hr =>
    rw [chunks_throws hlt hr] at h
    cases h
  | case3 body chunkOffset hlt body₁ hr =>
    rw [chunks_chunk hlt hr, if_pos rfl]
    exact (chunkRound_length hr hlt).1
  | case4 body chunkOffset hlt chunkLen body₁ hr hs h0 ih =>
    rw [chunks_chunk hlt hr, if_neg h0] at h ⊢
    exact (ih h).trans (chunkRound_length hr hlt).1
  | case5 body chunkOffset hlt =>
    rw [chunks_end hlt] at h
    cases h

theorem parseBody_kept (r : HttpResponse) :
    ∃ body chunkOffset, (parseBody r).2 = { r with body := body, chunkOffset := chunkOffset } := by
  unfold parseBody
  split
  · exact ⟨_, _, rfl⟩
  · split
    · exact ⟨_, _, rfl⟩
    · split
      · exact ⟨_, _, rfl⟩
      · split <;> exact ⟨_, _, rfl⟩

theorem parseBody_limit {r : HttpResponse} (h : (parseBody r).1 = some .success) : r.body.length ≤ maxHttpBodySize := by
  unfold parseBody at h
  split at h
  · cases h
  · omega

/-- What a response holds after one call that succeeded. -/
structure Parsed (r : HttpResponse) : Prop extends HeadRead r where
  limit : r.body.length ≤ maxHttpBodySize

theorem parsed_of_parse {s : Bytes} {x : HttpResponse} (h : parse fresh s = (some .success, x)) : Parsed x := by
  obtain ⟨-, e, n, r, -, -, hread, hparse⟩ := parse_fresh_success (congrArg Prod.fst h)
  rw [h] at hparse
  have hhead := headRead_of_read hread
  have hbody := (parseBody_length { r with body := s.drop (e + n) }).1
  have hlimit := parseBody_limit (r := { r with body := s.drop (e + n) }) (by rw [← hparse])
  obtain ⟨body, chunkOffset, hkept⟩ := parseBody_kept { r with body := s.drop (e + n) }
  rw [← hparse] at hbody hkept
  refine ⟨?_, Nat.le_trans hbody hlimit⟩
  rw [show x = _ from hkept]
  exact ⟨⟨hhead.version, hhead.status, hhead.headers, hhead.length⟩, hhead.rest, hhead.unannounced⟩

/-! ## What is written -/

theorem HeadRead.lines (hx : HeadRead x) (o : Order) : ∀ l ∈ statusLine x :: HttpResponse.lines o x, Http.Line l := by
  refine List.forall_mem_cons.mpr ⟨?_, fun l hl => ?_⟩
  · have hplain := statusLine_plain x
    exact ⟨hplain.1, hplain.2.2⟩
  · obtain ⟨c, hc, rfl⟩ := List.mem_map.mp hl
    rcases List.mem_append.mp hc with hc | hc
    · exact hx.headers.line ((o.headers_perm _).mem_iff.mp hc)
    · rcases mem_added hc with ⟨rfl, -⟩ | ⟨rfl, -⟩ | ⟨rfl, -⟩
      · exact Http.fieldText_line (show LF ∉ bytes "connection" by decide) (show LF ∉ bytes "keep-alive" by decide)
      · exact Http.fieldText_line (show LF ∉ bytes "content-type" by decide) (show LF ∉ bytes "text/html" by decide)
      · exact Http.fieldText_line (show LF ∉ bytes "content-length" by decide)
          fun hm => (Http.isPrint_plain ((Http.toDec_value _).2.2 LF hm)).2 rfl

/-! ## The response -/

/-- Written and read again, the response is the same, and has all its header fields. -/
def Resent (o : Order) (x : HttpResponse) (host : Bytes) : Prop :=
  ∃ y, parse fresh (construct o x host) = (some .success, y) ∧ y.status = x.status ∧ y.version = x.version ∧
    y.uri = x.uri ∧ (∀ k, y.getData.lookup k = x.getData.lookup k) ∧ (∀ k, y.postData.lookup k = x.postData.lookup k) ∧
    y.body = x.body ∧ ∀ k v, x.headerData.lookup k = some v → y.headerData.lookup k = some v

/-- What that takes: a code that is not below zero, no header that announces chunks, a
    length that is the body's if there is one, a last line that is not the one of an empty
    field, and a header within the limit. -/
structure Resendable (o : Order) (x : HttpResponse) : Prop where
  status : 0 ≤ x.status
  chunks : ¬ AnnouncesChunks x.headerData
  length : x.contentLength = 0 ∨ x.contentLength = x.body.length
  last : bytes "connection" ∈ x.headerData → bytes "content-type" ∈ x.headerData →
    (bytes "content-length" ∈ x.headerData ∨ x.body = []) → ∀ c ∈ (o.headers x.headerData).getLast?, c.2 ≠ []
  size : (statusLine x).length + Http.linesSize (x.headerData.entries ++ x.added) ≤ maxHttpHeaderSize

theorem HeadRead.length_kept (hx : HeadRead x) : (x.writtenLength = 0 ∨ x.writtenLength = x.body.length) ↔
    (x.contentLength = 0 ∨ x.contentLength = x.body.length) := by
  unfold writtenLength
  by_cases hmem : bytes "content-length" ∈ x.headerData
  · rw [if_pos hmem]
  · rw [if_neg hmem]
    exact iff_of_true (Or.inr rfl) (Or.inl (hx.unannounced hmem))

/-- A body that is not in chunks is taken whole when its length is not announced as
    another. -/
theorem parseBody_whole {r : HttpResponse} (hm : r.body.length ≤ maxHttpBodySize)
    (hc : TransferEncoding.chunked ∉ r.transferEncodings) :
    ((parseBody r).1 = some .success ∧ (parseBody r).2.body = r.body) ↔
      (r.contentLength = 0 ∨ r.contentLength = r.body.length) := by
  unfold parseBody
  rw [if_neg (by omega), if_neg hc]
  split
  · rename_i hcut
    refine iff_of_false (fun h => ?_) (by omega)
    have hlen := congrArg List.length h.2
    simp only [List.length_take] at hlen
    omega
  · split
    · exact iff_of_false nofun (by omega)
    · exact iff_of_true ⟨rfl, rfl⟩ (by omega)

/-- A body that is in chunks is never left as it was. -/
theorem parseBody_decoded {r : HttpResponse} (hm : r.body.length ≤ maxHttpBodySize)
    (hc : TransferEncoding.chunked ∈ r.transferEncodings) (hs : (parseBody r).1 = some .success) :
    (parseBody r).2.body ≠ r.body := by
  intro hsame
  rw [parseBody_chunked hc hm] at hs hsame
  have hshort := chunks_success hs
  rw [show (chunks r.body r.chunkOffset).2.1 = r.body from hsame] at hshort
  omega

/-- What is read of a response that was written. -/
theorem Parsed.reparse (hx : Parsed x) (o : Order) (host : Bytes) (hstatus : 0 ≤ x.status)
    (hsize : (Http.block (statusLine x :: lines o x)).length ≤ maxHttpHeaderSize + 4) :
    ∃ r : HttpResponse, parse fresh (construct o x host) = parseBody { r with body := x.body } ∧
      r.status = x.status ∧ r.version = x.version ∧ (r.uri = x.uri ∧ r.getData = x.getData ∧ r.postData = x.postData) ∧
      r.contentLength = x.writtenLength ∧ (TransferEncoding.chunked ∈ r.transferEncodings ↔ AnnouncesChunks x.headerData) ∧
      ∀ k, r.headerData.lookup k = ((Http.received (lines o x)).filterMap Http.lineField).dlookup k := by
  have hlines := hx.toHeadRead.lines o
  have hbody : x.body.length < 2 ^ 64 := by
    have := hx.limit
    simp only [maxHttpBodySize] at this
    omega
  obtain ⟨r, hread, hcode, hversion, hempty, hrest⟩ := hx.toHeadRead.toLegible.reread o hstatus hbody
  have hsplit := Http.splitString_block hlines []
  rw [List.append_nil] at hsplit
  have hhead : readHead ((Http.block (statusLine x :: lines o x)).take
      ((Http.block (statusLine x :: lines o x)).length - 4)) = (true, r) := by
    rw [readHead, hsplit, hread]
  have hparse := parse_head (Http.block_closed hlines) (block_http _ (statusLine_http x)) hhead hsize x.body
  refine ⟨r, by rw [construct_lines, hparse], hcode, hversion, ?_, hrest⟩
  rw [hx.rest.1, hx.rest.2.1, hx.rest.2.2]
  exact hempty

/-- What is not refused has a code that is not below zero, and a header within the limit. -/
theorem Parsed.accepted (hx : Parsed x) (o : Order) (host : Bytes) (h : (parse fresh (construct o x host)).1 = some .success) :
    0 ≤ x.status ∧ (Http.block (statusLine x :: lines o x)).length ≤ maxHttpHeaderSize + 4 := by
  have hlines := hx.toHeadRead.lines o
  have hrefused := parse_head_refused (Http.block_closed hlines) (block_http _ (statusLine_http x))
  have hsplit := Http.splitString_block hlines []
  rw [List.append_nil] at hsplit
  rw [construct_lines] at h
  constructor
  · by_contra hneg
    refine hrefused (Or.inr ?_) x.body h
    rw [readHead, hsplit]
    exact reread_negative o (by omega) hx.status.1
  · by_contra hlong
    exact hrefused (Or.inl (by omega)) x.body h

/-- A response that was read is the same again exactly when it is resendable. -/
theorem Parsed.resent_iff (hx : Parsed x) (o : Order) (host : Bytes) : Resent o x host ↔ Resendable o x := by
  have hsizes : (Http.block (statusLine x :: lines o x)).length =
      (statusLine x).length + Http.linesSize (x.headerData.entries ++ x.added) + 4 := by
    rw [lines, Http.block_size, Http.linesSize_perm (o.headers_perm _)]
  constructor
  · intro hgiven
    obtain ⟨y, hy, -, -, -, -, -, hbody, hheaders⟩ := hgiven
    obtain ⟨hstatus, hsize⟩ := hx.accepted o host (by rw [hy])
    obtain ⟨r, hparse, -, -, -, hlength, hchunked, hlookup⟩ := hx.reparse o host hstatus hsize
    have hread : parseBody { r with body := x.body } = (some .success, y) := hparse.symm.trans hy
    have hchunks : TransferEncoding.chunked ∉ r.transferEncodings := by
      intro hc
      refine parseBody_decoded (r := { r with body := x.body }) hx.limit hc (by rw [hread]) ?_
      rw [hread]
      exact hbody
    refine ⟨hstatus, fun hannounced => hchunks (hchunked.mpr hannounced), ?_, fun hconn htype hlen c hc hempty => ?_, by omega⟩
    · have hwhole := (parseBody_whole (r := { r with body := x.body }) hx.limit hchunks).mp (by rw [hread]; exact ⟨rfl, hbody⟩)
      rw [← hx.toHeadRead.length_kept, ← hlength]
      exact hwhole
    · have hfields : lines o x = (o.headers x.headerData).map Http.fieldText := by
        rw [lines, added_eq_nil.mpr ⟨hconn, htype, hlen⟩, List.append_nil]
      have hperm := o.headers_perm x.headerData
      have hfield := hheaders c.1 c.2 (AList.mem_lookup_iff.mpr (hperm.mem_iff.mp (List.mem_of_getLast? hc)))
      obtain ⟨body, chunkOffset, hkept⟩ := parseBody_kept { r with body := x.body }
      rw [hread] at hkept
      rw [show y = _ from hkept] at hfield
      simp only [hlookup] at hfield
      rw [hfields, hx.headers.lookup_last hperm hc hempty] at hfield
      cases hfield
  · intro hk
    obtain ⟨r, hparse, hstatus, hversion, hrest, hlength, hchunked, hlookup⟩ :=
      hx.reparse o host hk.status (by have := hk.size; omega)
    have hchunks : TransferEncoding.chunked ∉ r.transferEncodings := fun hc => hk.chunks (hchunked.mp hc)
    have hwhole : r.contentLength = 0 ∨ r.contentLength = x.body.length := by
      rw [hlength]
      exact hx.toHeadRead.length_kept.mpr hk.length
    obtain ⟨hsuccess, hbody⟩ := (parseBody_whole (r := { r with body := x.body }) hx.limit hchunks).mpr hwhole
    obtain ⟨body, chunkOffset, hkept⟩ := parseBody_kept { r with body := x.body }
    generalize parseBody { r with body := x.body } = read at hparse hsuccess hbody hkept
    obtain ⟨st, y⟩ := read
    have hsuccess : st = some .success := hsuccess
    have hkept : y = { r with body := body, chunkOffset := chunkOffset } := hkept
    refine ⟨y, by rw [hparse, hsuccess], ?_⟩
    subst hkept
    refine ⟨hstatus, hversion, hrest.1, fun k => ?_, fun k => ?_, hbody, fun k v hkv => ?_⟩
    · simp only [hrest.2.1]
    · simp only [hrest.2.2]
    · simp only [hlookup]
      refine hx.headers.lookup (o.headers_perm _) hkv fun hnil hlast => ?_
      obtain ⟨hconn, htype, hlen⟩ := added_eq_nil.mp hnil
      exact hk.last hconn htype hlen ⟨k, v⟩ hlast

end HttpResponse

/-- What a fresh object parsed in one call is the same when it is written and parsed again,
    exactly when it is resendable. -/
theorem reserialised (o : Order) (s host : Bytes) :
    (∀ x, HttpRequest.parse .fresh s = (some .success, x) → (bytes "host" ∈ x.headerData ∨ LF ∉ host) →
        (HttpRequest.Resent o x host ↔ HttpRequest.Resendable o x host)) ∧
      ∀ x, HttpResponse.parse .fresh s = (some .success, x) →
        (HttpResponse.Resent o x host ↔ HttpResponse.Resendable o x) := by
  constructor
  · intro x h hhost
    exact (HttpRequest.parsed_of_parse h).resent_iff o hhost
  · intro x h
    exact (HttpResponse.parsed_of_parse h).resent_iff o host

def sentGet : Bytes := bytes "GET / HTTP/1.1\r\nAccept: text\r\n\r\n"

def sentOk : Bytes := bytes "HTTP/1.1 200 \r\nContent-Length: 2\r\n\r\nok"

theorem reserialised_get_ok :
    HttpRequest.Resent .kept (HttpRequest.parse .fresh sentGet).2 (bytes "h") ∧
      HttpResponse.Resent .kept (HttpResponse.parse .fresh sentOk).2 (bytes "h") := by
  constructor
  · have hparse : HttpRequest.parse .fresh sentGet = (some .success, (HttpRequest.parse .fresh sentGet).2) :=
      Prod.ext (by decide +kernel) rfl
    refine ((reserialised .kept sentGet (bytes "h")).1 _ hparse (Or.inr (by decide))).mpr ?_
    refine ⟨by decide +kernel, AList.ext (by decide +kernel), ⟨by decide +kernel, by decide +kernel, ?_, ?_⟩,
      ?_, by decide +kernel⟩
    · have hnone : (HttpRequest.parse .fresh sentGet).2.getData.entries = [] := by decide +kernel
      rw [hnone]
      exact nofun
    · have hnone : Order.kept.gets (HttpRequest.parse .fresh sentGet).2.getData = [] := by decide +kernel
      rw [hnone]
      exact ⟨nofun, nofun⟩
    · intro hconn
      exact absurd hconn (by decide +kernel)
  · have hparse : HttpResponse.parse .fresh sentOk = (some .success, (HttpResponse.parse .fresh sentOk).2) :=
      Prod.ext (by decide +kernel) rfl
    refine ((reserialised .kept sentOk (bytes "h")).2 _ hparse).mpr
      ⟨by decide +kernel, ?_, by decide +kernel, ?_, by decide +kernel⟩
    · intro hgiven
      obtain ⟨v, hv, -⟩ := hgiven
      have hnone : (HttpResponse.parse .fresh sentOk).2.headerData.lookup (bytes "transfer-encoding") = none := by decide +kernel
      rw [hnone] at hv
      cases hv
    · intro hconn
      exact absurd hconn (by decide +kernel)

/-- A POST and the body that its variable comes in. -/
def sentHead : Bytes := bytes "POST / HTTP/1.1\r\nContent-Length: 3\r\n\r\n"

def sentPost : Bytes := sentHead ++ bytes "a=b"

theorem sentPost_read :
    ∃ x, HttpRequest.parse .fresh sentPost = (some .success, x) ∧ x.body = bytes "a=b" ∧
      x.postData.entries = [⟨bytes "a", bytes "b"⟩] := by
  have hargs : HttpRequest.postArguments (bytes "a=b") = [⟨bytes "a", bytes "b"⟩] := by
    show (Http.parseArgumentList (bytes "a=b")).getD [] = _
    rw [Http.parseArgumentList_eq]
    exact Http.arguments_last (k := bytes "a") (v := bytes "b") (by decide) (by decide) (by decide)
  have hclosed : Http.Closed sentHead := ⟨by decide +kernel, by decide +kernel⟩
  have hread : (HttpRequest.readHead (sentHead.take (sentHead.length - 4))).1 = true ∧
      (HttpRequest.readHead (sentHead.take (sentHead.length - 4))).2.requestType = .post ∧
      (HttpRequest.readHead (sentHead.take (sentHead.length - 4))).2.postData.entries = [] ∧
      (HttpRequest.readHead (sentHead.take (sentHead.length - 4))).2.contentLength = 3 := by decide +kernel
  obtain ⟨hok, htype, hempty, hlength⟩ := hread
  generalize hr : (HttpRequest.readHead (sentHead.take (sentHead.length - 4))).2 = r at htype hempty hlength
  have hparse : HttpRequest.parse .fresh sentPost = HttpRequest.parseBody { r with body := bytes "a=b" } :=
    HttpRequest.parse_head (t := .post) hclosed (by decide) (by decide) (Prod.ext hok hr) (by decide) (bytes "a=b")
  rw [hparse, HttpRequest.parseBody_eq (by simp only [hlength]; decide) (show (bytes "a=b").length ≤ _ by decide)]
  refine ⟨_, rfl, rfl, ?_⟩
  simp only [htype, if_true, hargs, show r.postData = ∅ from AList.ext hempty]
  decide

/-- Written again, its variable is a line in front of that body. -/
theorem post_body_doubled :
    ∃ x, HttpRequest.parse .fresh sentPost = (some .success, x) ∧ x.body = bytes "a=b" ∧
      (∀ y, HttpRequest.parse .fresh (x.construct .kept (bytes "h")) = (some .success, y) → y.body = bytes "a=b\r\na=b") ∧
      ¬ HttpRequest.Resent .kept x (bytes "h") := by
  obtain ⟨x, hx, hbody, hposts⟩ := sentPost_read
  have hread : ∀ y, HttpRequest.parse .fresh (x.construct .kept (bytes "h")) = (some .success, y) →
      y.body = bytes "a=b\r\na=b" := by
    intro y hy
    rw [(HttpRequest.parsed_of_parse hx).body_read .kept (Or.inr (by decide)) hy, hbody, HttpRequest.postLine, Order.kept]
    simp only [hposts]
    decide
  refine ⟨x, hx, hbody, hread, ?_⟩
  intro hgiven
  obtain ⟨y, hy, -, -, -, -, -, hsame, -⟩ := hgiven
  rw [hread y hy, hbody] at hsame
  exact absurd hsame (by decide)

end Frnetlib
