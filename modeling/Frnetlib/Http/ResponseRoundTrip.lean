/-
  Frnetlib.Http.ResponseRoundTrip — a response that `construct` writes is read back
  whole, however it is cut.

  The same plan as for the request: `construct` writes a header block and a body
  (`construct_lines`), the status line and the lines of the map and of the defaults it
  lacks are read back (`Legible.reread`), and the body is found by its announced length,
  so what it looks like does not matter.
-/

import Frnetlib.Http.Message
import Frnetlib.Http.Stored

namespace Frnetlib

open Base

namespace HttpResponse

/-- A response that is read back as it was written. -/
structure Writable (r : HttpResponse) : Prop where
  status : r.status ∈ requestStatus
  version : r.version = .v1 ∨ r.version = .v1_1
  headers : Http.Fields r.headerData
  content_length : bytes "content-length" ∉ r.headerData
  transfer_encoding : bytes "transfer-encoding" ∉ r.headerData

/-! ## The block -/

def writtenVersion (r : HttpResponse) : Bytes := if r.version = .v1 then bytes "HTTP/1.0" else bytes "HTTP/1.1"

def statusLine (r : HttpResponse) : Bytes := r.writtenVersion ++ SP :: (toDec (r.status % 2 ^ 32).toNat ++ [SP])

/-- The lines that `construct` adds to those of the map. -/
def added (r : HttpResponse) : List Entry :=
  Http.missing r.headerData ⟨bytes "connection", bytes "keep-alive"⟩ ++
    Http.missing r.headerData ⟨bytes "content-type", bytes "text/html"⟩ ++
    if bytes "content-length" ∈ r.headerData then [] else Http.announced (bytes "content-length") r.body

def lines (o : Order) (r : HttpResponse) : List Bytes := (o.headers r.headerData ++ r.added).map Http.fieldText

theorem construct_lines (o : Order) (r : HttpResponse) (host : Bytes) :
    construct o r host = Http.block (statusLine r :: lines o r) ++ r.body := by
  have hheaders : (o.headers r.headerData).flatMap Http.headerLine =
      ((o.headers r.headerData).map Http.fieldText).flatMap (· ++ crlf) := by
    rw [List.flatMap_map]
    rfl
  have hversion : (if r.version = .v1 then bytes "HTTP/1.0 " else bytes "HTTP/1.1 ") = r.writtenVersion ++ [SP] := by
    unfold writtenVersion
    split <;> rfl
  have hlength : (if bytes "content-length" ∉ r.headerData ∧ r.body ≠ [] then
      bytes "content-length: " ++ toDec r.body.length ++ crlf else []) =
      ((if bytes "content-length" ∈ r.headerData then [] else Http.announced (bytes "content-length") r.body).map
        Http.fieldText).flatMap (· ++ crlf) := by
    unfold Http.announced
    by_cases hmem : bytes "content-length" ∈ r.headerData
    · rw [if_neg fun h => h.1 hmem, if_pos hmem]
      rfl
    · by_cases hb : r.body = []
      · rw [if_neg fun h => h.2 hb, if_neg hmem, if_pos hb]
        rfl
      · rw [if_pos ⟨hmem, hb⟩, if_neg hmem, if_neg hb]
        simp [Http.fieldText, bytes]
  unfold construct lines added statusLine Http.block Http.missing
  simp only [hheaders, hversion, hlength, List.flatMap_cons, List.map_append, List.flatMap_append, Http.lines_if]
  simp only [Http.fieldText, List.append_assoc, List.cons_append, List.nil_append]
  rfl

theorem mem_added {r : HttpResponse} {d : Entry} (hd : d ∈ r.added) :
    d = ⟨bytes "connection", bytes "keep-alive"⟩ ∧ bytes "connection" ∉ r.headerData ∨
      d = ⟨bytes "content-type", bytes "text/html"⟩ ∧ bytes "content-type" ∉ r.headerData ∨
      d = ⟨bytes "content-length", toDec r.body.length⟩ ∧ bytes "content-length" ∉ r.headerData ∧ r.body ≠ [] := by
  simp only [added, List.mem_append] at hd
  rcases hd with (hd | hd) | hd
  · exact Or.inl (Http.mem_missing hd)
  · exact Or.inr (Or.inl (Http.mem_missing hd))
  · split at hd
    · cases hd
    · rename_i hmem
      obtain ⟨hb, rfl⟩ := Http.mem_announced.mp hd
      exact Or.inr (Or.inr ⟨rfl, hmem, hb⟩)

theorem added_apart (r : HttpResponse) : Http.Added r.headerData r.added := by
  intro d hd
  rcases mem_added hd with ⟨rfl, hn⟩ | ⟨rfl, hn⟩ | ⟨rfl, hn, -⟩
  · exact ⟨show _ ∉ bytes "connection" by decide, hn⟩
  · exact ⟨show _ ∉ bytes "content-type" by decide, hn⟩
  · exact ⟨show _ ∉ bytes "content-length" by decide, hn⟩

theorem added_eq_nil {r : HttpResponse} : r.added = [] ↔ bytes "connection" ∈ r.headerData ∧
    bytes "content-type" ∈ r.headerData ∧ (bytes "content-length" ∈ r.headerData ∨ r.body = []) := by
  have hconn : (bytes "connection").map tolower = bytes "connection" := by decide
  have htype : (bytes "content-type").map tolower = bytes "content-type" := by decide
  simp only [added, Http.missing, Http.announced, List.append_eq_nil_iff, hconn, htype, ite_eq_left_iff,
    List.cons_ne_nil, imp_false, Classical.not_not, and_assoc, or_iff_not_imp_left]

theorem lines_ne (o : Order) (x : HttpResponse) : lines o x ≠ [] := by
  intro hnil
  have hnil := List.append_eq_nil_iff.mp (List.map_eq_nil_iff.mp hnil)
  have hmem := (added_eq_nil.mp hnil.2).1
  have hperm := o.headers_perm x.headerData
  rw [hnil.1] at hperm
  obtain ⟨v, hv⟩ := List.mem_keys.mp hmem
  rw [← hperm.nil_eq] at hv
  cases hv

/-- The same where the map announces no length. -/
def defaults (r : HttpResponse) : List Entry :=
  Http.missing r.headerData ⟨bytes "connection", bytes "keep-alive"⟩ ++
    Http.missing r.headerData ⟨bytes "content-type", bytes "text/html"⟩ ++ Http.announced (bytes "content-length") r.body

def fieldLines (o : Order) (r : HttpResponse) : List Bytes := (o.headers r.headerData ++ r.defaults).map Http.fieldText

theorem Writable.lines {r : HttpResponse} (hr : Writable r) (o : Order) : lines o r = fieldLines o r := by
  rw [HttpResponse.lines, added, if_neg hr.content_length]
  rfl

theorem construct_block (o : Order) {r : HttpResponse} (hr : Writable r) (host : Bytes) :
    construct o r host = Http.block (statusLine r :: fieldLines o r) ++ r.body := by
  rw [construct_lines, hr.lines]

theorem mem_defaults {r : HttpResponse} {d : Entry} (hd : d ∈ r.defaults) :
    d = ⟨bytes "connection", bytes "keep-alive"⟩ ∧ bytes "connection" ∉ r.headerData ∨
      d = ⟨bytes "content-type", bytes "text/html"⟩ ∧ bytes "content-type" ∉ r.headerData ∨
      d = ⟨bytes "content-length", toDec r.body.length⟩ ∧ r.body ≠ [] := by
  simp only [defaults, List.mem_append] at hd
  rcases hd with (hd | hd) | hd
  · exact Or.inl (Http.mem_missing hd)
  · exact Or.inr (Or.inl (Http.mem_missing hd))
  · exact Or.inr (Or.inr (Http.mem_announced.mp hd).symm)

theorem defaults_names {r : HttpResponse} {d : Entry} (hd : d ∈ r.defaults) :
    d.1.map tolower ∈ [bytes "connection", bytes "content-type", bytes "content-length"] := by
  rcases mem_defaults hd with ⟨rfl, -⟩ | ⟨rfl, -⟩ | ⟨rfl, -⟩
  · exact List.mem_cons_self
  · exact List.mem_cons_of_mem _ List.mem_cons_self
  · exact List.mem_cons_of_mem _ (List.mem_cons_of_mem _ List.mem_cons_self)

theorem Writable.defaults {r : HttpResponse} (hr : Writable r) : Http.Defaults r.headerData r.defaults := by
  intro d hd
  rcases mem_defaults hd with ⟨rfl, hn⟩ | ⟨rfl, hn⟩ | ⟨rfl, -⟩
  · exact ⟨forall_of_all (by decide), forall_of_all (by decide), show _ ∉ bytes "connection" by decide, hn⟩
  · exact ⟨forall_of_all (by decide), forall_of_all (by decide), show _ ∉ bytes "content-type" by decide, hn⟩
  · exact ⟨forall_of_all (show (bytes "content-length").all _ = true by decide), (Http.toDec_value _).2.2,
      show _ ∉ bytes "content-length" by decide, hr.content_length⟩

/-! ## What is read -/

/-- The version read back, where it is one of the two that are written. -/
theorem writtenVersion_read {r : HttpResponse} (hv : r.version = .v1 ∨ r.version = .v1_1) :
    (if r.writtenVersion = bytes "HTTP/1.0" then RequestVersion.v1 else .v1_1) = r.version := by
  unfold writtenVersion
  rcases hv with hv | hv
  · rw [hv]
    decide
  · rw [hv]
    decide

/-- The status line is read as what `std::stoi` makes of the number in it. -/
theorem parseStatusLine_written (r : HttpResponse) (h : Http) (t : Bytes) :
    parseStatusLine h (statusLine r ++ t) = (stoi (SP :: toDec (r.status % 2 ^ 32).toNat)).map fun code =>
      { h with status := code, version := if r.writtenVersion = bytes "HTTP/1.0" then .v1 else .v1_1 } := by
  generalize hn : (r.status % 2 ^ 32).toNat = n
  have hsp : SP ∉ r.writtenVersion := by unfold writtenVersion; split <;> decide
  have hdigits : SP ∉ toDec n := fun hm =>
    absurd (isDigit_plain (by decide) (toDec_digits _ _ hm)).2.1 (by decide)
  have hbegin := find_char hsp (toDec n ++ SP :: t)
  have hend := findFrom_char (p := r.writtenVersion ++ [SP]) hdigits t
  have hcode := substr_mid r.writtenVersion (SP :: toDec n) (SP :: t) (i := r.writtenVersion.length)
    (n := usub (r.writtenVersion.length + 1 + (toDec n).length) r.writtenVersion.length) rfl (by
      rw [usub_of_le (by omega), List.length_cons]; omega)
  rw [List.append_assoc, List.singleton_append, List.length_append, List.length_singleton] at hend
  rw [List.cons_append] at hcode
  rw [show statusLine r ++ t = r.writtenVersion ++ SP :: (toDec n ++ SP :: t) by rw [statusLine, hn]; simp]
  unfold HttpResponse.parseStatusLine
  rw [hbegin]
  simp only [hend, Option.getD_some, hcode, Option.bind_some, List.take_left]
  cases stoi (SP :: toDec n) <;> rfl

/-- A response whose header can be read back from what is written of it. -/
structure Legible (r : HttpResponse) : Prop where
  version : r.version = .v1 ∨ r.version = .v1_1
  status : -2 ^ 31 ≤ r.status ∧ r.status < 2 ^ 31
  headers : Http.Stored r.headerData
  length : ∀ v, r.headerData.lookup (bytes "content-length") = some v → stoull 10 v = some r.contentLength

/-- The header says that the body is in chunks. -/
def AnnouncesChunks (m : StrMap) : Prop :=
  ∃ v, m.lookup (bytes "transfer-encoding") = some v ∧
    TransferEncoding.chunked ∈ (Http.splitString v 44 true).map Http.stringToTransferEncoding

/-- The length that is written. -/
def writtenLength (r : HttpResponse) : Nat := if bytes "content-length" ∈ r.headerData then r.contentLength else r.body.length

theorem Legible.length_read (hr : Legible r) (o : Order) (hbody : r.body.length < 2 ^ 64) :
    (((Http.received (HttpResponse.lines o r)).filterMap Http.lineField).dlookup (bytes "content-length") = none ∧
        r.writtenLength = 0) ∨
      ∃ v, ((Http.received (HttpResponse.lines o r)).filterMap Http.lineField).dlookup (bytes "content-length") = some v ∧
        stoull 10 v = some r.writtenLength := by
  have hperm := o.headers_perm r.headerData
  by_cases hmem : bytes "content-length" ∈ r.headerData
  · right
    obtain ⟨v, hv⟩ := Option.isSome_iff_exists.mp (AList.lookup_isSome.mpr hmem)
    rw [writtenLength, if_pos hmem]
    refine ⟨v, hr.headers.lookup hperm hv fun _ _ => ?_, hr.length v hv⟩
    intro heq
    subst heq
    cases hr.length [] hv
  · have hnot := hmem
    have hconn : (bytes "connection").map tolower ≠ bytes "content-length" := by decide
    have htype : (bytes "content-type").map tolower ≠ bytes "content-length" := by decide
    rw [writtenLength, if_neg hnot]
    by_cases hb : r.body = []
    · left
      refine ⟨hr.headers.named.lookup_other hperm (added_apart r) hnot fun d hd => ?_, by rw [hb]; rfl⟩
      rcases mem_added hd with ⟨rfl, -⟩ | ⟨rfl, -⟩ | ⟨-, -, hn⟩
      · exact hconn
      · exact htype
      · exact absurd hb hn
    · right
      have hd : (⟨bytes "content-length", toDec r.body.length⟩ : Entry) ∈ r.added := by
        refine List.mem_append_right _ ?_
        rw [if_neg hnot]
        exact Http.mem_announced.mpr ⟨hb, rfl⟩
      refine ⟨_, hr.headers.named.lookup_default hperm (added_apart r) hd (Http.toDec_value _) fun d' hd' heq => ?_,
        stoull_toDec hbody⟩
      rcases mem_added hd' with ⟨rfl, -⟩ | ⟨rfl, -⟩ | ⟨rfl, -⟩
      · exact absurd heq hconn
      · exact absurd heq htype
      · rfl

/-- What is written names the encodings that the map does. -/
theorem Legible.chunked_read (hr : Legible r) (o : Order) :
    TransferEncoding.chunked ∈ ((Http.received (HttpResponse.lines o r)).filterMap Http.lineField).foldl Http.addEncodings ∅ ↔
      AnnouncesChunks r.headerData := by
  have hperm := o.headers_perm r.headerData
  rw [Http.mem_addEncodings]
  constructor
  · rintro (hmem | ⟨c, hc, hname, hchunked⟩)
    · cases hmem
    · rcases hr.headers.mem hperm (fun d hd => (added_apart r d hd).1) hc with hc | ⟨d, hd, hcd⟩
      · exact ⟨c.2, AList.mem_lookup_iff.mpr (hname ▸ hc), hchunked⟩
      · rw [hname] at hcd
        rcases mem_added hd with ⟨rfl, -⟩ | ⟨rfl, -⟩ | ⟨rfl, -⟩
        · exact absurd hcd (show _ ≠ (bytes "connection").map tolower by decide)
        · exact absurd hcd (show _ ≠ (bytes "content-type").map tolower by decide)
        · exact absurd hcd (show _ ≠ (bytes "content-length").map tolower by decide)
  · intro hgiven
    obtain ⟨v, hv, hchunked⟩ := hgiven
    have hread : ((Http.received (HttpResponse.lines o r)).filterMap Http.lineField).dlookup (bytes "transfer-encoding") =
      some v := by
      refine hr.headers.lookup hperm hv fun _ _ hempty => ?_
      rw [hempty] at hchunked
      cases hchunked
    exact Or.inr ⟨_, List.of_mem_dlookup hread, rfl, hchunked⟩

/-- A code that is not below zero is read back with the rest of the header. -/
theorem Legible.reread (hr : Legible r) (o : Order) (hstatus : 0 ≤ r.status) (hbody : r.body.length < 2 ^ 64) :
    ∃ y, readHeader { fresh with headerEnded := true } (Http.received (statusLine r :: HttpResponse.lines o r)) = (true, y) ∧
      y.status = r.status ∧ y.version = r.version ∧ (y.uri = bytes "/" ∧ y.getData = ∅ ∧ y.postData = ∅) ∧
      y.contentLength = r.writtenLength ∧ (TransferEncoding.chunked ∈ y.transferEncodings ↔ AnnouncesChunks r.headerData) ∧
      ∀ k, y.headerData.lookup k = ((Http.received (HttpResponse.lines o r)).filterMap Http.lineField).dlookup k := by
  have hrange := hr.status.2
  have hline : parseStatusLine fresh.toHttp (statusLine r ++ [CR]) =
      some { fresh.toHttp with status := r.status, version := r.version } := by
    have hcode : stoi (SP :: toDec (r.status % 2 ^ 32).toNat) = some r.status := by
      rw [stoi_toDec (by omega)]
      congr 1
      omega
    rw [parseStatusLine_written, hcode, Option.map_some, writtenVersion_read hr.version]
  generalize hh : ({ fresh.toHttp with status := r.status, version := r.version } : Http) = h at hline
  have hlookup : ∀ k, ((Http.received (HttpResponse.lines o r)).foldl Http.parseHeaderLine h).headerData.lookup k =
      ((Http.received (HttpResponse.lines o r)).filterMap Http.lineField).dlookup k := by
    intro k
    rw [Http.lookup_lines, ← hh]
    show ((∅ : StrMap).lookup k).or _ = _
    rw [AList.lookup_empty]
    rfl
  have hkept := Http.parseHeaderLines_eq h (Http.received (HttpResponse.lines o r))
  have hchunked : TransferEncoding.chunked ∈
      ((Http.received (HttpResponse.lines o r)).foldl Http.parseHeaderLine h).transferEncodings ↔
        AnnouncesChunks r.headerData := by
    rw [hkept, ← hr.chunked_read o, ← hh]
    rfl
  have hsame : ((Http.received (HttpResponse.lines o r)).foldl Http.parseHeaderLine h).status = r.status ∧
      ((Http.received (HttpResponse.lines o r)).foldl Http.parseHeaderLine h).version = r.version ∧
      ((Http.received (HttpResponse.lines o r)).foldl Http.parseHeaderLine h).uri = bytes "/" ∧
      ((Http.received (HttpResponse.lines o r)).foldl Http.parseHeaderLine h).getData = ∅ ∧
      ((Http.received (HttpResponse.lines o r)).foldl Http.parseHeaderLine h).postData = ∅ := by
    rw [hkept, ← hh]
    exact ⟨rfl, rfl, rfl, rfl, rfl⟩
  obtain ⟨hcode, hversion, hothers⟩ := hsame
  rw [Http.received_cons, if_neg (lines_ne o r)]
  rcases hr.length_read o hbody with ⟨hnone, hzero⟩ | ⟨v, hv, hn⟩
  · simp only [readHeader, hline, hlookup, hnone]
    exact ⟨_, rfl, hcode, hversion, hothers, hzero.symm, hchunked, hlookup⟩
  · simp only [readHeader, hline, hlookup, hv, hn]
    exact ⟨_, rfl, hcode, hversion, hothers, rfl, hchunked, hlookup⟩

/-- One below zero is not. -/
theorem reread_negative (o : Order) (hstatus : r.status < 0) (hrange : -2 ^ 31 ≤ r.status) :
    (readHeader { fresh with headerEnded := true } (Http.received (statusLine r :: lines o r))).1 = false := by
  have hcode : stoi (SP :: toDec (r.status % 2 ^ 32).toNat) = none := stoi_toDec_big (by omega)
  have hline : parseStatusLine fresh.toHttp (statusLine r ++ [CR]) = none := by
    rw [parseStatusLine_written, hcode, Option.map_none]
  rw [Http.received_cons, if_neg (lines_ne o r), readHeader]
  simp only [hline]

theorem Writable.legible {r : HttpResponse} (hr : Writable r) : Legible r where
  version := hr.version
  status := by
    have hall : ∀ s ∈ requestStatus, -2 ^ 31 ≤ s ∧ s < 2 ^ 31 := by decide
    exact hall _ hr.status
  headers := by
    intro c hc
    obtain ⟨hlow, hprint, hcolon, hvalue⟩ := hr.headers c hc
    exact ⟨hlow, hcolon, fun hlf => (Http.isPrint_plain (hprint _ hlf)).2 rfl, Or.inr hvalue⟩
  length := by
    intro v hv
    exact absurd (AList.lookup_isSome.mp (by rw [hv]; rfl)) hr.content_length

/-- What the header of a written response is read as. -/
theorem Writable.read {r : HttpResponse} (hr : Writable r) (o : Order) (hbody : r.body.length < 2 ^ 64) :
    ∃ r', readHeader { fresh with headerEnded := true } (Http.received (statusLine r :: fieldLines o r)) = (true, r') ∧
      r'.status = r.status ∧ r'.version = r.version ∧ TransferEncoding.chunked ∉ r'.transferEncodings ∧
      r'.contentLength = r.body.length ∧
      ∀ k, r'.headerData.lookup k = ((Http.received (fieldLines o r)).filterMap Http.lineField).dlookup k := by
  have hstatus : 0 ≤ r.status := by
    have hall : ∀ s ∈ requestStatus, 0 ≤ s := by decide
    exact hall _ hr.status
  have hlength : r.writtenLength = r.body.length := if_neg hr.content_length
  obtain ⟨r', hread, hcode, hversion, -, hlen, hchunked, hlookup⟩ := hr.legible.reread o hstatus hbody
  rw [hr.lines] at hread hlookup
  refine ⟨r', hread, hcode, hversion, fun hc => ?_, hlen.trans hlength, hlookup⟩
  obtain ⟨v, hv, -⟩ := hchunked.mp hc
  exact hr.transfer_encoding (AList.lookup_isSome.mp (by rw [hv]; rfl))

theorem statusLine_plain (r : HttpResponse) : Http.Plain (statusLine r) := by
  have hprint : ∀ b ∈ statusLine r, isPrint b = true := by
    intro b hb
    simp only [statusLine, List.mem_append, List.mem_cons, List.not_mem_nil, or_false] at hb
    rcases hb with hb | rfl | hb | rfl
    · unfold writtenVersion at hb
      split at hb
      · exact forall_of_all (P := fun b => isPrint b = true) (by decide) b hb
      · exact forall_of_all (P := fun b => isPrint b = true) (by decide) b hb
    · decide
    · exact (Http.toDec_value _).2.2 b hb
    · decide
  exact Http.plain_of_print (by simp [statusLine]) hprint

theorem statusLine_http (r : HttpResponse) : bytes "HTTP" <+: statusLine r := by
  rw [statusLine, writtenVersion]
  split
  · exact (show bytes "HTTP" <+: bytes "HTTP/1.0" by decide).trans (List.prefix_append _ _)
  · exact (show bytes "HTTP" <+: bytes "HTTP/1.1" by decide).trans (List.prefix_append _ _)

end HttpResponse

/-- However the bytes of a written response are cut, the parser asks for more until the
    last piece, and then holds what was written; it adds no header but the three. -/
theorem response_round_trip (o : Order) (r : HttpResponse) (host : Bytes) (hr : r.Writable)
    (hbody : r.body.length ≤ maxHttpBodySize) (hsize : (r.construct o host).length - r.body.length ≤ maxHttpHeaderSize)
    (ps : List Bytes) (hne : ∀ p ∈ ps, p ≠ []) (hps : ps.flatten = r.construct o host) :
    let run := feed HttpResponse.parse .fresh ps
    run.1 = List.replicate (ps.length - 1) (some .notEnoughData) ++ [some .success] ∧
      run.2.status = r.status ∧ run.2.version = r.version ∧ run.2.body = r.body ∧
      (∀ k v, r.headerData.lookup k = some v → run.2.headerData.lookup k = some v) ∧
      ∀ k ∈ run.2.headerData,
        k ∈ r.headerData ∨ k ∈ [bytes "connection", bytes "content-type", bytes "content-length"] := by
  rw [HttpResponse.construct_block o hr host] at hps hsize
  rw [List.length_append, Nat.add_sub_cancel] at hsize
  have hds := hr.defaults
  have hperm := o.headers_perm r.headerData
  have hlines : ∀ l ∈ r.statusLine :: r.fieldLines o, Http.Plain l :=
    List.forall_mem_cons.mpr ⟨r.statusLine_plain, hr.headers.printable.plain hperm hds⟩
  obtain ⟨r', hread, hstatus, hversion, hchunked, hlength, hlookup⟩ :=
    hr.read o (by simp only [maxHttpBodySize] at hbody; omega)
  have hfeed := HttpResponse.feed_message hlines r.statusLine_http hread hchunked hlength hsize hbody hne hps
  simp only [hfeed]
  refine ⟨trivial, hstatus, hversion, trivial, fun k v hk => ?_, fun k hk => ?_⟩
  · rw [hlookup]; exact hr.headers.lookup hperm hds hk
  · by_contra hnot
    simp only [not_or] at hnot
    refine absurd (AList.lookup_isSome.mpr hk) ?_
    rw [hlookup, HttpResponse.fieldLines, hr.headers.printable.named.lookup_other hperm hds.added hnot.1 fun d hd => ?_]
    · exact Bool.false_ne_true
    · intro heq
      subst heq
      exact hnot.2 (HttpResponse.defaults_names hd)

/-- A 404 with a header and a body that looks like a response. -/
def sampleNotFound : HttpResponse := { HttpResponse.fresh with
  status := 404
  headerData := AList.singleton (bytes "server") (bytes "x: y")
  body := bytes "HTTP/1.1 200 \r\n\r\n" }

theorem sampleNotFound_writable : sampleNotFound.Writable where
  status := by decide
  version := by decide
  headers := by
    intro c hc
    rw [List.mem_singleton.mp hc]
    exact ⟨by decide, forall_of_all (by decide), by decide, by decide, by decide, forall_of_all (by decide)⟩
  content_length := by decide
  transfer_encoding := by decide

theorem response_round_trip_not_found :
    let s := sampleNotFound.construct .kept []
    (feed HttpResponse.parse .fresh [s.take 20, s.drop 20]).1 = [some .notEnoughData, some .success] ∧
      (feed HttpResponse.parse .fresh [s.take 20, s.drop 20]).2.status = 404 := by
  obtain ⟨hans, hstatus, -⟩ := response_round_trip .kept sampleNotFound [] sampleNotFound_writable (by decide)
    (by decide +kernel) [(sampleNotFound.construct .kept []).take 20, (sampleNotFound.construct .kept []).drop 20]
    (by decide +kernel) (by simp)
  refine ⟨hans.trans rfl, ?_⟩
  rw [hstatus]
  rfl

end Frnetlib
