/-
  Frnetlib.Http.RequestRoundTrip — a request that `construct` writes is read back
  whole, however it is cut.

  `construct_block` writes the request as a header block and a body. Its first line
  is read back by `readLine_requestLine`: the method, the URI up to the `?`, the
  variables up to the space before the first `HTTP`, and the version; none of these
  may contain what ends it. The other lines are the fields of the header map, in any
  order, and up to three that the map lacks.
-/

import Frnetlib.Http.Message

namespace Frnetlib

open Base

/-! ## The request line -/

namespace HttpRequest

/-- The method that is written for a type. -/
def writtenType (r : HttpRequest) : RequestType := if r.requestType = .unknown then .get else r.requestType

def query (o : Order) (r : HttpRequest) : Bytes :=
  if r.getData.entries.isEmpty then [] else bytes "?" ++ joinArguments (o.gets r.getData)

def writtenVersion (r : HttpRequest) : Bytes := if r.version = .v1 then bytes "HTTP/1.0" else bytes "HTTP/1.1"

def requestLine (o : Order) (r : HttpRequest) : Bytes :=
  Http.requestTypeToString r.writtenType ++ SP :: (r.uri ++ r.query o) ++ SP :: r.writtenVersion

/-- The first `HTTP` of a request line is its version's. -/
theorem find_http {front v t : Bytes} (h : ¬ bytes "HTTP" <:+: front) (hv : bytes "HTTP" <+: v) :
    find (bytes "HTTP") (front ++ SP :: v ++ t) = some (front.length + 1) := by
  obtain ⟨w, rfl⟩ := hv
  have hfree : ¬ bytes "HTTP" <:+: (front ++ [SP] ++ bytes "HTTP").dropLast := by
    rw [show (front ++ [SP] ++ bytes "HTTP").dropLast = front ++ SP :: bytes "HTT" by
      rw [List.dropLast_append_of_ne_nil (by decide)]; simp [bytes], infix_sep (by decide)]
    exact fun hi => hi.elim h (by decide)
  have := find_closing (by decide) hfree (w ++ t)
  rw [List.length_append, List.length_singleton] at this
  rwa [show front ++ [SP] ++ bytes "HTTP" ++ (w ++ t) = front ++ SP :: (bytes "HTTP" ++ w) ++ t by simp] at this

theorem parseHeaderType_line {t : RequestType} (ht : t ∈ Http.methods) (rest : Bytes) :
    parseHeaderType (Http.requestTypeToString t ++ SP :: rest) = t := by
  have hsp : SP ∉ Http.requestTypeToString t := Http.method_free ht (by decide)
  unfold parseHeaderType
  rw [find_char hsp]
  simp only [List.take_left]
  exact Http.stringToRequestType_method ht List.prefix_rfl

/-- The URI, and the variables where there are some, up to the space before the version. -/
theorem storeUri_line {h : Http} {front uri args : Bytes} {vars : List Entry} (rest : Bytes) (hfront : 63 ∉ front)
    (huri : 63 ∉ uri)
    (hslash : uri.head? = some 47) (hvars : Http.parseArgumentList (63 :: args) = some vars) :
    storeUri h (front ++ (uri ++ 63 :: args ++ rest)) front.length (front ++ (uri ++ 63 :: args)).length =
      some { h with getData := vars.foldl emplaceGet h.getData, uri := uri } := by
  have hfind : find [63] (front ++ (uri ++ 63 :: args ++ rest)) = some (front ++ uri).length := by
    have := find_char (a := front ++ uri) (c := 63) (by simp [hfront, huri]) (args ++ rest)
    rwa [show front ++ uri ++ 63 :: (args ++ rest) = front ++ (uri ++ 63 :: args ++ rest) by simp] at this
  have hq := substr_mid (front ++ uri) (63 :: args) rest (i := (front ++ uri).length)
    (n := usub (front ++ (uri ++ 63 :: args)).length (front ++ uri).length) rfl (by
      rw [usub_of_le (by simp only [List.length_append]; omega)]
      simp only [List.length_append, List.length_cons]; omega)
  have hu := substr_mid front uri (63 :: args ++ rest) (i := front.length)
    (n := usub (front ++ uri).length front.length) rfl (by
      rw [usub_of_le (by simp only [List.length_append]; omega)]
      simp only [List.length_append]; omega)
  rw [show front ++ uri ++ (63 :: args ++ rest) = front ++ (uri ++ 63 :: args ++ rest) by simp] at hq
  rw [show front ++ (uri ++ (63 :: args ++ rest)) = front ++ (uri ++ 63 :: args ++ rest) by simp] at hu
  unfold storeUri
  rw [hfind]
  simp only [hq, hu, Option.bind_some, hvars]
  rw [Http.setUri, if_neg (by rintro h0; rw [List.isEmpty_iff.mp h0] at hslash; cases hslash), if_pos hslash]

theorem storeUri_plain {h : Http} {front uri rest : Bytes} (hfree : 63 ∉ front ++ (uri ++ rest))
    (hslash : uri.head? = some 47) :
    storeUri h (front ++ (uri ++ rest)) front.length (front ++ uri).length = some { h with uri := uri } := by
  have hu := substr_mid front uri rest (i := front.length)
    (n := usub (front ++ uri).length front.length) rfl (by
      rw [usub_of_le (by simp only [List.length_append]; omega)]
      simp only [List.length_append]; omega)
  unfold storeUri
  rw [find_char_none hfree]
  simp only [hu, Option.map_some]
  rw [Http.setUri, if_neg (by rintro h0; rw [List.isEmpty_iff.mp h0] at hslash; cases hslash), if_pos hslash]

/-- What the line is cut at: the first `/`, and the first `HTTP`, which starts the
    version. -/
theorem parseHeaderUri_line {h h' : Http} {front uri v t : Bytes} (hfront : 47 ∉ front) (hslash : uri.head? = some 47)
    (hhttp : ¬ bytes "HTTP" <:+: front ++ uri) (hv : v = bytes "HTTP/1.0" ∨ v = bytes "HTTP/1.1")
    (hlen : (front ++ uri).length + 1 < 2 ^ 64)
    (hstore : storeUri h (front ++ uri ++ SP :: v ++ t) front.length (front ++ uri).length = some h') :
    parseHeaderUri h (front ++ uri ++ SP :: v ++ t) =
      some { h' with version := if v = bytes "HTTP/1.0" then .v1 else .v1_1 } := by
  obtain ⟨uri', rfl⟩ : ∃ uri', uri = 47 :: uri' := by
    cases uri with
    | nil => cases hslash
    | cons b uri' => cases hslash; exact ⟨uri', rfl⟩
  have h8 : 8 = v.length := by rcases hv with rfl | rfl <;> decide
  have hfind : find [47] (front ++ 47 :: uri' ++ SP :: v ++ t) = some front.length := by
    have := find_char hfront (uri' ++ SP :: v ++ t)
    rwa [show front ++ 47 :: (uri' ++ SP :: v ++ t) = front ++ 47 :: uri' ++ SP :: v ++ t by simp] at this
  have hhttp := find_http (t := t) hhttp (show bytes "HTTP" <+: v by rcases hv with rfl | rfl <;> decide)
  have hver := substr_mid (front ++ 47 :: uri' ++ [SP]) v t (i := (front ++ 47 :: uri').length + 1) (n := 8)
    (by simp only [List.length_append, List.length_singleton]) h8
  rw [show front ++ 47 :: uri' ++ [SP] ++ (v ++ t) = front ++ 47 :: uri' ++ SP :: v ++ t by simp] at hver
  unfold parseHeaderUri
  rw [hfind, hhttp]
  simp only
  rw [usub_of_le (by omega), Nat.add_sub_cancel, hstore, Nat.mod_eq_of_lt hlen, hver]

/-- A request that is read back as it was written: its text is such that the syntax around
    it does not end early. -/
structure Writable (r : HttpRequest) : Prop where
  type : r.requestType ∈ Http.methods ∨ r.requestType = .unknown
  version : r.version = .v1 ∨ r.version = .v1_1
  uri_slash : r.uri.head? = some 47
  uri_text : ∀ b ∈ r.uri, isPrint b = true ∧ b ≠ SP ∧ b ≠ 63
  uri_http : ¬ bytes "HTTP" <:+: r.uri
  get_key : ∀ c ∈ r.getData.entries, c.1.map tolower = c.1 ∧ ∀ b ∈ c.1, isPrint b = true ∧ b ≠ 61 ∧ b ≠ 38 ∧ b ≠ SP
  get_value : ∀ c ∈ r.getData.entries, (∀ b ∈ c.2, isPrint b = true ∧ b ≠ 38 ∧ b ≠ SP) ∧ ¬ bytes "HTTP" <:+: c.2
  headers : Http.Fields r.headerData
  content_length : bytes "content-length" ∉ r.headerData
  posts : r.postData = ∅

theorem Writable.writtenType {r : HttpRequest} (h : Writable r) : r.writtenType ∈ Http.methods := by
  unfold HttpRequest.writtenType
  rcases h.type with ht | ht
  · split
    · decide
    · exact ht
  · rw [if_pos ht]; decide

theorem Writable.argument {r : HttpRequest} (h : Writable r) {c : Entry} (hc : c ∈ r.getData.entries) : Http.Argument c :=
  ⟨fun hm => ((h.get_key c hc).2 _ hm).2.1 rfl, fun hm => ((h.get_key c hc).2 _ hm).2.2.1 rfl,
    fun hm => ((h.get_value c hc).1 _ hm).2.1 rfl, fun b hb => ((h.get_value c hc).1 b hb).1⟩

/-- A lower-case key has no `H` in it. -/
theorem http_lower {k : Bytes} (h : k.map tolower = k) : ¬ bytes "HTTP" <:+: k := by
  intro hi
  have hm : (72 : UInt8) ∈ k := hi.mem (by decide)
  rw [← h] at hm
  obtain ⟨b, -, hb⟩ := List.mem_map.mp hm
  unfold tolower at hb
  split at hb
  · have := congrArg UInt8.toNat hb
    simp only [UInt8.toNat_add, UInt8.reduceToNat] at this
    omega
  · rename_i hn
    subst hb
    exact hn (by decide)

theorem http_join {args : List Entry} (h : ∀ c ∈ args, ¬ bytes "HTTP" <:+: c.1 ∧ ¬ bytes "HTTP" <:+: c.2) :
    ¬ bytes "HTTP" <:+: joinArguments args := by
  induction args with
  | nil => decide
  | cons c args ih =>
    obtain ⟨hk, hv⟩ := h c (by simp)
    cases args with
    | nil =>
      rw [Http.joinArguments_one, infix_sep (by decide)]
      exact fun hi => hi.elim hk hv
    | cons d args =>
      rw [Http.joinArguments_cons, infix_sep (by decide), infix_sep (by decide)]
      exact fun hi => hi.elim hk fun hi => hi.elim hv (ih fun c hc => h c (List.mem_cons_of_mem _ hc))

theorem Writable.http {r : HttpRequest} (h : Writable r) (o : Order) :
    ¬ bytes "HTTP" <:+: Http.requestTypeToString r.writtenType ++ [SP] ++ (r.uri ++ r.query o) := by
  have hm : ¬ bytes "HTTP" <:+: Http.requestTypeToString r.writtenType := by
    have := h.writtenType
    revert this; cases r.writtenType <;> decide
  have hq : ¬ bytes "HTTP" <:+: r.uri ++ r.query o := by
    unfold query
    split
    · rw [List.append_nil]; exact h.uri_http
    · rw [show r.uri ++ (bytes "?" ++ joinArguments (o.gets r.getData)) =
        r.uri ++ 63 :: joinArguments (o.gets r.getData) from rfl,
        infix_sep (by decide)]
      refine fun hi => hi.elim h.uri_http (http_join fun c hc => ?_)
      have hc := (o.gets_perm r.getData).mem_iff.mp hc
      exact ⟨http_lower (h.get_key c hc).1, (h.get_value c hc).2⟩
  rw [List.append_assoc, List.singleton_append, infix_sep (by decide)]
  exact fun hi => hi.elim hm hq

theorem parseArgumentList_query {args : List Entry} (hne : args ≠ []) (h : ∀ c ∈ args, Http.Argument c) :
    Http.parseArgumentList (63 :: joinArguments args) = some args := by
  obtain ⟨c, args, rfl⟩ := List.exists_cons_of_ne_nil hne
  exact Http.parseArgumentsFrom_join c args h [63]

theorem requestLine_eq (o : Order) (r : HttpRequest) (t : Bytes) :
    requestLine o r ++ t =
      (Http.requestTypeToString r.writtenType ++ [SP]) ++ (r.uri ++ r.query o) ++ SP :: r.writtenVersion ++ t := by
  simp [requestLine]

theorem Writable.version_read {r : HttpRequest} (h : Writable r) :
    (if r.writtenVersion = bytes "HTTP/1.0" then RequestVersion.v1 else .v1_1) = r.version := by
  unfold writtenVersion
  rcases h.version with hv | hv <;> rw [hv] <;> decide

/-- The request line read back, with or without its CR. -/
theorem Writable.parseHeaderUri {r : HttpRequest} (hr : Writable r) (o : Order) (h : Http) {t : Bytes}
    (ht : t = [] ∨ t = [CR]) (hlen : (requestLine o r).length < 2 ^ 64) :
    parseHeaderUri h (requestLine o r ++ t) =
      some { h with getData := (o.gets r.getData).foldl emplaceGet h.getData, uri := r.uri, version := r.version } := by
  have hv : r.writtenVersion = bytes "HTTP/1.0" ∨ r.writtenVersion = bytes "HTTP/1.1" := by
    unfold writtenVersion; split
    · exact Or.inl rfl
    · exact Or.inr rfl
  have h47 : (47 : UInt8) ∉ Http.requestTypeToString r.writtenType ++ [SP] := by
    simpa [SP] using Http.method_free hr.writtenType (by decide)
  have h63 : (63 : UInt8) ∉ Http.requestTypeToString r.writtenType ++ [SP] := by
    simpa [SP] using Http.method_free hr.writtenType (by decide)
  have huri : (63 : UInt8) ∉ r.uri := fun hm => (hr.uri_text _ hm).2.2 rfl
  have hslash : (r.uri ++ r.query o).head? = some 47 := by
    rw [List.head?_append, hr.uri_slash]; rfl
  have hlen' : ((Http.requestTypeToString r.writtenType ++ [SP]) ++ (r.uri ++ r.query o)).length + 1 < 2 ^ 64 := by
    have := congrArg List.length (requestLine_eq o r [])
    simp only [List.append_nil, List.length_append, List.length_cons, List.length_nil] at this hlen ⊢
    omega
  -- whatever the query, the URI and the variables are stored
  have hstore : storeUri h ((Http.requestTypeToString r.writtenType ++ [SP]) ++ (r.uri ++ r.query o) ++
        SP :: r.writtenVersion ++ t) (Http.requestTypeToString r.writtenType ++ [SP]).length
        ((Http.requestTypeToString r.writtenType ++ [SP]) ++ (r.uri ++ r.query o)).length =
      some { h with getData := (o.gets r.getData).foldl emplaceGet h.getData, uri := r.uri } := by
    by_cases hg : r.getData.entries.isEmpty = true
    · have hnil : o.gets r.getData = [] := by
        have := o.gets_perm r.getData
        rw [List.isEmpty_iff.mp hg] at this
        exact this.eq_nil
      have hq : r.query o = [] := if_pos hg
      have hfree : (63 : UInt8) ∉ (Http.requestTypeToString r.writtenType ++ [SP]) ++
        (r.uri ++ (SP :: r.writtenVersion ++ t)) := by
        simp only [List.mem_append, not_or]
        refine ⟨by simpa using h63, huri, ?_, ?_⟩
        · rcases hv with hv | hv <;> rw [hv] <;> decide
        · rcases ht with rfl | rfl <;> decide
      have := storeUri_plain (h := h) hfree hr.uri_slash
      rw [hq, hnil, List.append_nil, List.append_assoc _ _ t, List.append_assoc _ r.uri, this]
      rfl
    · have hne : o.gets r.getData ≠ [] := by
        intro hnil
        have := o.gets_perm r.getData
        rw [hnil] at this
        exact hg (List.isEmpty_iff.mpr this.nil_eq.symm)
      have hq : r.query o = 63 :: joinArguments (o.gets r.getData) := if_neg hg
      have hargs : ∀ c ∈ o.gets r.getData, Http.Argument c :=
        fun c hc => hr.argument ((o.gets_perm r.getData).mem_iff.mp hc)
      have := storeUri_line (h := h) (SP :: r.writtenVersion ++ t) h63 huri hr.uri_slash
        (parseArgumentList_query hne hargs)
      rw [hq, List.append_assoc _ _ t, List.append_assoc _ (r.uri ++ _), this]
  rw [requestLine_eq, parseHeaderUri_line h47 hslash (hr.http o) hv hlen' hstore]
  simp only [hr.version_read]

/-! ## The block -/

/-- The lines that `construct` adds to those of the map. -/
def defaults (r : HttpRequest) (host : Bytes) : List Entry :=
  Http.missing r.headerData ⟨bytes "Connection", bytes "keep-alive"⟩ ++
    Http.missing r.headerData ⟨bytes "Host", host⟩ ++ Http.announced (bytes "Content-Length") r.body

def fieldLines (o : Order) (r : HttpRequest) (host : Bytes) : List Bytes :=
  (o.headers r.headerData ++ r.defaults host).map Http.fieldText

theorem mem_defaults {r : HttpRequest} {host : Bytes} {d : Entry} (hd : d ∈ r.defaults host) :
    d = ⟨bytes "Connection", bytes "keep-alive"⟩ ∧ bytes "connection" ∉ r.headerData ∨
      d = ⟨bytes "Host", host⟩ ∧ bytes "host" ∉ r.headerData ∨
      d = ⟨bytes "Content-Length", toDec r.body.length⟩ ∧ r.body ≠ [] := by
  simp only [defaults, List.mem_append] at hd
  rcases hd with (hd | hd) | hd
  · exact Or.inl (Http.mem_missing hd)
  · exact Or.inr (Or.inl (Http.mem_missing hd))
  · exact Or.inr (Or.inr (Http.mem_announced.mp hd).symm)

theorem defaults_names {r : HttpRequest} {host : Bytes} {d : Entry} (hd : d ∈ r.defaults host) :
    d.1.map tolower ∈ [bytes "connection", bytes "host", bytes "content-length"] := by
  rcases mem_defaults hd with ⟨rfl, -⟩ | ⟨rfl, -⟩ | ⟨rfl, -⟩
  · exact List.mem_cons_self
  · exact List.mem_cons_of_mem _ List.mem_cons_self
  · exact List.mem_cons_of_mem _ (List.mem_cons_of_mem _ List.mem_cons_self)

theorem construct_block (o : Order) {r : HttpRequest} (hempty : r.postData = ∅) (host : Bytes) :
    construct o r host = Http.block (requestLine o r :: fieldLines o r host) ++ r.body := by
  have hposts : o.posts r.postData = [] := by
    have := o.posts_perm r.postData
    rw [hempty] at this ⊢
    exact this.eq_nil
  have hheaders : (o.headers r.headerData).flatMap Http.headerLine =
      ((o.headers r.headerData).map Http.fieldText).flatMap (· ++ crlf) := by
    rw [List.flatMap_map]; rfl
  have hversion : (if r.version = .v1 then bytes " HTTP/1.0\r\n" else bytes " HTTP/1.1\r\n") =
      SP :: r.writtenVersion ++ crlf := by unfold writtenVersion; split <;> rfl
  have hjoin : joinArguments [] = [] := rfl
  have hlength : (if r.body.isEmpty = true then [] else bytes "Content-Length: " ++ toDec r.body.length ++ crlf) =
      if r.body = [] then [] else Http.fieldText ⟨bytes "Content-Length", toDec r.body.length⟩ ++ crlf := by
    simp only [List.isEmpty_iff]; rfl
  unfold construct fieldLines defaults requestLine Http.block Http.missing Http.announced
  simp only [hposts, hheaders, hjoin, hversion, List.isEmpty_nil, if_true, List.length_nil, Nat.add_zero, List.append_nil,
    hlength,
    List.flatMap_cons, List.map_append, List.flatMap_append, Http.lines_if]
  simp only [writtenType, query, Http.fieldText, List.append_assoc, List.cons_append]
  rfl

theorem defaults_lines {r : HttpRequest} (hlength : bytes "content-length" ∉ r.headerData) {host : Bytes}
    (hhost : ∀ b ∈ host, isPrint b = true) : Http.Defaults r.headerData (r.defaults host) := by
  intro d hd
  rcases mem_defaults hd with ⟨rfl, hn⟩ | ⟨rfl, hn⟩ | ⟨rfl, -⟩
  · exact ⟨forall_of_all (by decide), forall_of_all (by decide), show _ ∉ bytes "Connection" by decide, hn⟩
  · exact ⟨forall_of_all (show (bytes "Host").all _ = true by decide), hhost, show _ ∉ bytes "Host" by decide, hn⟩
  · exact ⟨forall_of_all (show (bytes "Content-Length").all _ = true by decide), (Http.toDec_value _).2.2,
      show _ ∉ bytes "Content-Length" by decide, hlength⟩

theorem defaults_apart {r : HttpRequest} (hlength : bytes "content-length" ∉ r.headerData) (host : Bytes) :
    Http.Added r.headerData (r.defaults host) := by
  intro d hd
  rcases mem_defaults hd with ⟨rfl, hn⟩ | ⟨rfl, hn⟩ | ⟨rfl, -⟩
  · exact ⟨show _ ∉ bytes "Connection" by decide, hn⟩
  · exact ⟨show _ ∉ bytes "Host" by decide, hn⟩
  · exact ⟨show _ ∉ bytes "Content-Length" by decide, hlength⟩

/-- Where the map announces no length, the one that is read is the body's. -/
theorem length_announced {r : HttpRequest} (hnamed : Http.Named r.headerData)
    (hlength : bytes "content-length" ∉ r.headerData) (o : Order) (host : Bytes) :
    ((Http.received (fieldLines o r host)).filterMap Http.lineField).dlookup (bytes "content-length") =
      if r.body = [] then none else some (toDec r.body.length) := by
  have hds := defaults_apart hlength host
  have hperm := o.headers_perm r.headerData
  have hconn : (bytes "Connection").map tolower ≠ bytes "content-length" := by decide
  have hhost : (bytes "Host").map tolower ≠ bytes "content-length" := by decide
  by_cases hb : r.body = []
  · rw [if_pos hb]
    refine hnamed.lookup_other hperm hds hlength fun d hd => ?_
    rcases mem_defaults hd with ⟨rfl, -⟩ | ⟨rfl, -⟩ | ⟨-, hn⟩
    · exact hconn
    · exact hhost
    · exact absurd hb hn
  · rw [if_neg hb]
    have hd : (⟨bytes "Content-Length", toDec r.body.length⟩ : Entry) ∈ r.defaults host :=
      List.mem_append_right _ (Http.mem_announced.mpr ⟨hb, rfl⟩)
    refine hnamed.lookup_default hperm hds hd (Http.toDec_value _) fun d' hd' heq => ?_
    rcases mem_defaults hd' with ⟨rfl, -⟩ | ⟨rfl, -⟩ | ⟨rfl, -⟩
    · exact absurd heq hconn
    · exact absurd heq hhost
    · rfl

/-- What the header of a written request is read as. -/
theorem Writable.read {r : HttpRequest} (hr : Writable r) (o : Order) (host : Bytes)
    (hlen : (requestLine o r).length < 2 ^ 64) (hbody : r.body.length < 2 ^ 64) :
    ∃ r', readHeader { fresh with headerEnded := true } (Http.received (requestLine o r :: fieldLines o r host)) = (true, r') ∧
      r'.requestType = r.writtenType ∧ r'.version = r.version ∧ r'.uri = r.uri ∧
      r'.getData = (o.gets r.getData).foldl emplaceGet ∅ ∧ r'.contentLength = r.body.length ∧
      ∀ k, r'.headerData.lookup k = ((Http.received (fieldLines o r host)).filterMap Http.lineField).dlookup k := by
  obtain ⟨t, ht, hg⟩ : ∃ t, (t = [] ∨ t = [CR]) ∧
      (if fieldLines o r host = [] then requestLine o r else requestLine o r ++ [CR]) = requestLine o r ++ t := by
    split
    · exact ⟨[], Or.inl rfl, (List.append_nil _).symm⟩
    · exact ⟨[CR], Or.inr rfl, rfl⟩
  have htype : parseHeaderType (requestLine o r ++ t) = r.writtenType := by
    rw [show requestLine o r ++ t = Http.requestTypeToString r.writtenType ++
      SP :: (r.uri ++ r.query o ++ SP :: r.writtenVersion ++ t) by simp [requestLine]]
    exact parseHeaderType_line hr.writtenType _
  have hcount : ¬ RequestType.requestTypeCount.toNat < r.writtenType.toNat := by
    have := hr.writtenType
    revert this; cases r.writtenType <;> decide
  generalize hh : ({ Http.fresh with
    requestType := r.writtenType
    getData := (o.gets r.getData).foldl emplaceGet ∅
    uri := r.uri
    version := r.version } : Http) = h
  have huri : HttpRequest.parseHeaderUri { fresh.toHttp with requestType := r.writtenType } (requestLine o r ++ t) = some h :=
    hh ▸ hr.parseHeaderUri o _ ht hlen
  dsimp only at huri
  have hlookup : ∀ k, ((Http.received (fieldLines o r host)).foldl Http.parseHeaderLine h).headerData.lookup k =
      ((Http.received (fieldLines o r host)).filterMap Http.lineField).dlookup k := by
    intro k
    rw [Http.lookup_lines, ← hh]
    show ((∅ : StrMap).lookup k).or _ = _
    rw [AList.lookup_empty]
    rfl
  have hkept := Http.parseHeaderLines_eq h (Http.received (fieldLines o r host))
  rw [Http.received_cons, hg]
  simp only [readHeader, htype, if_neg hcount, huri, hlookup, length_announced hr.headers.printable.named hr.content_length
    o host]
  by_cases hb : r.body = []
  · simp only [hb, if_true]
    refine ⟨_, rfl, ?_, ?_, ?_, ?_, rfl, hlookup⟩
    all_goals rw [hkept, ← hh]
  · simp only [if_neg hb, stoull_toDec hbody]
    refine ⟨_, rfl, ?_, ?_, ?_, ?_, rfl, hlookup⟩
    all_goals rw [hkept, ← hh]

theorem joinArguments_all {P : UInt8 → Prop} (hequal : P 61) (hand : P 38) {args : List Entry}
    (h : ∀ c ∈ args, ∀ b ∈ c.1 ++ c.2, P b) : ∀ b ∈ joinArguments args, P b := by
  induction args with
  | nil => intro b hb; cases hb
  | cons c args ih =>
    have hc := h c (by simp)
    intro b hb
    cases args with
    | nil =>
      rw [Http.joinArguments_one, List.mem_append, List.mem_cons] at hb
      rcases hb with hb | rfl | hb
      · exact hc b (List.mem_append_left _ hb)
      · exact hequal
      · exact hc b (List.mem_append_right _ hb)
    | cons d args =>
      rw [Http.joinArguments_cons, List.mem_append, List.mem_cons, List.mem_append, List.mem_cons] at hb
      rcases hb with hb | rfl | hb | rfl | hb
      · exact hc b (List.mem_append_left _ hb)
      · exact hequal
      · exact hc b (List.mem_append_right _ hb)
      · exact hand
      · exact ih (fun c hc => h c (List.mem_cons_of_mem _ hc)) b hb

theorem joinArguments_print {args : List Entry} (h : ∀ c ∈ args, ∀ b ∈ c.1 ++ c.2, isPrint b = true) :
    ∀ b ∈ joinArguments args, isPrint b = true :=
  joinArguments_all (by decide) (by decide) h

theorem Writable.line_plain {r : HttpRequest} (hr : Writable r) (o : Order) : Http.Plain (requestLine o r) := by
  have hprint : ∀ b ∈ requestLine o r, isPrint b = true := by
    intro b hb
    simp only [requestLine, query, List.mem_append, List.mem_cons] at hb
    rcases hb with (hb | rfl | hb | hb) | rfl | hb
    · have ht := hr.writtenType
      have key : ∀ t ∈ Http.methods, (Http.requestTypeToString t).all isPrint = true := by decide
      exact List.all_eq_true.mp (key _ ht) b hb
    · decide
    · exact (hr.uri_text b hb).1
    · split at hb
      · cases hb
      · rcases List.mem_append.mp hb with hb | hb
        · exact forall_of_all (P := fun b => isPrint b = true) (by decide) b hb
        · refine joinArguments_print (fun c hc b hb => ?_) b hb
          have hc := (o.gets_perm r.getData).mem_iff.mp hc
          rcases List.mem_append.mp hb with hb | hb
          · exact ((hr.get_key c hc).2 b hb).1
          · exact ((hr.get_value c hc).1 b hb).1
    · decide
    · unfold writtenVersion at hb
      split at hb
      · exact forall_of_all (P := fun b => isPrint b = true) (by decide) b hb
      · exact forall_of_all (P := fun b => isPrint b = true) (by decide) b hb
  exact Http.plain_of_print (by simp [requestLine]) hprint

/-- The variables read are those of the map, whatever the order they were written in. -/
theorem Writable.gets {r : HttpRequest} (hr : Writable r) (o : Order) (k : Bytes) :
    ((o.gets r.getData).foldl emplaceGet ∅).lookup k = r.getData.lookup k := by
  have hlower : ∀ (l : List Entry) (m : StrMap), (∀ c ∈ l, c.1.map tolower = c.1) →
      l.foldl emplaceGet m = l.foldl (fun m c => emplace m c.1 c.2) m := by
    intro l
    induction l with
    | nil => exact fun _ _ => rfl
    | cons c l ih =>
      intro m h
      rw [List.foldl_cons, List.foldl_cons, emplaceGet, h c (by simp), ih _ fun c hc => h c (List.mem_cons_of_mem _ hc)]
  rw [hlower _ _ fun c hc => (hr.get_key c ((o.gets_perm r.getData).mem_iff.mp hc)).1, Http.lookup_emplaces,
    AList.lookup_empty, Option.none_or, ← List.perm_dlookup k r.getData.nodupKeys (o.gets_perm r.getData).symm]
  rfl

end HttpRequest

/-- However the bytes of a written request are cut, the parser asks for more until the
    last piece, and then holds what was written; it adds no header but the three. -/
theorem request_round_trip (o : Order) (r : HttpRequest) (host : Bytes) (hr : r.Writable)
    (hhost : ∀ b ∈ host, isPrint b = true) (hbody : r.body.length ≤ maxHttpBodySize)
    (hsize : (r.construct o host).length - r.body.length ≤ maxHttpHeaderSize) (ps : List Bytes)
    (hne : ∀ p ∈ ps, p ≠ []) (hps : ps.flatten = r.construct o host) :
    let run := feed HttpRequest.parse .fresh ps
    run.1 = List.replicate (ps.length - 1) (some .notEnoughData) ++ [some .success] ∧
      run.2.requestType = (if r.requestType = .unknown then .get else r.requestType) ∧ run.2.version = r.version ∧
      run.2.uri = r.uri ∧ (∀ k, run.2.getData.lookup k = r.getData.lookup k) ∧ run.2.body = r.body ∧
      (∀ k v, r.headerData.lookup k = some v → run.2.headerData.lookup k = some v) ∧
      ∀ k ∈ run.2.headerData, k ∈ r.headerData ∨ k ∈ [bytes "connection", bytes "host", bytes "content-length"] := by
  rw [HttpRequest.construct_block o hr.posts host] at hps hsize
  rw [List.length_append, Nat.add_sub_cancel] at hsize
  have hline := hr.line_plain o
  have hds := HttpRequest.defaults_lines hr.content_length hhost
  have hperm := o.headers_perm r.headerData
  have hlines : ∀ l ∈ r.requestLine o :: r.fieldLines o host, Http.Plain l :=
    List.forall_mem_cons.mpr ⟨hline, hr.headers.printable.plain hperm hds⟩
  have hlen : (r.requestLine o).length < 2 ^ 64 := by
    have := Http.block_cons (r.requestLine o) (r.fieldLines o host)
    rw [this, List.length_append] at hsize
    simp only [maxHttpHeaderSize] at hsize
    omega
  obtain ⟨r', hread, htype, hversion, huri, hgets, hlength, hlookup⟩ :=
    hr.read o host hlen (by simp only [maxHttpBodySize] at hbody; omega)
  have hmethod : Http.requestTypeToString r.writtenType <+: r.requestLine o := by
    rw [HttpRequest.requestLine, List.append_assoc]; exact List.prefix_append _ _
  obtain ⟨post, hfeed⟩ := HttpRequest.feed_message hlines hr.writtenType hmethod hread hlength hsize hbody hne hps
  simp only [hfeed]
  refine ⟨trivial, htype, hversion, huri, fun k => ?_, trivial, fun k v hk => ?_, fun k hk => ?_⟩
  · rw [hgets]; exact hr.gets o k
  · rw [hlookup]; exact hr.headers.lookup hperm hds hk
  · by_contra hnot
    simp only [not_or] at hnot
    refine absurd (AList.lookup_isSome.mpr hk) ?_
    rw [hlookup, HttpRequest.fieldLines, hr.headers.printable.named.lookup_other hperm hds.added hnot.1 fun d hd => ?_]
    · exact Bool.false_ne_true
    · intro heq
      subst heq
      exact hnot.2 (HttpRequest.defaults_names hd)

/-- A `PATCH` with a variable, a header and a body that looks like a header's end. -/
def samplePatch : HttpRequest := { HttpRequest.fresh with
  requestType := .patch
  uri := bytes "/a/b"
  version := .v1
  getData := AList.singleton (bytes "k") (bytes "v=?")
  headerData := AList.singleton (bytes "x y") (bytes "1: 2")
  body := bytes "\r\n\r\nend" }

theorem samplePatch_writable : samplePatch.Writable where
  type := by decide
  version := by decide
  uri_slash := by decide
  uri_text := forall_of_all (by decide)
  uri_http := by decide
  get_key := by
    intro c hc
    rw [List.mem_singleton.mp hc]
    exact ⟨by decide, forall_of_all (by decide)⟩
  get_value := by
    intro c hc
    rw [List.mem_singleton.mp hc]
    exact ⟨forall_of_all (by decide), by decide⟩
  headers := by
    intro c hc
    rw [List.mem_singleton.mp hc]
    exact ⟨by decide, forall_of_all (by decide), by decide, by decide, by decide, forall_of_all (by decide)⟩
  content_length := by decide
  posts := rfl

theorem request_round_trip_patch :
    let s := samplePatch.construct .kept (bytes "h")
    (feed HttpRequest.parse .fresh [s.take 3, s.drop 3]).1 = [some .notEnoughData, some .success] ∧
      (feed HttpRequest.parse .fresh [s.take 3, s.drop 3]).2.body = bytes "\r\n\r\nend" := by
  obtain ⟨hans, -, -, -, -, hbody, -⟩ := request_round_trip .kept samplePatch (bytes "h") samplePatch_writable
    (forall_of_all (by decide))
    (by decide) (by decide +kernel)
    [(samplePatch.construct .kept (bytes "h")).take 3, (samplePatch.construct .kept (bytes "h")).drop 3] (by decide +kernel)
    (by simp)
  refine ⟨hans.trans rfl, ?_⟩
  rw [hbody]
  rfl

end Frnetlib
