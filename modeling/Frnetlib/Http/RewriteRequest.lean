/-
  Frnetlib.Http.RewriteRequest — a request that was read, written by `construct` and read
  again.

  Its URI and its variables are cut out of the new line in the same places only if the
  URI has no `?`, nothing before the version has an `HTTP` in it, and the variables are
  clear (`line_rewritten`).
-/

import Frnetlib.Http.ReadRequest
import Frnetlib.Http.Segmentation

namespace Frnetlib.HttpRequest

open Base

variable {x : HttpRequest}

/-! ## The request line -/

/-- The request line is read back as it was written. -/
structure LineKept (o : Order) (x : HttpRequest) : Prop where
  query : 63 ∉ x.uri
  uri : ¬ bytes "HTTP" <:+: x.uri
  values : ∀ c ∈ x.getData.entries, ¬ bytes "HTTP" <:+: c.2
  gets : Http.Clear (o.gets x.getData)

theorem HeadRead.method (hx : HeadRead x) : x.writtenType ∈ Http.methods := by
  unfold writtenType
  rcases hx.type with ht | ht
  · split
    · decide
    · exact ht
  · rw [if_pos ht]
    decide

/-- What is before the URI has none of what the line is searched for. -/
theorem HeadRead.front (hx : HeadRead x) :
    47 ∉ Http.requestTypeToString x.writtenType ++ [SP] ∧ 63 ∉ Http.requestTypeToString x.writtenType ++ [SP] ∧
      find (bytes "HTTP") (Http.requestTypeToString x.writtenType ++ [SP]) = none := by
  have hm := hx.method
  revert hm
  cases x.writtenType <;> decide

theorem writtenVersion_http (x : HttpRequest) (t : Bytes) : find (bytes "HTTP") (writtenVersion x ++ t) = some 0 := by
  unfold writtenVersion
  split
  · exact find_append (show find (bytes "HTTP") (bytes "HTTP/1.0") = some 0 by decide) t
  · exact find_append (show find (bytes "HTTP") (bytes "HTTP/1.1") = some 0 by decide) t

theorem writtenVersion_plain (x : HttpRequest) :
    ∀ b ∈ SP :: (writtenVersion x ++ [CR]), b ≠ 63 ∧ b ≠ 38 ∧ b ≠ 61 ∧ b ≠ LF := by
  unfold writtenVersion
  split
  · exact forall_of_all (by decide)
  · exact forall_of_all (by decide)

theorem HeadRead.version_read (hx : HeadRead x) (t : Bytes) :
    (if (writtenVersion x ++ t).take 8 = bytes "HTTP/1.0" then RequestVersion.v1 else .v1_1) = x.version := by
  unfold writtenVersion
  rcases hx.version with hv | hv
  · rw [hv, if_pos rfl, List.take_append_of_le_length (by decide)]
    decide
  · rw [hv, if_neg (show ¬ RequestVersion.v1_1 = .v1 by decide), List.take_append_of_le_length (by decide)]
    decide

theorem takenQuery_before {u q tail : Bytes} (h : bytes "HTTP" <:+: u) : takenQuery u q tail = q ++ SP :: tail := by
  obtain ⟨i, hi⟩ := find_isSome_iff.mpr h
  have hle := find_le hi
  simp only [show (bytes "HTTP").length = 4 from rfl] at hle
  rw [takenQuery, find_append hi]
  exact if_pos (by omega)

theorem takenQuery_plain {u q tail : Bytes} (hu : ¬ bytes "HTTP" <:+: u) (hq : ¬ bytes "HTTP" <:+: q) :
    takenQuery u q tail = q := by
  rw [takenQuery, find_sep (by decide), find_eq_none_iff.mpr hu, find_eq_none_iff.mpr hq]
  rfl

/-- A list that is cut before its `HTTP` has none. -/
theorem takenQuery_within {u q : Bytes} (tail : Bytes) (hu : ¬ bytes "HTTP" <:+: u) (hq : bytes "HTTP" <:+: q) :
    ¬ bytes "HTTP" <:+: takenQuery u q tail ∧ (takenQuery u q tail).length ≤ q.length := by
  obtain ⟨j, hj⟩ := find_isSome_iff.mpr hq
  have htaken : takenQuery u q tail = q.take (j - 1) := by
    rw [takenQuery, find_sep (by decide), find_eq_none_iff.mpr hu, hj]
    simp only [Option.none_or, Option.map_some]
    rw [if_neg (by omega), Nat.add_sub_cancel]
  rw [htaken]
  constructor
  · intro hin
    obtain ⟨i, hi⟩ := find_isSome_iff.mpr hin
    have hle := find_le hi
    have hfirst := find_append hi (q.drop (j - 1))
    rw [List.take_append_drop, hj] at hfirst
    cases hfirst
    rw [List.length_take] at hle
    simp only [show (bytes "HTTP").length = 4 from rfl] at hle
    omega
  · rw [List.length_take]
    omega

/-- The URI and the variables that are read back are those that were written exactly when
    the line keeps them, and the version is then too. -/
theorem line_rewritten (hx : HeadRead x) (o : Order) {h h' : Http} (hlen : (requestLine o x ++ [CR]).length < 2 ^ 63)
    (huri : h.uri = bytes "/") (hget : h.getData = ∅) (hs : parseHeaderUri h (requestLine o x ++ [CR]) = some h') :
    ((h'.uri = x.uri ∧ ∀ k, h'.getData.lookup k = x.getData.lookup k) ↔ LineKept o x) ∧
      (LineKept o x → h'.version = x.version) := by
  obtain ⟨hfront, hfront63, hfront'⟩ := hx.front
  obtain ⟨t, ht⟩ : ∃ t, x.uri = 47 :: t := by
    have hslash := hx.slash
    cases hu : x.uri with
    | nil =>
      rw [hu] at hslash
      cases hslash
    | cons b t =>
      rw [hu] at hslash
      cases hslash
      exact ⟨t, rfl⟩
  have hline : requestLine o x ++ [CR] = Http.requestTypeToString x.writtenType ++ [SP] ++
      (47 :: t ++ (query o x ++ SP :: (x.writtenVersion ++ [CR]))) := by
    rw [requestLine_eq, ht]
    simp
  rw [hline] at hlen hs
  by_cases hq : 63 ∈ t
  · obtain ⟨u, w, rfl, hu⟩ := List.eq_append_cons_of_mem hq
    rw [← List.cons_append, List.append_assoc (47 :: u), List.cons_append] at hs
    have hfree : 63 ∉ Http.requestTypeToString x.writtenType ++ [SP] ++ 47 :: u := by simpa [hu] using hfront63
    have hcut := line_cut hfront rfl hfree hs
    have hnot : ¬ LineKept o x := fun hk => hk.query (by simp [ht])
    refine ⟨⟨fun hsame => ?_, fun hk => absurd hk hnot⟩, fun hk => absurd hk hnot⟩
    have := hsame.1
    rw [hcut, ht] at this
    simp at this
  have hplain : 63 ∉ Http.requestTypeToString x.writtenType ++ [SP] ++ 47 :: t := by simpa [hq] using hfront63
  by_cases hempty : x.getData.entries.isEmpty = true
  · have hnil := List.isEmpty_iff.mp hempty
    have hgets : o.gets x.getData = [] := by
      have hperm := o.gets_perm x.getData
      rw [hnil] at hperm
      exact hperm.eq_nil
    have hnothing : query o x = [] := if_pos hempty
    rw [hnothing, List.nil_append] at hlen hs
    have hfree : 63 ∉ Http.requestTypeToString x.writtenType ++ [SP] ++ (47 :: t ++ SP :: (x.writtenVersion ++ [CR])) := by
      rw [← List.append_assoc, List.mem_append, not_or]
      exact ⟨hplain, fun hm => (writtenVersion_plain x _ hm).1 rfl⟩
    have htargeted : Targeted (Http.requestTypeToString x.writtenType ++ [SP]) (47 :: t) (x.writtenVersion ++ [CR]) :=
      ⟨⟨hfront, hfront'⟩, rfl, writtenVersion_http x [CR]⟩
    obtain ⟨hsame, huri'⟩ := line_plain htargeted hfree huri hs
    have hkept : LineKept o x ↔ find (bytes "HTTP") (47 :: t) = none := by
      constructor
      · intro hk
        have hnot := hk.uri
        rwa [ht, ← find_eq_none_iff] at hnot
      · intro hnone
        refine ⟨by simpa [ht] using hq, by rwa [ht, ← find_eq_none_iff], fun c hc => ?_, ?_⟩
        · rw [hnil] at hc
          cases hc
        · rw [hgets]
          exact ⟨nofun, nofun⟩
    rw [hkept, ht, huri']
    refine ⟨⟨And.left, fun hnone => ⟨hnone, fun k => ?_⟩⟩,
      fun hnone => (line_version_plain htargeted hlen hnone hs).trans (hx.version_read _)⟩
    rw [hsame, hget]
    show none = x.getData.entries.dlookup k
    rw [hnil]
    rfl
  · have hlist : query o x = 63 :: joinArguments (o.gets x.getData) := if_neg hempty
    rw [hlist, ← List.append_assoc (47 :: t)] at hlen hs
    have htargeted : Targeted (Http.requestTypeToString x.writtenType ++ [SP])
        (47 :: t ++ 63 :: joinArguments (o.gets x.getData)) (x.writtenVersion ++ [CR]) :=
      ⟨⟨hfront, hfront'⟩, rfl, writtenVersion_http x [CR]⟩
    have hgets := line_query htargeted hplain hlen hs
    have hsame : h'.uri = 47 :: t := by
      rw [List.append_assoc (47 :: t)] at hs
      exact line_cut hfront rfl hplain hs
    rw [hget] at hgets
    have hperm := o.gets_perm x.getData
    have hnodup : (o.gets x.getData).NodupKeys := (List.perm_nodupKeys hperm).mpr x.getData.nodupKeys
    have hname : ∀ c ∈ o.gets x.getData, c.1.map tolower = c.1 ∧ 61 ∉ c.1 := fun c hc => hx.gets.name c (hperm.mem_iff.mp hc)
    have hne : o.gets x.getData ≠ [] := by
      intro hnil
      rw [hnil] at hperm
      exact hempty (List.isEmpty_iff.mpr hperm.nil_eq.symm)
    have hlookup : ∀ k, x.getData.lookup k = (o.gets x.getData).dlookup k := fun k => (List.perm_dlookup k hnodup hperm).symm
    have hfits := hlen
    simp only [List.length_append, List.length_cons] at hfits
    have hsurvive := Http.variables_survive hx.gets hperm (by omega)
    have hjoin : (∀ c ∈ x.getData.entries, ¬ bytes "HTTP" <:+: c.2) ↔ ¬ bytes "HTTP" <:+: joinArguments (o.gets x.getData) := by
      constructor
      · intro hvalues
        exact http_join fun c hc => ⟨http_lower (hname c hc).1, hvalues c (hperm.mem_iff.mp hc)⟩
      · intro hnot c hc hhttp
        exact hnot (hhttp.trans (Http.joinArguments_value (hperm.mem_iff.mpr hc)))
    constructor
    · constructor
      · intro hgiven
        obtain ⟨-, hsame'⟩ := hgiven
        have hnot : ¬ bytes "HTTP" <:+: 47 :: t := by
          intro hhttp
          -- the list is read on over the version
          rw [hgets, takenQuery_before hhttp] at hsame'
          have htail : 38 ∉ SP :: (x.writtenVersion ++ [CR]) := fun hm => (writtenVersion_plain x _ hm).2.1 rfl
          have htrim : Http.trimEnds (SP :: (x.writtenVersion ++ [CR])) ≠ [] := by
            rw [Http.trimEnds_cons (by decide)]
            exact List.cons_ne_nil _ _
          have hclear := Http.variables_clear hne hnodup hname htail (.inr htrim)
            (by simp only [List.length_append, List.length_cons]; omega) fun k => by
              rw [← Http.lookup_gets, hsame', hlookup]
          cases hclear.1
        have hnot' : ¬ bytes "HTTP" <:+: joinArguments (o.gets x.getData) := by
          intro hhttp
          obtain ⟨hu, hshort⟩ := takenQuery_within (x.writtenVersion ++ [CR]) hnot hhttp
          refine hjoin.mp (fun c hc hv' => hu ?_) hhttp
          have hc' := hsame' c.1
          rw [hgets, Http.lookup_gets, AList.mem_lookup_iff.mpr hc] at hc'
          obtain ⟨a, ha, hac⟩ := List.mem_map.mp (List.of_mem_dlookup hc')
          obtain ⟨-, w, hw, hpre⟩ := Http.arguments_mem (by omega) a ha
          have hvalue' : c.2 = a.2 := congrArg Sigma.snd hac.symm
          rw [hvalue'] at hv'
          exact ((hv'.trans hpre.isInfix).trans ((List.suffix_cons _ _).trans (List.suffix_append _ _)).isInfix).trans hw
        refine ⟨by simpa [ht] using hq, by rwa [ht], hjoin.mpr hnot', hsurvive.mp ?_⟩
        rwa [hgets, takenQuery_plain hnot hnot'] at hsame'
      · intro hk
        have hnot := hk.uri
        rw [ht] at hnot
        rw [hgets, takenQuery_plain hnot (hjoin.mp hk.values), ht]
        exact ⟨hsame, hsurvive.mpr hk.gets⟩
    · intro hk
      have hnot := hk.uri
      rw [ht] at hnot
      have hnone : find (bytes "HTTP") (47 :: t ++ 63 :: joinArguments (o.gets x.getData)) = none := by
        rw [find_sep (by decide), find_eq_none_iff.mpr hnot, find_eq_none_iff.mpr (hjoin.mp hk.values)]
        rfl
      exact (line_version_plain htargeted hlen hnone hs).trans (hx.version_read _)

/-! ## The header -/

theorem HeadRead.line (hx : HeadRead x) (o : Order) : Http.Line (requestLine o x) := by
  refine ⟨by simp [requestLine], fun hm => ?_⟩
  simp only [requestLine, query, List.mem_append, List.mem_cons] at hm
  have hmethod : LF ∉ Http.requestTypeToString x.writtenType := Http.method_free hx.method (by decide)
  rcases hm with (hm | hm | hm | hm) | hm | hm
  · exact hmethod hm
  · exact absurd hm (by decide)
  · exact hx.uri hm
  · split at hm
    · cases hm
    · rcases List.mem_append.mp hm with hm | hm
      · exact absurd hm (by decide)
      · refine joinArguments_all (P := fun b => b ≠ LF) (by decide) (by decide) (fun c hc b hb => ?_) LF hm rfl
        have hplain := hx.gets.plain c ((o.gets_perm x.getData).mem_iff.mp hc)
        intro heq
        subst heq
        exact (List.mem_append.mp hb).elim hplain.1 hplain.2
  · exact absurd hm (by decide)
  · exact (writtenVersion_plain x LF (List.mem_cons_of_mem _ (List.mem_append_left _ hm))).2.2.2 rfl

theorem HeadRead.lines (hx : HeadRead x) (o : Order) {host : Bytes} (hhost : bytes "host" ∈ x.headerData ∨ LF ∉ host) :
    ∀ l ∈ requestLine o x :: fieldLines o x host, Http.Line l := by
  refine List.forall_mem_cons.mpr ⟨hx.line o, fun l hl => ?_⟩
  obtain ⟨c, hc, rfl⟩ := List.mem_map.mp hl
  rcases List.mem_append.mp hc with hc | hc
  · exact hx.headers.line ((o.headers_perm _).mem_iff.mp hc)
  · rcases mem_defaults hc with ⟨rfl, -⟩ | ⟨rfl, hn⟩ | ⟨rfl, -⟩
    · exact Http.fieldText_line (show LF ∉ bytes "Connection" by decide) (show LF ∉ bytes "keep-alive" by decide)
    · exact Http.fieldText_line (show LF ∉ bytes "Host" by decide) (hhost.resolve_left hn)
    · exact Http.fieldText_line (show LF ∉ bytes "Content-Length" by decide)
        fun hm => (Http.isPrint_plain ((Http.toDec_value _).2.2 LF hm)).2 rfl

theorem fieldLines_ne (o : Order) (x : HttpRequest) (host : Bytes) : fieldLines o x host ≠ [] := by
  intro hnil
  have hnil := List.append_eq_nil_iff.mp (List.map_eq_nil_iff.mp hnil)
  have hdefault : Http.missing x.headerData ⟨bytes "Connection", bytes "keep-alive"⟩ = [] :=
    (List.append_eq_nil_iff.mp (List.append_eq_nil_iff.mp hnil.2).1).1
  unfold Http.missing at hdefault
  split at hdefault
  · rename_i hmem
    have hperm := o.headers_perm x.headerData
    rw [hnil.1] at hperm
    obtain ⟨v, hv⟩ := List.mem_keys.mp hmem
    rw [← hperm.nil_eq] at hv
    cases hv
  · cases hdefault

/-- The length that is read again is at most the body's. -/
theorem HeadRead.length_read (hx : HeadRead x) (o : Order) (host : Bytes) (hcomplete : x.contentLength ≤ x.body.length)
    (hbody : x.body.length < 2 ^ 64) :
    ((Http.received (fieldLines o x host)).filterMap Http.lineField).dlookup (bytes "content-length") = none ∨
      ∃ v n, ((Http.received (fieldLines o x host)).filterMap Http.lineField).dlookup (bytes "content-length") = some v ∧
        stoull 10 v = some n ∧ n ≤ x.body.length := by
  have hperm := o.headers_perm x.headerData
  rcases hx.length with ⟨hnone, -⟩ | ⟨v, hv, hn⟩
  · rw [length_announced hx.headers.named (AList.lookup_eq_none.mp hnone) o host]
    by_cases hb : x.body = []
    · exact Or.inl (if_pos hb)
    · exact Or.inr ⟨_, _, if_neg hb, stoull_toDec hbody, le_rfl⟩
  · right
    refine ⟨v, _, hx.headers.lookup hperm hv fun _ _ => ?_, hn, hcomplete⟩
    intro heq
    subst heq
    cases hn

/-- What the header that is written is read as. -/
theorem HeadRead.reread (hx : HeadRead x) (o : Order) (host : Bytes) (hcomplete : x.contentLength ≤ x.body.length)
    (hbody : x.body.length < 2 ^ 64) (hlen : (requestLine o x ++ [CR]).length < 2 ^ 63) :
    ∃ y, readHeader { fresh with headerEnded := true } (Http.received (requestLine o x :: fieldLines o x host)) = (true, y) ∧
      y.requestType = x.writtenType ∧ y.contentLength ≤ x.body.length ∧
      ((y.uri = x.uri ∧ ∀ k, y.getData.lookup k = x.getData.lookup k) ↔ LineKept o x) ∧
      (LineKept o x → y.version = x.version) ∧
      ∀ k, y.headerData.lookup k = ((Http.received (fieldLines o x host)).filterMap Http.lineField).dlookup k := by
  have htype : parseHeaderType (requestLine o x ++ [CR]) = x.writtenType := by
    rw [requestLine_eq]
    have hline := parseHeaderType_line hx.method (x.uri ++ query o x ++ (SP :: x.writtenVersion ++ [CR]))
    simpa using hline
  have hcount : ¬ RequestType.requestTypeCount.toNat < x.writtenType.toNat := by
    have := hx.method
    revert this
    cases x.writtenType <;> decide
  have hslash : 47 ∈ requestLine o x ++ [CR] := by
    have := List.mem_of_mem_head? hx.slash
    simp [requestLine, this]
  have hhttp : bytes "HTTP" <:+: requestLine o x ++ [CR] := by
    have hversion := find_isSome_iff.mp ⟨0, writtenVersion_http x [CR]⟩
    refine hversion.trans ⟨Http.requestTypeToString x.writtenType ++ [SP] ++ (x.uri ++ query o x) ++ [SP], [], ?_⟩
    rw [requestLine_eq]
    simp
  obtain ⟨getData, uri, version, huri⟩ := parseHeaderUri_some { fresh.toHttp with requestType := x.writtenType } hslash hhttp
  obtain ⟨hsame, hversion⟩ := line_rewritten hx o hlen rfl rfl huri
  generalize hh : ({ fresh.toHttp with requestType := x.writtenType, getData := getData, uri := uri, version := version } :
    Http) = h
    at huri
  have hlookup : ∀ k, ((Http.received (fieldLines o x host)).foldl Http.parseHeaderLine h).headerData.lookup k =
      ((Http.received (fieldLines o x host)).filterMap Http.lineField).dlookup k := by
    intro k
    rw [Http.lookup_lines, ← hh]
    show ((∅ : StrMap).lookup k).or _ = _
    rw [AList.lookup_empty]
    rfl
  have hkept := Http.parseHeaderLines_eq h (Http.received (fieldLines o x host))
  rw [Http.received_cons, if_neg (fieldLines_ne o x host)]
  rcases hx.length_read o host hcomplete hbody with hnone | ⟨v, n, hv, hn, hle⟩
  · simp only [readHeader, htype, if_neg hcount, huri, hlookup, hnone]
    refine ⟨_, rfl, ?_, Nat.zero_le _, ?_, ?_, hlookup⟩
    · rw [hkept, ← hh]
    · rw [hkept, ← hh]
      exact hsame
    · rw [hkept, ← hh]
      exact hversion
  · simp only [readHeader, htype, if_neg hcount, huri, hlookup, hv, hn]
    refine ⟨_, rfl, ?_, hle, ?_, ?_, hlookup⟩
    · rw [hkept, ← hh]
    · rw [hkept, ← hh]
      exact hsame
    · rw [hkept, ← hh]
      exact hversion

/-! ## The request -/

/-- Written and read again, the request is the same, and has all its header fields. -/
def Resent (o : Order) (x : HttpRequest) (host : Bytes) : Prop :=
  ∃ y, parse fresh (construct o x host) = (some .success, y) ∧ y.requestType = x.requestType ∧ y.version = x.version ∧
    y.uri = x.uri ∧ (∀ k, y.getData.lookup k = x.getData.lookup k) ∧ (∀ k, y.postData.lookup k = x.postData.lookup k) ∧
    y.body = x.body ∧ ∀ k v, x.headerData.lookup k = some v → y.headerData.lookup k = some v

/-- What that takes: a method, no POST variables, a line that is kept, a last line that is
    not the one of an empty field, and a header within the limit. -/
structure Resendable (o : Order) (x : HttpRequest) (host : Bytes) : Prop where
  method : x.requestType ≠ .unknown
  posts : x.postData = ∅
  line : LineKept o x
  last : bytes "connection" ∈ x.headerData → bytes "host" ∈ x.headerData → x.body = [] →
    ∀ c ∈ (o.headers x.headerData).getLast?, c.2 ≠ []
  size : (requestLine o x).length + Http.linesSize (x.headerData.entries ++ x.defaults host) ≤ maxHttpHeaderSize

theorem defaults_eq_nil {host : Bytes} :
    x.defaults host = [] ↔ bytes "connection" ∈ x.headerData ∧ bytes "host" ∈ x.headerData ∧ x.body = [] := by
  have hconn : (bytes "Connection").map tolower = bytes "connection" := by decide
  have hhost : (bytes "Host").map tolower = bytes "host" := by decide
  simp only [defaults, Http.missing, Http.announced, List.append_eq_nil_iff, hconn, hhost, ite_eq_left_iff,
    List.cons_ne_nil, imp_false, Classical.not_not, and_assoc]

/-- What comes behind the header is the body of a request that was read. -/
theorem parse_behind {head v : Bytes} {y : HttpRequest} {t : RequestType} (hclosed : Http.Closed head) (ht : t ∈ Http.methods)
    (hmethod : Http.requestTypeToString t <+: head) (hy : parse fresh (head ++ v) = (some .success, y)) :
    head.length ≤ maxHttpHeaderSize + 4 ∧ y.body = v := by
  have hsize : head.length ≤ maxHttpHeaderSize + 4 := by
    by_contra hlong
    have hbig := parse_head_long hclosed ht hmethod (by omega) v
    rw [hy] at hbig
    cases hbig
  have hlen := hclosed.length
  rw [parse_fresh, if_neg (method_known ht hmethod List.prefix_rfl), hclosed.headerEnd] at hy
  simp only at hy
  rw [if_neg (by omega), List.drop_left' (by omega)] at hy
  split at hy
  · cases hy
  · rename_i r hr
    refine ⟨hsize, ?_⟩
    have hbody := (parseBody_body { r with body := v }).1
    rw [hy] at hbody
    exact hbody

theorem postLine_eq_nil {o : Order} (h : postLine o x = []) : x.postData = ∅ := by
  have hperm := o.posts_perm x.postData
  unfold postLine at h
  split at h
  · rename_i hempty
    rcases hposts : o.posts x.postData with _ | ⟨c, args⟩
    · rw [hposts] at hperm
      exact AList.ext hperm.nil_eq.symm
    · rw [hposts] at hempty
      cases args with
      | nil => simp [Http.joinArguments_one] at hempty
      | cons d args => simp [Http.joinArguments_cons] at hempty
  · simp [crlf] at h

theorem requestLine_block (o : Order) (x : HttpRequest) (lines : List Bytes) :
    Http.requestTypeToString x.writtenType <+: Http.block (requestLine o x :: lines) := by
  refine block_method ?_
  rw [requestLine, List.append_assoc]
  exact List.prefix_append _ _

/-- The variables of a POST are read as a part of the body. -/
theorem Parsed.body_read (hx : Parsed x) (o : Order) {host : Bytes} (hhost : bytes "host" ∈ x.headerData ∨ LF ∉ host)
    {y : HttpRequest} (hy : parse fresh (construct o x host) = (some .success, y)) : y.body = postLine o x ++ x.body := by
  have hplain : HeadRead (plain o x) := ⟨hx.type, hx.version, hx.slash, hx.uri, hx.gets, hx.headers, hx.length⟩
  rw [construct_plain] at hy
  exact (parse_behind (Http.block_closed (hplain.lines o hhost)) hx.toHeadRead.method (requestLine_block o (plain o x) _) hy).2

/-- What is read of a request that was written without variables. -/
theorem Parsed.reparse (hx : Parsed x) (o : Order) {host : Bytes} (hhost : bytes "host" ∈ x.headerData ∨ LF ∉ host)
    (hposts : x.postData = ∅)
    (hsize : (Http.block (requestLine o x :: fieldLines o x host)).length ≤ maxHttpHeaderSize + 4) :
    ∃ y, parse fresh (construct o x host) = (some .success, y) ∧ y.requestType = x.writtenType ∧
      ((y.uri = x.uri ∧ ∀ k, y.getData.lookup k = x.getData.lookup k) ↔ LineKept o x) ∧
      (LineKept o x → y.version = x.version) ∧ (x.requestType ≠ .unknown → y.postData = x.postData) ∧ y.body = x.body ∧
      ∀ k, y.headerData.lookup k = ((Http.received (fieldLines o x host)).filterMap Http.lineField).dlookup k := by
  have hlines := hx.toHeadRead.lines o hhost
  have hmethods := hx.toHeadRead.method
  have hbody : x.body.length < 2 ^ 64 := by
    have := hx.limit
    simp only [maxHttpBodySize] at this
    omega
  have hline : (requestLine o x ++ [CR]).length < 2 ^ 63 := by
    rw [Http.block_cons, List.length_append, List.length_cons] at hsize
    simp only [maxHttpHeaderSize] at hsize
    rw [List.length_append, List.length_singleton]
    omega
  obtain ⟨r, hread, htype, hlength, hsame, hversion, hlookup⟩ :=
    hx.toHeadRead.reread o host hx.complete hbody hline
  have hsplit := Http.splitString_block hlines []
  rw [List.append_nil] at hsplit
  have hhead : readHead ((Http.block (requestLine o x :: fieldLines o x host)).take
      ((Http.block (requestLine o x :: fieldLines o x host)).length - 4)) = (true, r) := by
    rw [readHead, hsplit, hread]
  have hempty := readHead_post ((Http.block (requestLine o x :: fieldLines o x host)).take
    ((Http.block (requestLine o x :: fieldLines o x host)).length - 4))
  rw [hhead] at hempty
  have hparse := parse_head (Http.block_closed hlines) hmethods (requestLine_block o x _) hhead hsize x.body
  rw [construct_block o hposts host, hparse, parseBody_eq (r := { r with body := x.body }) hlength hx.limit]
  refine ⟨_, rfl, htype, hsame, hversion, fun hknown => ?_, rfl, hlookup⟩
  have hsame' : r.requestType = x.requestType := htype.trans (if_neg hknown)
  rw [hx.posts]
  simp only [hsame', show r.postData = ∅ from hempty]

/-- A request that was read is the same again exactly when it is resendable. -/
theorem Parsed.resent_iff (hx : Parsed x) (o : Order) {host : Bytes} (hhost : bytes "host" ∈ x.headerData ∨ LF ∉ host) :
    Resent o x host ↔ Resendable o x host := by
  have hmethods := hx.toHeadRead.method
  constructor
  · intro hgiven
    obtain ⟨y, hy, htype, hversion, huri, hgets, -, hbody, hheaders⟩ := hgiven
    have hposts : x.postData = ∅ := by
      have hbehind := hx.body_read o hhost hy
      rw [hbody] at hbehind
      exact postLine_eq_nil (by simpa using hbehind)
    have hblock := construct_block o hposts host
    have hlines := hx.toHeadRead.lines o hhost
    have hsize := hy
    rw [hblock] at hsize
    obtain ⟨hsize, -⟩ := parse_behind (Http.block_closed hlines) hmethods (requestLine_block o x _) hsize
    obtain ⟨y', hy', htype', hline, -, -, -, hlookup⟩ := hx.reparse o hhost hposts hsize
    rw [hy] at hy'
    cases hy'
    refine ⟨fun hunknown => ?_, hposts, hline.mp ⟨huri, hgets⟩, fun hconn hhost' hb c hc hempty => ?_, ?_⟩
    · rw [htype', hunknown] at htype
      rw [htype] at hmethods
      exact absurd hmethods (by decide)
    · have hfields : fieldLines o x host = (o.headers x.headerData).map Http.fieldText := by
        rw [fieldLines, defaults_eq_nil.mpr ⟨hconn, hhost', hb⟩, List.append_nil]
      have hperm := o.headers_perm x.headerData
      have hfield := hheaders c.1 c.2 (AList.mem_lookup_iff.mpr (hperm.mem_iff.mp (List.mem_of_getLast? hc)))
      rw [hlookup, hfields, hx.headers.lookup_last hperm hc hempty] at hfield
      cases hfield
    · rw [fieldLines, Http.block_size, Http.linesSize_perm (o.headers_perm _)] at hsize
      omega
  · intro hk
    have hsize : (Http.block (requestLine o x :: fieldLines o x host)).length ≤ maxHttpHeaderSize + 4 := by
      have hsize := hk.size
      rw [fieldLines, Http.block_size, Http.linesSize_perm (o.headers_perm _)]
      omega
    obtain ⟨y, hy, htype, hline, hversion, hpost, hbody, hlookup⟩ := hx.reparse o hhost hk.posts hsize
    obtain ⟨huri, hgets⟩ := hline.mpr hk.line
    refine ⟨y, hy, htype.trans (if_neg hk.method), hversion hk.line, huri, hgets, fun k => by rw [hpost hk.method], hbody,
      fun k v hkv => ?_⟩
    rw [hlookup]
    refine hx.headers.lookup (o.headers_perm _) hkv fun hnil hlast => ?_
    obtain ⟨hconn, hhost', hb⟩ := defaults_eq_nil.mp hnil
    exact hk.last hconn hhost' hb ⟨k, v⟩ hlast

end Frnetlib.HttpRequest
