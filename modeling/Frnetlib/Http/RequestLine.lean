/-
  Frnetlib.Http.RequestLine — what `parse_header_uri` makes of a request line with any
  target.

  It looks for a `/` and for an `HTTP` anywhere in the line, and wherever it finds them
  none of what it cuts out throws (`parseHeaderUri_some`). So a `GET` line for whatever
  text with a `/` in it, spaces and `HTTP` included, makes a request with the header
  fields that follow (`readHeader_get`); only its URI and its variables may not be what
  was asked for.
-/

import Frnetlib.Http.RequestRoundTrip

namespace Frnetlib.HttpRequest

open Base

theorem setUri_eq (h : Http) (str : Bytes) : ∃ uri, h.setUri str = { h with uri := uri } := by
  unfold Http.setUri
  split
  · exact ⟨h.uri, rfl⟩
  · split
    · exact ⟨str, rfl⟩
    · exact ⟨47 :: str, rfl⟩

theorem setUri_headerData (h : Http) (str : Bytes) : (h.setUri str).headerData = h.headerData := by
  obtain ⟨uri, huri⟩ := setUri_eq h str
  rw [huri]

/-- The target that is asked for: the path, with a `/` in front. -/
theorem setUri_target {h : Http} (huri : h.uri = bytes "/") {path : Bytes} (hpath : ∀ b ∈ path, isPrint b = true) :
    47 ∈ (h.setUri path).uri ∧ ∀ b ∈ (h.setUri path).uri, isPrint b = true := by
  have hslash : isPrint 47 = true := by decide
  unfold Http.setUri
  by_cases hempty : path.isEmpty = true
  · rw [if_pos hempty, huri]
    exact ⟨by decide, forall_of_all (by decide)⟩
  · rw [if_neg hempty]
    by_cases hhead : path.head? = some 47
    · rw [if_pos hhead]
      exact ⟨List.mem_of_mem_head? (by rw [hhead]; rfl), hpath⟩
    · rw [if_neg hhead]
      exact ⟨List.mem_cons_self, List.forall_mem_cons.mpr ⟨hslash, hpath⟩⟩

theorem storeUri_some (h : Http) {line : Bytes} {uriBegin : Nat} (hbegin : uriBegin ≤ line.length) (uriEnd : Nat) :
    ∃ getData uri, storeUri h line uriBegin uriEnd = some { h with getData := getData, uri := uri } := by
  unfold storeUri
  cases hget : find [63] line with
  | none =>
    obtain ⟨uri, huri⟩ := setUri_eq h ((line.drop uriBegin).take (usub uriEnd uriBegin))
    exact ⟨h.getData, uri, by simp only [substr_of_le hbegin, Option.map_some, huri]⟩
  | some getBegin =>
    have hle : getBegin ≤ line.length := Nat.le_trans (Nat.le_add_right _ _) (find_le hget)
    obtain ⟨getVars, hvars⟩ : ∃ args, Http.parseArgumentList ((line.drop getBegin).take (usub uriEnd getBegin)) = some args :=
      ⟨_, Http.parseArgumentList_eq _⟩
    obtain ⟨uri, huri⟩ := setUri_eq { h with getData := getVars.foldl emplaceGet h.getData }
      ((line.drop uriBegin).take (usub getBegin uriBegin))
    refine ⟨getVars.foldl emplaceGet h.getData, uri, ?_⟩
    simp only [substr_of_le hle, substr_of_le hbegin, Option.bind_some, hvars]
    exact congrArg some huri

/-- A line with a `/` and an `HTTP` is taken, wherever they are. -/
theorem parseHeaderUri_some (h : Http) {line : Bytes} (hslash : 47 ∈ line) (hhttp : bytes "HTTP" <:+: line) :
    ∃ getData uri version,
      parseHeaderUri h line = some { h with getData := getData, uri := uri, version := version } := by
  obtain ⟨uriBegin, hbegin⟩ := find_isSome_iff.mpr ((List.singleton_infix_iff _ _).mpr hslash)
  obtain ⟨httpPos, hpos⟩ := find_isSome_iff.mpr hhttp
  have hle := find_le hbegin
  have hle' := find_le hpos
  obtain ⟨getData, uri, hstore⟩ := storeUri_some h (Nat.le_trans (Nat.le_add_right _ _) hle) (usub httpPos 1)
  have hversion : (usub httpPos 1 + 1) % 2 ^ 64 ≤ line.length := by
    unfold usub
    split <;> omega
  refine ⟨getData, uri,
    if (line.drop ((usub httpPos 1 + 1) % 2 ^ 64)).take 8 = bytes "HTTP/1.0" then .v1 else .v1_1, ?_⟩
  unfold parseHeaderUri
  simp only [hbegin, hpos, hstore, substr_of_le hversion]

/-- The line that asks for `uri`, and fields without a length, in a header. -/
theorem readHeader_get {uri : Bytes} (hslash : 47 ∈ uri) {lines : List Bytes}
    (hlength : ((Http.received lines).filterMap Http.lineField).dlookup (bytes "content-length") = none) :
    ∃ r, readHeader { fresh with headerEnded := true }
        (Http.received ((bytes "GET" ++ SP :: (uri ++ bytes " HTTP/1.1")) :: lines)) = (true, r) ∧
      r.requestType = .get ∧ r.contentLength = 0 ∧
      ∀ k, r.headerData.lookup k = ((Http.received lines).filterMap Http.lineField).dlookup k := by
  obtain ⟨t, hline⟩ : ∃ t, (if lines = [] then bytes "GET" ++ SP :: (uri ++ bytes " HTTP/1.1")
      else bytes "GET" ++ SP :: (uri ++ bytes " HTTP/1.1") ++ [CR]) = bytes "GET" ++ SP :: (uri ++ bytes " HTTP/1.1" ++ t) := by
    split
    · exact ⟨[], by simp⟩
    · exact ⟨[CR], by simp⟩
  have htype : parseHeaderType (bytes "GET" ++ SP :: (uri ++ bytes " HTTP/1.1" ++ t)) = .get :=
    parseHeaderType_line (t := .get) (by decide) _
  have hhttp : bytes "HTTP" <:+: bytes "GET" ++ SP :: (uri ++ bytes " HTTP/1.1" ++ t) :=
    ⟨bytes "GET" ++ SP :: uri ++ [SP], bytes "/1.1" ++ t, by simp [bytes, SP]⟩
  have hslash' : 47 ∈ bytes "GET" ++ SP :: (uri ++ bytes " HTTP/1.1" ++ t) := by simp [hslash]
  obtain ⟨getData, uri', version, huri⟩ := parseHeaderUri_some { fresh.toHttp with requestType := .get } hslash' hhttp
  generalize hh : ({ fresh.toHttp with requestType := .get, getData := getData, uri := uri', version := version } : Http) = h
    at huri
  have hlookup : ∀ k, ((Http.received lines).foldl Http.parseHeaderLine h).headerData.lookup k =
      ((Http.received lines).filterMap Http.lineField).dlookup k := by
    intro k
    rw [Http.lookup_lines, ← hh]
    show ((∅ : StrMap).lookup k).or _ = _
    rw [AList.lookup_empty]
    rfl
  have hkept := Http.parseHeaderLines_eq h (Http.received lines)
  have hcount : ¬ RequestType.requestTypeCount.toNat < RequestType.get.toNat := by decide
  rw [Http.received_cons, hline]
  simp only [readHeader, htype, if_neg hcount, huri, hlookup, hlength]
  refine ⟨_, rfl, ?_, rfl, hlookup⟩
  rw [hkept, ← hh]

end Frnetlib.HttpRequest
