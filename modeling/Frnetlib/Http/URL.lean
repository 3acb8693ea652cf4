/-
  Frnetlib.Http.URL — `fr::URL::parse` (`URL.cpp`), and what it makes of a URL that is
  written by the grammar scheme://host[:port][/path][?query][#fragment].

  The components are found by searches from a running offset: a ':' anywhere behind the
  scheme, then the next '/', then '?' and '#'. So a delimiter of one component is taken
  for that of another unless the URL is tidy (`parse_written`).
-/

import Frnetlib.Base.Numeral
import Frnetlib.Base.Search

namespace Frnetlib

open Base

namespace URL

def COLON : UInt8 := 58
def SLASH : UInt8 := 47
def QUESTION : UInt8 := 63
def HASH : UInt8 := 35

inductive Scheme where
  | http
  | https
  | ftp
  | mailto
  | irc
  | sftp
  | unknown
  deriving DecidableEq, Repr

/-- The first of two entries with one key is the one that is kept. -/
def schemeStringMap : List (Bytes × Scheme) :=
  [(bytes "http", .http), (bytes "https", .https), (bytes "sftp", .ftp), (bytes "mailto", .mailto), (bytes "irc", .irc),
    (bytes "sftp", .sftp), (bytes "unknown", .unknown)]

/-- The port of a scheme, where there is a guess for it. -/
def Scheme.port : Scheme → Option Bytes
  | .http => some (bytes "80")
  | .https => some (bytes "443")
  | .irc => some (bytes "6697")
  | .ftp => some (bytes "21")
  | .sftp => some (bytes "25")
  | .mailto | .unknown => none

end URL

structure URL where
  scheme : URL.Scheme
  host : Bytes
  port : Bytes
  path : Bytes
  query : Bytes
  fragment : Bytes
  deriving DecidableEq, Repr

namespace URL

/-- A URL that has parsed nothing; `parse` sets the scheme before anything else. -/
def fresh : URL := ⟨.unknown, [], [], [], [], []⟩

/-- The scheme, if there is one, and the offset behind it. -/
def parseScheme (url : Bytes) : Option (Scheme × Nat) :=
  match find (bytes "://") url with
  | none => some (.unknown, 0)
  | some pos =>
    match substr url 0 pos with
    | none => none
    | some scheme => some ((schemeStringMap.lookup (scheme.map tolower)).getD .unknown, pos + 3)

/-- The host and the port. -/
def parseHost (u : URL) (url : Bytes) (parseOffset : Nat) : Option (URL × Nat) :=
  match findFrom [COLON] url parseOffset with
  | some pos =>
    match substr url parseOffset (pos - parseOffset) with
    | none => none
    | some host =>
      let parseOffset := parseOffset + host.length
      let portEnd := (findFrom [SLASH] url parseOffset).getD url.length
      match substr url (pos + 1) (portEnd - pos - 1) with
      | none => none
      | some port => some ({ u with host := host, port := port }, portEnd + 1)
  | none =>
    let pos := findFrom [SLASH] url parseOffset
    let pos := if pos.isSome then pos else findFrom [QUESTION] url parseOffset
    let pos := if pos.isSome then pos else findFrom [HASH] url parseOffset
    let port := u.scheme.port.getD u.port
    if pos.isSome ∨ parseOffset ≠ 0 then
      let pos := pos.getD url.length
      match substr url parseOffset (pos - parseOffset) with
      | none => none
      | some host => some ({ u with host := host, port := port }, pos + 1)
    else some ({ u with port := port }, parseOffset)

/-- The path, and the offset behind it. -/
def parsePath (u : URL) (url : Bytes) (parseOffset : Nat) : Option (URL × Nat) :=
  let pos := findFrom [QUESTION] url parseOffset
  let pos :=
    if pos.isSome then pos
    else
      let pos := findFrom [HASH] url parseOffset
      if pos.isSome then pos else findFrom [QUESTION] url parseOffset
  let pos := pos.getD url.length
  match substr url parseOffset (pos - parseOffset) with
  | none => none
  | some path => some ({ u with path := u.path ++ SLASH :: path }, pos + 1)

/-- The query and the fragment. -/
def parseQuery (u : URL) (url : Bytes) (parseOffset : Nat) : Option URL :=
  match findFrom [HASH] url (parseOffset - 1) with
  | some pos =>
    let query := if pos + 1 ≠ parseOffset then substr url parseOffset (pos - parseOffset) else some u.query
    match query, substr url (pos + 1) (url.length - pos - 1) with
    | some query, some fragment => some { u with query := query, fragment := fragment }
    | _, _ => none
  | none =>
    if parseOffset ≥ url.length then some u
    else
      match substr url parseOffset (url.length - parseOffset) with
      | none => none
      | some query => some { u with query := query }

/-- What follows the host and the port. -/
def parseRest (u : URL) (url : Bytes) (parseOffset : Nat) : Option URL :=
  if parseOffset ≥ url.length then some u
  else
    match parsePath u url parseOffset with
    | none => none
    | some (u, parseOffset) => parseQuery u url parseOffset

def parse (u : URL) (url : Bytes) : Option URL :=
  match parseScheme url with
  | none => none
  | some (scheme, parseOffset) =>
    match parseHost { u with scheme := scheme } url parseOffset with
    | none => none
    | some (u, parseOffset) => parseRest u url parseOffset

/-! ## What the searches find -/

/-- The text before the first `c`, all of it if there is none. -/
def upTo (c : UInt8) (s : Bytes) : Bytes := s.takeWhile (· != c)

theorem bne_of_not_mem {c : UInt8} {s : Bytes} (h : c ∉ s) : ∀ x ∈ s, (x != c) = true := by
  intro x hx
  simpa using fun hxc : x = c => h (hxc ▸ hx)

theorem upTo_char {c : UInt8} {a : Bytes} (h : c ∉ a) (b : Bytes) : upTo c (a ++ c :: b) = a := by
  rw [upTo, List.takeWhile_append_of_pos (bne_of_not_mem h), List.takeWhile_cons_of_neg (by simp), List.append_nil]

theorem upTo_left {c : UInt8} {a : Bytes} (h : c ∉ a) (b : Bytes) : upTo c (a ++ b) = a ++ upTo c b := by
  rw [upTo, List.takeWhile_append_of_pos (bne_of_not_mem h), upTo]

theorem upTo_none {c : UInt8} {s : Bytes} (h : c ∉ s) : upTo c s = s := by
  rw [upTo, List.takeWhile_eq_self_iff.mpr (bne_of_not_mem h)]

theorem upTo_append (c : UInt8) (s : Bytes) : ∃ t, s = upTo c s ++ t := ⟨_, (List.takeWhile_append_dropWhile).symm⟩

theorem find_upTo (c : UInt8) (s : Bytes) : (find [c] s).getD s.length = (upTo c s).length := by
  by_cases h : c ∈ s
  · obtain ⟨a, b, rfl, ha⟩ := List.eq_append_cons_of_mem h
    rw [find_char ha, upTo_char ha]
    rfl
  · rw [find_char_none h, upTo_none h]
    rfl

theorem find_isSome {c : UInt8} {s : Bytes} : (find [c] s).isSome = true ↔ c ∈ s := by
  rw [Option.isSome_iff_exists, find_isSome_iff, List.singleton_infix_iff]

/-- A search from where `rest` starts. -/
theorem findFrom_left (pat pre rest : Bytes) :
    findFrom pat (pre ++ rest) pre.length = (find pat rest).map (· + pre.length) := by
  rw [findFrom, List.drop_left]

theorem findFrom_upTo (c : UInt8) (pre rest : Bytes) :
    (findFrom [c] (pre ++ rest) pre.length).getD (pre ++ rest).length = pre.length + (upTo c rest).length := by
  rw [findFrom_left, ← find_upTo]
  cases find [c] rest with
  | none => simp
  | some i => simp [Nat.add_comm]

/-! ## The host and the port -/

theorem parseHost_port (u : URL) (pre : Bytes) {host : Bytes} (h : COLON ∉ host) (rest : Bytes) :
    parseHost u (pre ++ (host ++ COLON :: rest)) pre.length =
      some ({ u with host := host, port := upTo SLASH rest },
        (pre ++ (host ++ [COLON])).length + (upTo SLASH rest).length + 1) := by
  have hcolon : findFrom [COLON] (pre ++ (host ++ COLON :: rest)) pre.length = some (pre.length + host.length) :=
    findFrom_char h rest
  have hhost : substr (pre ++ (host ++ COLON :: rest)) pre.length (pre.length + host.length - pre.length) = some host :=
    substr_mid pre host (COLON :: rest) rfl (by omega)
  have hend : (findFrom [SLASH] (pre ++ (host ++ COLON :: rest)) (pre.length + host.length)).getD
      (pre ++ (host ++ COLON :: rest)).length = (pre ++ (host ++ [COLON])).length + (upTo SLASH rest).length := by
    have hslash := findFrom_upTo SLASH (pre ++ host) (COLON :: rest)
    have hskip : upTo SLASH (COLON :: rest) = COLON :: upTo SLASH rest := by simp [upTo, COLON, SLASH]
    rw [hskip] at hslash
    simp only [List.append_assoc, List.length_append, List.length_cons, List.length_nil] at hslash ⊢
    omega
  obtain ⟨t, ht⟩ := upTo_append SLASH rest
  have hport : substr (pre ++ (host ++ COLON :: rest)) (pre.length + host.length + 1)
      ((pre ++ (host ++ [COLON])).length + (upTo SLASH rest).length - (pre.length + host.length) - 1) =
        some (upTo SLASH rest) := by
    have hsplit : pre ++ (host ++ COLON :: rest) = (pre ++ (host ++ [COLON])) ++ (upTo SLASH rest ++ t) := by
      rw [← ht]
      simp
    rw [hsplit]
    refine substr_mid _ _ _ ?_ ?_
    · simp only [List.length_append, List.length_cons, List.length_nil]
      omega
    · simp only [List.length_append, List.length_cons, List.length_nil]
      omega
  simp only [parseHost, hcolon, hhost, hend, hport]

/-- The host where there is no ':' behind it. -/
def hostOf (rest : Bytes) : Bytes :=
  if SLASH ∈ rest then upTo SLASH rest else if QUESTION ∈ rest then upTo QUESTION rest else upTo HASH rest

theorem findFrom_isSome {c : UInt8} (pre rest : Bytes) :
    (findFrom [c] (pre ++ rest) pre.length).isSome = true ↔ c ∈ rest := by
  rw [findFrom_left, Option.isSome_map, find_isSome]

theorem hostOf_append (rest : Bytes) : ∃ t, rest = hostOf rest ++ t := by
  unfold hostOf
  split
  · exact upTo_append SLASH rest
  · split
    · exact upTo_append QUESTION rest
    · exact upTo_append HASH rest

/-- Behind a scheme, or before a delimiter. -/
theorem parseHost_found (u : URL) {pre rest : Bytes} (h : COLON ∉ rest)
    (hstop : pre ≠ [] ∨ SLASH ∈ rest ∨ QUESTION ∈ rest ∨ HASH ∈ rest) :
    parseHost u (pre ++ rest) pre.length =
      some ({ u with host := hostOf rest, port := u.scheme.port.getD u.port }, pre.length + (hostOf rest).length + 1) := by
  have hcolon : findFrom [COLON] (pre ++ rest) pre.length = none := by
    rw [findFrom_left, find_char_none h]
    rfl
  generalize hfound : (if (if (findFrom [SLASH] (pre ++ rest) pre.length).isSome then
      findFrom [SLASH] (pre ++ rest) pre.length else findFrom [QUESTION] (pre ++ rest) pre.length).isSome then
        if (findFrom [SLASH] (pre ++ rest) pre.length).isSome then findFrom [SLASH] (pre ++ rest) pre.length
        else findFrom [QUESTION] (pre ++ rest) pre.length
      else findFrom [HASH] (pre ++ rest) pre.length) = found
  have hpos : found.getD (pre ++ rest).length = pre.length + (hostOf rest).length := by
    rw [← hfound]
    unfold hostOf
    by_cases hslash : SLASH ∈ rest
    · simp only [findFrom_isSome, hslash, if_true, findFrom_upTo]
    · by_cases hquestion : QUESTION ∈ rest
      · simp only [findFrom_isSome, hslash, hquestion, if_true, if_false, findFrom_upTo]
      · simp only [findFrom_isSome, hslash, hquestion, if_false, findFrom_upTo]
  have hstart : found.isSome = true ∨ pre.length ≠ 0 := by
    rcases hstop with hpre | hslash | hquestion | hhash
    · exact .inr fun hlength => hpre (List.eq_nil_of_length_eq_zero hlength)
    all_goals
      left
      rw [← hfound]
    · simp only [findFrom_isSome, hslash, if_true]
    · by_cases hslash : SLASH ∈ rest
      · simp only [findFrom_isSome, hslash, if_true]
      · simp only [findFrom_isSome, hslash, hquestion, if_true, if_false]
    · by_cases hslash : SLASH ∈ rest
      · simp only [findFrom_isSome, hslash, if_true]
      · by_cases hquestion : QUESTION ∈ rest
        · simp only [findFrom_isSome, hslash, hquestion, if_true, if_false]
        · simp only [findFrom_isSome, hslash, hquestion, hhash, if_false]
  obtain ⟨t, ht⟩ := hostOf_append rest
  have hhost : substr (pre ++ rest) pre.length (pre.length + (hostOf rest).length - pre.length) = some (hostOf rest) := by
    have hsplit : pre ++ rest = pre ++ (hostOf rest ++ t) := by rw [← ht]
    rw [hsplit]
    exact substr_mid pre (hostOf rest) t rfl (by omega)
  simp only [parseHost, hcolon, hfound, hpos, hhost]
  rw [if_pos hstart]

/-! ## The path, the query and the fragment -/

theorem parseRest_end (u : URL) {url : Bytes} {parseOffset : Nat} (h : url.length ≤ parseOffset) :
    parseRest u url parseOffset = some u := if_pos h

def pathOf (rest : Bytes) : Bytes := if QUESTION ∈ rest then upTo QUESTION rest else upTo HASH rest

theorem pathOf_append (rest : Bytes) : ∃ t, rest = pathOf rest ++ t := by
  unfold pathOf
  split
  · exact upTo_append QUESTION rest
  · exact upTo_append HASH rest

theorem parsePath_rest (u : URL) (pre rest : Bytes) :
    parsePath u (pre ++ rest) pre.length =
      some ({ u with path := u.path ++ SLASH :: pathOf rest }, pre.length + (pathOf rest).length + 1) := by
  have hpos : (if (findFrom [QUESTION] (pre ++ rest) pre.length).isSome then findFrom [QUESTION] (pre ++ rest) pre.length
      else if (findFrom [HASH] (pre ++ rest) pre.length).isSome then findFrom [HASH] (pre ++ rest) pre.length
      else findFrom [QUESTION] (pre ++ rest) pre.length).getD (pre ++ rest).length =
        pre.length + (pathOf rest).length := by
    unfold pathOf
    by_cases hquestion : QUESTION ∈ rest
    · simp only [findFrom_isSome, hquestion, if_true, findFrom_upTo]
    · by_cases hhash : HASH ∈ rest
      · simp only [findFrom_isSome, hquestion, hhash, if_true, if_false, findFrom_upTo]
      · simp only [findFrom_isSome, hquestion, hhash, if_false, findFrom_upTo, upTo_none hquestion, upTo_none hhash]
  obtain ⟨t, ht⟩ := pathOf_append rest
  have hpath : substr (pre ++ rest) pre.length (pre.length + (pathOf rest).length - pre.length) = some (pathOf rest) := by
    have hsplit : pre ++ rest = pre ++ (pathOf rest ++ t) := by rw [← ht]
    rw [hsplit]
    exact substr_mid pre (pathOf rest) t rfl (by omega)
  simp only [parsePath, hpos, hpath]

/-- From a '#' that the search steps back to: it ended the path. -/
theorem parseQuery_hash (u : URL) (pre fragment : Bytes) :
    parseQuery u (pre ++ HASH :: fragment) (pre.length + 1) = some { u with fragment := fragment } := by
  have hhash : findFrom [HASH] (pre ++ HASH :: fragment) (pre.length + 1 - 1) = some pre.length :=
    findFrom_char List.not_mem_nil fragment
  have hfragment : substr (pre ++ HASH :: fragment) (pre.length + 1)
      ((pre ++ HASH :: fragment).length - pre.length - 1) = some fragment := by
    have hsplit : pre ++ HASH :: fragment = (pre ++ [HASH]) ++ (fragment ++ []) := by simp
    rw [hsplit]
    refine substr_mid _ _ _ ?_ ?_
    · simp
    · simp
  simp only [parseQuery, hhash, hfragment, ne_eq, not_true_eq_false, if_false]

/-- Behind a '?', with a '#' to come. -/
theorem parseQuery_question (u : URL) (pre : Bytes) {query : Bytes} (h : HASH ∉ query) (fragment : Bytes) :
    parseQuery u (pre ++ QUESTION :: (query ++ HASH :: fragment)) (pre.length + 1) =
      some { u with query := query, fragment := fragment } := by
  have hnot : HASH ∉ QUESTION :: query := by
    have hne : HASH ≠ QUESTION := by decide
    simp [h, hne]
  have hhash : findFrom [HASH] (pre ++ QUESTION :: (query ++ HASH :: fragment)) (pre.length + 1 - 1) =
      some (pre.length + (query.length + 1)) := findFrom_char hnot fragment
  have hsplit : pre ++ QUESTION :: (query ++ HASH :: fragment) = (pre ++ [QUESTION]) ++ (query ++ HASH :: fragment) := by
    simp
  have hquery : substr (pre ++ QUESTION :: (query ++ HASH :: fragment)) (pre.length + 1)
      (pre.length + (query.length + 1) - (pre.length + 1)) = some query := by
    rw [hsplit]
    exact substr_mid _ _ _ (by simp) (by omega)
  have hfragment : substr (pre ++ QUESTION :: (query ++ HASH :: fragment)) (pre.length + (query.length + 1) + 1)
      ((pre ++ QUESTION :: (query ++ HASH :: fragment)).length - (pre.length + (query.length + 1)) - 1) =
        some fragment := by
    have hsplit' : pre ++ QUESTION :: (query ++ HASH :: fragment) =
        (pre ++ QUESTION :: query ++ [HASH]) ++ (fragment ++ []) := by simp
    rw [hsplit']
    refine substr_mid _ _ _ ?_ ?_
    · simp
      omega
    · simp
      omega
  have hne : pre.length + (query.length + 1) + 1 ≠ pre.length + 1 := by omega
  simp only [parseQuery, hhash, hquery, hfragment, ne_eq, hne, not_false_eq_true, if_true]

/-- Behind a '?', the query to the end, if there is anything. -/
theorem parseQuery_last (u : URL) (pre : Bytes) {query : Bytes} (h : HASH ∉ query) :
    parseQuery u (pre ++ QUESTION :: query) (pre.length + 1) =
      some { u with query := if query = [] then u.query else query } := by
  have hnot : HASH ∉ QUESTION :: query := by
    have hne : HASH ≠ QUESTION := by decide
    simp [h, hne]
  have hhash : findFrom [HASH] (pre ++ QUESTION :: query) (pre.length + 1 - 1) = none := by
    rw [Nat.add_sub_cancel, findFrom_left, find_char_none hnot]
    rfl
  by_cases hend : query = []
  · subst hend
    have hge : pre.length + 1 ≥ (pre ++ [QUESTION]).length := by simp
    simp only [parseQuery, hhash, if_pos hge]
    rfl
  · have hlt : ¬ pre.length + 1 ≥ (pre ++ QUESTION :: query).length := by
      have := List.length_pos_iff.mpr hend
      simp only [List.length_append, List.length_cons]
      omega
    have hquery : substr (pre ++ QUESTION :: query) (pre.length + 1) ((pre ++ QUESTION :: query).length - (pre.length + 1)) =
        some query := by
      have hsplit : pre ++ QUESTION :: query = (pre ++ [QUESTION]) ++ (query ++ []) := by simp
      rw [hsplit]
      refine substr_mid _ _ _ (by simp) ?_
      simp
      omega
    simp only [parseQuery, hhash, if_neg hlt, hquery, if_neg hend]

theorem parseQuery_end (u : URL) {url : Bytes} {parseOffset : Nat} (h : url.length < parseOffset) :
    parseQuery u url parseOffset = some u := by
  have hhash : findFrom [HASH] url (parseOffset - 1) = none := by
    rw [findFrom, List.drop_eq_nil_of_le (by omega)]
    rfl
  simp only [parseQuery, hhash]
  exact if_pos (by omega)

/-- Neither the path nor what is behind it touches the host and the port. -/
theorem parseQuery_keeps {u u' : URL} {url : Bytes} {parseOffset : Nat} (h : parseQuery u url parseOffset = some u') :
    u'.host = u.host ∧ u'.port = u.port ∧ u'.path = u.path := by
  unfold parseQuery at h
  split at h
  · simp only at h
    split at h
    · cases h
      exact ⟨rfl, rfl, rfl⟩
    · cases h
  · split at h
    · cases h
      exact ⟨rfl, rfl, rfl⟩
    · split at h
      · cases h
      · cases h
        exact ⟨rfl, rfl, rfl⟩

theorem parseRest_rest (u : URL) (pre : Bytes) {rest : Bytes} (hrest : rest ≠ []) :
    parseRest u (pre ++ rest) pre.length =
      parseQuery { u with path := u.path ++ SLASH :: pathOf rest } (pre ++ rest) (pre.length + (pathOf rest).length + 1) := by
  have hlt : ¬ pre.length ≥ (pre ++ rest).length := by
    have := List.length_pos_iff.mpr hrest
    rw [List.length_append]
    omega
  rw [parseRest, if_neg hlt, parsePath_rest]

theorem parseRest_path {u u' : URL} {pre rest : Bytes} (hrest : rest ≠ [])
    (h : parseRest u (pre ++ rest) pre.length = some u') : u'.path = u.path ++ SLASH :: pathOf rest := by
  rw [parseRest_rest u pre hrest] at h
  exact (parseQuery_keeps h).2.2

theorem parseRest_keeps {u u' : URL} {url : Bytes} {parseOffset : Nat} (h : parseRest u url parseOffset = some u') :
    u'.host = u.host ∧ u'.port = u.port := by
  unfold parseRest at h
  split at h
  · cases h
    exact ⟨rfl, rfl⟩
  · unfold parsePath at h
    split at h
    · cases h
    · rename_i hpath
      obtain ⟨hhost, hport, _⟩ := parseQuery_keeps h
      simp only at hpath
      split at hpath
      · cases hpath
      · cases hpath
        exact ⟨hhost, hport⟩

/-- A component with the delimiter before it. -/
def part (delimiter : UInt8) (component : Option Bytes) : Bytes := component.elim [] (delimiter :: ·)

/-- Behind the '/' of a path. -/
theorem parseRest_tail {u : URL} (hpath : u.path = []) (hquery : u.query = []) (hfragment : u.fragment = []) (pre : Bytes)
    {path : Bytes} (hplain : QUESTION ∉ path ∧ HASH ∉ path) {query : Option Bytes} (hq : ∀ q ∈ query, HASH ∉ q)
    (fragment : Option Bytes) :
    parseRest u (pre ++ (path ++ (part QUESTION query ++ part HASH fragment))) pre.length =
        some { u with path := SLASH :: path, query := query.getD [], fragment := fragment.getD [] } ↔
      (path ≠ [] ∨ query ≠ none ∨ fragment ≠ none) ∧ (query = none → QUESTION ∉ fragment.getD []) := by
  by_cases hrest : path ++ (part QUESTION query ++ part HASH fragment) = []
  · have hnil := List.append_eq_nil_iff.mp hrest
    rw [hrest, parseRest_end u (by simp)]
    refine iff_of_false (fun h => ?_) (fun ⟨h, _⟩ => ?_)
    · have := congrArg URL.path (Option.some.inj h)
      rw [hpath] at this
      cases this
    · obtain ⟨hq', hf'⟩ := List.append_eq_nil_iff.mp hnil.2
      cases query with
      | some q => cases hq'
      | none =>
        cases fragment with
        | some f => cases hf'
        | none => simp [hnil.1] at h
  · rw [parseRest_rest u pre hrest, hpath, List.nil_append]
    cases query with
    | some q =>
      refine iff_of_true ?_ ⟨.inr (.inl nofun), nofun⟩
      have hend : pathOf (path ++ (part QUESTION (some q) ++ part HASH fragment)) = path := by
        have hmem : QUESTION ∈ path ++ (part QUESTION (some q) ++ part HASH fragment) := by simp [part]
        rw [pathOf, if_pos hmem]
        exact upTo_char hplain.1 _
      rw [hend, ← List.append_assoc pre, ← List.length_append]
      cases fragment with
      | some f => exact parseQuery_question _ (pre ++ path) (hq q rfl) f
      | none =>
        have hlast := parseQuery_last { u with path := SLASH :: path } (pre ++ path) (hq q rfl)
        have hkept : (if q = [] then u.query else q) = q := by
          rw [hquery]
          split
          · rename_i hempty
            exact hempty.symm
          · rfl
        simp only [part, Option.elim, List.append_nil, hkept] at hlast ⊢
        rw [hlast, ← hfragment]
        rfl
    | none =>
      simp only [part, Option.elim, List.nil_append, forall_const] at hrest ⊢
      cases fragment with
      | none =>
        simp only [List.append_nil] at hrest ⊢
        have hend : pathOf path = path := by
          rw [pathOf, if_neg hplain.1, upTo_none hplain.2]
        rw [hend, parseQuery_end]
        · refine iff_of_true ?_ ⟨.inl hrest, nofun⟩
          simp [hquery, hfragment]
        · rw [List.length_append]
          omega
      | some f =>
        by_cases hf : QUESTION ∈ f
        · refine iff_of_false (fun h => ?_) (fun h => h.2 hf)
          obtain ⟨a, b, rfl, ha⟩ := List.eq_append_cons_of_mem hf
          have hnot : QUESTION ∉ path ++ HASH :: a := by
            have hne : QUESTION ≠ HASH := by decide
            simp [hplain.1, hne, ha]
          have hend : pathOf (path ++ HASH :: (a ++ QUESTION :: b)) = path ++ HASH :: a := by
            have hmem : QUESTION ∈ path ++ HASH :: (a ++ QUESTION :: b) := by simp
            have hcut := upTo_char hnot b
            rw [List.append_assoc, List.cons_append] at hcut
            rw [pathOf, if_pos hmem, hcut]
          have hkept := (parseQuery_keeps h).2.2
          rw [hend] at hkept
          simpa using congrArg List.length hkept
        · refine iff_of_true ?_ ⟨.inr (.inr nofun), hf⟩
          have hnot : QUESTION ∉ path ++ HASH :: f := by
            have hne : QUESTION ≠ HASH := by decide
            simp [hplain.1, hne, hf]
          have hend : pathOf (path ++ HASH :: f) = path := by
            rw [pathOf, if_neg hnot, upTo_char hplain.2]
          rw [hend, ← List.append_assoc pre, ← List.length_append, parseQuery_hash, ← hquery]
          rfl

/-! ## A URL written by the grammar -/

structure Written where
  scheme : Scheme
  schemeText : Bytes
  host : Bytes
  port : Option Bytes
  /-- What follows the '/'. -/
  path : Option Bytes
  query : Option Bytes
  fragment : Option Bytes
  scheme_text : scheme = .http ∧ schemeText.map tolower = bytes "http" ∨
    scheme = .https ∧ schemeText.map tolower = bytes "https" ∨ scheme = .irc ∧ schemeText.map tolower = bytes "irc"
  host_ne : host ≠ []
  host_plain : COLON ∉ host ∧ SLASH ∉ host ∧ QUESTION ∉ host ∧ HASH ∉ host
  port_digits : ∀ p ∈ port, ∀ b ∈ p, isDigit 10 b = true
  path_plain : ∀ p ∈ path, QUESTION ∉ p ∧ HASH ∉ p
  query_plain : ∀ q ∈ query, HASH ∉ q

theorem mem_part {c delimiter : UInt8} (h : c ≠ delimiter) (component : Option Bytes) :
    c ∈ part delimiter component ↔ c ∈ component.getD [] := by
  cases component with
  | none => rfl
  | some s => simp [part, h]

namespace Written

/-- What follows the path. -/
def tail (w : Written) : Bytes := part QUESTION w.query ++ part HASH w.fragment

def rest (w : Written) : Bytes := part COLON w.port ++ (part SLASH w.path ++ w.tail)

def text (w : Written) : Bytes := w.schemeText ++ bytes "://" ++ (w.host ++ w.rest)

/-- The components, as they are written. -/
def url (w : Written) : URL :=
  { scheme := w.scheme
    host := w.host
    port := w.port.getD (w.scheme.port.getD [])
    path := part SLASH w.path
    query := w.query.getD []
    fragment := w.fragment.getD [] }

/-- No delimiter is taken for that of another component, and the search does not stop
    short of a path. -/
def Tidy (w : Written) : Prop :=
  match w.path with
  | some path =>
    (path ≠ [] ∨ w.query ≠ none ∨ w.fragment ≠ none) ∧ (w.query = none → QUESTION ∉ w.fragment.getD []) ∧
      (w.port = none → COLON ∉ path ∧ COLON ∉ w.query.getD [] ∧ COLON ∉ w.fragment.getD [])
  | none =>
    match w.port with
    | some _ => w.query = none ∧ w.fragment = none
    | none => w.query.getD [] = [] ∧ w.fragment.getD [] = [] ∧ (w.query = none ∨ w.fragment = none)

theorem parseScheme_text (w : Written) (rest : Bytes) :
    parseScheme (w.schemeText ++ bytes "://" ++ rest) = some (w.scheme, (w.schemeText ++ bytes "://").length) := by
  have hcolon : COLON ∉ w.schemeText := by
    intro hmem
    have hlower : tolower COLON ∈ w.schemeText.map tolower := List.mem_map_of_mem hmem
    rcases w.scheme_text with ⟨_, h⟩ | ⟨_, h⟩ | ⟨_, h⟩
    all_goals
      rw [h] at hlower
      revert hlower
      decide
  have hfind : find (bytes "://") (w.schemeText ++ bytes "://" ++ rest) = some w.schemeText.length := by
    rw [List.append_assoc, show bytes "://" = COLON :: [SLASH, SLASH] from by decide, find_skip hcolon, find_here]
    simp
  have hsubstr : substr (w.schemeText ++ bytes "://" ++ rest) 0 w.schemeText.length = some w.schemeText := by
    rw [List.append_assoc]
    exact substr_mid [] w.schemeText _ rfl rfl
  have hscheme : (schemeStringMap.lookup (w.schemeText.map tolower)).getD .unknown = w.scheme := by
    rcases w.scheme_text with ⟨hs, h⟩ | ⟨hs, h⟩ | ⟨hs, h⟩
    all_goals
      rw [h, hs]
      decide
  simp only [parseScheme, hfind, hsubstr, hscheme, List.length_append]
  rfl

/-- The scheme, with the delimiter behind it. -/
def front (w : Written) : Bytes := w.schemeText ++ bytes "://"

theorem front_ne (w : Written) : w.front ≠ [] := by
  have hne : bytes "://" ≠ [] := by decide
  simp [front, hne]

/-- With the scheme read. -/
def start (w : Written) : URL := { fresh with scheme := w.scheme }

theorem parse_text (w : Written) {u : URL} {parseOffset : Nat}
    (h : parseHost w.start (w.front ++ (w.host ++ w.rest)) w.front.length = some (u, parseOffset)) :
    parse fresh w.text = parseRest u (w.front ++ (w.host ++ w.rest)) parseOffset := by
  have hscheme := w.parseScheme_text (w.host ++ w.rest)
  unfold start front at h
  simp only [parse, text, hscheme, h]
  rfl

/-- Where the host or the port is not what is written, nor is the URL. -/
theorem parse_ne (w : Written) {u : URL} {parseOffset : Nat}
    (h : parseHost w.start (w.front ++ (w.host ++ w.rest)) w.front.length = some (u, parseOffset))
    (hne : u.host ≠ w.url.host ∨ u.port ≠ w.url.port) : parse fresh w.text ≠ some w.url := by
  intro hparse
  rw [w.parse_text h] at hparse
  obtain ⟨hhost, hport⟩ := parseRest_keeps hparse
  exact hne.elim (fun hne => hne hhost.symm) (fun hne => hne hport.symm)

/-- A ':' behind a host without a port. -/
theorem parse_colon (w : Written) (hport : w.port = none) (hcolon : COLON ∈ w.rest) : parse fresh w.text ≠ some w.url := by
  obtain ⟨a, b, hab, ha⟩ := List.eq_append_cons_of_mem hcolon
  have hne : a ≠ [] := by
    intro heq
    subst heq
    have hc : SLASH ≠ COLON ∧ QUESTION ≠ COLON ∧ HASH ≠ COLON := by decide
    cases hpath : w.path <;> cases hquery : w.query <;> cases hfragment : w.fragment <;>
      simp [rest, part, tail, hport, hpath, hquery, hfragment, hc] at hab
  have hnot : COLON ∉ w.host ++ a := by
    simp [w.host_plain.1, ha]
  have hhost := parseHost_port w.start w.front hnot b
  rw [List.append_assoc, ← hab] at hhost
  refine w.parse_ne hhost (.inl fun heq => hne ?_)
  simpa [url] using heq

/-- Behind the '/' of a path that is found. -/
theorem parse_found (w : Written) {path : Bytes} (hpath : w.path = some path) {parseOffset : Nat} {u : URL} (pre : Bytes)
    (hpre : w.front ++ (w.host ++ w.rest) = pre ++ (path ++ w.tail)) (hoffset : parseOffset = pre.length)
    (h : parseHost w.start (w.front ++ (w.host ++ w.rest)) w.front.length = some (u, parseOffset))
    (hu : u = { w.start with host := w.url.host, port := w.url.port }) :
    parse fresh w.text = some w.url ↔
      (path ≠ [] ∨ w.query ≠ none ∨ w.fragment ≠ none) ∧ (w.query = none → QUESTION ∉ w.fragment.getD []) := by
  have htail := parseRest_tail (u := u) (by rw [hu]; rfl) (by rw [hu]; rfl) (by rw [hu]; rfl) pre
    (w.path_plain path hpath) w.query_plain w.fragment
  rw [w.parse_text h, hpre, hoffset]
  have hurl : w.url = { u with path := SLASH :: path, query := w.query.getD [], fragment := w.fragment.getD [] } := by
    simp [url, hu, start, hpath, part]
  rw [hurl]
  exact htail

theorem parse_path (w : Written) {path : Bytes} (hpath : w.path = some path) :
    parse fresh w.text = some w.url ↔ w.Tidy := by
  cases hport : w.port with
  | some port =>
    have hslash : SLASH ∉ port := fun hmem => by
      have := w.port_digits port hport SLASH hmem
      revert this
      decide
    have hrest : w.rest = COLON :: (port ++ SLASH :: (path ++ w.tail)) := by simp [rest, hport, hpath, part]
    have hhost := parseHost_port w.start w.front w.host_plain.1 (port ++ SLASH :: (path ++ w.tail))
    rw [← hrest, upTo_char hslash] at hhost
    have hoffset : (w.front ++ (w.host ++ [COLON])).length + port.length + 1 =
        (w.front ++ (w.host ++ COLON :: (port ++ [SLASH]))).length := by
      simp
      omega
    have hpre : w.front ++ (w.host ++ w.rest) = w.front ++ (w.host ++ COLON :: (port ++ [SLASH])) ++ (path ++ w.tail) := by
      simp [hrest]
    rw [w.parse_found hpath _ hpre hoffset hhost (by simp [url, hport])]
    simp [Tidy, hpath, hport]
  | none =>
    have hrest : w.rest = SLASH :: (path ++ w.tail) := by simp [rest, hport, hpath, part]
    have hcolons : COLON ∈ w.rest ↔ ¬ (COLON ∉ path ∧ COLON ∉ w.query.getD [] ∧ COLON ∉ w.fragment.getD []) := by
      have hslash : COLON ≠ SLASH := by decide
      rw [hrest, List.mem_cons, List.mem_append, tail, List.mem_append, mem_part (by decide), mem_part (by decide)]
      simp only [hslash, false_or]
      tauto
    by_cases hcolon : COLON ∈ w.rest
    · refine iff_of_false (w.parse_colon hport hcolon) ?_
      rw [hcolons] at hcolon
      simp only [Tidy, hpath]
      exact fun h => hcolon (h.2.2 hport)
    · have hnot : COLON ∉ w.host ++ w.rest := by
        simp [w.host_plain.1, hcolon]
      have hhostOf : hostOf (w.host ++ w.rest) = w.host := by
        have hmem : SLASH ∈ w.host ++ w.rest := by simp [hrest]
        rw [hostOf, if_pos hmem, hrest, upTo_char w.host_plain.2.1]
      have hhost := parseHost_found w.start hnot (.inl w.front_ne)
      rw [hhostOf] at hhost
      have hoffset : w.front.length + w.host.length + 1 = (w.front ++ (w.host ++ [SLASH])).length := by
        simp
        omega
      have hpre : w.front ++ (w.host ++ w.rest) = w.front ++ (w.host ++ [SLASH]) ++ (path ++ w.tail) := by
        simp [hrest]
      rw [w.parse_found hpath _ hpre hoffset hhost (by simp [url, hport, start, fresh])]
      rw [hcolons, not_not] at hcolon
      simp [Tidy, hpath, hport, hcolon]

theorem hostOf_host (w : Written) (rest : Bytes) : hostOf (w.host ++ rest) = w.host ++ hostOf rest := by
  obtain ⟨_, hslash, hquestion, hhash⟩ := w.host_plain
  simp only [hostOf, List.mem_append, hslash, hquestion, false_or, upTo_left hslash, upTo_left hquestion, upTo_left hhash]
  split
  · rfl
  · split
    · rfl
    · rfl

theorem tail_eq_nil (w : Written) : w.tail = [] ↔ w.query = none ∧ w.fragment = none := by
  cases hquery : w.query <;> cases hfragment : w.fragment <;> simp [tail, part, hquery, hfragment]

/-- The tail starts with a '?' or a '#'. -/
theorem tail_head (w : Written) {d : UInt8} {t : Bytes} (h : w.tail = d :: t) : d = QUESTION ∨ d = HASH := by
  cases hquery : w.query with
  | some q =>
    simp [tail, part, hquery] at h
    exact .inl h.1.symm
  | none =>
    cases hfragment : w.fragment with
    | some f =>
      simp [tail, part, hquery, hfragment] at h
      exact .inr h.1.symm
    | none => simp [tail, part, hquery, hfragment] at h

theorem tail_short (w : Written) : w.tail.length ≤ 1 ↔
    w.query.getD [] = [] ∧ w.fragment.getD [] = [] ∧ (w.query = none ∨ w.fragment = none) := by
  cases hquery : w.query <;> cases hfragment : w.fragment <;> simp [tail, part, hquery, hfragment]

/-- With a port the text up to the next '/' is taken for it. -/
theorem parse_port (w : Written) (hpath : w.path = none) {port : Bytes} (hport : w.port = some port) :
    parse fresh w.text = some w.url ↔ w.tail = [] := by
  have hslash : SLASH ∉ port := fun hmem => by
    have := w.port_digits port hport SLASH hmem
    revert this
    decide
  have hrest : w.rest = COLON :: (port ++ w.tail) := by simp [rest, hport, hpath, part]
  have hhost := parseHost_port w.start w.front w.host_plain.1 (port ++ w.tail)
  rw [← hrest, upTo_left hslash] at hhost
  cases htail : w.tail with
  | nil =>
    refine iff_of_true ?_ rfl
    obtain ⟨hquery, hfragment⟩ := w.tail_eq_nil.mp htail
    rw [w.parse_text hhost, parseRest_end]
    · simp [url, start, fresh, hpath, hport, hquery, hfragment, htail, part, upTo]
    · simp [hrest, htail, upTo]
      omega
  | cons d t =>
    refine iff_of_false (w.parse_ne hhost (.inr fun heq => ?_)) nofun
    have hd : d ≠ SLASH := by
      rcases w.tail_head htail with rfl | rfl
      · decide
      · decide
    simp [url, hport, htail, upTo, hd] at heq

/-- Without one, a tail of more than its delimiter is taken for a part of the host or for
    the path. -/
theorem parse_host (w : Written) (hpath : w.path = none) (hport : w.port = none) :
    parse fresh w.text = some w.url ↔ w.tail.length ≤ 1 := by
  have hrest : w.rest = w.tail := by simp [rest, hport, hpath, part]
  by_cases hcolon : COLON ∈ w.rest
  · refine iff_of_false (w.parse_colon hport hcolon) fun hshort => ?_
    rw [hrest] at hcolon
    cases htail : w.tail with
    | nil => simp [htail] at hcolon
    | cons d t =>
      have ht : t = [] := by simpa [htail] using hshort
      have hd : COLON ≠ d := by
        rcases w.tail_head htail with rfl | rfl
        · decide
        · decide
      simp [htail, ht, hd] at hcolon
  · have hnot : COLON ∉ w.host ++ w.rest := by
      simp [w.host_plain.1, hcolon]
    have hhost := parseHost_found w.start hnot (.inl w.front_ne)
    rw [hostOf_host] at hhost
    cases htail : w.tail with
    | nil =>
      refine iff_of_true ?_ (by simp)
      obtain ⟨hquery, hfragment⟩ := w.tail_eq_nil.mp htail
      rw [w.parse_text hhost, parseRest_end]
      · simp [url, start, fresh, hpath, hport, hquery, hfragment, hrest, htail, part, hostOf, upTo]
      · simp [hrest, htail]
        omega
    | cons d t =>
      rw [hrest, htail] at hhost
      by_cases hstop : hostOf (d :: t) = []
      · have hoffset : w.front.length + (w.host ++ hostOf (d :: t)).length + 1 =
            (w.front ++ (w.host ++ [d])).length := by
          simp [hstop]
          omega
        have hpre : w.front ++ (w.host ++ d :: t) = w.front ++ (w.host ++ [d]) ++ t := by simp
        have hparse := w.parse_text (hrest ▸ htail ▸ hhost)
        rw [hrest, htail, hpre, hoffset] at hparse
        rw [hparse]
        by_cases ht : t = []
        · have hshort : w.tail.length ≤ 1 := by simp [htail, ht]
          obtain ⟨hquery, hfragment, _⟩ := w.tail_short.mp hshort
          rw [parseRest_end _ (by simp [ht])]
          refine iff_of_true ?_ (by simp [ht])
          simp [url, start, fresh, hpath, hport, hquery, hfragment, hstop, part]
        · refine iff_of_false (fun h => ?_) (by simpa using ht)
          have hread := parseRest_path ht h
          simp [url, hpath, part] at hread
      · refine iff_of_false (w.parse_ne (hrest ▸ htail ▸ hhost) (.inl fun heq => hstop ?_)) fun hshort => hstop ?_
        · simpa [url, hrest, htail] using heq
        · have ht : t = [] := by simpa using hshort
          rcases w.tail_head htail with rfl | rfl
          · rw [ht]
            decide
          · rw [ht]
            decide

theorem parse_pathless (w : Written) (hpath : w.path = none) : parse fresh w.text = some w.url ↔ w.Tidy := by
  unfold Tidy
  cases hport : w.port with
  | some port =>
    simp only [hpath]
    rw [w.parse_port hpath hport, tail_eq_nil]
  | none =>
    simp only [hpath]
    rw [w.parse_host hpath hport, tail_short]

end Written

/-- A URL of one of the schemes that is written by the grammar is read as it is written
    exactly when it is tidy. -/
theorem parse_written (w : Written) : parse fresh w.text = some w.url ↔ w.Tidy := by
  cases hpath : w.path with
  | none => exact w.parse_pathless hpath
  | some path => exact w.parse_path hpath

/-- `http://example.com/` -/
def rootUrl : Written where
  scheme := .http
  schemeText := bytes "http"
  host := bytes "example.com"
  port := none
  path := some []
  query := none
  fragment := none
  scheme_text := .inl ⟨rfl, by decide⟩
  host_ne := by decide
  host_plain := by decide
  port_digits := nofun
  path_plain := by
    rintro p ⟨⟩
    decide
  query_plain := nofun

/-- The search stops at the '/' that ends the URL, and leaves the path empty. -/
theorem parse_written_not : parse fresh rootUrl.text ≠ some rootUrl.url := by
  decide +kernel

end URL

end Frnetlib
