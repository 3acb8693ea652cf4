/-
  Frnetlib.Http.ReadRequest — what a request holds after one call of `parse` that
  succeeded, for whatever bytes.

  The URI is cut out of the request line from its first `/` on, and the variables from
  its first `?` on, where the line has one (`parseHeaderUri_cases`); neither has a line
  end in it, and the maps are as reading leaves them (`Variables`, `Stored`). For the
  rest the request holds what came: a body of at least the announced length, and with
  a POST the arguments of that body (`parsed_of_parse`).
-/

import Frnetlib.Http.PostVariables
import Frnetlib.Http.RequestLine
import Frnetlib.Http.Stored
import Frnetlib.Http.Variables

namespace Frnetlib.HttpRequest

open Base

/-! ## The request line -/

theorem setUri_slash (h : Http) {s : Bytes} (hs : s.head? = some 47) (n : Nat) :
    (h.setUri (s.take n)).uri = if s.take n = [] then h.uri else s.take n := by
  by_cases hempty : s.take n = []
  · rw [hempty]
    rfl
  · have hslash : (s.take n).head? = some 47 := by
      rw [List.head?_take, if_neg fun h0 => hempty (by rw [h0, List.take_zero]), hs]
    rw [if_neg hempty, Http.setUri, if_neg (by simpa using hempty), if_pos hslash]

theorem setUri_getData (h : Http) (m : StrMap) (uri : Bytes) :
    Http.setUri { h with getData := m } uri = { h.setUri uri with getData := m } := by
  unfold Http.setUri
  split
  · rfl
  · split <;> rfl

theorem storeUri_uri (h : Http) {line : Bytes} {a : Nat} (ha : a ≤ line.length) (hnone : find [63] line = none) (e : Nat) :
    storeUri h line a e = some (h.setUri ((line.drop a).take (usub e a))) := by
  rw [storeUri, hnone]
  simp only [substr_of_le ha, Option.map_some]

theorem storeUri_query (h : Http) {line : Bytes} {a g : Nat} (ha : a ≤ line.length) (hg : find [63] line = some g) (e : Nat) :
    storeUri h line a e =
      some { h.setUri ((line.drop a).take (usub g a)) with
        getData := (Http.arguments (((line.drop g).take (usub e g)).drop 1)).foldl emplaceGet h.getData } := by
  have hle : g ≤ line.length := Nat.le_trans (Nat.le_add_right _ _) (find_le hg)
  have hlist : Http.parseArgumentList ((line.drop g).take (usub e g)) =
      some (Http.arguments (((line.drop g).take (usub e g)).drop 1)) := by
    obtain ⟨t, ht⟩ := (find_eq_some_iff.mp hg).1
    rw [Http.parseArgumentList_eq, ← ht]
    cases usub e g with
    | zero => rfl
    | succ n => rfl
  rw [storeUri, hg]
  simp only [substr_of_le hle, substr_of_le ha, Option.bind_some, hlist]
  rw [setUri_getData]

/-- Where the URI and the variables are cut out of the line. -/
theorem parseHeaderUri_cases {h h' : Http} {line : Bytes} (hs : parseHeaderUri h line = some h') :
    ∃ a p, find [47] line = some a ∧ find (bytes "HTTP") line = some p ∧
      h'.version = (if (line.drop ((usub p 1 + 1) % 2 ^ 64)).take 8 = bytes "HTTP/1.0" then .v1 else .v1_1) ∧
      h'.requestType = h.requestType ∧ h'.headerData = h.headerData ∧
      (find [63] line = none ∧ h'.getData = h.getData ∧
          h'.uri = (h.setUri ((line.drop a).take (usub (usub p 1) a))).uri ∨
        ∃ g, find [63] line = some g ∧
          h'.getData = (Http.arguments (((line.drop g).take (usub (usub p 1) g)).drop 1)).foldl emplaceGet h.getData ∧
          h'.uri = (h.setUri ((line.drop a).take (usub g a))).uri) := by
  unfold parseHeaderUri at hs
  split at hs
  · rename_i a p ha hp
    have hle : a ≤ line.length := Nat.le_trans (Nat.le_add_right _ _) (find_le ha)
    simp only at hs
    split at hs
    · rename_i stored v hstored hv
      cases hs
      have hversion : v = (line.drop ((usub p 1 + 1) % 2 ^ 64)).take 8 := by
        unfold substr at hv
        split at hv
        · cases hv
        · exact (Option.some.inj hv).symm
      cases hg : find [63] line with
      | none =>
        rw [storeUri_uri h hle hg] at hstored
        cases hstored
        obtain ⟨uri, huri⟩ := setUri_eq h ((line.drop a).take (usub (usub p 1) a))
        refine ⟨a, p, ha, hp, hversion ▸ rfl, ?_, ?_, Or.inl ⟨rfl, ?_, rfl⟩⟩
        all_goals simp only [huri]
      | some g =>
        rw [storeUri_query h hle hg] at hstored
        cases hstored
        obtain ⟨uri, huri⟩ := setUri_eq h ((line.drop a).take (usub g a))
        refine ⟨a, p, ha, hp, hversion ▸ rfl, ?_, ?_, Or.inr ⟨g, rfl, rfl, rfl⟩⟩
        all_goals simp only [huri]
    · cases hs
  · cases hs

/-! ## A target and a version -/

/-- A line with a target in it, from the first `/` on, and a version behind that. -/
structure Targeted (front target v : Bytes) : Prop where
  front : 47 ∉ front ∧ find (bytes "HTTP") front = none
  slash : target.head? = some 47
  version : find (bytes "HTTP") v = some 0

variable {front target v : Bytes}

theorem Targeted.cons (h : Targeted front target v) : ∃ t, target = 47 :: t := by
  obtain ⟨-, hslash, -⟩ := h
  cases target with
  | nil => cases hslash
  | cons b t =>
    cases hslash
    exact ⟨t, rfl⟩

theorem find_http_slash (t : Bytes) : find (bytes "HTTP") (47 :: t) = (find (bytes "HTTP") t).map (· + 1) :=
  find_sep (show (47 : UInt8) ∉ bytes "HTTP" by decide) t (a := [])

theorem Targeted.find_slash (h : Targeted front target v) (rest : Bytes) :
    find [47] (front ++ (target ++ rest)) = some front.length := by
  obtain ⟨t, rfl⟩ := h.cons
  exact find_char h.front.1 (t ++ rest)

/-- The first `HTTP`: that of the target, or the version. -/
theorem Targeted.find_http (h : Targeted front target v) :
    find (bytes "HTTP") (front ++ (target ++ SP :: v)) =
      some (front.length + (find (bytes "HTTP") target).getD (target.length + 1)) := by
  obtain ⟨t, rfl⟩ := h.cons
  rw [List.cons_append, find_sep (by decide), h.front.2, Option.none_or, find_sep (by decide), h.version, find_http_slash]
  cases find (bytes "HTTP") t with
  | none =>
    simp only [Option.none_or, Option.map_some, Option.map_none, Option.getD_none, Option.some.injEq, List.length_cons]
    omega
  | some i =>
    simp only [Option.some_or, Option.map_some, Option.getD_some, Option.some.injEq]
    omega

/-- An `HTTP` in the target is behind its `/`. -/
theorem Targeted.http_beyond (h : Targeted front target v) {i : Nat} (hi : find (bytes "HTTP") target = some i) :
    0 < i ∧ i + 4 ≤ target.length := by
  refine ⟨?_, find_le hi⟩
  obtain ⟨t, rfl⟩ := h.cons
  rw [find_http_slash] at hi
  obtain ⟨j, -, rfl⟩ := Option.map_eq_some_iff.mp hi
  omega

theorem Targeted.bound (_ : Targeted front target v) :
  (find (bytes "HTTP") target).getD (target.length + 1) ≤ target.length + 1 := by
  cases hi : find (bytes "HTTP") target with
  | none => exact le_rfl
  | some i =>
    have hle := find_le hi
    rw [Option.getD_some]
    omega

/-- The version is read at the first `HTTP`. -/
theorem line_version {h h' : Http} (hline : Targeted front target v) (hlen : (front ++ (target ++ SP :: v)).length < 2 ^ 63)
    (hs : parseHeaderUri h (front ++ (target ++ SP :: v)) = some h') :
    h'.version = if ((target ++ SP :: v).drop ((find (bytes "HTTP") target).getD (target.length + 1))).take 8 = bytes "HTTP/1.0"
      then .v1 else .v1_1 := by
  obtain ⟨a, p, -, hp, hversion, -⟩ := parseHeaderUri_cases hs
  rw [hline.find_http] at hp
  cases hp
  have hbound := hline.bound
  have hpos : 0 < (find (bytes "HTTP") target).getD (target.length + 1) := by
    cases hi : find (bytes "HTTP") target with
    | none => exact Nat.succ_pos _
    | some i => exact (hline.http_beyond hi).1
  simp only [List.length_append, List.length_cons] at hlen
  rw [hversion, usub_of_le (by omega), Nat.mod_eq_of_lt (by omega), Nat.sub_add_cancel (by omega), ← List.drop_drop,
    List.drop_left]

theorem line_version_plain {h h' : Http} (hline : Targeted front target v)
    (hlen : (front ++ (target ++ SP :: v)).length < 2 ^ 63) (hnone : find (bytes "HTTP") target = none)
    (hs : parseHeaderUri h (front ++ (target ++ SP :: v)) = some h') :
    h'.version = if v.take 8 = bytes "HTTP/1.0" then .v1 else .v1_1 := by
  rw [line_version hline hlen hs, hnone, Option.getD_none, drop_behind]

/-- The URI without a query: it is cut before its own `HTTP`. -/
theorem line_plain {h h' : Http} (hline : Targeted front target v) (hplain : 63 ∉ front ++ (target ++ SP :: v))
    (huri : h.uri = bytes "/") (hs : parseHeaderUri h (front ++ (target ++ SP :: v)) = some h') :
    h'.getData = h.getData ∧ (h'.uri = target ↔ find (bytes "HTTP") target = none) := by
  rcases parseHeaderUri_cases hs with ⟨a, p, ha, hp, -, -, -, ⟨-, hgets, hu⟩ | ⟨g, hg, -⟩⟩
  · refine ⟨hgets, ?_⟩
    rw [hline.find_slash] at ha
    cases ha
    rw [hline.find_http] at hp
    cases hp
    have hhead : (target ++ SP :: v).head? = some 47 := by
      rw [List.head?_append, hline.slash]
      rfl
    rw [List.drop_left, setUri_slash h hhead, huri] at hu
    cases hi : find (bytes "HTTP") target with
    | none =>
      have hcount : usub (usub (front.length + (target.length + 1)) 1) front.length = target.length := by
        rw [usub_of_le (show 1 ≤ front.length + (target.length + 1) by omega), usub_of_le (by omega)]
        omega
      have hne : target ≠ [] := by
        intro hnil
        rw [hnil] at hhead
        cases hhead
      rw [hi, Option.getD_none, hcount, List.take_left, if_neg hne] at hu
      exact iff_of_true hu rfl
    | some i =>
      obtain ⟨hpos, hle⟩ := hline.http_beyond hi
      have hcount : usub (usub (front.length + i) 1) front.length = i - 1 := by
        rw [usub_of_le (show 1 ≤ front.length + i by omega), usub_of_le (by omega)]
        omega
      rw [hi, Option.getD_some, hcount] at hu
      refine iff_of_false ?_ nofun
      -- what is cut is shorter
      intro hsame
      have hshort := congrArg List.length (hsame.symm.trans hu)
      split at hshort
      · rw [show (bytes "/").length = 1 from rfl] at hshort
        omega
      · rw [List.length_take] at hshort
        omega
  · rw [find_char_none hplain] at hg
    cases hg

/-- A URI with a `?` behind it ends there. -/
theorem line_cut {h h' : Http} {u rest : Bytes} (hfront : 47 ∉ front) (hslash : u.head? = some 47) (hquery : 63 ∉ front ++ u)
    (hs : parseHeaderUri h (front ++ (u ++ 63 :: rest)) = some h') : h'.uri = u := by
  obtain ⟨t, rfl⟩ : ∃ t, u = 47 :: t := by
    cases u with
    | nil => cases hslash
    | cons b t =>
      cases hslash
      exact ⟨t, rfl⟩
  have hfind := find_char hquery rest
  rw [List.append_assoc] at hfind
  rcases parseHeaderUri_cases hs with ⟨a, p, ha, -, -, -, -, ⟨hnone, -⟩ | ⟨g, hg, -, hu⟩⟩
  · rw [hfind] at hnone
    cases hnone
  · rw [List.cons_append, find_char hfront] at ha
    cases ha
    rw [hfind] at hg
    cases hg
    have hhead : (47 :: t ++ 63 :: rest).head? = some 47 := rfl
    have hcount : usub (front ++ 47 :: t).length front.length = (47 :: t).length := by
      rw [List.length_append, usub_of_le (by omega), Nat.add_sub_cancel_left]
    rw [hu, List.drop_left, setUri_slash h hhead, hcount, List.take_left, if_neg (List.cons_ne_nil _ _)]

/-- The list that is read in place of the query `q` behind `u`. -/
def takenQuery (u q tail : Bytes) : Bytes :=
  match find (bytes "HTTP") (u ++ 63 :: q) with
  | none => q
  | some i => if i < u.length then q ++ SP :: tail else q.take (i - (u.length + 1) - 1)

theorem query_mark {u q : Bytes} {i : Nat} (hi : find (bytes "HTTP") (u ++ 63 :: q) = some i) : i ≠ u.length := by
  intro heq
  obtain ⟨s, hs⟩ := (find_eq_some_iff.mp hi).1
  rw [heq, List.drop_left] at hs
  exact absurd (List.cons.inj hs).1 (by decide)

/-- The variables of a query. -/
theorem line_query {h h' : Http} {u q : Bytes} (hline : Targeted front (u ++ 63 :: q) v) (hmark : 63 ∉ front ++ u)
    (hlen : (front ++ (u ++ 63 :: q ++ SP :: v)).length < 2 ^ 63)
    (hs : parseHeaderUri h (front ++ (u ++ 63 :: q ++ SP :: v)) = some h') :
    h'.getData = (Http.arguments (takenQuery u q v)).foldl emplaceGet h.getData := by
  have hsplit : front ++ (u ++ 63 :: q ++ SP :: v) = (front ++ u) ++ 63 :: (q ++ SP :: v) := by simp
  have hfind := find_char hmark (q ++ SP :: v)
  rw [← hsplit] at hfind
  have hdrop : (front ++ (u ++ 63 :: q ++ SP :: v)).drop (front ++ u).length = 63 :: (q ++ SP :: v) := by
    rw [hsplit, List.drop_left]
  rcases parseHeaderUri_cases hs with ⟨a, p, -, hp, -, -, -, ⟨hnone, -⟩ | ⟨g, hg, hgets, -⟩⟩
  · rw [hfind] at hnone
    cases hnone
  · rw [hline.find_http] at hp
    cases hp
    rw [hfind] at hg
    cases hg
    rw [hgets, hdrop, takenQuery]
    congr 2
    simp only [List.length_append, List.length_cons] at hlen ⊢
    cases hi : find (bytes "HTTP") (u ++ 63 :: q) with
    | none =>
      have hcount : usub (usub (front.length + (u.length + (q.length + 1) + 1)) 1) (front.length + u.length) = q.length + 1 := by
        rw [usub_of_le (show 1 ≤ front.length + (u.length + (q.length + 1) + 1) by omega), usub_of_le (by omega)]
        omega
      rw [Option.getD_none, hcount, List.take_succ_cons, List.drop_succ_cons, List.drop_zero, List.take_left]
    | some i =>
      obtain ⟨hpos, hle⟩ := hline.http_beyond hi
      have hother := query_mark hi
      simp only [List.length_append, List.length_cons] at hle
      rw [Option.getD_some]
      simp only
      by_cases hbefore : i < u.length
      · -- the count wraps around
        have hall : (63 :: (q ++ SP :: v)).length ≤ usub (usub (front.length + i) 1) (front.length + u.length) := by
          simp only [List.length_append, List.length_cons]
          rw [usub_of_le (show 1 ≤ front.length + i by omega), usub_of_lt (by omega) (by omega)]
          omega
        rw [if_pos hbefore, List.take_of_length_le hall, List.drop_succ_cons, List.drop_zero]
      · have hcount : usub (usub (front.length + i) 1) (front.length + u.length) = i - (u.length + 1) := by
          rw [usub_of_le (show 1 ≤ front.length + i by omega), usub_of_le (by omega)]
          omega
        rw [if_neg hbefore, hcount, List.drop_take, List.drop_succ_cons, List.drop_zero,
          List.take_append_of_le_length (by omega)]

/-! ## The header -/

/-- What a request holds after its header was read. -/
structure HeadRead (r : HttpRequest) : Prop where
  type : r.requestType ∈ Http.methods ∨ r.requestType = .unknown
  version : r.version = .v1 ∨ r.version = .v1_1
  slash : r.uri.head? = some 47
  uri : LF ∉ r.uri
  gets : Http.Variables r.getData
  headers : Http.Stored r.headerData
  length : (r.headerData.lookup (bytes "content-length") = none ∧ r.contentLength = 0) ∨
    ∃ v, r.headerData.lookup (bytes "content-length") = some v ∧ stoull 10 v = some r.contentLength

theorem uri_read {h h' : Http} {line : Bytes} (hlf : LF ∉ line) (hlen : line.length < 2 ^ 64) (hget : h.getData = ∅)
    (huri : h.uri = bytes "/") (hs : parseHeaderUri h line = some h') :
    (h'.version = .v1 ∨ h'.version = .v1_1) ∧ h'.requestType = h.requestType ∧ h'.headerData = h.headerData ∧
      h'.uri.head? = some 47 ∧ LF ∉ h'.uri ∧ Http.Variables h'.getData := by
  obtain ⟨a, p, ha, hp, hversion, htype, hheaders, hcut⟩ := parseHeaderUri_cases hs
  have hslash : (line.drop a).head? = some 47 := by
    obtain ⟨t, ht⟩ := (find_eq_some_iff.mp ha).1
    rw [← ht]
    rfl
  have htext : ∀ n, (h.setUri ((line.drop a).take n)).uri.head? = some 47 ∧ LF ∉ (h.setUri ((line.drop a).take n)).uri := by
    intro n
    rw [setUri_slash h hslash, huri]
    by_cases hempty : (line.drop a).take n = []
    · rw [if_pos hempty]
      exact ⟨by decide, by decide⟩
    · rw [if_neg hempty, List.head?_take, if_neg fun h0 => hempty (by rw [h0, List.take_zero])]
      exact ⟨hslash, fun hm => hlf (List.mem_of_mem_drop (List.mem_of_mem_take hm))⟩
  refine ⟨?_, htype, hheaders, ?_⟩
  · rw [hversion]
    split
    · exact Or.inl rfl
    · exact Or.inr rfl
  rcases hcut with ⟨-, hgets, hu⟩ | ⟨g, -, hgets, hu⟩
  · rw [hu, hgets, hget]
    exact ⟨(htext _).1, (htext _).2, Http.variables_empty⟩
  · rw [hu, hgets, hget]
    refine ⟨(htext _).1, (htext _).2, Http.variables_read ?_ fun hm => hlf ?_⟩
    · simp only [List.length_drop, List.length_take]
      omega
    · exact List.mem_of_mem_drop (List.mem_of_mem_take (List.mem_of_mem_drop hm))

theorem headRead_fresh : HeadRead { fresh with headerEnded := true } where
  type := by decide
  version := by decide
  slash := by decide
  uri := by decide
  gets := Http.variables_empty
  headers := Http.stored_empty
  length := Or.inl ⟨rfl, rfl⟩

theorem parseHeaderType_method {line : Bytes}
    (h : ¬ RequestType.requestTypeCount.toNat < (parseHeaderType line).toNat) : parseHeaderType line ∈ Http.methods := by
  unfold parseHeaderType at h ⊢
  split at h
  · exact (Http.method_of_le h).1
  · exact absurd (by decide) h

/-- All that a header with a line can be read to. -/
theorem readHeader_line {line : Bytes} {lines : List Bytes} {r : HttpRequest}
    (h : readHeader { fresh with headerEnded := true } (line :: lines) = (true, r)) :
    parseHeaderType line ∈ Http.methods ∧
      ∃ stored, parseHeaderUri { fresh.toHttp with requestType := parseHeaderType line } line = some stored ∧
        r.toHttp = lines.foldl Http.parseHeaderLine stored ∧
        ((r.headerData.lookup (bytes "content-length") = none ∧ r.contentLength = 0) ∨
          ∃ v, r.headerData.lookup (bytes "content-length") = some v ∧ stoull 10 v = some r.contentLength) := by
  rw [readHeader] at h
  simp only at h
  by_cases hcount : RequestType.requestTypeCount.toNat < (parseHeaderType line).toNat
  · rw [if_pos hcount] at h
    cases h
  · rw [if_neg hcount] at h
    refine ⟨parseHeaderType_method hcount, ?_⟩
    cases hs : parseHeaderUri { fresh.toHttp with requestType := parseHeaderType line } line with
    | none =>
      rw [show parseHeaderUri _ line = none from hs] at h
      cases h
    | some stored =>
      rw [show parseHeaderUri _ line = some stored from hs] at h
      simp only at h
      refine ⟨stored, rfl, ?_⟩
      cases hlength : (lines.foldl Http.parseHeaderLine stored).headerData.lookup (bytes "content-length") with
      | none =>
        rw [hlength] at h
        cases h
        exact ⟨rfl, .inl ⟨hlength, rfl⟩⟩
      | some v =>
        rw [hlength] at h
        simp only at h
        cases hn : stoull 10 v with
        | none =>
          rw [hn] at h
          cases h
        | some n =>
          rw [hn] at h
          cases h
          exact ⟨rfl, .inr ⟨v, hlength, hn⟩⟩

/-- The lines behind the first change the map alone. -/
theorem headerLines_fields {r : HttpRequest} {stored : Http} {lines : List Bytes}
    (h : r.toHttp = lines.foldl Http.parseHeaderLine stored) :
    r.requestType = stored.requestType ∧ r.uri = stored.uri ∧ r.getData = stored.getData ∧ r.version = stored.version := by
  rw [Http.parseHeaderLines_eq] at h
  rw [h]
  exact ⟨rfl, rfl, rfl, rfl⟩

theorem headRead_of_read {text : Bytes} (hlen : text.length < 2 ^ 64) {r : HttpRequest} (h : readHead text = (true, r)) :
    HeadRead r := by
  unfold readHead at h
  cases hsplit : Http.splitString text LF false with
  | nil =>
    rw [hsplit] at h
    cases h
    exact headRead_fresh
  | cons line lines =>
    rw [hsplit] at h
    obtain ⟨hmethod, stored, hs, hread, hlength⟩ := readHeader_line h
    have hfree : ∀ l ∈ line :: lines, LF ∉ l := fun l hl => Http.splitString_free (hsplit ▸ hl)
    have hline : line ∈ Http.splitString text LF false := by
      rw [hsplit]
      exact List.mem_cons_self
    obtain ⟨hversion, htype, hheaders, hslash, huri, hgets⟩ := uri_read (hfree line List.mem_cons_self)
      (Nat.lt_of_le_of_lt (Http.splitString_length hline) hlen) rfl rfl hs
    have hstored : Http.Stored stored.headerData := by
      rw [hheaders]
      exact Http.stored_empty
    have hmap := Http.stored_read hstored fun l hl => hfree l (List.mem_cons_of_mem _ hl)
    obtain ⟨htype', huri', hgets', hversion'⟩ := headerLines_fields hread
    rw [← hread] at hmap
    exact ⟨.inl (htype'.trans htype ▸ hmethod), hversion' ▸ hversion, huri' ▸ hslash, huri' ▸ huri, hgets' ▸ hgets, hmap,
      hlength⟩

/-! ## The body -/

/-- What a request holds after one call that succeeded. -/
structure Parsed (r : HttpRequest) : Prop extends HeadRead r where
  complete : r.contentLength ≤ r.body.length
  limit : r.body.length ≤ maxHttpBodySize
  posts : r.postData = if r.requestType = .post then Http.insertAll ∅ (postArguments r.body) else ∅

theorem parsed_of_parse {s : Bytes} {x : HttpRequest} (h : parse fresh s = (some .success, x)) : Parsed x := by
  obtain ⟨-, e, n, r, -, hsize, hread, hparse⟩ := parse_fresh_success (congrArg Prod.fst h)
  rw [h] at hparse
  have hlen : (s.take e).length < 2 ^ 64 := by
    rw [List.length_take]
    simp only [maxHttpHeaderSize] at hsize
    omega
  have hhead := headRead_of_read hlen hread
  have hpost := readHead_post (s.take e)
  rw [hread] at hpost
  obtain ⟨hc, hb⟩ := parseBody_complete (by rw [← hparse])
  rw [parseBody_eq hc hb] at hparse
  cases hparse
  refine ⟨⟨hhead.type, hhead.version, hhead.slash, hhead.uri, hhead.gets, hhead.headers, hhead.length⟩, hc, hb, ?_⟩
  simp only
  rw [show r.postData = ∅ from hpost]

end Frnetlib.HttpRequest
