/-
  Frnetlib.Http.URLPieces — the pieces of a text that `URL::parse` makes components of.

  A text is cut at the first "://", what follows at the first ':' and the next '/', or else
  at the first '/', '?' or '#', and what is behind that at the first '?' and '#'. The scheme
  is set whatever the text has; the other components where it has them, and the path is
  appended to the one before (`parse_pieces`). So parsing with an object that has been used
  gives the same as with a new one exactly when the object fits the text
  (`parse_fresh_iff`).
-/

import Frnetlib.Http.URL

namespace Frnetlib

open Base

namespace URL

/-! ## Cutting at a character -/

def behind (c : UInt8) (s : Bytes) : Bytes := (s.dropWhile (· != c)).drop 1

theorem behind_char {c : UInt8} {a : Bytes} (h : c ∉ a) (b : Bytes) : behind c (a ++ c :: b) = b := by
  rw [behind, List.dropWhile_append_of_pos (bne_of_not_mem h), List.dropWhile_cons_of_neg (by simp), List.drop_succ_cons,
    List.drop_zero]

theorem behind_none {c : UInt8} {s : Bytes} (h : c ∉ s) : behind c s = [] := by
  rw [behind, List.dropWhile_eq_nil_iff.mpr (bne_of_not_mem h), List.drop_nil]

theorem upTo_free (c : UInt8) (s : Bytes) : c ∉ upTo c s := by
  intro hmem
  simpa using List.mem_takeWhile_imp hmem

theorem upTo_behind {c : UInt8} {s : Bytes} (h : c ∈ s) : s = upTo c s ++ c :: behind c s := by
  obtain ⟨a, b, rfl, ha⟩ := List.eq_append_cons_of_mem h
  rw [upTo_char ha, behind_char ha]

/-! ## The pieces -/

/-- The scheme's text with its "://". -/
def front (s : Bytes) : Bytes :=
  match find (bytes "://") s with
  | none => []
  | some pos => s.take (pos + 3)

/-- What is behind it. -/
def rest (s : Bytes) : Bytes :=
  match find (bytes "://") s with
  | none => s
  | some pos => s.drop (pos + 3)

def schemeOf (s : Bytes) : Scheme :=
  match find (bytes "://") s with
  | none => .unknown
  | some pos => (schemeStringMap.lookup ((s.take pos).map tolower)).getD .unknown

/-- Something ends the host, or the scheme has begun it. -/
def Hosted (s : Bytes) : Prop := front s ≠ [] ∨ SLASH ∈ rest s ∨ QUESTION ∈ rest s ∨ HASH ∈ rest s

instance (s : Bytes) : Decidable (Hosted s) := inferInstanceAs (Decidable (_ ∨ _))

def hostPiece (s : Bytes) : Option Bytes :=
  if COLON ∈ rest s then some (upTo COLON (rest s))
  else if Hosted s then some (hostOf (rest s))
  else none

/-- The port that is written, or the guess for the scheme. -/
def portPiece (s : Bytes) : Option Bytes :=
  if COLON ∈ rest s then some (upTo SLASH (behind COLON (rest s))) else (schemeOf s).port

/-- What is behind the host and the port, without the delimiter that ends them. -/
def remainder (s : Bytes) : Bytes :=
  if COLON ∈ rest s then behind SLASH (behind COLON (rest s))
  else if Hosted s then (rest s).drop ((hostOf (rest s)).length + 1)
  else rest s

def pathPiece (b : Bytes) : Bytes := if b = [] then [] else SLASH :: pathOf b

def queryPiece (b : Bytes) : Option Bytes :=
  if QUESTION ∈ b then
    if HASH ∈ behind QUESTION b then some (upTo HASH (behind QUESTION b))
    else if behind QUESTION b = [] then none
    else some (behind QUESTION b)
  else none

def fragmentPiece (b : Bytes) : Option Bytes :=
  if QUESTION ∈ b then if HASH ∈ behind QUESTION b then some (behind HASH (behind QUESTION b)) else none
  else if HASH ∈ b then some (behind HASH b)
  else none

theorem front_rest (s : Bytes) : front s ++ rest s = s := by
  unfold front rest
  cases find (bytes "://") s with
  | none => rfl
  | some pos => exact List.take_append_drop _ s

theorem parseScheme_pieces (s : Bytes) : parseScheme s = some (schemeOf s, (front s).length) := by
  unfold parseScheme schemeOf front
  cases hfind : find (bytes "://") s with
  | none => rfl
  | some pos =>
    have hle := find_le hfind
    rw [show (bytes "://").length = 3 from rfl] at hle
    simp only [substr_of_le (Nat.zero_le s.length), List.drop_zero, List.length_take, Nat.min_eq_left hle]

/-! ## What is behind the host and the port -/

theorem pathOf_question {a b : Bytes} (h : QUESTION ∉ a) : pathOf (a ++ QUESTION :: b) = a := by
  rw [pathOf, if_pos (by simp), upTo_char h]

theorem pathOf_hash {a b : Bytes} (h : QUESTION ∉ a ++ HASH :: b) (ha : HASH ∉ a) : pathOf (a ++ HASH :: b) = a := by
  rw [pathOf, if_neg h, upTo_char ha]

theorem pathOf_plain {b : Bytes} (hquestion : QUESTION ∉ b) (hhash : HASH ∉ b) : pathOf b = b := by
  rw [pathOf, if_neg hquestion, upTo_none hhash]

/-- The components with what a text has behind the host and the port. -/
def withTail (u : URL) (b : Bytes) : URL :=
  { u with
    path := u.path ++ pathPiece b
    query := (queryPiece b).getD u.query
    fragment := (fragmentPiece b).getD u.fragment }

theorem parseRest_pieces (u : URL) (pre b : Bytes) : parseRest u (pre ++ b) pre.length = some (u.withTail b) := by
  by_cases hb : b = []
  · subst hb
    rw [parseRest_end u (by simp)]
    simp [withTail, pathPiece, queryPiece, fragmentPiece]
  · rw [parseRest_rest u pre hb]
    unfold withTail pathPiece queryPiece fragmentPiece
    rw [if_neg hb]
    by_cases hquestion : QUESTION ∈ b
    · obtain ⟨a, q, rfl, ha⟩ := List.eq_append_cons_of_mem hquestion
      rw [pathOf_question ha, behind_char ha, if_pos hquestion, if_pos hquestion, ← List.append_assoc, ← List.length_append]
      by_cases hhash : HASH ∈ q
      · obtain ⟨q, f, rfl, hq⟩ := List.eq_append_cons_of_mem hhash
        rw [if_pos hhash, if_pos hhash, upTo_char hq, behind_char hq]
        exact parseQuery_question _ (pre ++ a) hq f
      · rw [if_neg hhash, if_neg hhash, parseQuery_last _ (pre ++ a) hhash]
        by_cases hq : q = []
        · rw [if_pos hq, if_pos hq]
          rfl
        · rw [if_neg hq, if_neg hq]
          rfl
    · rw [if_neg hquestion, if_neg hquestion]
      by_cases hhash : HASH ∈ b
      · obtain ⟨a, f, rfl, ha⟩ := List.eq_append_cons_of_mem hhash
        rw [if_pos hhash, pathOf_hash hquestion ha, behind_char ha, ← List.append_assoc, ← List.length_append]
        exact parseQuery_hash _ (pre ++ a) f
      · rw [if_neg hhash, pathOf_plain hquestion hhash, parseQuery_end]
        · rfl
        · rw [List.length_append]
          omega

/-! ## The host and the port -/

/-- A search that ran to the end leaves nothing. -/
theorem parseRest_behind (u : URL) (c : UInt8) (pre s : Bytes) :
    parseRest u (pre ++ s) ((pre ++ upTo c s).length + 1) = some (u.withTail (behind c s)) := by
  by_cases hc : c ∈ s
  · obtain ⟨a, b, rfl, ha⟩ := List.eq_append_cons_of_mem hc
    have hpieces := parseRest_pieces u (pre ++ (a ++ [c])) b
    rw [upTo_char ha, behind_char ha, show (pre ++ a).length + 1 = (pre ++ (a ++ [c])).length by simp; omega,
      show pre ++ (a ++ c :: b) = pre ++ (a ++ [c]) ++ b by simp]
    exact hpieces
  · rw [upTo_none hc, behind_none hc, parseRest_end u (by omega)]
    simp [withTail, pathPiece, queryPiece, fragmentPiece]

theorem parseRest_drop (u : URL) (pre s : Bytes) (n : Nat) :
    parseRest u (pre ++ s) (pre.length + n) = some (u.withTail (s.drop n)) := by
  by_cases hn : n ≤ s.length
  · have hpieces := parseRest_pieces u (pre ++ s.take n) (s.drop n)
    rw [List.append_assoc, List.take_append_drop, List.length_append, List.length_take, Nat.min_eq_left hn] at hpieces
    exact hpieces
  · rw [List.drop_of_length_le (by omega), parseRest_end u (by rw [List.length_append]; omega)]
    simp [withTail, pathPiece, queryPiece, fragmentPiece]

/-- Without a scheme and a delimiter the host is left as it was. -/
theorem parseHost_bare (u : URL) {s : Bytes} (hcolon : COLON ∉ s) (hslash : SLASH ∉ s) (hquestion : QUESTION ∉ s)
    (hhash : HASH ∉ s) : parseHost u s 0 = some ({ u with port := u.scheme.port.getD u.port }, 0) := by
  have hnone : ∀ c, c ∉ s → findFrom [c] s 0 = none := by
    intro c hc
    rw [findFrom, List.drop_zero, find_char_none hc]
    rfl
  simp only [parseHost, hnone _ hcolon, hnone _ hslash, hnone _ hquestion, hnone _ hhash]
  rfl

theorem parse_pieces (u : URL) (s : Bytes) :
    parse u s = some (withTail
      { u with scheme := schemeOf s, host := (hostPiece s).getD u.host, port := (portPiece s).getD u.port }
      (remainder s)) := by
  unfold parse
  rw [parseScheme_pieces]
  simp only
  by_cases hcolon : COLON ∈ rest s
  · have hsplit := upTo_behind hcolon
    have hhost := parseHost_port { u with scheme := schemeOf s } (front s) (upTo_free COLON (rest s)) (behind COLON (rest s))
    rw [← hsplit, front_rest] at hhost
    have hwhole : s = front s ++ (upTo COLON (rest s) ++ [COLON]) ++ behind COLON (rest s) := by
      rw [List.append_assoc, List.append_assoc, List.singleton_append, ← hsplit, front_rest]
    rw [hhost, hostPiece, portPiece, remainder, if_pos hcolon, if_pos hcolon, if_pos hcolon]
    simp only [Option.getD_some]
    have hbehind := parseRest_behind
      { u with scheme := schemeOf s, host := upTo COLON (rest s), port := upTo SLASH (behind COLON (rest s)) } SLASH
      (front s ++ (upTo COLON (rest s) ++ [COLON])) (behind COLON (rest s))
    rw [← hwhole, List.length_append] at hbehind
    exact hbehind
  · rw [hostPiece, portPiece, remainder, if_neg hcolon, if_neg hcolon, if_neg hcolon]
    by_cases hhosted : Hosted s
    · have hhost := parseHost_found { u with scheme := schemeOf s } hcolon hhosted
      rw [front_rest] at hhost
      rw [hhost, if_pos hhosted, if_pos hhosted]
      have hdrop := parseRest_drop
        { u with scheme := schemeOf s, host := hostOf (rest s), port := (schemeOf s).port.getD u.port } (front s) (rest s)
        ((hostOf (rest s)).length + 1)
      rw [front_rest, ← Nat.add_assoc] at hdrop
      exact hdrop
    · rw [if_neg hhosted, if_neg hhosted]
      simp only [Hosted, not_or, not_not] at hhosted
      obtain ⟨hfront, hslash, hquestion, hhash⟩ := hhosted
      have hs : rest s = s := by
        have hwhole := front_rest s
        rwa [hfront, List.nil_append] at hwhole
      rw [hs] at hcolon hslash hquestion hhash
      rw [hfront, List.length_nil, parseHost_bare _ hcolon hslash hquestion hhash, hs]
      exact parseRest_pieces _ [] s

/-! ## What the object had before -/

theorem hostPiece_eq_none {s : Bytes} : hostPiece s = none ↔ COLON ∉ rest s ∧ ¬ Hosted s := by
  unfold hostPiece
  by_cases hcolon : COLON ∈ rest s
  · simp [hcolon]
  · by_cases hhosted : Hosted s
    · simp [hcolon, hhosted]
    · simp [hcolon, hhosted]

theorem portPiece_eq_none {s : Bytes} : portPiece s = none ↔ COLON ∉ rest s ∧ (schemeOf s).port = none := by
  unfold portPiece
  by_cases hcolon : COLON ∈ rest s
  · simp [hcolon]
  · simp [hcolon]

theorem queryPiece_eq_none {b : Bytes} : queryPiece b = none ↔ QUESTION ∉ b ∨ behind QUESTION b = [] := by
  unfold queryPiece
  by_cases hquestion : QUESTION ∈ b
  · by_cases hend : behind QUESTION b = []
    · simp [hend]
    · by_cases hhash : HASH ∈ behind QUESTION b
      · simp [hquestion, hend, hhash]
      · simp [hquestion, hend, hhash]
  · simp [hquestion]

/-- Where a '#' begins the fragment: behind the '?', if there is one. -/
def fragmentArea (b : Bytes) : Bytes := if QUESTION ∈ b then behind QUESTION b else b

theorem fragmentPiece_eq_none {b : Bytes} : fragmentPiece b = none ↔ HASH ∉ fragmentArea b := by
  unfold fragmentPiece fragmentArea
  by_cases hquestion : QUESTION ∈ b
  · simp [hquestion]
  · simp [hquestion]

theorem getD_eq_iff {o : Option Bytes} {a : Bytes} : o.getD a = o.getD [] ↔ (o = none → a = []) := by
  cases o with
  | none => simp
  | some b => simp

/-- The object has no path, and of the other components none that the text leaves out. -/
structure Fits (u : URL) (s : Bytes) : Prop where
  path : u.path = []
  host : COLON ∉ rest s → ¬ Hosted s → u.host = []
  port : COLON ∉ rest s → (schemeOf s).port = none → u.port = []
  query : QUESTION ∉ remainder s ∨ behind QUESTION (remainder s) = [] → u.query = []
  fragment : HASH ∉ fragmentArea (remainder s) → u.fragment = []

/-- Parsing gives what parsing with a new object does exactly when the object fits the text. -/
theorem parse_fresh_iff (u : URL) (s : Bytes) :
    ∃ v w, parse u s = some v ∧ parse fresh s = some w ∧ (v = w ↔ u.Fits s) := by
  refine ⟨_, _, parse_pieces u s, parse_pieces fresh s, ?_⟩
  have hpath : u.path ++ pathPiece (remainder s) = [] ++ pathPiece (remainder s) ↔ u.path = [] := List.append_left_inj _
  simp only [withTail, fresh, URL.mk.injEq, true_and, getD_eq_iff, hpath, hostPiece_eq_none, portPiece_eq_none,
    queryPiece_eq_none, fragmentPiece_eq_none]
  constructor
  · rintro ⟨hhost, hport, hpath, hquery, hfragment⟩
    exact ⟨hpath, fun hcolon hnone => hhost ⟨hcolon, hnone⟩, fun hcolon hguess => hport ⟨hcolon, hguess⟩, hquery, hfragment⟩
  · intro h
    exact ⟨fun hnone => h.host hnone.1 hnone.2, fun hnone => h.port hnone.1 hnone.2, h.path, h.query, h.fragment⟩

/-- The path of a second parse is put behind that of the first. -/
theorem parse_fresh_not :
    ¬ ∀ u s, parse u s = parse fresh s := by
  intro h
  have hfirst : parse fresh (bytes "http://a/b") = some ⟨.http, bytes "a", bytes "80", bytes "/b", [], []⟩ := by
    decide +kernel
  have hsecond : parse ⟨.http, bytes "a", bytes "80", bytes "/b", [], []⟩ (bytes "http://a/b") =
      some ⟨.http, bytes "a", bytes "80", bytes "/b/b", [], []⟩ := by
    decide +kernel
  rw [h, hfirst] at hsecond
  exact absurd hsecond (by decide)

end URL

end Frnetlib
