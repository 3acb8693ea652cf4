/-
  Frnetlib.Http.URLPrint — `URL::get_url`, and what `parse` makes of the URL it prints.

  What is printed leaves out empty components, the scheme where it is unknown, and every
  delimiter with nothing behind it; a guessed port is printed as if it had been written.
  So the parser comes to another component where the text it is given has lost the
  delimiter that ended one (`print_stable`).
-/

import Frnetlib.Http.URLPieces

namespace Frnetlib

open Base

namespace URL

/-! ## Printing -/

/-- The entry of the map that has the scheme; without one it throws. -/
def schemeToString (scheme : Scheme) : Option Bytes :=
  (schemeStringMap.find? fun i => schemeStringMap.lookup i.1 = some i.2 ∧ i.2 = scheme).map (·.1)

/-- A component that is not empty, with its delimiter. -/
def lead (delimiter : UInt8) (component : Bytes) : Bytes := if component = [] then [] else delimiter :: component

def getUri (u : URL) : Bytes := u.path ++ lead QUESTION u.query ++ lead HASH u.fragment

def getUrl (u : URL) : Option Bytes :=
  if u.host = [] then some u.getUri
  else if u.scheme = .unknown then some (u.host ++ lead COLON u.port ++ u.getUri)
  else (schemeToString u.scheme).map fun scheme => scheme ++ bytes "://" ++ (u.host ++ lead COLON u.port ++ u.getUri)

/-- What a text is parsed to by a new object. -/
def ofText (s : Bytes) : URL :=
  withTail { fresh with scheme := schemeOf s, host := (hostPiece s).getD [], port := (portPiece s).getD [] } (remainder s)

theorem parse_ofText (s : Bytes) : parse fresh s = some (ofText s) := parse_pieces fresh s

/-! ## The path, the query and the fragment -/

@[simp] theorem lead_nil (c : UInt8) : lead c [] = [] := rfl

theorem lead_of_ne {c : UInt8} {x : Bytes} (h : x ≠ []) : lead c x = c :: x := if_neg h

/-- Something is behind the '/', and only a query's '?' keeps a '#' in the path and a '?' in the
    fragment from being taken for delimiters. -/
def Delimited (path query fragment : Bytes) : Prop :=
  (path ≠ [] ∨ query ≠ [] ∨ fragment ≠ []) ∧ (query = [] → HASH ∉ path ∧ QUESTION ∉ fragment)

/-- The three are read back. -/
def Reads (b path query fragment : Bytes) : Prop :=
  pathPiece b = SLASH :: path ∧ (queryPiece b).getD [] = query ∧ (fragmentPiece b).getD [] = fragment

theorem reads_query {path query fragment : Bytes} (hpath : QUESTION ∉ path) (hquery : HASH ∉ query) (hne : query ≠ []) :
    Reads (path ++ QUESTION :: (query ++ lead HASH fragment)) path query fragment := by
  have hmem : QUESTION ∈ path ++ QUESTION :: (query ++ lead HASH fragment) := by simp
  unfold Reads pathPiece queryPiece fragmentPiece
  rw [if_neg (by simp), if_pos hmem, if_pos hmem, behind_char hpath, pathOf_question hpath]
  by_cases hfragment : fragment = []
  · subst hfragment
    rw [lead_nil, List.append_nil, if_neg hquery, if_neg hne, if_neg hquery]
    exact ⟨rfl, rfl, rfl⟩
  · rw [lead_of_ne hfragment, if_pos (by simp), if_pos (by simp), upTo_char hquery, behind_char hquery]
    exact ⟨rfl, rfl, rfl⟩

/-- A path that ends before the text does is another. -/
theorem pathOf_ne {b path : Bytes} (h : (pathOf b).length ≠ path.length) : ¬ pathPiece b = SLASH :: path := by
  intro heq
  unfold pathPiece at heq
  split at heq
  · cases heq
  · exact h (congrArg List.length (List.cons.inj heq).2)

theorem upTo_length_lt {c : UInt8} {s : Bytes} (h : c ∈ s) : (upTo c s).length < s.length := by
  have hlen := congrArg List.length (upTo_behind h)
  rw [List.length_append, List.length_cons] at hlen
  omega

theorem reads_path {path : Bytes} (hpath : QUESTION ∉ path) : Reads path path [] [] ↔ path ≠ [] ∧ HASH ∉ path := by
  constructor
  · rintro ⟨hread, -⟩
    constructor
    · rintro rfl
      cases hread
    · intro hhash
      refine pathOf_ne ?_ hread
      rw [pathOf, if_neg hpath]
      exact Nat.ne_of_lt (upTo_length_lt hhash)
  · rintro ⟨hne, hhash⟩
    unfold Reads pathPiece queryPiece fragmentPiece
    rw [if_neg hne, if_neg hpath, if_neg hpath, if_neg hhash, pathOf_plain hpath hhash]
    exact ⟨rfl, rfl, rfl⟩

theorem reads_fragment {path fragment : Bytes} (hpath : QUESTION ∉ path) :
    Reads (path ++ HASH :: fragment) path [] fragment ↔ HASH ∉ path ∧ QUESTION ∉ fragment := by
  have hne : HASH ≠ QUESTION := by decide
  constructor
  · rintro ⟨hread, -⟩
    by_cases hquestion : QUESTION ∈ fragment
    · -- the path reaches to the '?'
      obtain ⟨a, b, rfl, ha⟩ := List.eq_append_cons_of_mem hquestion
      refine absurd hread (pathOf_ne ?_)
      have hfree : QUESTION ∉ path ++ HASH :: a := by
        simp [hpath, ha, hne.symm]
      rw [show path ++ HASH :: (a ++ QUESTION :: b) = path ++ HASH :: a ++ QUESTION :: b by simp, pathOf_question hfree,
        List.length_append, List.length_cons]
      omega
    · refine ⟨?_, hquestion⟩
      intro hhash
      have hfree : QUESTION ∉ path ++ HASH :: fragment := by
        simp [hpath, hquestion, hne.symm]
      obtain ⟨a, b, rfl, ha⟩ := List.eq_append_cons_of_mem hhash
      rw [List.append_assoc, List.cons_append] at hfree hread
      refine absurd hread (pathOf_ne ?_)
      rw [pathOf_hash hfree ha, List.length_append, List.length_cons]
      omega
  · rintro ⟨hhash, hquestion⟩
    have hfree : QUESTION ∉ path ++ HASH :: fragment := by
      simp [hpath, hquestion, hne.symm]
    unfold Reads pathPiece queryPiece fragmentPiece
    rw [if_neg (by simp), if_neg hfree, if_neg hfree, if_pos (by simp), pathOf_hash hfree hhash, behind_char hhash]
    exact ⟨rfl, rfl, rfl⟩

theorem reads_iff {path query fragment : Bytes} (hpath : QUESTION ∉ path) (hquery : HASH ∉ query) :
    Reads (path ++ lead QUESTION query ++ lead HASH fragment) path query fragment ↔ Delimited path query fragment := by
  unfold Delimited
  by_cases hq : query = []
  · subst hq
    rw [lead_nil, List.append_nil]
    by_cases hf : fragment = []
    · subst hf
      rw [lead_nil, List.append_nil, reads_path hpath]
      simp
    · rw [lead_of_ne hf, reads_fragment hpath]
      simp [hf]
  · rw [lead_of_ne hq, List.append_assoc]
    exact iff_of_true (reads_query hpath hquery hq) ⟨.inr (.inl hq), fun h => absurd h hq⟩

/-- A text is more than delimiters, and a '?' with nothing before the '#' has no '#' before it and
    no '?' behind it. -/
def TailStable (b : Bytes) : Prop :=
  (b ≠ bytes "?" ∧ b ≠ bytes "#" ∧ b ≠ bytes "?#") ∧
    (QUESTION ∈ b → upTo HASH (behind QUESTION b) = [] → HASH ∉ upTo QUESTION b ∧ QUESTION ∉ behind QUESTION b)

instance (b : Bytes) : Decidable (TailStable b) := inferInstanceAs (Decidable (_ ∧ _))

theorem tailStable_question {a q : Bytes} (h : QUESTION ∉ a) : TailStable (a ++ QUESTION :: q) ↔
    (a ≠ [] ∨ q ≠ [] ∧ q ≠ [HASH]) ∧ (upTo HASH q = [] → HASH ∉ a ∧ QUESTION ∉ q) := by
  have hmem : QUESTION ∈ a ++ QUESTION :: q := by simp
  unfold TailStable
  rw [upTo_char h, behind_char h]
  refine and_congr ?_ (forall_prop_of_true hmem)
  cases a with
  | nil => simp [bytes, QUESTION, HASH]
  | cons x a =>
    have hx : x ≠ QUESTION := fun hx => h (by simp [hx])
    have hne : ∀ y, x :: a ++ QUESTION :: q ≠ QUESTION :: y := by
      intro y heq
      exact hx (List.cons.inj heq).1
    refine iff_of_true ⟨hne _, ?_, hne _⟩ (.inl (by simp))
    intro heq
    have hlen := congrArg List.length heq
    rw [List.length_append, List.length_cons, List.length_cons] at hlen
    have hone : (bytes "#").length = 1 := rfl
    omega

theorem tailStable_plain {b : Bytes} (h : QUESTION ∉ b) : TailStable b ↔ b ≠ [HASH] := by
  unfold TailStable
  constructor
  · intro hstable
    exact hstable.1.2.1
  · intro hne
    refine ⟨⟨?_, hne, ?_⟩, fun hmem => absurd hmem h⟩
    · rintro rfl
      exact h (by decide)
    · rintro rfl
      exact h (by decide)

theorem tailStable_iff {b : Bytes} (hb : b ≠ []) :
    TailStable b ↔ Delimited (pathOf b) ((queryPiece b).getD []) ((fragmentPiece b).getD []) := by
  unfold Delimited queryPiece fragmentPiece
  by_cases hq : QUESTION ∈ b
  · obtain ⟨a, q, rfl, ha⟩ := List.eq_append_cons_of_mem hq
    rw [if_pos hq, if_pos hq, behind_char ha, pathOf_question ha, tailStable_question ha]
    by_cases hf : HASH ∈ q
    · obtain ⟨q, f, rfl, hfree⟩ := List.eq_append_cons_of_mem hf
      rw [if_pos hf, if_pos hf, upTo_char hfree, behind_char hfree, Option.getD_some, Option.getD_some]
      refine and_congr (or_congr_right ?_) (forall_congr' ?_)
      · cases q <;> simp
      · rintro rfl
        simp [show QUESTION ≠ HASH by decide]
    · have hne : q ≠ [HASH] := by
        rintro rfl
        exact hf (by simp)
      rw [if_neg hf, if_neg hf, upTo_none hf]
      have hquery : (if q = [] then none else some q).getD [] = q := by
        by_cases hend : q = []
        · rw [if_pos hend, hend, Option.getD_none]
        · rw [if_neg hend, Option.getD_some]
      rw [hquery, Option.getD_none]
      refine and_congr ?_ (forall_congr' ?_)
      · simp [hne]
      · rintro rfl
        simp
  · rw [if_neg hq, if_neg hq, tailStable_plain hq]
    by_cases hf : HASH ∈ b
    · obtain ⟨a, f, rfl, ha⟩ := List.eq_append_cons_of_mem hf
      have hfragment : QUESTION ∉ f := fun hmem => hq (by simp [hmem])
      rw [if_pos hf, pathOf_hash hq ha, behind_char ha]
      cases a with
      | nil => simp [hfragment]
      | cons x a => simp [ha, hfragment]
    · rw [if_neg hf, pathOf_plain hq hf]
      have hne : b ≠ [HASH] := by
        rintro rfl
        exact hf (by simp)
      simp [hne, hb, hf]

/-! ## The scheme -/

theorem pieces_scheme {scheme : Bytes} (h : COLON ∉ scheme) (text : Bytes) :
    front (scheme ++ bytes "://" ++ text) = scheme ++ bytes "://" ∧ rest (scheme ++ bytes "://" ++ text) = text ∧
      schemeOf (scheme ++ bytes "://" ++ text) = (schemeStringMap.lookup (scheme.map tolower)).getD .unknown := by
  have hfind : find (bytes "://") (scheme ++ (bytes "://" ++ text)) = some scheme.length := by
    rw [show bytes "://" = COLON :: bytes "//" from rfl, find_skip h, find_here]
    simp
  have hlength : scheme.length + 3 = (scheme ++ bytes "://").length := by
    rw [List.length_append]
    rfl
  rw [← List.append_assoc] at hfind
  unfold front rest schemeOf
  rw [hfind]
  simp only [hlength, List.take_left, List.drop_left, true_and]
  rw [List.append_assoc, List.take_left]

theorem pieces_bare {text : Bytes} (h : ¬ bytes "://" <:+: text) :
    front text = [] ∧ rest text = text ∧ schemeOf text = .unknown := by
  unfold front rest schemeOf
  rw [find_eq_none_iff.mpr h]
  exact ⟨rfl, rfl, rfl⟩

/-- The entry that has the scheme is behind another with its key. -/
theorem lookup_ne_sftp (text : Bytes) : (schemeStringMap.lookup text).getD .unknown ≠ .sftp := by
  intro h
  cases hlookup : schemeStringMap.lookup text with
  | none =>
    rw [hlookup] at h
    cases h
  | some scheme =>
    rw [hlookup, Option.getD_some] at h
    subst h
    obtain ⟨pre, post, hmap, -⟩ := List.lookup_eq_some_iff.mp hlookup
    have hmem : (text, Scheme.sftp) ∈ schemeStringMap := by simp [hmap]
    have hkeys : ∀ i ∈ schemeStringMap, i.2 = .sftp → i.1 = bytes "sftp" := by decide
    have hkey : text = bytes "sftp" := hkeys _ hmem rfl
    rw [hkey] at hlookup
    exact absurd hlookup (by decide)

theorem schemeOf_ne_sftp (s : Bytes) : schemeOf s ≠ .sftp := by
  unfold schemeOf
  split
  · decide
  · exact lookup_ne_sftp _

/-- The name that is printed is read as the scheme. -/
theorem schemeToString_reads {scheme : Scheme} (hknown : scheme ≠ .unknown) (hftp : scheme ≠ .sftp) :
    ∃ name, schemeToString scheme = some name ∧ COLON ∉ name ∧
      (schemeStringMap.lookup (name.map tolower)).getD .unknown = scheme := by
  cases scheme with
  | http => exact ⟨bytes "http", by decide, by decide, by decide⟩
  | https => exact ⟨bytes "https", by decide, by decide, by decide⟩
  | ftp => exact ⟨bytes "sftp", by decide, by decide, by decide⟩
  | mailto => exact ⟨bytes "mailto", by decide, by decide, by decide⟩
  | irc => exact ⟨bytes "irc", by decide, by decide, by decide⟩
  | sftp => exact absurd rfl hftp
  | unknown => exact absurd rfl hknown

/-! ## The host and the port -/

/-- With a port that is written. -/
theorem pieces_port {text host port tail : Bytes} (hrest : rest text = host ++ COLON :: (port ++ tail))
    (hhost : COLON ∉ host) (hport : SLASH ∉ port) (htail : tail = [] ∨ ∃ t, tail = SLASH :: t) :
    hostPiece text = some host ∧ portPiece text = some port ∧ remainder text = tail.drop 1 := by
  have hcolon : COLON ∈ rest text := by simp [hrest]
  unfold hostPiece portPiece remainder
  rw [if_pos hcolon, if_pos hcolon, if_pos hcolon, hrest, upTo_char hhost, behind_char hhost]
  rcases htail with rfl | ⟨t, rfl⟩
  · rw [List.append_nil, upTo_none hport, behind_none hport]
    exact ⟨rfl, rfl, rfl⟩
  · rw [upTo_char hport, behind_char hport]
    exact ⟨rfl, rfl, rfl⟩

theorem hostOf_slash {host : Bytes} (t : Bytes) : hostOf (host ++ SLASH :: t) = host ↔ SLASH ∉ host := by
  rw [hostOf, if_pos (by simp)]
  constructor
  · intro heq
    rw [← heq]
    exact upTo_free SLASH _
  · intro h
    exact upTo_char h t

theorem hostOf_eq_self {host : Bytes} : hostOf host = host ↔ SLASH ∉ host ∧ QUESTION ∉ host ∧ HASH ∉ host := by
  unfold hostOf
  constructor
  · intro heq
    by_cases hslash : SLASH ∈ host
    · rw [if_pos hslash] at heq
      exact absurd hslash (heq ▸ upTo_free SLASH host)
    · rw [if_neg hslash] at heq
      by_cases hquestion : QUESTION ∈ host
      · rw [if_pos hquestion] at heq
        exact absurd hquestion (heq ▸ upTo_free QUESTION host)
      · rw [if_neg hquestion] at heq
        exact ⟨hslash, hquestion, heq ▸ upTo_free HASH host⟩
  · rintro ⟨hslash, hquestion, hhash⟩
    rw [if_neg hslash, if_neg hquestion, upTo_none hhash]

/-- Without one. -/
theorem pieces_host {text : Bytes} (hcolon : COLON ∉ rest text) (hhosted : Hosted text) :
    hostPiece text = some (hostOf (rest text)) ∧ portPiece text = (schemeOf text).port ∧
      remainder text = (rest text).drop ((hostOf (rest text)).length + 1) := by
  unfold hostPiece portPiece remainder
  rw [if_neg hcolon, if_neg hcolon, if_neg hcolon, if_pos hhosted, if_pos hhosted]
  exact ⟨rfl, rfl, rfl⟩

theorem hostPiece_free {s host : Bytes} (h : hostPiece s = some host) : COLON ∉ host := by
  unfold hostPiece at h
  by_cases hcolon : COLON ∈ rest s
  · rw [if_pos hcolon] at h
    cases h
    exact upTo_free COLON _
  · rw [if_neg hcolon] at h
    by_cases hhosted : Hosted s
    · rw [if_pos hhosted] at h
      cases h
      obtain ⟨t, ht⟩ := hostOf_append (rest s)
      intro hmem
      rw [ht] at hcolon
      exact hcolon (List.mem_append_left _ hmem)
    · rw [if_neg hhosted] at h
      cases h

theorem port_plain {scheme : Scheme} {port : Bytes} (h : scheme.port = some port) : SLASH ∉ port := by
  have key : ∀ scheme : Scheme, ∀ port ∈ scheme.port, SLASH ∉ port := by
    intro scheme
    cases scheme <;> decide
  exact key scheme port h

theorem portPiece_free {s port : Bytes} (h : portPiece s = some port) : SLASH ∉ port := by
  unfold portPiece at h
  by_cases hcolon : COLON ∈ rest s
  · rw [if_pos hcolon] at h
    cases h
    exact upTo_free SLASH _
  · rw [if_neg hcolon] at h
    exact port_plain h

theorem pathOf_free (b : Bytes) : QUESTION ∉ pathOf b := by
  unfold pathOf
  by_cases hquestion : QUESTION ∈ b
  · rw [if_pos hquestion]
    exact upTo_free QUESTION b
  · rw [if_neg hquestion]
    obtain ⟨t, ht⟩ := upTo_append HASH b
    intro hmem
    exact hquestion (ht ▸ List.mem_append_left _ hmem)

theorem queryPiece_free (b : Bytes) : HASH ∉ (queryPiece b).getD [] := by
  unfold queryPiece
  split
  · split
    · exact upTo_free HASH _
    · rename_i hhash
      split
      · exact List.not_mem_nil
      · exact hhash
  · exact List.not_mem_nil

/-! ## What is printed of a text -/

theorem infix_nil {pat : Bytes} (h : pat ≠ []) : ¬ pat <:+: [] := fun hwithin => h (List.infix_nil.mp hwithin)

theorem infix_lead {pat a x : Bytes} {c : UInt8} (hne : pat ≠ []) (hc : c ∉ pat) :
    pat <:+: a ++ lead c x ↔ pat <:+: a ∨ pat <:+: x := by
  by_cases hx : x = []
  · rw [hx, lead_nil, List.append_nil]
    exact ⟨.inl, fun h => h.resolve_right (infix_nil hne)⟩
  · rw [lead_of_ne hx, infix_sep hc]

/-- Printing what is behind the host loses nothing but delimiters. -/
theorem infix_tail {pat : Bytes} (hne : pat ≠ []) (hquestion : QUESTION ∉ pat) (hhash : HASH ∉ pat) (pre b : Bytes) :
    pat <:+: pre ++ (pathOf b ++ lead QUESTION ((queryPiece b).getD []) ++ lead HASH ((fragmentPiece b).getD [])) ↔
      pat <:+: pre ++ b := by
  rw [← List.append_assoc, ← List.append_assoc, infix_lead hne hhash, infix_lead hne hquestion]
  unfold queryPiece fragmentPiece
  by_cases hq : QUESTION ∈ b
  · obtain ⟨a, q, rfl, ha⟩ := List.eq_append_cons_of_mem hq
    rw [if_pos hq, if_pos hq, behind_char ha, pathOf_question ha, ← List.append_assoc, infix_sep hquestion]
    by_cases hf : HASH ∈ q
    · obtain ⟨q, f, rfl, hfree⟩ := List.eq_append_cons_of_mem hf
      rw [if_pos hf, if_pos hf, upTo_char hfree, behind_char hfree, infix_sep hhash]
      exact or_assoc
    · rw [if_neg hf, if_neg hf]
      by_cases hend : q = []
      · rw [if_pos hend, hend]
        simp [infix_nil hne]
      · rw [if_neg hend]
        simp [infix_nil hne]
  · rw [if_neg hq, if_neg hq]
    by_cases hf : HASH ∈ b
    · obtain ⟨a, f, rfl, ha⟩ := List.eq_append_cons_of_mem hf
      rw [if_pos hf, pathOf_hash hq ha, behind_char ha, ← List.append_assoc, infix_sep hhash]
      simp [infix_nil hne]
    · rw [if_neg hf, pathOf_plain hq hf]
      simp [infix_nil hne]

/-- What is printed behind the host and the port. -/
def tailText (b : Bytes) : Bytes :=
  pathPiece b ++ lead QUESTION ((queryPiece b).getD []) ++ lead HASH ((fragmentPiece b).getD [])

theorem tailText_nil : tailText [] = [] := rfl

theorem tailText_of_ne {b : Bytes} (h : b ≠ []) : tailText b =
    SLASH :: (pathOf b ++ lead QUESTION ((queryPiece b).getD []) ++ lead HASH ((fragmentPiece b).getD [])) := by
  rw [tailText, pathPiece, if_neg h]
  rfl

/-- What is printed behind the scheme. -/
def hostText (s : Bytes) : Bytes :=
  (hostPiece s).getD [] ++ lead COLON ((portPiece s).getD []) ++ tailText (remainder s)

/-! ## A scheme that is found in what is printed -/

def size (u : URL) : Nat := u.host.length + u.port.length + (u.path.length + u.query.length + u.fragment.length)

theorem behind_length {c : UInt8} {s : Bytes} (h : c ∈ s) : (upTo c s).length + 1 + (behind c s).length = s.length := by
  have hlen := congrArg List.length (upTo_behind h)
  rw [List.length_append, List.length_cons] at hlen
  omega

theorem tail_size_nil :
    (pathPiece []).length + ((queryPiece []).getD []).length + ((fragmentPiece []).getD []).length = 0 := rfl

/-- The path has one byte that the text need not have. -/
theorem tail_size {b : Bytes} (h : b ≠ []) :
    (pathPiece b).length + ((queryPiece b).getD []).length + ((fragmentPiece b).getD []).length ≤ b.length + 1 := by
  unfold pathPiece queryPiece fragmentPiece pathOf
  rw [if_neg h, List.length_cons]
  by_cases hquestion : QUESTION ∈ b
  · have hlen := behind_length hquestion
    simp only [if_pos hquestion]
    by_cases hhash : HASH ∈ behind QUESTION b
    · have hlen' := behind_length hhash
      simp only [if_pos hhash, Option.getD_some]
      omega
    · simp only [if_neg hhash, Option.getD_none, List.length_nil]
      split
      · simp only [Option.getD_none, List.length_nil]
        omega
      · simp only [Option.getD_some]
        omega
  · simp only [if_neg hquestion, Option.getD_none, List.length_nil]
    by_cases hhash : HASH ∈ b
    · have hlen := behind_length hhash
      simp only [if_pos hhash, Option.getD_some]
      omega
    · simp only [if_neg hhash, upTo_none hhash, Option.getD_none, List.length_nil]
      omega

theorem ofText_size (s : Bytes) : (ofText s).size = ((hostPiece s).getD []).length + ((portPiece s).getD []).length +
    ((pathPiece (remainder s)).length + ((queryPiece (remainder s)).getD []).length +
      ((fragmentPiece (remainder s)).getD []).length) := rfl

theorem behind_nil_or {c : UInt8} {s : Bytes} : behind c s = [] ∨ c ∈ s := by
  by_cases h : c ∈ s
  · exact .inr h
  · exact .inl (behind_none h)

theorem upTo_length (c : UInt8) (s : Bytes) : (upTo c s).length ≤ s.length := (List.takeWhile_prefix _).length_le

/-- Behind a scheme without a guess the components are no longer than the text. -/
theorem size_le {s : Bytes} (hfront : front s ≠ []) (hguess : (schemeOf s).port = none) :
    (ofText s).size ≤ (rest s).length := by
  rw [ofText_size]
  by_cases hcolon : COLON ∈ rest s
  · have hlen := behind_length hcolon
    have hport := upTo_length SLASH (behind COLON (rest s))
    unfold hostPiece portPiece remainder
    rw [if_pos hcolon, if_pos hcolon, if_pos hcolon, Option.getD_some, Option.getD_some]
    by_cases hend : behind SLASH (behind COLON (rest s)) = []
    · rw [hend]
      have htail := tail_size_nil
      omega
    · have hslash := behind_length (behind_nil_or.resolve_left hend)
      have htail := tail_size hend
      omega
  · obtain ⟨t, ht⟩ := hostOf_append (rest s)
    have hlen := congrArg List.length ht
    rw [List.length_append] at hlen
    obtain ⟨hhost, hport, hremainder⟩ := pieces_host hcolon (.inl hfront)
    rw [hhost, hport, hguess, hremainder, Option.getD_some, Option.getD_none, List.length_nil]
    by_cases hend : (rest s).drop ((hostOf (rest s)).length + 1) = []
    · rw [hend]
      have htail := tail_size_nil
      omega
    · have htail := tail_size hend
      have hpos := List.length_pos_iff.mpr hend
      rw [List.length_drop] at htail hpos
      omega

/-! ## Reading it back -/

/-- What is printed is read back, if the parser begins behind the scheme. -/
def Rereads (s : Bytes) : Prop :=
  if remainder s = [] then
    (portPiece s).getD [] ≠ [] ∨
      schemeOf s = .mailto ∧ SLASH ∉ (hostPiece s).getD [] ∧ QUESTION ∉ (hostPiece s).getD [] ∧ HASH ∉ (hostPiece s).getD []
  else
    TailStable (remainder s) ∧
      ((portPiece s).getD [] = [] →
        (schemeOf s = .mailto ∨ schemeOf s = .unknown) ∧ SLASH ∉ (hostPiece s).getD [] ∧ COLON ∉ remainder s)

instance (s : Bytes) : Decidable (Rereads s) := inferInstanceAs (Decidable (ite _ _ _))

theorem ofText_eq_iff {s t : Bytes} (hscheme : schemeOf t = schemeOf s) : ofText t = ofText s ↔
    (hostPiece t).getD [] = (hostPiece s).getD [] ∧ (portPiece t).getD [] = (portPiece s).getD [] ∧
      pathPiece (remainder t) = pathPiece (remainder s) ∧
      (queryPiece (remainder t)).getD [] = (queryPiece (remainder s)).getD [] ∧
      (fragmentPiece (remainder t)).getD [] = (fragmentPiece (remainder s)).getD [] := by
  simp only [ofText, withTail, fresh, URL.mk.injEq, hscheme, true_and, List.nil_append]

/-- The tail is read back where it is stable. -/
theorem tail_iff {b : Bytes} (hb : b ≠ []) :
    (pathPiece ((tailText b).drop 1) = pathPiece b ∧ (queryPiece ((tailText b).drop 1)).getD [] = (queryPiece b).getD [] ∧
      (fragmentPiece ((tailText b).drop 1)).getD [] = (fragmentPiece b).getD []) ↔
    TailStable b := by
  rw [tailStable_iff hb, tailText_of_ne hb, List.drop_succ_cons, List.drop_zero,
    ← reads_iff (pathOf_free b) (queryPiece_free b), Reads, show pathPiece b = SLASH :: pathOf b from if_neg hb]

theorem getD_free {o : Option Bytes} {c : UInt8} (h : ∀ x, o = some x → c ∉ x) : c ∉ o.getD [] := by
  cases o with
  | none => exact List.not_mem_nil
  | some x => exact h x rfl

theorem colon_tail {b : Bytes} (hb : b ≠ []) : COLON ∈ tailText b ↔ COLON ∈ b := by
  have hsep : COLON ≠ SLASH := by decide
  have hone : [COLON] ≠ [] := by simp
  have hwithin := infix_tail hone (by decide) (by decide) [] b
  rw [List.nil_append, List.nil_append, List.singleton_infix_iff, List.singleton_infix_iff] at hwithin
  rw [tailText_of_ne hb, List.mem_cons, hwithin]
  simp [hsep]

theorem port_none {scheme : Scheme} : scheme.port.getD [] = [] ↔ scheme = .mailto ∨ scheme = .unknown := by
  cases scheme <;> decide

/-- The host to the end of what is printed: it has to be one where there is no '/' to end it. -/
theorem reread_end {s t : Bytes} (hhost : (hostPiece s).getD [] ≠ []) (hcolon : COLON ∉ (hostPiece s).getD [])
    (hport : (portPiece s).getD [] = []) (hrest : rest t = (hostPiece s).getD []) (hscheme : schemeOf t = schemeOf s)
    (hfront : front t ≠ [] ↔ schemeOf s ≠ .unknown) :
    ((hostPiece t).getD [] = (hostPiece s).getD [] ∧ (portPiece t).getD [] = (portPiece s).getD [] ∧
      pathPiece (remainder t) = pathPiece [] ∧ (queryPiece (remainder t)).getD [] = (queryPiece []).getD [] ∧
      (fragmentPiece (remainder t)).getD [] = (fragmentPiece []).getD []) ↔
    schemeOf s = .mailto ∧ SLASH ∉ (hostPiece s).getD [] ∧ QUESTION ∉ (hostPiece s).getD [] ∧
      HASH ∉ (hostPiece s).getD [] := by
  rw [← hostOf_eq_self]
  generalize (hostPiece s).getD [] = host at hhost hcolon hrest ⊢
  rw [hport]
  by_cases hhosted : Hosted t
  · obtain ⟨hhost', hport', hremainder⟩ := pieces_host (hrest ▸ hcolon) hhosted
    rw [hhost', hport', hremainder, hrest, hscheme, Option.getD_some, port_none]
    constructor
    · rintro ⟨hself, hguess, -⟩
      refine ⟨hguess.resolve_right ?_, hself⟩
      intro hunknown
      obtain ⟨hslash, hquestion, hhash⟩ := hostOf_eq_self.mp hself
      rw [Hosted, hrest] at hhosted
      rcases hhosted with hscheme' | hmem | hmem | hmem
      · exact hfront.mp hscheme' hunknown
      · exact hslash hmem
      · exact hquestion hmem
      · exact hhash hmem
    · rintro ⟨hmailto, hself⟩
      rw [hself, List.drop_of_length_le (Nat.le_succ _)]
      exact ⟨rfl, .inl hmailto, rfl, rfl, rfl⟩
  · have hnone : hostPiece t = none := hostPiece_eq_none.mpr ⟨hrest ▸ hcolon, hhosted⟩
    rw [hnone]
    constructor
    · intro h
      exact absurd h.1.symm hhost
    · rintro ⟨hmailto, -⟩
      refine absurd (.inl ?_) hhosted
      rw [hfront, hmailto]
      decide

/-- The host to the '/' of the path. -/
theorem reread_slash {s t : Bytes} (hcolon : COLON ∉ (hostPiece s).getD []) (hport : (portPiece s).getD [] = [])
    (hb : remainder s ≠ []) (hrest : rest t = (hostPiece s).getD [] ++ tailText (remainder s))
    (hscheme : schemeOf t = schemeOf s) :
    ((hostPiece t).getD [] = (hostPiece s).getD [] ∧ (portPiece t).getD [] = (portPiece s).getD [] ∧
      pathPiece (remainder t) = pathPiece (remainder s) ∧
      (queryPiece (remainder t)).getD [] = (queryPiece (remainder s)).getD [] ∧
      (fragmentPiece (remainder t)).getD [] = (fragmentPiece (remainder s)).getD []) ↔
    TailStable (remainder s) ∧
      (schemeOf s = .mailto ∨ schemeOf s = .unknown) ∧ SLASH ∉ (hostPiece s).getD [] ∧ COLON ∉ remainder s := by
  rw [← tail_iff hb, ← colon_tail hb]
  rw [hport]
  generalize (hostPiece s).getD [] = host at hcolon hrest ⊢
  obtain ⟨x, hx⟩ : ∃ x, tailText (remainder s) = SLASH :: x := ⟨_, tailText_of_ne hb⟩
  rw [hx] at hrest ⊢
  rw [List.drop_succ_cons, List.drop_zero]
  by_cases hmem : COLON ∈ rest t
  · have htail : COLON ∈ SLASH :: x := by
      rw [hrest, List.mem_append] at hmem
      exact hmem.resolve_left hcolon
    have hhost : hostPiece t = some (upTo COLON (rest t)) := if_pos hmem
    refine iff_of_false ?_ fun h => h.2.2.2 htail
    rintro ⟨heq, -⟩
    have hskip : upTo COLON (SLASH :: x) = SLASH :: upTo COLON x := by simp [upTo, COLON, SLASH]
    rw [hhost, Option.getD_some, hrest, upTo_left hcolon, hskip] at heq
    simp at heq
  · have hhosted : Hosted t := .inr (.inl (by simp [hrest]))
    obtain ⟨hhost', hport', hremainder⟩ := pieces_host hmem hhosted
    rw [hhost', hport', hremainder, hrest, hscheme, Option.getD_some, port_none, hostOf_slash]
    have htail : COLON ∉ SLASH :: x := by
      rw [hrest, List.mem_append] at hmem
      exact fun h => hmem (.inr h)
    constructor
    · rintro ⟨hslash, hguess, hpieces⟩
      rw [(hostOf_slash x).mpr hslash, ← List.length_singleton (a := SLASH), ← List.length_append,
        show host ++ SLASH :: x = host ++ [SLASH] ++ x by simp, List.drop_left] at hpieces
      exact ⟨hpieces, hguess, hslash, htail⟩
    · rintro ⟨hpieces, hguess, hslash, -⟩
      rw [(hostOf_slash x).mpr hslash, ← List.length_singleton (a := SLASH), ← List.length_append,
        show host ++ SLASH :: x = host ++ [SLASH] ++ x by simp, List.drop_left]
      exact ⟨hslash, hguess, hpieces⟩

theorem reread {s t : Bytes} (hhost : (hostPiece s).getD [] ≠ []) (hrest : rest t = hostText s)
    (hscheme : schemeOf t = schemeOf s) (hfront : front t ≠ [] ↔ schemeOf s ≠ .unknown) :
    ofText t = ofText s ↔ Rereads s := by
  have hhostFree : COLON ∉ (hostPiece s).getD [] := getD_free fun _ h => hostPiece_free h
  have hportFree : SLASH ∉ (portPiece s).getD [] := getD_free fun _ h => portPiece_free h
  unfold Rereads
  rw [ofText_eq_iff hscheme]
  by_cases hport : (portPiece s).getD [] = []
  · have hwritten : rest t = (hostPiece s).getD [] ++ tailText (remainder s) := by
      rw [hrest, hostText, hport, lead_nil, List.append_nil]
    by_cases hb : remainder s = []
    · rw [hb, tailText_nil, List.append_nil] at hwritten
      rw [if_pos hb, hb, reread_end hhost hhostFree hport hwritten hscheme hfront]
      exact ⟨.inr, fun h => h.resolve_left fun hne => hne hport⟩
    · rw [if_neg hb, reread_slash hhostFree hport hb hwritten hscheme]
      exact and_congr_right fun _ => ⟨fun h _ => h, fun h => h hport⟩
  · have htail : tailText (remainder s) = [] ∨ ∃ x, tailText (remainder s) = SLASH :: x := by
      by_cases hb : remainder s = []
      · rw [hb]
        exact .inl tailText_nil
      · exact .inr ⟨_, tailText_of_ne hb⟩
    have hwritten : rest t = (hostPiece s).getD [] ++ COLON :: ((portPiece s).getD [] ++ tailText (remainder s)) := by
      rw [hrest, hostText, lead_of_ne hport]
      simp
    obtain ⟨hhost', hport', hremainder⟩ := pieces_port hwritten hhostFree hportFree htail
    rw [hhost', hport', hremainder]
    simp only [Option.getD_some, true_and]
    by_cases hb : remainder s = []
    · rw [if_pos hb, hb, tailText_nil]
      exact iff_of_true ⟨rfl, rfl, rfl⟩ (.inl hport)
    · rw [if_neg hb, tail_iff hb]
      exact ⟨fun h => ⟨h, fun hnone => absurd hnone hport⟩, fun h => h.1⟩

/-! ## The whole text -/

/-- What is printed where the scheme is unknown has a "://" where the text has another. -/
theorem infix_hostText {s : Bytes} (hcolon : COLON ∈ rest s) (hb : remainder s ≠ []) (hport : (portPiece s).getD [] ≠ []) :
    bytes "://" <:+: hostText s ↔ bytes "://" <:+: rest s := by
  have hslash : SLASH ∈ behind COLON (rest s) := by
    apply behind_nil_or.resolve_left
    rwa [remainder, if_pos hcolon] at hb
  have hwritten : rest s = (hostPiece s).getD [] ++ COLON :: ((portPiece s).getD [] ++ SLASH :: remainder s) := by
    conv_lhs => rw [upTo_behind hcolon, upTo_behind hslash]
    unfold hostPiece portPiece remainder
    rw [if_pos hcolon, if_pos hcolon, if_pos hcolon]
    rfl
  have hne : bytes "://" ≠ [] := by decide
  have htail := infix_tail hne (by decide) (by decide)
    ((hostPiece s).getD [] ++ COLON :: ((portPiece s).getD [] ++ [SLASH])) (remainder s)
  rw [hostText, lead_of_ne hport, tailText_of_ne hb]
  conv_rhs => rw [hwritten]
  simpa using htail

/-- A scheme that is found in what is printed leaves too little text for the components. -/
theorem found_ne {s : Bytes} (hhost : (hostPiece s).getD [] ≠ []) (hscheme : schemeOf s = .unknown)
    (hwithin : bytes "://" <:+: hostText s) : ofText (hostText s) ≠ ofText s := by
  intro heq
  have hcolon : COLON ∉ (hostPiece s).getD [] := getD_free fun _ h => hostPiece_free h
  have hunknown : schemeOf (hostText s) = .unknown := by
    rw [← hscheme]
    exact congrArg URL.scheme heq
  obtain ⟨pos, hfind⟩ := find_isSome_iff.mpr hwithin
  have hfront : front (hostText s) = (hostText s).take (pos + 3) := by
    unfold front
    rw [hfind]
  have hle := find_le hfind
  rw [show (bytes "://").length = 3 from rfl] at hle
  have hfrontLength : (front (hostText s)).length = pos + 3 := by
    rw [hfront, List.length_take, Nat.min_eq_left hle]
  have hfrontNe : front (hostText s) ≠ [] := by
    intro hnil
    rw [hnil] at hfrontLength
    cases hfrontLength
  have hsize := size_le hfrontNe (by rw [hunknown]; rfl)
  have hwhole := congrArg List.length (front_rest (hostText s))
  have hlead : ∀ c x, (lead c x).length ≤ x.length + 1 := by
    intro c x
    unfold lead
    split
    · exact Nat.zero_le _
    · exact Nat.le_refl _
  have hport := hlead COLON ((portPiece s).getD [])
  have hquery := hlead QUESTION ((queryPiece (remainder s)).getD [])
  have hfragment := hlead HASH ((fragmentPiece (remainder s)).getD [])
  rw [List.length_append, hfrontLength] at hwhole
  have hprinted : (hostText s).length = ((hostPiece s).getD []).length + (lead COLON ((portPiece s).getD [])).length +
      ((pathPiece (remainder s)).length + (lead QUESTION ((queryPiece (remainder s)).getD [])).length +
        (lead HASH ((fragmentPiece (remainder s)).getD [])).length) := by
    rw [hostText, tailText, List.length_append, List.length_append, List.length_append, List.length_append]
  rw [heq, ofText_size] at hsize
  -- the "://" is in front, and the host is not empty
  have hzero : pos = 0 := by omega
  subst hzero
  obtain ⟨b, host, hsplit⟩ := List.exists_cons_of_ne_nil hhost
  have hstart := find_split hfind
  rw [hostText, hsplit] at hstart
  simp only [List.take_zero, List.nil_append, List.cons_append, show bytes "://" = [COLON, SLASH, SLASH] from rfl,
    List.cons.injEq] at hstart
  apply hcolon
  rw [hsplit, hstart.1]
  exact List.mem_cons_self

/-- What a text has to be like for the URL that is printed of it to be read back. -/
def Stable (s : Bytes) : Prop :=
  Rereads s ∧ (schemeOf s = .unknown → (portPiece s).getD [] ≠ [] → ¬ bytes "://" <:+: rest s)

instance (s : Bytes) : Decidable (Stable s) := inferInstanceAs (Decidable (_ ∧ _))

theorem getUrl_ofText {s : Bytes} (hhost : (hostPiece s).getD [] ≠ []) : getUrl (ofText s) =
    if schemeOf s = .unknown then some (hostText s)
    else (schemeToString (schemeOf s)).map fun scheme => scheme ++ bytes "://" ++ hostText s := by
  have huri : getUri (ofText s) = tailText (remainder s) := rfl
  have hne : (ofText s).host ≠ [] := hhost
  unfold getUrl
  rw [if_neg hne, huri]
  rfl

/-- Of a scheme that is known, the name is read back whatever follows. -/
theorem print_known {s : Bytes} (hhost : (hostPiece s).getD [] ≠ []) (hknown : schemeOf s ≠ .unknown) :
    ∃ text, getUrl (ofText s) = some text ∧ (ofText text = ofText s ↔ Stable s) := by
  obtain ⟨name, hname, hcolon, hlookup⟩ := schemeToString_reads hknown (schemeOf_ne_sftp s)
  obtain ⟨hfront, hrest, hscheme⟩ := pieces_scheme hcolon (hostText s)
  refine ⟨name ++ bytes "://" ++ hostText s, ?_, ?_⟩
  · rw [getUrl_ofText hhost, if_neg hknown, hname]
    rfl
  · have hne : front (name ++ bytes "://" ++ hostText s) ≠ [] := by
      rw [hfront]
      exact List.append_ne_nil_of_right_ne_nil _ (by decide)
    rw [reread hhost hrest (hscheme.trans hlookup) (iff_of_true hne hknown)]
    exact ⟨fun h => ⟨h, fun hunknown => absurd hunknown hknown⟩, fun h => h.1⟩

/-- Without a port the "://" in what is printed is behind the host, where it has a ':'. -/
theorem infix_noport {s : Bytes} (hport : (portPiece s).getD [] = []) (hwithin : bytes "://" <:+: hostText s) :
    remainder s ≠ [] ∧ COLON ∈ remainder s := by
  have hcolon : COLON ∉ (hostPiece s).getD [] := getD_free fun _ h => hostPiece_free h
  have hmem : COLON ∈ hostText s := hwithin.subset (by decide)
  rw [hostText, hport, lead_nil, List.append_nil, List.mem_append] at hmem
  have htail := hmem.resolve_left hcolon
  have hb : remainder s ≠ [] := by
    intro hnil
    rw [hnil] at htail
    exact absurd htail List.not_mem_nil
  exact ⟨hb, (colon_tail hb).mp htail⟩

theorem infix_behind {a q : Bytes} (ha : COLON ∉ a) (h : bytes "://" <:+: a ++ COLON :: q) : [SLASH, SLASH] <:+: q := by
  obtain ⟨x, y, heq⟩ := h
  rw [List.append_assoc] at heq
  rcases List.append_eq_append_iff.mp heq with ⟨c, rfl, htail⟩ | ⟨c, rfl, htail⟩
  · cases c with
    | nil => exact ⟨[], y, (List.cons.inj htail).2⟩
    | cons b c =>
      have hb : COLON = b := (List.cons.inj htail).1
      exact absurd (by simp [hb]) ha
  · cases c with
    | nil => exact ⟨[], y, (List.cons.inj htail).2.symm⟩
    | cons b c =>
      have hq : q = c ++ COLON :: ([SLASH, SLASH] ++ y) := (List.cons.inj htail).2
      exact ⟨c ++ [COLON], y, by simp [hq]⟩

theorem count_slash {q : Bytes} (h : behind SLASH q = []) : q.count SLASH ≤ 1 := by
  by_cases hmem : SLASH ∈ q
  · rw [upTo_behind hmem, h, List.count_append, List.count_eq_zero_of_not_mem (upTo_free SLASH q), Nat.zero_add]
    exact Nat.le_of_eq List.count_singleton_self
  · rw [List.count_eq_zero_of_not_mem hmem]
    exact Nat.zero_le 1

/-- A port that ends the text has at most the '/' behind it, too few for a "://". -/
theorem infix_port {s : Bytes} (hb : remainder s = []) (hport : (portPiece s).getD [] ≠ []) :
    ¬ bytes "://" <:+: hostText s ∧ (COLON ∈ rest s → ¬ bytes "://" <:+: rest s) := by
  have hslash : SLASH ∉ (portPiece s).getD [] := getD_free fun _ h => portPiece_free h
  constructor
  · intro hwithin
    rw [hostText, hb, tailText_nil, List.append_nil, lead_of_ne hport] at hwithin
    apply hslash
    apply (infix_behind (getD_free fun _ h => hostPiece_free h) hwithin).subset
    exact List.mem_cons_self
  · intro hcolon hwithin
    rw [portPiece, if_pos hcolon, Option.getD_some] at hslash
    rw [remainder, if_pos hcolon] at hb
    rw [upTo_behind hcolon] at hwithin
    have htwo : 2 ≤ (behind COLON (rest s)).count SLASH :=
      (infix_behind (upTo_free COLON _) hwithin).sublist.count_le SLASH
    have hone := count_slash hb
    omega

theorem print_unknown {s : Bytes} (hhost : (hostPiece s).getD [] ≠ []) (hunknown : schemeOf s = .unknown) :
    ∃ text, getUrl (ofText s) = some text ∧ (ofText text = ofText s ↔ Stable s) := by
  refine ⟨hostText s, ?_, ?_⟩
  · rw [getUrl_ofText hhost, if_pos hunknown]
  · have hguess : (portPiece s).getD [] ≠ [] → COLON ∈ rest s := by
      intro hport
      by_contra hcolon
      rw [portPiece, if_neg hcolon, hunknown] at hport
      exact hport rfl
    unfold Stable
    by_cases hwithin : bytes "://" <:+: hostText s
    · refine iff_of_false (found_ne hhost hunknown hwithin) ?_
      rintro ⟨hrereads, hsecond⟩
      by_cases hport : (portPiece s).getD [] = []
      · obtain ⟨hb, hcolon⟩ := infix_noport hport hwithin
        rw [Rereads, if_neg hb] at hrereads
        exact (hrereads.2 hport).2.2 hcolon
      · have hb : remainder s ≠ [] := fun hb => (infix_port hb hport).1 hwithin
        exact hsecond hunknown hport ((infix_hostText (hguess hport) hb hport).mp hwithin)
    · obtain ⟨hfront, hrest, hscheme⟩ := pieces_bare hwithin
      rw [reread hhost hrest (hscheme.trans hunknown.symm) (iff_of_false (fun h => h hfront) fun h => h hunknown)]
      refine ⟨fun h => ⟨h, fun _ hport hsecond => ?_⟩, fun h => h.1⟩
      have hcolon := hguess hport
      by_cases hb : remainder s = []
      · exact (infix_port hb hport).2 hcolon hsecond
      · exact hwithin ((infix_hostText hcolon hb hport).mpr hsecond)

/-- Printing a URL with a host and parsing what is printed gives the URL exactly where the text
    keeps every delimiter it needs. -/
theorem print_stable {s : Bytes} {u : URL} (hparse : parse fresh s = some u) (hhost : u.host ≠ []) :
    (∃ text, getUrl u = some text ∧ parse fresh text = some u) ↔ Stable s := by
  rw [parse_ofText] at hparse
  cases hparse
  have hprint : ∃ text, getUrl (ofText s) = some text ∧ (ofText text = ofText s ↔ Stable s) := by
    by_cases hscheme : schemeOf s = .unknown
    · exact print_unknown hhost hscheme
    · exact print_known hhost hscheme
  obtain ⟨text, htext, hiff⟩ := hprint
  rw [← hiff]
  simp only [htext, parse_ofText, Option.some.injEq, exists_eq_left']

example : Stable (bytes "https://127.0.0.1/x?y#z") ∧ ¬ Stable (bytes "foo://h") := by decide +kernel

theorem print_stable_sample :
    (∃ text, getUrl ⟨.https, bytes "127.0.0.1", bytes "443", bytes "/x", bytes "y", bytes "z"⟩ = some text ∧
      parse fresh text = some ⟨.https, bytes "127.0.0.1", bytes "443", bytes "/x", bytes "y", bytes "z"⟩) ↔
      Stable (bytes "https://127.0.0.1/x?y#z") :=
  print_stable (by decide +kernel) (by decide)

/-- A '/' with nothing but an empty query behind it is printed without the '?', and then it is
    the end of the text, which gives no path. -/
theorem print_stable_not :
    ¬ ∀ s u, parse fresh s = some u → u.host ≠ [] → ∃ text, getUrl u = some text ∧ parse fresh text = some u := by
  intro h
  have hparse : parse fresh (bytes "http://h/?") = some ⟨.http, bytes "h", bytes "80", bytes "/", [], []⟩ := by
    decide +kernel
  have hprint : getUrl ⟨.http, bytes "h", bytes "80", bytes "/", [], []⟩ = some (bytes "http://h:80/") := by
    decide +kernel
  have hagain : parse fresh (bytes "http://h:80/") = some ⟨.http, bytes "h", bytes "80", [], [], []⟩ := by
    decide +kernel
  obtain ⟨text, htext, hreparse⟩ := h _ _ hparse (by decide)
  cases hprint.symm.trans htext
  rw [hagain] at hreparse
  exact absurd hreparse (by decide)

end URL

end Frnetlib
