/-
  Frnetlib.Http.URLAccesses — the string accesses of `URL::parse`.

  Each function is written once more with the subtractions of the code, in 64 bits, and a log
  of what they are for: where a `substr` starts and its length, and where the search that
  steps back starts. No subtraction wraps around, so the results are those of the plain
  functions (`parseTraced_comes`), and a parse always returns (`parse_accesses`).
-/

import Frnetlib.Base.Trace
import Frnetlib.Http.URL

namespace Frnetlib

open Base

namespace URL

inductive Access where
  | substr (size pos : Nat) (length : Unsigned)
  /-- `url.find('#', start)` -/
  | find (start : Unsigned)

/-- Within the string, by numbers that did not wrap around. -/
def Access.Safe : Access → Prop
  | .substr size pos length => pos ≤ size ∧ length.wrapped = false
  | .find start => start.wrapped = false

def substrOf (url : Bytes) (pos : Nat) (length : Unsigned) : Traced Access Bytes :=
  ⟨[.substr url.length pos length], substr url pos length.value⟩

def findHash (url : Bytes) (start : Unsigned) : Traced Access (Option Nat) :=
  ⟨[.find start], some (findFrom [HASH] url start.value)⟩

def parseSchemeTraced (url : Bytes) : Traced Access (Scheme × Nat) :=
  match find (bytes "://") url with
  | none => pure (.unknown, 0)
  | some pos => do
    let scheme ← substrOf url 0 (.of pos)
    pure ((schemeStringMap.lookup (scheme.map tolower)).getD .unknown, pos + 3)

def parseHostTraced (u : URL) (url : Bytes) (parseOffset : Nat) : Traced Access (URL × Nat) :=
  match findFrom [COLON] url parseOffset with
  | some pos => do
    let host ← substrOf url parseOffset ((Unsigned.of pos).sub (.of parseOffset))
    let parseOffset := parseOffset + host.length
    let portEnd := (findFrom [SLASH] url parseOffset).getD url.length
    let port ← substrOf url (pos + 1) (((Unsigned.of portEnd).sub (.of pos)).sub (.of 1))
    pure ({ u with host := host, port := port }, portEnd + 1)
  | none =>
    let pos := findFrom [SLASH] url parseOffset
    let pos := if pos.isSome then pos else findFrom [QUESTION] url parseOffset
    let pos := if pos.isSome then pos else findFrom [HASH] url parseOffset
    let port := u.scheme.port.getD u.port
    if pos.isSome ∨ parseOffset ≠ 0 then do
      let pos := pos.getD url.length
      let host ← substrOf url parseOffset ((Unsigned.of pos).sub (.of parseOffset))
      pure ({ u with host := host, port := port }, pos + 1)
    else pure ({ u with port := port }, parseOffset)

def parsePathTraced (u : URL) (url : Bytes) (parseOffset : Nat) : Traced Access (URL × Nat) := do
  let pos := findFrom [QUESTION] url parseOffset
  let pos :=
    if pos.isSome then pos
    else
      let pos := findFrom [HASH] url parseOffset
      if pos.isSome then pos else findFrom [QUESTION] url parseOffset
  let pos := pos.getD url.length
  let path ← substrOf url parseOffset ((Unsigned.of pos).sub (.of parseOffset))
  pure ({ u with path := u.path ++ SLASH :: path }, pos + 1)

def parseQueryTraced (u : URL) (url : Bytes) (parseOffset : Nat) : Traced Access URL := do
  match ← findHash url ((Unsigned.of parseOffset).sub (.of 1)) with
  | some pos =>
    let query ←
      if pos + 1 ≠ parseOffset then substrOf url parseOffset ((Unsigned.of pos).sub (.of parseOffset)) else pure u.query
    let fragment ← substrOf url (pos + 1) (((Unsigned.of url.length).sub (.of pos)).sub (.of 1))
    pure { u with query := query, fragment := fragment }
  | none =>
    if parseOffset ≥ url.length then pure u
    else do
      let query ← substrOf url parseOffset ((Unsigned.of url.length).sub (.of parseOffset))
      pure { u with query := query }

def parseRestTraced (u : URL) (url : Bytes) (parseOffset : Nat) : Traced Access URL :=
  if parseOffset ≥ url.length then pure u
  else do
    let (u, parseOffset) ← parsePathTraced u url parseOffset
    parseQueryTraced u url parseOffset

def parseTraced (u : URL) (url : Bytes) : Traced Access URL := do
  let (scheme, parseOffset) ← parseSchemeTraced url
  let (u, parseOffset) ← parseHostTraced { u with scheme := scheme } url parseOffset
  parseRestTraced u url parseOffset

/-! ## Numbers that do not wrap around -/

theorem sub_of_le {a b : Nat} (h : b ≤ a) : (Unsigned.of a).sub (.of b) = .of (a - b) := by
  have hvalue : ((Unsigned.of a).sub (.of b)).value = a - b := usub_of_le h
  have hwrapped : ((Unsigned.of a).sub (.of b)).wrapped = false := by
    rw [← Bool.not_eq_true, sub_wrapped]
    simpa using h
  generalize (Unsigned.of a).sub (.of b) = n at hvalue hwrapped
  cases n
  cases hvalue
  cases hwrapped
  rfl

theorem substrOf_comes {url : Bytes} {pos : Nat} (h : pos ≤ url.length) (n : Nat) :
    (substrOf url pos (.of n)).Comes Access.Safe (some ((url.drop pos).take n)) := by
  refine ⟨substr_of_le h n, ?_⟩
  intro w hw
  rw [List.mem_singleton.mp hw]
  exact ⟨h, rfl⟩

theorem findHash_comes (url : Bytes) (n : Nat) :
    (findHash url (.of n)).Comes Access.Safe (some (findFrom [HASH] url n)) := by
  refine ⟨rfl, ?_⟩
  intro w hw
  rw [List.mem_singleton.mp hw]
  rfl

/-- A search, or the end of the string where it finds nothing. -/
theorem found_bounds {url : Bytes} {off : Nat} {found : Option Nat} (hoff : off ≤ url.length)
    (h : ∀ pos, found = some pos → off ≤ pos ∧ pos < url.length) :
    off ≤ found.getD url.length ∧ found.getD url.length ≤ url.length := by
  cases found with
  | none => exact ⟨hoff, Nat.le_refl _⟩
  | some pos =>
    obtain ⟨hle, hlt⟩ := h pos rfl
    exact ⟨hle, Nat.le_of_lt hlt⟩

/-- One search, or else another. -/
theorem found_cases {a b : Option Nat} {pos : Nat} (h : (if a.isSome then a else b) = some pos) :
    a = some pos ∨ b = some pos := by
  split at h
  · exact .inl h
  · exact .inr h

theorem findFrom_one {c : UInt8} {url : Bytes} {off pos : Nat} (h : findFrom [c] url off = some pos) :
    off ≤ pos ∧ pos < url.length := findFrom_bounds h (by simp)

theorem findFrom_getElem {c : UInt8} {url : Bytes} {off pos : Nat} (h : findFrom [c] url off = some pos) :
    url[pos]? = some c := by
  obtain ⟨j, hj, rfl⟩ := Option.map_eq_some_iff.mp h
  obtain ⟨t, ht⟩ := (find_eq_some_iff.mp hj).1
  rw [List.drop_drop] at ht
  rw [Nat.add_comm j off, ← List.head?_drop, ← ht]
  rfl

/-- The '/' that ends the port is not where the ':' is. -/
theorem portEnd_bounds {url : Bytes} {pos : Nat} (hcolon : url[pos]? = some COLON) :
    pos + 1 ≤ (findFrom [SLASH] url pos).getD url.length := by
  have hlt := (List.getElem?_eq_some_iff.mp hcolon).1
  cases hslash : findFrom [SLASH] url pos with
  | none => exact hlt
  | some i =>
    have hle := (findFrom_one hslash).1
    have hne : pos ≠ i := by
      rintro rfl
      rw [findFrom_getElem hslash] at hcolon
      exact absurd hcolon (by decide)
    rw [Option.getD_some]
    omega

/-! ## Function by function -/

theorem parseSchemeTraced_comes (url : Bytes) :
    ∃ v, parseScheme url = some v ∧ v.2 ≤ url.length ∧ (parseSchemeTraced url).Comes Access.Safe (some v) := by
  unfold parseScheme parseSchemeTraced
  cases hfind : find (bytes "://") url with
  | none => exact ⟨_, rfl, Nat.zero_le _, .pure _⟩
  | some pos =>
    have hle := find_le hfind
    simp only [substr_of_le (Nat.zero_le url.length)]
    exact ⟨_, rfl, hle, (substrOf_comes (Nat.zero_le _) pos).bind (.pure _)⟩

theorem parseHostTraced_comes (u : URL) {url : Bytes} {parseOffset : Nat} (hoff : parseOffset ≤ url.length) :
    ∃ v, parseHost u url parseOffset = some v ∧ (parseHostTraced u url parseOffset).Comes Access.Safe (some v) := by
  unfold parseHost parseHostTraced
  cases hcolon : findFrom [COLON] url parseOffset with
  | some pos =>
    obtain ⟨hle, hlt⟩ := findFrom_one hcolon
    have hhost : parseOffset + ((url.drop parseOffset).take (pos - parseOffset)).length = pos := by
      rw [List.length_take, List.length_drop]
      omega
    have hend := portEnd_bounds (findFrom_getElem hcolon)
    simp only [sub_of_le hle, substr_of_le hoff, hhost, substr_of_le (Nat.succ_le_of_lt hlt)]
    refine ⟨_, rfl, ?_⟩
    apply (substrOf_comes hoff _).bind
    simp only [hhost]
    rw [sub_of_le (by omega), sub_of_le (by omega)]
    apply (substrOf_comes (Nat.succ_le_of_lt hlt) _).bind
    exact .pure _
  | none =>
    simp only
    generalize hfound : (if (if (findFrom [SLASH] url parseOffset).isSome then findFrom [SLASH] url parseOffset
        else findFrom [QUESTION] url parseOffset).isSome then
          if (findFrom [SLASH] url parseOffset).isSome then findFrom [SLASH] url parseOffset
          else findFrom [QUESTION] url parseOffset
        else findFrom [HASH] url parseOffset) = found
    have hbounds : parseOffset ≤ found.getD url.length ∧ found.getD url.length ≤ url.length := by
      apply found_bounds hoff
      intro pos hpos
      rw [← hfound] at hpos
      rcases found_cases hpos with hpos | hhash
      · rcases found_cases hpos with hslash | hquestion
        · exact findFrom_one hslash
        · exact findFrom_one hquestion
      · exact findFrom_one hhash
    by_cases hstop : found.isSome = true ∨ parseOffset ≠ 0
    · rw [if_pos hstop, if_pos hstop, sub_of_le hbounds.1, substr_of_le hoff]
      exact ⟨_, rfl, (substrOf_comes hoff _).bind (.pure _)⟩
    · rw [if_neg hstop, if_neg hstop]
      exact ⟨_, rfl, .pure _⟩

theorem parsePathTraced_comes (u : URL) {url : Bytes} {parseOffset : Nat} (hoff : parseOffset ≤ url.length) :
    ∃ v, parsePath u url parseOffset = some v ∧ 1 ≤ v.2 ∧
      (parsePathTraced u url parseOffset).Comes Access.Safe (some v) := by
  unfold parsePath parsePathTraced
  simp only
  generalize hfound : (if (findFrom [QUESTION] url parseOffset).isSome then findFrom [QUESTION] url parseOffset
      else if (findFrom [HASH] url parseOffset).isSome then findFrom [HASH] url parseOffset
      else findFrom [QUESTION] url parseOffset) = found
  have hbounds : parseOffset ≤ found.getD url.length ∧ found.getD url.length ≤ url.length := by
    apply found_bounds hoff
    intro pos hpos
    rw [← hfound] at hpos
    rcases found_cases hpos with hquestion | hpos
    · exact findFrom_one hquestion
    · rcases found_cases hpos with hhash | hquestion
      · exact findFrom_one hhash
      · exact findFrom_one hquestion
  rw [sub_of_le hbounds.1, substr_of_le hoff]
  exact ⟨_, rfl, Nat.succ_le_succ (Nat.zero_le _), (substrOf_comes hoff _).bind (.pure _)⟩

/-- The search steps back by one, and finds nothing before that. -/
theorem parseQueryTraced_comes (u : URL) (url : Bytes) {parseOffset : Nat} (hoff : 1 ≤ parseOffset) :
    ∃ v, parseQuery u url parseOffset = some v ∧ (parseQueryTraced u url parseOffset).Comes Access.Safe (some v) := by
  have hhash := findHash_comes url (parseOffset - 1)
  unfold parseQuery parseQueryTraced
  rw [sub_of_le hoff]
  cases hfind : findFrom [HASH] url (parseOffset - 1) with
  | some pos =>
    obtain ⟨hle, hlt⟩ := findFrom_one hfind
    rw [hfind] at hhash
    have hfragment := substrOf_comes (Nat.succ_le_of_lt hlt) (url.length - pos - 1)
    by_cases hquery : pos + 1 ≠ parseOffset
    · have hstart : parseOffset ≤ url.length := by omega
      have hquery' := substrOf_comes hstart (pos - parseOffset)
      simp only [if_pos hquery, substr_of_le hstart, substr_of_le (Nat.succ_le_of_lt hlt)]
      refine ⟨_, rfl, hhash.bind ?_⟩
      simp only [if_pos hquery]
      rw [sub_of_le (by omega), sub_of_le (by omega), sub_of_le (by omega)]
      exact hquery'.bind (hfragment.bind (.pure _))
    · simp only [if_neg hquery, substr_of_le (Nat.succ_le_of_lt hlt)]
      refine ⟨_, rfl, hhash.bind ?_⟩
      simp only [if_neg hquery]
      rw [sub_of_le (by omega), sub_of_le (by omega)]
      exact (Traced.Comes.pure _).bind (hfragment.bind (.pure _))
  | none =>
    rw [hfind] at hhash
    by_cases hend : parseOffset ≥ url.length
    · rw [if_pos hend]
      refine ⟨_, rfl, hhash.bind ?_⟩
      rw [if_pos hend]
      exact .pure _
    · have hstart : parseOffset ≤ url.length := by omega
      simp only [if_neg hend, substr_of_le hstart]
      refine ⟨_, rfl, hhash.bind ?_⟩
      simp only
      rw [sub_of_le hstart]
      exact (substrOf_comes hstart _).bind (.pure _)

theorem parseRestTraced_comes (u : URL) (url : Bytes) (parseOffset : Nat) :
    ∃ v, parseRest u url parseOffset = some v ∧ (parseRestTraced u url parseOffset).Comes Access.Safe (some v) := by
  unfold parseRest parseRestTraced
  by_cases hend : parseOffset ≥ url.length
  · rw [if_pos hend, if_pos hend]
    exact ⟨_, rfl, .pure _⟩
  · rw [if_neg hend, if_neg hend]
    have hle : parseOffset ≤ url.length := by omega
    obtain ⟨v, hpath, hoff, htraced⟩ := parsePathTraced_comes u hle
    obtain ⟨w, hquery, htraced'⟩ := parseQueryTraced_comes v.1 url hoff
    rw [hpath]
    exact ⟨w, hquery, htraced.bind htraced'⟩

theorem parseTraced_comes (u : URL) (url : Bytes) :
    ∃ v, parse u url = some v ∧ (parseTraced u url).Comes Access.Safe (some v) := by
  obtain ⟨v, hscheme, hle, htraced⟩ := parseSchemeTraced_comes url
  obtain ⟨w, hhost, htraced'⟩ := parseHostTraced_comes { u with scheme := v.1 } hle
  obtain ⟨x, hrest, htraced''⟩ := parseRestTraced_comes w.1 url w.2
  unfold parse parseTraced
  rw [hscheme]
  simp only [hhost]
  exact ⟨x, hrest, htraced.bind (htraced'.bind htraced'')⟩

/-- On whatever object and string: it returns what the functions without numbers that wrap
    around return, every `substr` starts within the string, and no subtraction wraps around, that
    of the search that steps back included. -/
theorem parse_accesses (u : URL) (url : Bytes) :
    (∃ v, parse u url = some v ∧ (parseTraced u url).result = some v) ∧
    (∀ size pos length, .substr size pos length ∈ (parseTraced u url).log → pos ≤ size ∧ length.wrapped = false) ∧
    ∀ start, .find start ∈ (parseTraced u url).log → start.wrapped = false := by
  obtain ⟨v, hparse, htraced⟩ := parseTraced_comes u url
  exact ⟨⟨v, hparse, htraced.result⟩, fun _ _ _ h => htraced.logs _ h, fun _ h => htraced.logs _ h⟩

end URL

end Frnetlib
