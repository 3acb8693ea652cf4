/-
  Frnetlib.Http.Target — how the target of a request line is taken out of it.

  `parse_header_uri` looks for the first `/`, the first `?` and the first `HTTP` of the
  line, wherever they are. Where the target has no `HTTP` in it, its parts are taken
  exactly. Where it has one, the URI is cut before that if there is no `?`; and with a `?`
  the variables are read up to there, or to the end of the line if that `HTTP` is before
  the `?`, and the version is read there (`line_target`). So the result is right only if
  what is read in the wrong place makes no difference (`target_extracted`, for a whole
  message in any pieces).
-/

import Frnetlib.Http.CutList
import Frnetlib.Http.FirstLine

namespace Frnetlib

open Base

namespace HttpRequest

/-- A request target: printable characters other than the space, a `/` first. -/
structure Target (target : Bytes) : Prop where
  slash : target.head? = some 47
  print : ∀ b ∈ target, isPrint b = true ∧ b ≠ SP

/-- It up to its first `?`, or all of it. -/
def targetUri (target : Bytes) : Bytes := target.takeWhile (· ≠ 63)

/-- What is behind that `?`. -/
def targetQuery (target : Bytes) : Bytes := (target.dropWhile (· ≠ 63)).drop 1

/-- The target and the version were taken exactly. -/
structure Extracted (x : Http) (target version : Bytes) : Prop where
  uri : x.uri = targetUri target
  gets : ∀ key, x.getData.lookup key = ((Http.cutArguments (targetQuery target)).foldl emplaceGet ∅).lookup key
  version : x.version = if version = bytes "HTTP/1.0" then .v1 else .v1_1

/-- How many bytes of the query are in front of this place: all of it, and the space behind
    it, if that is before the `?`. -/
def queryBefore (target : Bytes) (i : Nat) : Nat :=
  if i < (targetUri target).length then (targetQuery target).length + 1 else i - ((targetUri target).length + 1)

/-- The target has no `HTTP` in it, and no segment without a `=` is before one with a `=`; or
    it has a `?`, from the first `HTTP` on it says the same of the version, so it is with
    the segments in front of that, less a byte, and every variable that no `&` ends in the
    query, or in front of that `HTTP` if it is in there, repeats the name of one before it. -/
def Extractable (target version : Bytes) : Prop :=
  match find (bytes "HTTP") target with
  | none => Http.ValuedFirst (targetQuery target)
  | some i => 63 ∈ target ∧ (bytes "HTTP/1.0" <+: target.drop i ↔ version = bytes "HTTP/1.0") ∧
      Http.ValuedFirst ((targetQuery target).take (queryBefore target i - 1)) ∧
      Http.Repeated [] (Http.marks (queryBefore target i) ((targetQuery target).splitOn 38))

/-! ## Where the parts are -/

theorem target_plain {target : Bytes} (h : 63 ∉ target) : targetUri target = target ∧ targetQuery target = [] := by
  have hall : ∀ b ∈ target, decide (b ≠ 63) = true := fun b hb => decide_eq_true fun heq => h (heq ▸ hb)
  constructor
  · exact List.takeWhile_eq_self_iff.mpr hall
  · rw [targetQuery, List.dropWhile_eq_nil_iff.mpr hall]
    rfl

theorem target_query {u q : Bytes} (h : 63 ∉ u) : targetUri (u ++ 63 :: q) = u ∧ targetQuery (u ++ 63 :: q) = q := by
  have hall : ∀ b ∈ u, decide (b ≠ 63) = true := fun b hb => decide_eq_true fun heq => h (heq ▸ hb)
  constructor
  · rw [targetUri, List.takeWhile_append_of_pos hall]
    simp
  · rw [targetQuery, List.dropWhile_append_of_pos hall]
    simp

/-- A method, a target and a version, and maybe the CR of the line's end. -/
structure TargetLine (method target version t : Bytes) : Prop where
  method : method ∈ Http.methods.map Http.requestTypeToString
  target : Target target
  version : version = bytes "HTTP/1.0" ∨ version = bytes "HTTP/1.1"
  ends : t = [] ∨ t = [CR]

variable {method target version t : Bytes}

theorem TargetLine.free (h : TargetLine method target version t) :
    47 ∉ method ∧ 63 ∉ method ∧ find (bytes "HTTP") method = none := by
  have key : ∀ m ∈ Http.methods.map Http.requestTypeToString, 47 ∉ m ∧ 63 ∉ m ∧ find (bytes "HTTP") m = none := by decide
  exact key _ h.method

theorem TargetLine.tail (h : TargetLine method target version t) :
    find (bytes "HTTP") (version ++ t) = some 0 ∧
    (63 ∉ SP :: (version ++ t) ∧ 61 ∉ SP :: (version ++ t) ∧ 38 ∉ SP :: (version ++ t)) ∧
      Http.trimEnds (SP :: (version ++ t)) ≠ [] ∧ (version ++ t).take 8 = version ∧ (version ++ t).length ≤ 9 := by
  rcases h with ⟨-, -, rfl | rfl, rfl | rfl⟩
  · decide
  · decide
  · decide
  · decide

theorem TargetLine.split (_ : TargetLine method target version t) :
    method ++ SP :: (target ++ SP :: (version ++ t)) = (method ++ [SP]) ++ (target ++ SP :: (version ++ t)) := by simp

theorem TargetLine.targeted (h : TargetLine method target version t) : Targeted (method ++ [SP]) target (version ++ t) := by
  refine ⟨⟨?_, ?_⟩, h.target.slash, h.tail.1⟩
  · simp [h.free.1, SP]
  · rw [find_sep (by decide), h.free.2.2]
    rfl

/-- Of a target the eight bytes are its own, or they are not `HTTP/1.0`. -/
theorem version_within {s rest : Bytes} : ((s ++ SP :: rest).take 8 = bytes "HTTP/1.0") ↔ bytes "HTTP/1.0" <+: s := by
  have htake : (s ++ SP :: rest).take 8 = bytes "HTTP/1.0" ↔ bytes "HTTP/1.0" <+: s ++ SP :: rest := by
    rw [List.prefix_iff_eq_take]
    exact eq_comm
  rw [htake]
  constructor
  · intro hp
    rcases List.prefix_or_prefix_of_prefix hp (List.prefix_append s (SP :: rest)) with hs | hs
    · exact hs
    · obtain ⟨v, hv⟩ := hs
      rw [← hv, List.prefix_append_right_inj] at hp
      cases v with
      | nil => rw [← hv, List.append_nil]
      | cons b v =>
        -- a version has no space in it
        obtain ⟨rfl, -⟩ := List.cons_prefix_cons.mp hp
        exact absurd (show SP ∈ bytes "HTTP/1.0" from hv ▸ by simp) (by decide)
  · intro hp
    exact hp.trans (List.prefix_append _ _)

/-! ## What is taken -/

theorem TargetLine.plain (h : TargetLine method target version t) (hplain : 63 ∉ target) :
    63 ∉ (method ++ [SP]) ++ (target ++ SP :: (version ++ t)) := by
  have hfree : 63 ∉ method ++ [SP] := by simp [h.free.2.1, SP]
  intro hmem
  rcases List.mem_append.mp hmem with hmem | hmem
  · exact hfree hmem
  · rcases List.mem_append.mp hmem with hmem | hmem
    · exact hplain hmem
    · exact h.tail.2.1.1 hmem

theorem TargetLine.marked {u q : Bytes} (h : TargetLine method (u ++ 63 :: q) version t) (hmark : 63 ∉ u) :
    63 ∉ (method ++ [SP]) ++ u ∧ u.head? = some 47 := by
  constructor
  · simp [h.free.2.1, hmark, SP]
  · have hslash := h.target.slash
    cases u with
    | nil => exact absurd hslash (by simp)
    | cons b u => exact hslash

/-- The map of what is read is that of the query only if what differs is repeated. -/
theorem takenQuery_iff {u q tail : Bytes} (hmark : 63 ∉ u) (hprint : ∀ b ∈ q, isPrint b = true)
    (htail : 61 ∉ SP :: tail ∧ 38 ∉ SP :: tail) (htrim : Http.trimEnds (SP :: tail) ≠ [])
    (hlen : (q ++ SP :: tail).length < 2 ^ 64) {i : Nat} (hi : find (bytes "HTTP") (u ++ 63 :: q) = some i) :
    (∀ key, ((Http.arguments (takenQuery u q tail)).foldl emplaceGet ∅).lookup key =
        ((Http.cutArguments q).foldl emplaceGet ∅).lookup key) ↔
      Http.ValuedFirst (q.take (queryBefore (u ++ 63 :: q) i - 1)) ∧
        Http.Repeated [] (Http.marks (queryBefore (u ++ 63 :: q) i) (q.splitOn 38)) := by
  obtain ⟨htu, htq⟩ := target_query (q := q) hmark
  rw [takenQuery, hi, queryBefore, htu, htq]
  simp only
  by_cases hbefore : i < u.length
  · rw [if_pos hbefore, if_pos hbefore, Nat.add_sub_cancel, List.take_length]
    exact Http.gets_more hlen htail htrim (Nat.lt_succ_self _)
  · have hle := find_le hi
    simp only [List.length_append, List.length_cons] at hle hlen
    rw [if_neg hbefore, if_neg hbefore]
    exact Http.gets_less (by omega) hprint (by omega)

theorem version_iff (p : Prop) (q : Prop) [Decidable p] [Decidable q] :
    ((if p then RequestVersion.v1 else .v1_1) = if q then .v1 else .v1_1) ↔ (p ↔ q) := by
  by_cases hp : p
  · by_cases hq : q
    · simp [hp, hq]
    · simp [hp, hq]
  · by_cases hq : q
    · simp [hp, hq]
    · simp [hp, hq]

variable {h h' : Http} {u q : Bytes}

/-- With a query the URI is taken exactly. -/
theorem extracted_marked (hline : TargetLine method (u ++ 63 :: q) version t) (hmark : 63 ∉ u)
    (hlen : (method ++ SP :: ((u ++ 63 :: q) ++ SP :: (version ++ t))).length < 2 ^ 63) (hget : h.getData = ∅)
    (hs : parseHeaderUri h (method ++ SP :: ((u ++ 63 :: q) ++ SP :: (version ++ t))) = some h') :
    Extracted h' (u ++ 63 :: q) version ↔
      (∀ key, ((Http.arguments (takenQuery u q (version ++ t))).foldl emplaceGet ∅).lookup key =
        ((Http.cutArguments q).foldl emplaceGet ∅).lookup key) ∧
      h'.version = if version = bytes "HTTP/1.0" then .v1 else .v1_1 := by
  rw [hline.split] at hlen hs
  obtain ⟨hfree, hslash⟩ := hline.marked hmark
  obtain ⟨htu, htq⟩ := target_query (q := q) hmark
  have hgets := line_query hline.targeted hfree hlen hs
  have hu : h'.uri = u := by
    rw [List.append_assoc u] at hs
    exact line_cut hline.targeted.front.1 hslash hfree hs
  rw [hget] at hgets
  constructor
  · intro hexact
    refine ⟨fun key => ?_, hexact.version⟩
    rw [← hgets, hexact.gets key, htq]
  · intro hgiven
    obtain ⟨hsame, hversion⟩ := hgiven
    refine ⟨by rw [hu, htu], fun key => ?_, hversion⟩
    rw [hgets, htq]
    exact hsame key

theorem line_marked (hline : TargetLine method (u ++ 63 :: q) version t) (hmark : 63 ∉ u)
    (hlen : (method ++ SP :: ((u ++ 63 :: q) ++ SP :: (version ++ t))).length < 2 ^ 63) (hget : h.getData = ∅)
    (hs : parseHeaderUri h (method ++ SP :: ((u ++ 63 :: q) ++ SP :: (version ++ t))) = some h') :
    Extracted h' (u ++ 63 :: q) version ↔ Extractable (u ++ 63 :: q) version := by
  rw [extracted_marked hline hmark hlen hget hs]
  rw [hline.split] at hlen hs
  have hversion := line_version hline.targeted hlen hs
  have hprint : ∀ b ∈ q, isPrint b = true := fun b hb => (hline.target.print b (by simp [hb])).1
  obtain ⟨htu, htq⟩ := target_query (q := q) hmark
  simp only [List.length_append, List.length_cons] at hlen
  rw [Extractable]
  cases hi : find (bytes "HTTP") (u ++ 63 :: q) with
  | none =>
    rw [hi, Option.getD_none, drop_behind, hline.tail.2.2.2.1] at hversion
    rw [takenQuery, hi]
    simp only
    rw [Http.gets_self (by omega) hprint, htq]
    exact and_iff_left hversion
  | some i =>
    have hle : i ≤ (u ++ 63 :: q).length := (Nat.le_add_right _ _).trans (find_le hi)
    have hshort : (q ++ SP :: (version ++ t)).length < 2 ^ 64 := by
      simp only [List.length_append, List.length_cons]
      omega
    rw [hi, Option.getD_some, List.drop_append_of_le_length hle] at hversion
    simp only [version_within] at hversion
    simp only
    rw [takenQuery_iff hmark hprint hline.tail.2.1.2 hline.tail.2.2.1 hshort hi, hversion, version_iff, htq]
    constructor
    · intro hgiven
      obtain ⟨hrepeated, hsame⟩ := hgiven
      exact ⟨by simp, hsame, hrepeated⟩
    · intro hgiven
      obtain ⟨-, hsame, hrepeated⟩ := hgiven
      exact ⟨hrepeated, hsame⟩

theorem line_unmarked (hline : TargetLine method target version t) (hplain : 63 ∉ target)
    (hlen : (method ++ SP :: (target ++ SP :: (version ++ t))).length < 2 ^ 63) (huri : h.uri = bytes "/") (hget : h.getData = ∅)
    (hs : parseHeaderUri h (method ++ SP :: (target ++ SP :: (version ++ t))) = some h') :
    Extracted h' target version ↔ Extractable target version := by
  rw [hline.split] at hlen hs
  have hversion := line_version hline.targeted hlen hs
  obtain ⟨hgets, hu⟩ := line_plain hline.targeted (hline.plain hplain) huri hs
  obtain ⟨htu, htq⟩ := target_plain hplain
  rw [Extractable]
  cases hi : find (bytes "HTTP") target with
  | none =>
    refine iff_of_true ⟨by rw [hu.mpr hi, htu], ?_, ?_⟩ ?_
    · intro key
      rw [hgets, hget, htq, Http.cutArguments_none (by simp)]
      rfl
    · rw [hversion, hi, Option.getD_none, drop_behind, hline.tail.2.2.2.1]
    · rw [htq]
      exact List.pairwise_singleton _ _
  | some i =>
    refine iff_of_false ?_ ?_
    · intro hexact
      have hnone := hu.mp (hexact.uri.trans htu)
      rw [hi] at hnone
      cases hnone
    · exact fun hgiven => hplain hgiven.1

/-- The request line is taken exactly only if what is read in the wrong place makes no
    difference. -/
theorem line_target (hline : TargetLine method target version t)
    (hlen : (method ++ SP :: (target ++ SP :: (version ++ t))).length < 2 ^ 63) (huri : h.uri = bytes "/") (hget : h.getData = ∅)
    (hs : parseHeaderUri h (method ++ SP :: (target ++ SP :: (version ++ t))) = some h') :
    Extracted h' target version ↔ Extractable target version := by
  by_cases hmem : 63 ∈ target
  · obtain ⟨u, q, rfl, hmark⟩ := List.eq_append_cons_of_mem hmem
    exact line_marked hline hmark hlen hget hs
  · exact line_unmarked hline hmem hlen huri hget hs

/-! ## A message -/

theorem TargetLine.lf (h : TargetLine method target version t) :
    LF ∉ method ++ SP :: (target ++ SP :: (version ++ t)) := by
  have hmethod : ∀ m ∈ Http.methods.map Http.requestTypeToString, LF ∉ m := by decide
  have htail : LF ∉ version ++ t := by
    rcases h with ⟨-, -, rfl | rfl, rfl | rfl⟩
    · decide
    · decide
    · decide
    · decide
  have htarget : LF ∉ target := fun hmem => absurd (h.target.print _ hmem).1 (by decide)
  have hspace : LF ≠ SP := by decide
  simp only [List.mem_append, List.mem_cons, not_or]
  exact ⟨hmethod _ h.method, hspace, htarget, hspace, by simpa using htail⟩

theorem TargetLine.cr (h : TargetLine method target version t)
    (hlast : (method ++ SP :: (target ++ SP :: (version ++ t))).getLast? = some CR) : t = [CR] := by
  have hsplit : method ++ SP :: (target ++ SP :: (version ++ t)) = (method ++ SP :: (target ++ [SP])) ++ (version ++ t) := by
    simp
  rw [hsplit] at hlast
  rcases h with ⟨-, -, hversion, rfl | rfl⟩
  · rcases hversion with rfl | rfl
    · rw [List.getLast?_append_of_ne_nil _ (by decide)] at hlast
      exact absurd hlast (by decide)
    · rw [List.getLast?_append_of_ne_nil _ (by decide)] at hlast
      exact absurd hlast (by decide)
  · rfl

theorem Extracted.congr {x y : Http} (huri : y.uri = x.uri) (hgets : y.getData = x.getData) (hversion : y.version = x.version) :
    Extracted y target version ↔ Extracted x target version := by
  constructor
  · intro h
    exact ⟨huri ▸ h.uri, hgets ▸ h.gets, hversion ▸ h.version⟩
  · intro h
    exact ⟨huri ▸ h.uri, hgets ▸ h.gets, hversion ▸ h.version⟩

/-- A header read off such a message has the line first, its CR maybe left behind. -/
theorem head_line {cr rest u : Bytes} (hline : TargetLine method target version cr)
    (hu : u <+: method ++ SP :: (target ++ SP :: (version ++ cr)) ++ LF :: rest)
    {e n : Nat} (hend : Http.headerEnd u = some (e, n)) :
    ∃ t lines, TargetLine method target version t ∧
      Http.splitString (u.take e) LF false = (method ++ SP :: (target ++ SP :: (version ++ t))) :: lines := by
  rcases Http.first_line hline.lf (by simp) hu hend with ⟨lines, hlines⟩ | ⟨hcut, hlf⟩
  · exact ⟨cr, lines, hline, hlines⟩
  · -- then the CR is that of the line
    have hcr : cr = [CR] := by
      apply hline.cr
      rw [hcut, List.getLast?_concat]
    have htake : u.take e = method ++ SP :: (target ++ SP :: (version ++ [])) := by
      have hends : u.take e ++ [CR] = method ++ SP :: (target ++ SP :: (version ++ [])) ++ [CR] := by
        rw [← hcut, hcr]
        simp
      exact List.append_cancel_right hends
    refine ⟨[], [], { hline with ends := .inl rfl }, ?_⟩
    rw [htake, Http.splitString, Http.splitFrom_last (htake ▸ hlf) (by simp)]
    rfl

/-- The request of such a message, in whatever pieces, has its target taken exactly only if
    what is read in the wrong place makes no difference. -/
theorem target_extracted {cr rest : Bytes} (hline : TargetLine method target version cr) {ps : List Bytes} {p : Bytes}
    (htext : (ps ++ [p]).flatten = method ++ SP :: (target ++ SP :: (version ++ cr)) ++ LF :: rest)
    (hmore : ∀ a ∈ (feed parse fresh ps).1, a = some .notEnoughData)
    (hsuccess : (parse (feed parse fresh ps).2 p).1 = some .success) :
    Extracted (parse (feed parse fresh ps).2 p).2.toHttp target version ↔ Extractable target version := by
  obtain ⟨-, u, e, n, r, hu, hend, hsize, hread, hkept⟩ := feed_line_success hmore hsuccess
  rw [htext] at hu
  obtain ⟨t, lines, hline', hlines⟩ := head_line hline hu hend
  rw [readHead, hlines] at hread
  obtain ⟨-, -, h', hs, huri, hgets, hversion⟩ := readHeader_fields hread
  have hlen : (method ++ SP :: (target ++ SP :: (version ++ t))).length < 2 ^ 63 := by
    have hle := Http.splitString_length (hlines ▸ List.mem_cons_self)
    rw [List.length_take] at hle
    simp only [maxHttpHeaderSize] at hsize
    omega
  rw [Extracted.congr (hkept.uri.trans huri) (hkept.gets.trans hgets) (hkept.version.trans hversion)]
  exact line_target hline' hlen rfl rfl hs

/-- The second `b` is cut short, and has no effect. -/
theorem target_extracted_sample :
    Extracted (parse (feed parse fresh [bytes "GET /a?b=c&b"]).2 (bytes "=HTTP HTTP/1.1\r\n\r\n")).2.toHttp
      (bytes "/a?b=c&b=HTTP")
        (bytes "HTTP/1.1") ↔ Extractable (bytes "/a?b=c&b=HTTP") (bytes "HTTP/1.1") := by
  have hline : TargetLine (bytes "GET") (bytes "/a?b=c&b=HTTP") (bytes "HTTP/1.1") [CR] :=
    ⟨by decide, ⟨by decide, forall_of_all (by decide)⟩, .inr rfl, .inr rfl⟩
  have htext : ([bytes "GET /a?b=c&b"] ++ [bytes "=HTTP HTTP/1.1\r\n\r\n"]).flatten =
      bytes "GET" ++ SP :: (bytes "/a?b=c&b=HTTP" ++ SP :: (bytes "HTTP/1.1" ++ [CR])) ++ LF :: crlf := by decide
  apply target_extracted hline htext
  · simp only [feed, List.mem_singleton, forall_eq]
    decide +kernel
  · decide +kernel

/-- The URI is cut before an `HTTP` in it. -/
theorem target_extracted_not :
    ¬ ∀ method target version cr rest : Bytes, TargetLine method target version cr → ∀ ps p,
      (ps ++ [p]).flatten = method ++ SP :: (target ++ SP :: (version ++ cr)) ++ LF :: rest →
      (∀ a ∈ (feed parse fresh ps).1, a = some .notEnoughData) → (parse (feed parse fresh ps).2 p).1 = some .success →
      Extracted (parse (feed parse fresh ps).2 p).2.toHttp target version := by
  intro h
  have hexact := h (bytes "GET") (bytes "/docs/HTTP") (bytes "HTTP/1.1") [CR] crlf
    ⟨by decide, ⟨by decide, forall_of_all (by decide)⟩, .inr rfl, .inr rfl⟩
      [] (bytes "GET /docs/HTTP HTTP/1.1\r\n\r\n") (by decide)
    (by simp [feed]) (by decide +kernel)
  exact absurd hexact.uri (by decide +kernel)

end HttpRequest

end Frnetlib
