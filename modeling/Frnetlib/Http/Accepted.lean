/-
  Frnetlib.Http.Accepted — which request lines `HttpRequest::parse` accepts.

  The text is compared with the methods' names, and so is what is in front of the line's
  first space, but only as far as the name goes; and a `/` and an `HTTP` have to be
  somewhere in the line. So a request that succeeded has a well-formed line only if the
  first space is right behind the name, the first `/` right behind that, and a space in
  front of an `HTTP/` (`accepted_wellFormed`). The method is the one of the token then.
-/

import Frnetlib.Http.FirstLine

namespace Frnetlib.HttpRequest

open Base

/-- The first line that is not empty. -/
def firstLine (s : Bytes) : Bytes := (s.dropWhile (· = LF)).takeWhile (· ≠ LF)

/-- A method's name, a space, a target that starts with a `/`, a space, and a version. -/
structure WellFormed (line : Bytes) (type : RequestType) (target : Bytes) : Prop where
  method : type ∈ Http.methods
  slash : target.head? = some 47
  parts : ∃ version, bytes "HTTP/" <+: version ∧
    line = Http.requestTypeToString type ++ SP :: (target ++ SP :: version)

/-- Behind the name the line starts with, its first space and its first `/`; and an
    `HTTP/` behind a space. -/
def Marks (line : Bytes) : Prop :=
  (∀ m ∈ Http.methods, Http.requestTypeToString m <+: line →
    find [SP] line = some (Http.requestTypeToString m).length ∧
      find [47] line = some ((Http.requestTypeToString m).length + 1)) ∧
    bytes " HTTP/" <:+: line

/-- The `HTTP/` is behind the second space. -/
def Second (line : Bytes) : Prop :=
  ∀ i j, find [SP] line = some i → find [SP] (line.drop (i + 1)) = some j → bytes "HTTP/" <+: line.drop (i + 1 + (j + 1))

/-! ## Lines -/

theorem method_unique {a b : RequestType} {s : Bytes} (ha : a ∈ Http.methods) (hb : b ∈ Http.methods)
    (hpa : Http.requestTypeToString a <+: s) (hpb : Http.requestTypeToString b <+: s) : a = b := by
  rw [← Http.stringToRequestType_method ha hpa, Http.stringToRequestType_method hb hpb]

variable {line target : Bytes} {type : RequestType}

theorem slash_cons (h : target.head? = some 47) : ∃ s, target = 47 :: s := by
  cases target with
  | nil => cases h
  | cons b s =>
    cases h
    exact ⟨s, rfl⟩

theorem WellFormed.marks (h : WellFormed line type target) : Marks line := by
  obtain ⟨hmethod, hslash, version, ⟨v, rfl⟩, rfl⟩ := h
  obtain ⟨s, rfl⟩ := slash_cons hslash
  have hspace : SP ∉ Http.requestTypeToString type := Http.method_free hmethod (by decide)
  have hfree : 47 ∉ Http.requestTypeToString type := Http.method_free hmethod (by decide)
  constructor
  · intro m hm hp
    obtain rfl : m = type := method_unique hm hmethod hp (List.prefix_append _ _)
    refine ⟨find_char hspace _, ?_⟩
    have hfind := find_char (show 47 ∉ Http.requestTypeToString m ++ [SP] by simp [hfree, SP]) (s ++ SP :: (bytes "HTTP/" ++ v))
    simpa using hfind
  · exact ⟨Http.requestTypeToString type ++ SP :: 47 :: s, v, by simp [bytes, SP]⟩

theorem WellFormed.second (h : WellFormed line type target) (hspace : SP ∉ target) : Second line := by
  obtain ⟨hmethod, -, version, hversion, rfl⟩ := h
  have hdrop : (Http.requestTypeToString type ++ SP :: (target ++ SP :: version)).drop
    ((Http.requestTypeToString type).length + 1) =
      target ++ SP :: version := drop_behind
  intro i j hi hj
  rw [find_char (Http.method_free hmethod (by decide))] at hi
  cases hi
  rw [hdrop, find_char hspace] at hj
  cases hj
  rw [← List.drop_drop, hdrop, drop_behind]
  exact hversion

/-- The line behind the method and its space, where the marks are in place. -/
theorem marks_split (hmethod : type ∈ Http.methods) (hp : Http.requestTypeToString type <+: line) (h : Marks line) :
    ∃ target version, line = Http.requestTypeToString type ++ SP :: (target ++ SP :: version) ∧ target.head? = some 47 ∧
      bytes "HTTP/" <+: version := by
  obtain ⟨hplaces, a, v, hline⟩ := h
  obtain ⟨hspace, hslash⟩ := hplaces type hmethod hp
  obtain ⟨r, rfl⟩ := hp
  generalize hname : Http.requestTypeToString type = name at hspace hslash hline ⊢
  obtain ⟨hat, hfirst⟩ := find_eq_some_iff.mp hspace
  rw [List.drop_left] at hat
  obtain ⟨r, rfl⟩ := hat
  have hat := (find_eq_some_iff.mp hslash).1
  rw [List.singleton_append, drop_behind] at hat
  obtain ⟨r, rfl⟩ := hat
  rw [List.append_assoc] at hline
  -- the space before the version is no earlier than the first, and not the first
  have hlong : name.length ≤ a.length := by
    by_contra hlt
    apply hfirst a.length (by omega)
    rw [← hline, List.drop_left]
    exact ⟨bytes "HTTP/" ++ v, rfl⟩
  have hother : name.length ≠ a.length := by
    intro heq
    obtain ⟨-, hbehind⟩ := List.append_inj hline heq.symm
    exact absurd (List.cons.inj (List.cons.inj hbehind).2).1 (by decide)
  have hfront : name ++ [SP] <+: a := by
    have hstart : name ++ [SP] <+: name ++ ([SP] ++ ([47] ++ r)) := ⟨[47] ++ r, by simp⟩
    have ha : a <+: name ++ ([SP] ++ ([47] ++ r)) := hline ▸ List.prefix_append _ _
    apply List.prefix_of_prefix_length_le hstart ha
    rw [List.length_append, List.length_singleton]
    omega
  obtain ⟨t, rfl⟩ := hfront
  refine ⟨t, bytes "HTTP/" ++ v, ?_, ?_, List.prefix_append _ _⟩
  · rw [← hline]
    simp [bytes, SP]
  · simp only [List.append_assoc, List.append_cancel_left_eq] at hline
    cases t with
    | nil => exact absurd (List.cons.inj hline).1 (by decide)
    | cons b t =>
      rw [(List.cons.inj hline).1]
      rfl

theorem wellFormed_iff (hmethod : type ∈ Http.methods) (hp : Http.requestTypeToString type <+: line) :
    (∃ target, WellFormed line type target) ↔ Marks line := by
  constructor
  · intro hgiven
    obtain ⟨target, h⟩ := hgiven
    exact h.marks
  · intro h
    obtain ⟨target, version, hline, hslash, hversion⟩ := marks_split hmethod hp h
    exact ⟨target, hmethod, hslash, version, hversion, hline⟩

theorem wellFormed_second_iff (hmethod : type ∈ Http.methods) (hp : Http.requestTypeToString type <+: line) :
    (∃ target, WellFormed line type target ∧ SP ∉ target) ↔ Marks line ∧ Second line := by
  constructor
  · intro hgiven
    obtain ⟨target, h, hspace⟩ := hgiven
    exact ⟨h.marks, h.second hspace⟩
  · intro hgiven
    obtain ⟨h, hsecond⟩ := hgiven
    obtain ⟨target, version, hline, hslash, -⟩ := marks_split hmethod hp h
    obtain ⟨t, v, hcut, hspace⟩ := List.eq_append_cons_of_mem (show SP ∈ target ++ SP :: version by simp)
    rw [hcut] at hline
    have hv : bytes "HTTP/" <+: v := by
      have hdrop : line.drop ((Http.requestTypeToString type).length + 1) = t ++ SP :: v := by rw [hline, drop_behind]
      have hname : SP ∉ Http.requestTypeToString type := Http.method_free hmethod (by decide)
      have hat := hsecond (Http.requestTypeToString type).length t.length (hline ▸ find_char hname _)
        (hdrop ▸ find_char hspace v)
      rwa [← List.drop_drop, hdrop, drop_behind] at hat
    refine ⟨t, ⟨hmethod, ?_, v, hv, hline⟩, hspace⟩
    -- the target is not empty
    obtain ⟨s, rfl⟩ := slash_cons hslash
    cases t with
    | nil => exact absurd (List.cons.inj hcut).1 (by decide)
    | cons b t =>
      rw [(List.cons.inj hcut).1]
      rfl

/-! ## The request that succeeded -/

theorem parseHeaderType_starts (h : parseHeaderType line ∈ Http.methods) :
    Http.requestTypeToString (parseHeaderType line) <+: line := by
  unfold parseHeaderType at h ⊢
  cases hspace : find [SP] line with
  | none =>
    rw [hspace] at h
    exact absurd (show RequestType.unknown ∈ Http.methods from h) (by decide)
  | some k =>
    rw [hspace] at h
    simp only at h ⊢
    rcases Http.stringToRequestType_cases (line.take k) with ⟨-, hp⟩ | hunknown | ⟨hpartly, -⟩
    · exact hp.trans (List.take_prefix k line)
    · rw [hunknown] at h
      exact absurd h (by decide)
    · rw [hpartly] at h
      exact absurd h (by decide)

theorem firstLine_method {m : RequestType} {s : Bytes} (hm : m ∈ Http.methods) (hp : Http.requestTypeToString m <+: s) :
    Http.requestTypeToString m <+: firstLine s ∧ firstLine s = s.takeWhile (· ≠ LF) := by
  obtain ⟨r, rfl⟩ := hp
  have hfree : ∀ b ∈ Http.requestTypeToString m, decide (b ≠ LF) = true := by
    intro b hb
    apply decide_eq_true
    intro heq
    exact Http.method_free hm (by decide) (heq ▸ hb)
  have hkept : (Http.requestTypeToString m ++ r).dropWhile (· = LF) = Http.requestTypeToString m ++ r := by
    cases hname : Http.requestTypeToString m with
    | nil =>
      have hlong := Http.method_length hm
      rw [hname] at hlong
      exact absurd hlong (by decide)
    | cons b name =>
      rw [hname] at hfree
      have hb := of_decide_eq_true (hfree b List.mem_cons_self)
      rw [List.cons_append, List.dropWhile_cons_of_neg (by simpa using hb)]
  rw [firstLine, hkept]
  refine ⟨?_, rfl⟩
  rw [List.takeWhile_append_of_pos hfree]
  exact List.prefix_append _ _

/-- A text that starts with a method's name has its request line read. -/
theorem accepted_method {s : Bytes} {m : RequestType} (hm : m ∈ Http.methods) (hp : Http.requestTypeToString m <+: s)
    (h : (parse fresh s).1 = some .success) : (parse fresh s).2.requestType = m := by
  obtain ⟨-, e, n, r, hend, -, hread, hparse⟩ := parse_fresh_success h
  have htype : (parse fresh s).2.requestType = r.requestType := by
    rw [hparse]
    exact (parseBody_line { r with body := s.drop (e + n) }).1.type
  obtain ⟨hstarts, hfirst⟩ := firstLine_method hm hp
  have hlong := Http.method_length hm
  -- the line that is read is the first, or that without its CR
  obtain ⟨line, lines, hlines, hline⟩ : ∃ line lines, Http.splitString (s.take e) LF false = line :: lines ∧ line <+: s := by
    have hlf : LF ∈ s := by
      apply List.mem_of_mem_drop (i := e)
      rcases Http.headerEnd_at hend with ⟨rest, hrest⟩ | ⟨rest, hrest⟩
      · simp [hrest]
      · simp [hrest]
    obtain ⟨a, rest, hs, hfree⟩ := List.eq_append_cons_of_mem hlf
    have ha : firstLine s = a := by
      have hall : ∀ b ∈ a, decide (b ≠ LF) = true := fun b hb => decide_eq_true fun heq => hfree (heq ▸ hb)
      rw [hfirst, hs, List.takeWhile_append_of_pos hall]
      simp
    rw [ha] at hstarts
    have hshort := hstarts.length_le
    have hne : a ≠ [] := by
      intro hnil
      rw [hnil, List.length_nil] at hshort
      omega
    have hu : s <+: a ++ LF :: rest := by rw [← hs]
    rcases Http.first_line hfree hne hu hend with ⟨lines, hlines⟩ | ⟨hcut, hcutfree⟩
    · exact ⟨a, lines, hlines, hs ▸ List.prefix_append _ _⟩
    · refine ⟨s.take e, [], Http.splitFrom_last hcutfree ?_, List.take_prefix _ _⟩
      intro hnil
      rw [List.nil_append] at hnil
      rw [hcut, hnil] at hshort
      simp only [List.nil_append, List.length_singleton] at hshort
      omega
  rw [readHead, hlines] at hread
  obtain ⟨hmethod, hread, -⟩ := readHeader_fields hread
  rw [htype, hread]
  apply method_unique hmethod hm ?_ hp
  exact (parseHeaderType_starts hmethod).trans hline

theorem infix_short {s : Bytes} (hs : s.length < 6) : ¬ bytes " HTTP/" <:+: firstLine s := by
  intro hwithin
  have hle := hwithin.length_le
  have hshort : (firstLine s).length ≤ s.length :=
    ((List.takeWhile_prefix _).length_le).trans (List.dropWhile_suffix _).length_le
  rw [show (bytes " HTTP/").length = 6 from rfl] at hle
  omega

/-- A request that succeeded has a well-formed line, and the method of its token, only if
    the marks that are looked for are in their places; and a target without a space only if
    the version is behind the second. -/
theorem accepted_wellFormed {s : Bytes} (h : (parse fresh s).1 = some .success) :
    ((∃ target, WellFormed (firstLine s) (parse fresh s).2.requestType target) ↔ Marks (firstLine s)) ∧
      ((∃ target, WellFormed (firstLine s) (parse fresh s).2.requestType target ∧ SP ∉ target) ↔
        Marks (firstLine s) ∧ Second (firstLine s)) := by
  obtain ⟨hknown, e, n, r, hend, -⟩ := parse_fresh_success h
  have hne : s ≠ [] := by
    intro hnil
    rw [hnil] at hend
    cases hend
  rcases Http.stringToRequestType_cases s with ⟨hm, hp⟩ | hunknown | ⟨-, hshort⟩
  · rw [accepted_method hm hp h]
    have hfirst := (firstLine_method hm hp).1
    exact ⟨wellFormed_iff hm hfirst, wellFormed_second_iff hm hfirst⟩
  · exact absurd ⟨hne, hunknown⟩ hknown
  · -- too short for a request line
    have hnone := infix_short hshort
    constructor
    · constructor
      · intro hgiven
        obtain ⟨target, h⟩ := hgiven
        exact absurd h.marks.2 hnone
      · intro h
        exact absurd h.2 hnone
    · constructor
      · intro hgiven
        obtain ⟨target, h, -⟩ := hgiven
        exact absurd h.marks.2 hnone
      · intro h
        exact absurd h.1.2 hnone

theorem accepted_wellFormed_sample :
    ((∃ target, WellFormed (firstLine (bytes "PUT /a HTTP/1.1\r\n\r\n"))
        (parse fresh (bytes "PUT /a HTTP/1.1\r\n\r\n")).2.requestType target) ↔
      Marks (firstLine (bytes "PUT /a HTTP/1.1\r\n\r\n"))) ∧
    ((∃ target, WellFormed (firstLine (bytes "PUT /a HTTP/1.1\r\n\r\n"))
        (parse fresh (bytes "PUT /a HTTP/1.1\r\n\r\n")).2.requestType target ∧ SP ∉ target) ↔
      Marks (firstLine (bytes "PUT /a HTTP/1.1\r\n\r\n")) ∧ Second (firstLine (bytes "PUT /a HTTP/1.1\r\n\r\n"))) := by
  apply accepted_wellFormed
  decide +kernel

/-- A token that only starts with a method's name is that method. -/
theorem accepted_wellFormed_not :
    ¬ ∀ s, (parse fresh s).1 = some .success →
      ∃ target, WellFormed (firstLine s) (parse fresh s).2.requestType target := by
  intro h
  have hsuccess : (parse fresh (bytes "GETX / HTTP/1.1\r\n\r\n")).1 = some .success := by decide +kernel
  have htype : (parse fresh (bytes "GETX / HTTP/1.1\r\n\r\n")).2.requestType = .get := by decide +kernel
  obtain ⟨target, hformed⟩ := h (bytes "GETX / HTTP/1.1\r\n\r\n") hsuccess
  rw [htype] at hformed
  have hspace := (hformed.marks.1 .get (by decide) (by decide)).1
  exact absurd hspace (by decide)

end Frnetlib.HttpRequest
