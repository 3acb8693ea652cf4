/-
  Frnetlib.Http.HeaderOrder — a header whose lines come in another order, in a request and
  in a response.

  What `parse` shows of a message is `Seen`. Of both classes it comes about in the same way
  (`reading`): the first line is read or refused, then the header lines, and the status of
  the body does not depend on the header map. So all orders of the lines show the same
  exactly when they are not read, there is at most one, or no value is blank: as the last
  line a blank one is overlooked, elsewhere it is stored (`header_order`).
-/

import Frnetlib.Http.HeaderFields
import Frnetlib.Http.Incremental
import Frnetlib.Http.PostBody

namespace Frnetlib

open Base

namespace Http

/-! ## The message -/

/-- The first line, the header lines, and whatever follows the header. -/
def message (line : Bytes) (hs : List Entry) (rest : Bytes) : Bytes := block (line :: hs.map fieldText) ++ rest

/-- Where its header ends. -/
def headerSize (line : Bytes) (hs : List Entry) : Nat := (block (line :: hs.map fieldText)).length - 4

theorem headerSize_perm (line : Bytes) {hs hs' : List Entry} (h : hs'.Perm hs) :
    headerSize line hs' = headerSize line hs := by
  have hlines : ((line :: hs'.map fieldText).flatMap (· ++ crlf)).Perm ((line :: hs.map fieldText).flatMap (· ++ crlf)) :=
    ((h.map fieldText).cons line).flatMap_right _
  simp only [headerSize, block, List.length_append, hlines.length_eq]

theorem Written.line {c : Entry} (h : Written c) : Line (fieldText c) :=
  fieldText_line h.name fun hlf => (isPrint_plain (h.value _ hlf)).2 rfl

variable {line : Bytes} {hs : List Entry}

theorem message_line (line : Bytes) (hs : List Entry) (rest : Bytes) : ∃ s, message line hs rest = line ++ CR :: s := by
  rw [message, block_cons, List.append_assoc]
  exact ⟨_, rfl⟩

theorem message_shape (hline : LF ∉ line) (h : ∀ c ∈ hs, Written c) (hsome : hs ≠ []) (rest : Bytes) :
    6 ≤ (message line hs rest).length ∧ headerEnd (message line hs rest) = some (headerSize line hs, 4) ∧
      splitString ((message line hs rest).take (headerSize line hs)) LF false =
        (line ++ [CR]) :: received (hs.map fieldText) ∧
      (message line hs rest).drop (headerSize line hs + 4) = rest := by
  obtain ⟨c, cs, rfl⟩ := List.exists_cons_of_ne_nil hsome
  have hlines : ∀ l ∈ fieldText c :: cs.map fieldText, Line l := by
    intro l hl
    obtain ⟨d, hd, rfl⟩ := List.mem_map.mp (List.map_cons (f := fieldText) ▸ hl)
    exact (h d hd).line
  have hnext := block_length (fieldText c) (cs.map fieldText)
  have hlen := block_length line (fieldText c :: cs.map fieldText)
  have hfind := find_block_after hline (hlines _ (by simp)) (find_block hlines rest)
  have hsplit := splitString_block hlines []
  rw [List.append_nil] at hsplit
  refine ⟨?_, headerEnd_of_crlf hfind, ?_, ?_⟩
  · rw [message, List.map_cons, block_cons]
    simp only [List.length_append, List.length_cons]
    omega
  · rw [message, headerSize, List.map_cons, List.take_append_of_le_length (by omega), splitString_after hline, hsplit]
  · rw [message, headerSize, List.map_cons, Nat.sub_add_cancel hlen, List.drop_left' rfl]

/-! ## What is seen of it -/

/-- What a caller sees of a message once `parse` has returned. -/
structure Seen where
  status : Option Status
  header : Bytes → Option Bytes
  transferEncodings : Finset TransferEncoding
  contentLength : Nat

/-- Nothing but the status. -/
def Seen.refused (st : Status) : Seen := ⟨some st, fun _ => none, ∅, 0⟩

/-- What a parser of either class shows of a message: it knows the first line or not,
    has room for the header or not, reads the first line to `start` or not, and sees no
    more of the header lines than `after` them. -/
def reading (known : Prop) [Decidable known] (start : Option Http) (after : Http → Seen) (line : Bytes)
    (hs : List Entry) : Seen :=
  if known then
    if maxHttpHeaderSize < headerSize line hs then .refused .httpHeaderTooBig
    else
      match start with
      | none => .refused .parseError
      | some h => after ((received (hs.map fieldText)).foldl parseHeaderLine h)
  else .refused .parseError

/-- It is seen of a message which fields it has, and not in which order. -/
structure Unordered (after : Http → Seen) : Prop where
  header : ∀ h k, (after h).header k = h.headerData.lookup k
  same : ∀ (h : Http) (m : StrMap), (∀ k, m.lookup k = h.headerData.lookup k) → after { h with headerData := m } = after h

/-- The length that the header announces, 0 without one; `none` for one that is no number. -/
def announcedLength (h : Http) : Option Nat :=
  match h.headerData.lookup (bytes "content-length") with
  | none => some 0
  | some v => stoull 10 v

/-- Once the header lines are read, the body is parsed to some status; it leaves the
    header as it is. -/
def afterHeader (status : Http → Nat → Option Status) (h : Http) : Seen :=
  match announcedLength h with
  | none => ⟨some .parseError, h.headerData.lookup, h.transferEncodings, 0⟩
  | some n => ⟨status h n, h.headerData.lookup, h.transferEncodings, n⟩

theorem afterHeader_unordered {status : Http → Nat → Option Status}
    (hstatus : ∀ (h : Http) (m : StrMap) n, status { h with headerData := m } n = status h n) :
    Unordered (afterHeader status) := by
  constructor
  · intro h k
    unfold afterHeader
    split
    · rfl
    · rfl
  · intro h m hm
    have hlookup : m.lookup = h.headerData.lookup := funext hm
    have hlength : announcedLength { h with headerData := m } = announcedLength h := by
      rw [announcedLength, announcedLength, hm]
    simp only [afterHeader, hlength, hlookup, hstatus]

/-- A first line that is read before there is a header. -/
structure Started (known : Prop) (start : Option Http) : Prop where
  known : start.isSome → known
  header : ∀ h, start = some h → h.headerData = ∅
  encodings : ∀ h, start = some h → h.transferEncodings = ∅

theorem after_lookup {after : Http → Seen} (hafter : Unordered after) {h : Http} (hempty : h.headerData = ∅)
    (hs : List Entry) (k : Bytes) :
    (after ((received (hs.map fieldText)).foldl parseHeaderLine h)).header k = (storedFields hs).dlookup k := by
  rw [hafter.header, lookup_lines, hempty, AList.lookup_empty, Option.none_or]
  rfl

/-- The map that fields are stored in. -/
def mapOf (fs : List Entry) : StrMap := fs.foldl (fun m c => emplace m c.1 c.2) ∅

theorem lookup_mapOf (fs : List Entry) (k : Bytes) : (mapOf fs).lookup k = fs.dlookup k := by
  rw [mapOf, lookup_emplaces, AList.lookup_empty, Option.none_or]

theorem after_sameFields {after : Http → Seen} (hafter : Unordered after) {h : Http} (hempty : h.headerData = ∅)
    (hnone : h.transferEncodings = ∅) {hs hs' : List Entry} (hfields : SameFields (storedFields hs') (storedFields hs)) :
    after ((received (hs'.map fieldText)).foldl parseHeaderLine h) =
      after ((received (hs.map fieldText)).foldl parseHeaderLine h) := by
  have hread : ∀ gs : List Entry, (received (gs.map fieldText)).foldl parseHeaderLine h =
      { h with transferEncodings := (storedFields gs).foldl addEncodings ∅, headerData := mapOf (storedFields gs) } := by
    intro gs
    rw [parseHeaderLines_eq, hempty, hnone]
    rfl
  have hlookup : ∀ k, (mapOf (storedFields hs')).lookup k = (mapOf (storedFields hs)).lookup k := by
    intro k
    rw [lookup_mapOf, lookup_mapOf, hfields.lookup]
  rw [hread hs', hread hs, hfields.encodings]
  exact hafter.same
    { h with transferEncodings := (storedFields hs).foldl addEncodings ∅, headerData := mapOf (storedFields hs) } _ hlookup

variable {known : Prop} [Decidable known] {start : Option Http} {after : Http → Seen}

theorem reading_read (hstart : Started known start) {h : Http} (hh : start = some h)
    (hsize : headerSize line hs ≤ maxHttpHeaderSize) :
    reading known start after line hs = after ((received (hs.map fieldText)).foldl parseHeaderLine h) := by
  have hknown : known := hstart.known (by rw [hh]; rfl)
  unfold reading
  rw [if_pos hknown, if_neg (Nat.not_lt.mpr hsize), hh]

/-- Of a header that is not read, the lines do not matter. -/
theorem reading_refused (hnot : ¬ (headerSize line hs ≤ maxHttpHeaderSize ∧ start.isSome)) {hs' : List Entry}
    (hperm : hs'.Perm hs) : reading known start after line hs' = reading known start after line hs := by
  unfold reading
  rw [headerSize_perm line hperm]
  by_cases hsize : maxHttpHeaderSize < headerSize line hs
  · rw [if_pos hsize, if_pos hsize]
  · have hstart : start = none := by
      rw [← Option.not_isSome_iff_eq_none]
      exact fun hsome => hnot ⟨Nat.le_of_not_lt hsize, hsome⟩
    rw [hstart]

/-- The lines in any order are taken for the same exactly when they are not read, there
    is at most one, or no value is blank. -/
theorem reading_order (hstart : Started known start) (hafter : Unordered after) (h : ∀ c ∈ hs, Written c)
    (hdistinct : (headerNames hs).Nodup) :
    (∀ hs', hs'.Perm hs → reading known start after line hs' = reading known start after line hs) ↔
      ¬ (headerSize line hs ≤ maxHttpHeaderSize ∧ start.isSome) ∨ hs.length ≤ 1 ∨ ∀ c ∈ hs, ¬ Blank c.2 := by
  constructor
  · intro hall
    by_contra hgiven
    rw [not_or, not_or, not_not] at hgiven
    obtain ⟨⟨hsize, hsome⟩, hlength, hblank⟩ := hgiven
    push Not at hblank hlength
    obtain ⟨first, hfirst⟩ := Option.isSome_iff_exists.mp hsome
    have hheader : ∀ hs', hs'.Perm hs → ∀ k,
        (reading known start after line hs').header k = (storedFields hs').dlookup k := by
      intro hs' hperm k
      rw [reading_read hstart hfirst (by rwa [headerSize_perm line hperm])]
      exact after_lookup hafter (hstart.header _ hfirst) hs' k
    obtain ⟨c, hc, hblank⟩ := hblank
    obtain ⟨front, back, rfl⟩ := List.append_of_mem hc
    -- the blank line last and first
    have hend : ((front ++ back) ++ [c]).Perm (front ++ c :: back) :=
      (List.perm_append_singleton c _).trans List.perm_middle.symm
    have hbegin : (c :: (front ++ back)).Perm (front ++ c :: back) := List.perm_middle.symm
    have hothers : front ++ back ≠ [] := by
      intro hnil
      have hzero := congrArg List.length hnil
      simp only [List.length_append, List.length_cons, List.length_nil] at hlength hzero
      omega
    have hsame := (hall _ hend).trans (hall _ hbegin).symm
    have hlookup := congrFun (congrArg Seen.header hsame) (c.1.map tolower)
    rw [hheader _ hend, hheader _ hbegin,
      lookup_blank_last (fun d hd => h d (hend.mem_iff.mp hd)) ((hend.map _).nodup_iff.mpr hdistinct) hblank,
      lookup_first (fun d hd => h d (hbegin.mem_iff.mp hd)) hothers] at hlookup
    cases hlookup
  · intro hgiven hs' hperm
    by_cases hread : headerSize line hs ≤ maxHttpHeaderSize ∧ start.isSome
    · rcases hgiven with hnot | hone | hfilled
      · exact absurd hread hnot
      · obtain rfl : hs' = hs := by
          rcases hs with _ | ⟨c, _ | ⟨d, hs⟩⟩
          · exact hperm.eq_nil
          · exact hperm.eq_singleton
          · simp at hone
        rfl
      · obtain ⟨hsize, hsome⟩ := hread
        obtain ⟨first, hfirst⟩ := Option.isSome_iff_exists.mp hsome
        rw [reading_read hstart hfirst (by rwa [headerSize_perm line hperm]), reading_read hstart hfirst hsize]
        exact after_sameFields hafter (hstart.header _ hfirst) (hstart.encodings _ hfirst)
          (sameFields_of_perm h hdistinct hfilled hperm)
    · exact reading_refused hread hperm

/-- The same of a message with at least one header line that is read so. -/
theorem order_of_reading {seen : List Entry → Seen} (hstart : Started known start) (hafter : Unordered after)
    (h : ∀ c ∈ hs, Written c) (hdistinct : (headerNames hs).Nodup)
    (hseen : ∀ hs', hs'.Perm hs → hs ≠ [] → seen hs' = reading known start after line hs') :
    (∀ hs', hs'.Perm hs → seen hs' = seen hs) ↔
      ¬ (headerSize line hs ≤ maxHttpHeaderSize ∧ start.isSome) ∨ hs.length ≤ 1 ∨ ∀ c ∈ hs, ¬ Blank c.2 := by
  by_cases hsome : hs = []
  · subst hsome
    refine ⟨fun _ => .inr (.inl (Nat.zero_le 1)), fun _ hs' hperm => ?_⟩
    rw [hperm.eq_nil]
  · rw [← reading_order hstart hafter h hdistinct]
    refine forall₂_congr fun hs' hperm => ?_
    rw [hseen hs' hperm hsome, hseen hs (.refl _) hsome]

end Http

/-! ## Requests -/

namespace HttpRequest

def seen (x : Option Status × HttpRequest) : Http.Seen :=
  ⟨x.1, x.2.headerData.lookup, x.2.transferEncodings, x.2.contentLength⟩

/-- The request line of a fresh request; `none` if it is refused. -/
def startLine (line : Bytes) : Option Http :=
  if RequestType.requestTypeCount.toNat < (parseHeaderType line).toNat then none
  else parseHeaderUri { fresh.toHttp with requestType := parseHeaderType line } line

/-- What the body behind the header is parsed to. -/
def bodyStatus (rest : Bytes) (h : Http) (n : Nat) : Option Status :=
  (parseBody ⟨{ h with body := rest }, true, n⟩).1

theorem bodyStatus_map (rest : Bytes) (h : Http) (m : StrMap) (n : Nat) :
    bodyStatus rest { h with headerData := m } n = bodyStatus rest h n := by
  simp only [bodyStatus, parseBody, parsePostBody_eq]
  split
  · rfl
  · split
    · split
      · rfl
      · rfl
    · rfl

theorem seen_parseBody (r : HttpRequest) :
    seen (parseBody r) = ⟨(parseBody r).1, r.headerData.lookup, r.transferEncodings, r.contentLength⟩ := by
  simp only [seen, parseBody, parsePostBody_eq]
  split
  · rfl
  · split
    · split
      · rfl
      · rfl
    · rfl

theorem readHeader_startLine (line : Bytes) (lines : List Bytes) :
    readHeader { fresh with headerEnded := true } (line :: lines) =
      match startLine line with
      | none => (false, { fresh with headerEnded := true, requestType := parseHeaderType line })
      | some h =>
        match Http.announcedLength (lines.foldl Http.parseHeaderLine h) with
        | none => (false, ⟨lines.foldl Http.parseHeaderLine h, true, 0⟩)
        | some n => (true, ⟨lines.foldl Http.parseHeaderLine h, true, n⟩) := by
  rw [readHeader, startLine]
  by_cases hcount : RequestType.requestTypeCount.toNat < (parseHeaderType line).toNat
  · simp only [hcount, if_true]
  · simp only [hcount, if_false]
    cases parseHeaderUri { fresh.toHttp with requestType := parseHeaderType line } line with
    | none => rfl
    | some h =>
      simp only [Http.announcedLength]
      cases (lines.foldl Http.parseHeaderLine h).headerData.lookup (bytes "content-length") with
      | none => rfl
      | some v => simp only; cases stoull 10 v <;> rfl

theorem storeUri_keeps {h h' : Http} {str : Bytes} {uriBegin uriEnd : Nat}
    (hs : storeUri h str uriBegin uriEnd = some h') :
    h'.headerData = h.headerData ∧ h'.transferEncodings = h.transferEncodings := by
  have hset : ∀ (g : Http) (uri : Bytes),
      (g.setUri uri).headerData = g.headerData ∧ (g.setUri uri).transferEncodings = g.transferEncodings := by
    intro g uri
    unfold Http.setUri
    split
    · exact ⟨rfl, rfl⟩
    · split
      · exact ⟨rfl, rfl⟩
      · exact ⟨rfl, rfl⟩
  unfold storeUri at hs
  split at hs
  · split at hs
    · cases hs
      exact hset _ _
    · cases hs
  · obtain ⟨uri, -, rfl⟩ := Option.map_eq_some_iff.mp hs
    exact hset _ _

theorem parseHeaderUri_keeps {h h' : Http} {str : Bytes} (hs : parseHeaderUri h str = some h') :
    h'.headerData = h.headerData ∧ h'.transferEncodings = h.transferEncodings := by
  unfold parseHeaderUri at hs
  split at hs
  · simp only at hs
    split at hs
    · rename_i stored v hstore _
      cases hs
      have hkeeps := storeUri_keeps hstore
      exact hkeeps
    · cases hs
  · cases hs

/-- The first line starts with a method's name. -/
abbrev Known (line : Bytes) : Prop := ∃ t ∈ Http.methods, Http.requestTypeToString t <+: line

theorem startLine_started (line : Bytes) : Http.Started (Known line) (startLine (line ++ [CR])) := by
  have hkeeps : ∀ h, startLine (line ++ [CR]) = some h → h.headerData = ∅ ∧ h.transferEncodings = ∅ := by
    intro h hh
    unfold startLine at hh
    split at hh
    · cases hh
    · exact parseHeaderUri_keeps hh
  refine ⟨fun hsome => ?_, fun h hh => (hkeeps h hh).1, fun h hh => (hkeeps h hh).2⟩
  unfold startLine at hsome
  split at hsome
  · cases hsome
  · rename_i hcount
    unfold parseHeaderType at hcount
    split at hcount
    · rename_i typeEnd _
      obtain ⟨hmethod, hstarts⟩ := Http.method_of_le hcount
      have hline := hstarts.trans (List.take_prefix typeEnd _)
      exact ⟨_, hmethod, prefix_sep (Http.method_free hmethod (by decide)) hline⟩
    · exact absurd (by decide) hcount

theorem unknown_iff {line s : Bytes} (hlen : 6 ≤ (line ++ CR :: s).length) :
    Http.stringToRequestType (line ++ CR :: s) = .unknown ↔ ¬ Known line := by
  constructor
  · intro hunknown hgiven
    obtain ⟨t, ht, hstarts⟩ := hgiven
    rw [Http.stringToRequestType_method ht (hstarts.trans (List.prefix_append _ _))] at hunknown
    subst hunknown
    exact absurd ht (by decide)
  · intro hnot
    rcases Http.stringToRequestType_cases (line ++ CR :: s) with ⟨hmethod, hstarts⟩ | hunknown | ⟨-, hshort⟩
    · exact absurd ⟨_, hmethod, prefix_sep (Http.method_free hmethod (by decide)) hstarts⟩ hnot
    · exact hunknown
    · omega

/-- One call of `parse` on a whole message. -/
theorem seen_message {line : Bytes} {hs : List Entry} (hline : LF ∉ line) (h : ∀ c ∈ hs, Http.Written c)
    (hsome : hs ≠ []) (rest : Bytes) :
    seen (parse fresh (Http.message line hs rest)) =
      Http.reading (Known line) (startLine (line ++ [CR])) (Http.afterHeader (bodyStatus rest)) line hs := by
  obtain ⟨hlen, hend, hsplit, hdrop⟩ := Http.message_shape hline h hsome rest
  obtain ⟨s, htext⟩ := Http.message_line line hs rest
  have hunknown : Http.message line hs rest ≠ [] ∧ Http.stringToRequestType (Http.message line hs rest) = .unknown ↔
      ¬ Known line := by
    rw [htext] at hlen ⊢
    rw [unknown_iff hlen]
    exact and_iff_right (by simp)
  have hread : readHead ((Http.message line hs rest).take (Http.headerSize line hs)) =
      readHeader { fresh with headerEnded := true } ((line ++ [CR]) :: Http.received (hs.map Http.fieldText)) := by
    rw [readHead, hsplit]
  rw [parse_fresh]
  unfold Http.reading
  by_cases hknown : Known line
  · rw [if_pos hknown, if_neg (fun hu => hunknown.mp hu hknown), hend]
    simp only
    by_cases hsize : maxHttpHeaderSize < Http.headerSize line hs
    · rw [if_pos hsize, if_pos hsize]
      rfl
    · rw [if_neg hsize, if_neg hsize, hread, hdrop, readHeader_startLine]
      cases startLine (line ++ [CR]) with
      | none => rfl
      | some first =>
        simp only [Http.afterHeader]
        cases Http.announcedLength ((Http.received (hs.map Http.fieldText)).foldl Http.parseHeaderLine first) with
        | none => rfl
        | some n => exact seen_parseBody _
  · rw [if_neg hknown, if_pos (hunknown.mpr hknown)]
    rfl

end HttpRequest

/-! ## Responses -/

namespace HttpResponse

def seen (x : Option Status × HttpResponse) : Http.Seen :=
  ⟨x.1, x.2.headerData.lookup, x.2.transferEncodings, x.2.contentLength⟩

/-- What the body behind the header is parsed to. -/
def bodyStatus (rest : Bytes) (h : Http) (n : Nat) : Option Status :=
  (parseBody ⟨{ h with body := rest }, true, n, 0⟩).1

theorem bodyStatus_map (rest : Bytes) (h : Http) (m : StrMap) (n : Nat) :
    bodyStatus rest { h with headerData := m } n = bodyStatus rest h n := by
  simp only [bodyStatus, parseBody]
  split
  · rfl
  · split
    · rfl
    · split
      · rfl
      · split
        · rfl
        · rfl

theorem seen_parseBody (r : HttpResponse) :
    seen (parseBody r) = ⟨(parseBody r).1, r.headerData.lookup, r.transferEncodings, r.contentLength⟩ := by
  simp only [seen, parseBody]
  split
  · rfl
  · split
    · rfl
    · split
      · rfl
      · split
        · rfl
        · rfl

/-- The status line of a fresh response; `none` if it is refused. -/
def startLine (line : Bytes) : Option Http :=
  if bytes "HTTP" <+: line then parseStatusLine fresh.toHttp line else none

theorem readHeader_startLine {line : Bytes} (hhttp : bytes "HTTP" <+: line) (lines : List Bytes) :
    readHeader { fresh with headerEnded := true } (line :: lines) =
      match startLine line with
      | none => (false, { fresh with headerEnded := true })
      | some h =>
        match Http.announcedLength (lines.foldl Http.parseHeaderLine h) with
        | none => (false, ⟨lines.foldl Http.parseHeaderLine h, true, 0, 0⟩)
        | some n => (true, ⟨lines.foldl Http.parseHeaderLine h, true, n, 0⟩) := by
  rw [readHeader, startLine, if_pos hhttp]
  simp only
  cases parseStatusLine fresh.toHttp line with
  | none => rfl
  | some h =>
    simp only [Http.announcedLength]
    cases (lines.foldl Http.parseHeaderLine h).headerData.lookup (bytes "content-length") with
    | none => rfl
    | some v => simp only; cases stoull 10 v <;> rfl

theorem startLine_started (line : Bytes) : Http.Started (bytes "HTTP" <+: line) (startLine (line ++ [CR])) := by
  have hread : ∀ h, startLine (line ++ [CR]) = some h →
      bytes "HTTP" <+: line ∧ h.headerData = ∅ ∧ h.transferEncodings = ∅ := by
    intro h hh
    unfold startLine at hh
    split at hh
    · rename_i hhttp
      obtain ⟨code, version, rfl, -⟩ := status_read hh
      exact ⟨prefix_sep (by decide) hhttp, rfl, rfl⟩
    · cases hh
  refine ⟨fun hsome => ?_, fun h hh => (hread h hh).2.1, fun h hh => (hread h hh).2.2⟩
  obtain ⟨h, hh⟩ := Option.isSome_iff_exists.mp hsome
  exact (hread h hh).1

/-- One call of `parse` on a whole message. -/
theorem seen_message {line : Bytes} {hs : List Entry} (hline : LF ∉ line) (h : ∀ c ∈ hs, Http.Written c)
    (hsome : hs ≠ []) (rest : Bytes) :
    seen (parse fresh (Http.message line hs rest)) =
      Http.reading (bytes "HTTP" <+: line) (startLine (line ++ [CR])) (Http.afterHeader (bodyStatus rest)) line hs := by
  obtain ⟨hlen, hend, hsplit, hdrop⟩ := Http.message_shape hline h hsome rest
  obtain ⟨s, htext⟩ := Http.message_line line hs rest
  have hunknown : 4 ≤ (Http.message line hs rest).length ∧ (Http.message line hs rest).take 4 ≠ bytes "HTTP" ↔
      ¬ bytes "HTTP" <+: line := by
    have hstarts : bytes "HTTP" <+: Http.message line hs rest ↔ bytes "HTTP" <+: line := by
      rw [htext]
      exact ⟨prefix_sep (by decide), fun hp => hp.trans (List.prefix_append _ _)⟩
    rw [← hstarts, List.prefix_iff_eq_take, eq_comm, and_iff_right (by omega)]
    rfl
  have hread : readHead ((Http.message line hs rest).take (Http.headerSize line hs)) =
      readHeader { fresh with headerEnded := true } ((line ++ [CR]) :: Http.received (hs.map Http.fieldText)) := by
    rw [readHead, hsplit]
  rw [parse_fresh]
  unfold Http.reading
  by_cases hknown : bytes "HTTP" <+: line
  · rw [if_pos hknown, if_neg (fun hu => hunknown.mp hu hknown), hend]
    simp only
    by_cases hsize : maxHttpHeaderSize < Http.headerSize line hs
    · rw [if_pos hsize, if_pos hsize]
      rfl
    · rw [if_neg hsize, if_neg hsize, hread, hdrop,
        readHeader_startLine (hknown.trans (List.prefix_append _ _))]
      cases startLine (line ++ [CR]) with
      | none => rfl
      | some first =>
        simp only [Http.afterHeader]
        cases Http.announcedLength ((Http.received (hs.map Http.fieldText)).foldl Http.parseHeaderLine first) with
        | none => rfl
        | some n => exact seen_parseBody _
  · rw [if_neg hknown, if_pos (hunknown.mpr hknown)]
    rfl

end HttpResponse

/-- A message of either class whose first line is any, and whose headers have distinct
    names and printable values: in every order of its header lines the same is seen of it
    exactly when the header is not read at all, has at most one line, or no value in it is
    blank. -/
theorem header_order {line : Bytes} (hline : LF ∉ line) {hs : List Entry} (h : ∀ c ∈ hs, Http.Written c)
    (hdistinct : (Http.headerNames hs).Nodup) (rest : Bytes) :
    ((∀ hs', hs'.Perm hs →
        HttpRequest.seen (HttpRequest.parse .fresh (Http.message line hs' rest)) =
          HttpRequest.seen (HttpRequest.parse .fresh (Http.message line hs rest))) ↔
      ¬ (Http.headerSize line hs ≤ maxHttpHeaderSize ∧ (HttpRequest.startLine (line ++ [CR])).isSome) ∨
        hs.length ≤ 1 ∨ ∀ c ∈ hs, ¬ Http.Blank c.2) ∧
    ((∀ hs', hs'.Perm hs →
        HttpResponse.seen (HttpResponse.parse .fresh (Http.message line hs' rest)) =
          HttpResponse.seen (HttpResponse.parse .fresh (Http.message line hs rest))) ↔
      ¬ (Http.headerSize line hs ≤ maxHttpHeaderSize ∧ (HttpResponse.startLine (line ++ [CR])).isSome) ∨
        hs.length ≤ 1 ∨ ∀ c ∈ hs, ¬ Http.Blank c.2) := by
  have hany : ∀ hs', hs'.Perm hs → hs ≠ [] → (∀ c ∈ hs', Http.Written c) ∧ hs' ≠ [] := by
    intro hs' hperm hsome
    refine ⟨fun c hc => h c (hperm.mem_iff.mp hc), fun hnil => hsome ?_⟩
    rw [hnil] at hperm
    exact hperm.nil_eq.symm
  constructor
  · refine Http.order_of_reading (HttpRequest.startLine_started line)
      (Http.afterHeader_unordered (HttpRequest.bodyStatus_map rest)) h hdistinct fun hs' hperm hsome => ?_
    obtain ⟨h', hsome'⟩ := hany hs' hperm hsome
    exact HttpRequest.seen_message hline h' hsome' rest
  · refine Http.order_of_reading (HttpResponse.startLine_started line)
      (Http.afterHeader_unordered (HttpResponse.bodyStatus_map rest)) h hdistinct fun hs' hperm hsome => ?_
    obtain ⟨h', hsome'⟩ := hany hs' hperm hsome
    exact HttpResponse.seen_message hline h' hsome' rest

/-- No value is blank, though one begins with a space. -/
def filledHeaders : List Entry := [⟨bytes "Host", bytes " b"⟩, ⟨bytes "Content-Length", bytes "2"⟩]

/-- The length is not given. -/
def blankHeaders : List Entry := [⟨bytes "Host", bytes "b"⟩, ⟨bytes "Content-Length", []⟩]

theorem written_sample {hs : List Entry} (h : hs = filledHeaders ∨ hs = blankHeaders) :
    (∀ c ∈ hs, Http.Written c) ∧ (Http.headerNames hs).Nodup := by
  have hall : (∀ c ∈ hs, 58 ∉ c.1 ∧ LF ∉ c.1 ∧ c.2.all isPrint = true) ∧ (Http.headerNames hs).Nodup := by
    rcases h with rfl | rfl
    · decide
    · decide
  refine ⟨fun c hc => ?_, hall.2⟩
  obtain ⟨hcolon, hbreak, hprint⟩ := hall.1 c hc
  exact ⟨hcolon, hbreak, List.all_eq_true.mp hprint⟩

theorem header_order_sample :
    HttpRequest.seen (HttpRequest.parse .fresh (Http.message (bytes "GET / HTTP/1.1") filledHeaders.reverse (bytes "hi"))) =
        HttpRequest.seen (HttpRequest.parse .fresh (Http.message (bytes "GET / HTTP/1.1") filledHeaders (bytes "hi"))) ∧
      HttpResponse.seen (HttpResponse.parse .fresh (Http.message (bytes "HTTP/1.1 200 OK") filledHeaders.reverse (bytes "hi"))) =
        HttpResponse.seen (HttpResponse.parse .fresh (Http.message (bytes "HTTP/1.1 200 OK") filledHeaders (bytes "hi"))) := by
  obtain ⟨h, hdistinct⟩ := written_sample (.inl rfl)
  have hrequestLine : LF ∉ bytes "GET / HTTP/1.1" := by decide
  have hresponseLine : LF ∉ bytes "HTTP/1.1 200 OK" := by decide
  have hfilled : ∀ c ∈ filledHeaders, ¬ Http.Blank c.2 := by decide
  obtain ⟨hrequest, -⟩ := header_order hrequestLine h hdistinct (bytes "hi")
  obtain ⟨-, hresponse⟩ := header_order hresponseLine h hdistinct (bytes "hi")
  exact ⟨hrequest.mpr (.inr (.inr hfilled)) _ filledHeaders.reverse_perm,
    hresponse.mpr (.inr (.inr hfilled)) _ filledHeaders.reverse_perm⟩

/-- The blank length is overlooked in the last line, and refused in any other. -/
theorem header_order_not :
    (¬ ∀ (line : Bytes) (hs hs' : List Entry), LF ∉ line → (∀ c ∈ hs, Http.Written c) → (Http.headerNames hs).Nodup →
      hs'.Perm hs → HttpRequest.seen (HttpRequest.parse .fresh (Http.message line hs' [])) =
        HttpRequest.seen (HttpRequest.parse .fresh (Http.message line hs []))) ∧
    ¬ ∀ (line : Bytes) (hs hs' : List Entry), LF ∉ line → (∀ c ∈ hs, Http.Written c) → (Http.headerNames hs).Nodup →
      hs'.Perm hs → HttpResponse.seen (HttpResponse.parse .fresh (Http.message line hs' [])) =
        HttpResponse.seen (HttpResponse.parse .fresh (Http.message line hs [])) := by
  obtain ⟨hwritten, hdistinct⟩ := written_sample (.inr rfl)
  constructor
  · intro h
    have hseen := h (bytes "GET / HTTP/1.1") _ _ (by decide) hwritten hdistinct blankHeaders.reverse_perm
    have hstatus := congrArg Http.Seen.status hseen
    exact absurd hstatus (by decide +kernel)
  · intro h
    have hseen := h (bytes "HTTP/1.1 200 OK") _ _ (by decide) hwritten hdistinct blankHeaders.reverse_perm
    have hstatus := congrArg Http.Seen.status hseen
    exact absurd hstatus (by decide +kernel)

end Frnetlib
