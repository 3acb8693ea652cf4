/-
  Frnetlib.Http.BodyEnd — where the body of a response ends when more bytes came behind it.

  A body is framed by its length or by chunks (`Framing`). What the parser holds when it
  returns Success is a function of what was fed behind the header: the first bytes of it,
  for a length that is not 0, and all of it for the length 0 (`parseBody_cut`); for
  chunks the payloads, and then what the loop has not looked at (`parseBody_loop`). So the
  body is the framed one where the length is not 0, or where nothing came behind it
  (`body_end`).
-/

import Frnetlib.Http.Buffering
import Frnetlib.Http.Chunked
import Frnetlib.Http.Stored

namespace Frnetlib

open Base

/-! ## Framing -/

/-- The fields of a header with these lines, as they are read. -/
def Http.fields (lines : List Bytes) : List Entry := (Http.received lines).filterMap Http.lineField

/-- A field names the chunked encoding. -/
def Http.NamesChunked (fields : List Entry) : Prop :=
  ∃ c ∈ fields, c.1 = bytes "transfer-encoding" ∧
    TransferEncoding.chunked ∈ (Http.splitString c.2 44 true).map Http.stringToTransferEncoding

/-- A body in chunks: the last one is empty, and fields may come behind its line. -/
structure ChunkedBody where
  chunks : List Chunk
  last : Chunk
  trailers : List Bytes
  some : ∀ c ∈ chunks, c.payload ≠ []
  closes : last.payload = []
  plain : ∀ l ∈ trailers, Http.Plain l

namespace ChunkedBody

/-- The chunks and the line of the last one. -/
def front (b : ChunkedBody) : Bytes := b.chunks.flatMap Chunk.encode ++ (b.last.digits ++ b.last.extension ++ crlf)

def raw (b : ChunkedBody) : Bytes := b.front ++ Http.block b.trailers

def payloads (b : ChunkedBody) : Bytes := b.chunks.flatMap Chunk.payload

end ChunkedBody

inductive Framing where
  | length (digits body : Bytes)
  | chunked (body : ChunkedBody)

namespace Framing

/-- What is sent behind the header. -/
def raw : Framing → Bytes
  | length _ body => body
  | chunked b => b.raw

def body : Framing → Bytes
  | length _ body => body
  | chunked b => b.payloads

/-- The fields of the header say so. -/
def Announced (fields : List Entry) : Framing → Prop
  | length digits body =>
    (∃ spaces, fields.dlookup (bytes "content-length") = some (digits ++ spaces) ∧ ∀ b ∈ spaces, b = SP) ∧
      digits ≠ [] ∧ (∀ b ∈ digits, isDigit 10 b = true) ∧ digitsVal 10 digits = body.length ∧
      ¬ Http.NamesChunked fields
  | chunked _ => Http.NamesChunked fields

/-- The parser's body is the framed one when `behind` has been fed behind the header. To the
    code a length of 0 is no length; and of a body in chunks it takes nothing away behind
    the two bytes that follow the last line. -/
def Exact (behind : Bytes) : Framing → Prop
  | length _ body => body ≠ [] ∨ behind = []
  | chunked b => (∀ c ∈ b.chunks, c.payload.length < 2 ^ 32) ∧ behind.length ≤ b.front.length + 2

end Framing

namespace HttpResponse

/-! ## The header -/

theorem readHeader_fields {line : Bytes} {lines : List Bytes} {r : HttpResponse}
    (h : readHeader { fresh with headerEnded := true } (Http.received (line :: lines)) = (true, r)) :
    (∀ v, (Http.fields lines).dlookup (bytes "content-length") = some v → stoull 10 v = some r.contentLength) ∧
      (TransferEncoding.chunked ∈ r.transferEncodings ↔ Http.NamesChunked (Http.fields lines)) := by
  rw [Http.received_cons, readHeader] at h
  cases hstatus : parseStatusLine fresh.toHttp (if lines = [] then line else line ++ [CR]) with
  | none =>
    rw [show parseStatusLine ({ fresh with headerEnded := true } : HttpResponse).toHttp _ = none from hstatus] at h
    cases h
  | some status =>
    rw [show parseStatusLine ({ fresh with headerEnded := true } : HttpResponse).toHttp _ = some status from hstatus] at h
    have hencodings : status.transferEncodings = ∅ ∧ status.headerData = ∅ := by
      obtain ⟨code, version, rfl, -⟩ := status_read hstatus
      exact ⟨rfl, rfl⟩
    have hlookup := Http.lookup_lines status (Http.received lines) (bytes "content-length")
    rw [hencodings.2, AList.lookup_empty, Option.none_or] at hlookup
    have hread := Http.parseHeaderLines_eq status (Http.received lines)
    have hchunked : TransferEncoding.chunked ∈ ((Http.received lines).foldl Http.parseHeaderLine status).transferEncodings ↔
        Http.NamesChunked (Http.fields lines) := by
      rw [hread]
      simp only
      rw [Http.mem_addEncodings, hencodings.1]
      simp [Http.NamesChunked, Http.fields]
    simp only at h
    generalize (Http.received lines).foldl Http.parseHeaderLine status = stored at h hlookup hchunked
    rw [Http.fields, ← hlookup]
    cases hlength : stored.headerData.lookup (bytes "content-length") with
    | none =>
      rw [hlength] at h
      cases h
      refine ⟨?_, hchunked⟩
      intro v hv
      cases hv
    | some v =>
      rw [hlength] at h
      simp only at h
      cases hn : stoull 10 v with
      | none =>
        rw [hn] at h
        cases h
      | some n =>
        rw [hn] at h
        cases h
        refine ⟨?_, hchunked⟩
        intro v' hv
        cases hv
        exact hn

theorem parseBody_header (r : HttpResponse) : (parseBody r).2.headerEnded = r.headerEnded ∧
    (parseBody r).2.contentLength = r.contentLength ∧ (parseBody r).2.transferEncodings = r.transferEncodings := by
  unfold parseBody
  split
  · exact ⟨rfl, rfl, rfl⟩
  · split
    · exact ⟨rfl, rfl, rfl⟩
    · split
      · exact ⟨rfl, rfl, rfl⟩
      · split
        · exact ⟨rfl, rfl, rfl⟩
        · exact ⟨rfl, rfl, rfl⟩

/-! ## What the parser holds of a message -/

variable {head rest : Bytes} {r₀ : HttpResponse}

/-- The header has ended, and `s` was fed behind it: what the body is then. -/
structure Behind (r₀ : HttpResponse) (s : Bytes) (r : HttpResponse) : Prop where
  ended : r.headerEnded = true
  length : r.contentLength = r₀.contentLength
  encodings : r.transferEncodings = r₀.transferEncodings
  plain : TransferEncoding.chunked ∉ r₀.transferEncodings → r.body = s
  loop : TransferEncoding.chunked ∈ r₀.transferEncodings →
    ∃ got left, r.body = got ++ left ∧ r.chunkOffset = got.length ∧ Decoded s got left

theorem Behind.start {s : Bytes} (hended : r₀.headerEnded = true) (hoffset : r₀.chunkOffset = 0) :
    Behind r₀ s { r₀ with body := s } :=
  ⟨hended, rfl, rfl, fun _ => rfl, fun _ => ⟨[], s, rfl, hoffset, .nil s⟩⟩

theorem Behind.fed {s : Bytes} {r : HttpResponse} (h : Behind r₀ s r) (p : Bytes) :
    Behind r₀ (s ++ p) { r with body := r.body ++ p } := by
  refine ⟨h.ended, h.length, h.encodings, ?_, ?_⟩
  · intro hc
    rw [← h.plain hc]
  · intro hc
    obtain ⟨got, left, hbody, hoffset, hdecoded⟩ := h.loop hc
    refine ⟨got, left ++ p, ?_, hoffset, hdecoded.append p⟩
    simp only [hbody, List.append_assoc]

theorem Behind.more {s : Bytes} {r : HttpResponse} (h : Behind r₀ s r) (hmore : (parseBody r).1 = some .notEnoughData) :
    Behind r₀ s (parseBody r).2 := by
  obtain ⟨hended, hlength, hencodings⟩ := parseBody_header r
  refine ⟨hended.trans h.ended, hlength.trans h.length, hencodings.trans h.encodings, ?_, ?_⟩
  · intro hc
    rcases parseBody_more hmore with ⟨-, ⟨hc', -⟩ | ⟨-, hstate⟩⟩
    · rw [h.encodings] at hc'
      exact absurd hc' hc
    · rw [hstate, h.plain hc]
  · intro hc
    rcases parseBody_more hmore with ⟨hmax, ⟨-, body', chunkOffset', hchunks, hstate⟩ | ⟨hc', -⟩⟩
    · obtain ⟨got, left, hbody, hoffset, hdecoded⟩ := h.loop hc
      rw [hbody, hoffset] at hchunks
      rw [hbody] at hmax
      obtain ⟨-, hle, hdecoded', -⟩ := chunks_buffer hdecoded hmax hchunks
      refine ⟨body'.take chunkOffset', body'.drop chunkOffset', ?_, ?_, hdecoded'⟩
      · rw [hstate, List.take_append_drop]
      · rw [hstate, List.length_take, Nat.min_eq_left hle]
    · rw [h.encodings] at hc'
      exact absurd hc hc'

/-- What is fed to a fresh object of a message with this header. -/
theorem fresh_behind (hclosed : Http.Closed head) {u : Bytes} (hu : u <+: head ++ rest)
    (h : (parse fresh u).1 = some .notEnoughData ∨ (parse fresh u).1 = some .success) :
    parse fresh u = (some .notEnoughData, waiting u) ∨
      ∃ r s, readHead (head.take (head.length - 4)) = (true, r) ∧ u = head ++ s ∧
        parse fresh u = parseBody { r with body := s } := by
  rcases parse_fresh_cases h with ⟨-, ⟨-, -, hwaiting⟩ | ⟨e, n, r, hend, -, hread, hparse⟩⟩
  · exact .inl hwaiting
  · rcases hclosed.cut hu with ⟨hnone, -⟩ | ⟨s, -, rfl⟩
    · rw [hnone] at hend
      cases hend
    · have hlength := hclosed.length
      rw [hclosed.headerEnd s] at hend
      cases hend
      rw [List.take_append_of_le_length (by omega)] at hread
      rw [List.drop_left' (by omega)] at hparse
      exact .inr ⟨r, s, hread, rfl, hparse⟩

/-- The run, by the last piece. -/
theorem feed_behind (hclosed : Http.Closed head) {ps : List Bytes} (hps : ps.flatten <+: head ++ rest)
    (hmore : ∀ a ∈ (feed parse fresh ps).1, a = some .notEnoughData) :
    (feed parse fresh ps).2 = waiting ps.flatten ∨
      ∃ r s, readHead (head.take (head.length - 4)) = (true, r) ∧ ps.flatten = head ++ s ∧
        Behind r s (feed parse fresh ps).2 := by
  induction ps using List.reverseRecOn with
  | nil => exact .inl rfl
  | append_singleton ps p ih =>
    have hflat : (ps ++ [p]).flatten = ps.flatten ++ p := by rw [List.flatten_append, List.flatten_singleton]
    rw [feed_snoc] at hmore ⊢
    rw [hflat] at hps ⊢
    have hlast := hmore _ (List.mem_append_right _ (List.mem_singleton.mpr rfl))
    obtain hwaiting | ⟨r, s, hread, hs, hbehind⟩ :=
      ih ((List.prefix_append _ _).trans hps) fun a ha => hmore a (List.mem_append_left _ ha)
    · simp only [hwaiting] at hlast ⊢
      rw [parse_waiting] at hlast ⊢
      rcases fresh_behind hclosed hps (.inl hlast) with hwaits | ⟨r, s, hread, hs, hparse⟩
      · exact .inl (by rw [hwaits])
      · obtain ⟨hended, hoffset⟩ := readHead_ended hread
        rw [hparse] at hlast ⊢
        exact .inr ⟨r, s, hread, hs, (Behind.start hended hoffset).more hlast⟩
    · simp only at hlast ⊢
      rw [parse_ended hbehind.ended] at hlast ⊢
      refine .inr ⟨r, s ++ p, hread, ?_, (hbehind.fed p).more hlast⟩
      rw [hs, List.append_assoc]

/-- And the call after it that returns Success. -/
theorem feed_success (hclosed : Http.Closed head) {ps : List Bytes} {p : Bytes} (hps : (ps ++ [p]).flatten <+: head ++ rest)
    (hmore : ∀ a ∈ (feed parse fresh ps).1, a = some .notEnoughData)
    (hsuccess : (parse (feed parse fresh ps).2 p).1 = some .success) :
    ∃ r s r', readHead (head.take (head.length - 4)) = (true, r) ∧ (ps ++ [p]).flatten = head ++ s ∧
      Behind r s r' ∧ parse (feed parse fresh ps).2 p = parseBody r' := by
  rw [List.flatten_append, List.flatten_singleton] at hps ⊢
  rcases feed_behind hclosed ((List.prefix_append _ _).trans hps) hmore with hwaiting | ⟨r, s, hread, hs, hbehind⟩
  · rw [hwaiting, parse_waiting] at hsuccess ⊢
    rcases fresh_behind hclosed hps (.inr hsuccess) with hwaits | ⟨r, s, hread, hs, hparse⟩
    · rw [hwaits] at hsuccess
      cases hsuccess
    · obtain ⟨hended, hoffset⟩ := readHead_ended hread
      exact ⟨r, s, _, hread, hs, .start hended hoffset, hparse⟩
  · refine ⟨r, s ++ p, _, hread, ?_, hbehind.fed p, parse_ended hbehind.ended p⟩
    rw [hs, List.append_assoc]

/-! ## The body in chunks -/

/-- The chunks up to the one that closes the body, and what is behind it, are determined. -/
theorem Decoded.unique {raw got left behind got' left' behind' : Bytes} (h : Decoded raw got left) (hend : Closes left behind)
    (h' : Decoded raw got' left') (hend' : Closes left' behind') : got = got' ∧ behind = behind' := by
  -- a chunk that is completed does not close the body
  have hclash : ∀ {raw line payload ends raw' behind : Bytes} {n : Nat}, LengthLine raw line (payload ++ (ends ++ raw')) →
      stoull 16 line = some n → payload.length = n % 2 ^ 32 → payload ≠ [] → ¬ Closes raw behind := by
    intro raw line payload ends raw' behind n hline hn hlength hne hcloses
    obtain ⟨line', tail', n', hline', hn', hzero, -, -⟩ := hcloses
    obtain ⟨rfl, -⟩ := hline.unique hline'
    rw [hn] at hn'
    cases hn'
    exact hne (List.eq_nil_of_length_eq_zero (hlength.trans hzero))
  induction h generalizing got' with
  | nil raw =>
    cases h' with
    | nil =>
      obtain ⟨line, tail, n, hline, -, -, -, rfl⟩ := hend
      obtain ⟨line', tail', n', hline', -, -, -, rfl⟩ := hend'
      obtain ⟨-, rfl⟩ := hline.unique hline'
      exact ⟨rfl, rfl⟩
    | chunk hline hn hlength hne _ _ => exact absurd hend (hclash hline hn hlength hne)
  | chunk hline hn hlength hne hends _ ih =>
    cases h' with
    | nil => exact absurd hend' (hclash hline hn hlength hne)
    | chunk hline' hn' hlength' hne' hends' h' =>
      obtain ⟨rfl, htail⟩ := hline.unique hline'
      rw [hn] at hn'
      cases hn'
      obtain ⟨rfl, hbehind⟩ := List.append_inj htail (hlength.trans hlength'.symm)
      obtain ⟨-, rfl⟩ := List.append_inj hbehind (hends.trans hends'.symm)
      obtain ⟨rfl, hsame⟩ := ih hend h'
      exact ⟨rfl, hsame⟩

theorem Closes.length_le {left behind : Bytes} (h : Closes left behind) : behind.length ≤ left.length := by
  obtain ⟨line, tail, n, hline, -, -, -, rfl⟩ := h
  have hlength := hline.length
  rw [List.length_drop]
  omega

theorem Closes.append {left behind : Bytes} (h : Closes left behind) (p : Bytes) : Closes (left ++ p) (behind ++ p) := by
  obtain ⟨line, tail, n, hline, hn, hzero, hlong, rfl⟩ := h
  refine ⟨line, tail ++ p, n, hline.append p, hn, hzero, ?_, ?_⟩
  · rw [List.length_append]
    omega
  · rw [List.drop_append_of_le_length hlong]

/-- The length line of a chunk, and what is behind it. -/
theorem chunk_line (c : Chunk) (tail : Bytes) :
  LengthLine (c.digits ++ c.extension ++ (crlf ++ tail)) (c.digits ++ c.extension) tail :=
  ⟨rfl, c.find_end tail⟩

/-- Chunks of less than 2^32 bytes are completed as they are. -/
theorem decoded_chunks {cs : List Chunk} (hne : ∀ c ∈ cs, c.payload ≠ []) (hmax : ∀ c ∈ cs, c.payload.length < 2 ^ 32)
    (left : Bytes) :
    Decoded (cs.flatMap Chunk.encode ++ left) (cs.flatMap Chunk.payload) left := by
  induction cs with
  | nil => exact .nil left
  | cons c cs ih =>
    have ih := ih (fun c hc => hne c (List.mem_cons_of_mem _ hc)) fun c hc => hmax c (List.mem_cons_of_mem _ hc)
    have hc := hmax c (by simp)
    have hline := chunk_line c (c.payload ++ (crlf ++ (cs.flatMap Chunk.encode ++ left)))
    rw [List.flatMap_cons, List.flatMap_cons]
    refine .chunk (n := c.payload.length) ?_ (c.stoull_length (by omega)) (Nat.mod_eq_of_lt hc).symm
      (hne c (by simp)) (show crlf.length = 2 from rfl) ih
    rw [Chunk.encode_eq]
    simpa using hline

theorem closes_last {c : Chunk} (hc : c.payload = []) {tail : Bytes} (hlong : 2 ≤ tail.length) :
    Closes (c.digits ++ c.extension ++ (crlf ++ tail)) (tail.drop 2) := by
  have hn := c.stoull_length (by rw [hc]; decide)
  rw [hc] at hn
  exact ⟨_, tail, 0, chunk_line c tail, hn, rfl, hlong, rfl⟩

/-- The chunks of a body, with more behind it. -/
theorem decoded_body (b : ChunkedBody) (hmax : ∀ c ∈ b.chunks, c.payload.length < 2 ^ 32) (t : Bytes) :
    Decoded (b.raw ++ t) b.payloads
      (b.last.digits ++ b.last.extension ++ (crlf ++ (Http.block b.trailers ++ t))) := by
  have hraw : b.raw ++ t = b.chunks.flatMap Chunk.encode ++
      (b.last.digits ++ b.last.extension ++ (crlf ++ (Http.block b.trailers ++ t))) := by
    simp only [ChunkedBody.raw, ChunkedBody.front, List.append_assoc]
  rw [hraw]
  exact decoded_chunks b.some hmax _

/-- What the loop leaves when it returns Success. -/
theorem parseBody_loop {s : Bytes} {r : HttpResponse} (hc : TransferEncoding.chunked ∈ r.transferEncodings)
    {got left : Bytes} (hbody : r.body = got ++ left) (hoffset : r.chunkOffset = got.length) (hdecoded : Decoded s got left)
    (h : (parseBody r).1 = some .success) :
    ∃ got left behind, Decoded s got left ∧ Closes left behind ∧ (parseBody r).2.body = got ++ behind ∧
      (got ++ behind).length ≤ maxHttpBodySize := by
  by_cases hmax : maxHttpBodySize < r.body.length
  · rw [parseBody, if_pos hmax] at h
    cases h
  · rw [hbody, List.length_append] at hmax
    rw [parseBody_chunked hc (by rw [hbody, List.length_append]; omega), hbody, hoffset] at h ⊢
    obtain ⟨got', left', hdecoded', hend⟩ := decoded_exists left (by omega)
    rw [chunks_decoded hdecoded'] at h ⊢
    rcases hend with hwaits | hthrows | ⟨behind, hcloses⟩
    · rw [chunks_waits hwaits] at h
      cases h
    · rw [chunks_throw hthrows] at h
      cases h
    · rw [chunks_closes hcloses]
      refine ⟨got ++ got', left', behind, hdecoded.trans hdecoded', hcloses, rfl, ?_⟩
      have hlength := hdecoded'.length_le
      have hshort := hcloses.length_le
      simp only [List.length_append]
      omega

/-- What is left of a body that is announced by its length. -/
theorem parseBody_cut {r : HttpResponse} (hc : TransferEncoding.chunked ∉ r.transferEncodings)
    (h : (parseBody r).1 = some .success) :
    r.contentLength ≤ r.body.length ∧
      (parseBody r).2.body = if r.contentLength = 0 then r.body else r.body.take r.contentLength := by
  by_cases hmax : maxHttpBodySize < r.body.length
  · rw [parseBody, if_pos hmax] at h
    cases h
  · rw [parseBody, if_neg hmax, if_neg hc] at h ⊢
    by_cases hcut : 0 < r.contentLength ∧ r.contentLength < r.body.length
    · rw [if_pos hcut, if_neg (by omega)]
      exact ⟨by omega, rfl⟩
    · rw [if_neg hcut] at h ⊢
      by_cases hmore : r.body.length < r.contentLength
      · rw [if_pos hmore] at h
        cases h
      · rw [if_neg hmore]
        refine ⟨by omega, ?_⟩
        by_cases hzero : r.contentLength = 0
        · rw [if_pos hzero]
        · rw [if_neg hzero, List.take_of_length_le (by omega)]

/-! ## Where the body ends -/

/-- The calls on a response with this header and framing, and `t` behind it: those on `qs`
    asked for more, and the one on `q` returned Success. -/
structure Succeeds (line : Bytes) (lines : List Bytes) (framing : Framing) (t : Bytes) (qs : List Bytes) (q : Bytes) : Prop where
  http : bytes "HTTP" <+: line
  plain : ∀ l ∈ line :: lines, Http.Plain l
  announced : framing.Announced (Http.fields lines)
  fed : (qs ++ [q]).flatten <+: Http.block (line :: lines) ++ (framing.raw ++ t)
  more : ∀ a ∈ (feed parse fresh qs).1, a = some .notEnoughData
  success : (parse (feed parse fresh qs).2 q).1 = some .success

/-- A body that is announced by its length. -/
theorem body_end_length {digits body t s : Bytes} {r : HttpResponse} {fields : List Entry} {n : Nat}
    (hannounced : (Framing.length digits body).Announced fields)
    (hlength : ∀ v, fields.dlookup (bytes "content-length") = some v → stoull 10 v = some n)
    (hc : TransferEncoding.chunked ∉ r.transferEncodings) (hn : r.contentLength = n) (hs : r.body = s) (hfed : s <+: body ++ t)
    (hsuccess : (parseBody r).1 = some .success) :
    (parseBody r).2.body = body ↔ (Framing.length digits body).Exact s := by
  obtain ⟨⟨spaces, hfield, hspaces⟩, hsome, hdigits, hvalue, -⟩ := hannounced
  have hn' : n = body.length := by
    have hends : EndsDigits 10 spaces := by
      intro b hb
      cases hspaces b (List.mem_of_mem_head? hb)
      decide
    have hread := hlength _ hfield
    rw [stoull, strtoul_digits (by decide) hsome hdigits hends, hvalue] at hread
    simp only [Bool.false_eq_true, if_false] at hread
    by_cases hfits : body.length < 2 ^ 64
    · rw [if_neg (by omega)] at hread
      exact (Option.some.inj hread).symm
    · rw [if_pos (by omega)] at hread
      cases hread
  obtain ⟨hthere, hkept⟩ := parseBody_cut hc hsuccess
  rw [hn, hn', hs] at hthere hkept
  rw [hkept, Framing.Exact]
  by_cases hzero : body.length = 0
  · obtain rfl := List.eq_nil_of_length_eq_zero hzero
    rw [if_pos List.length_nil]
    simp
  · have hne : body ≠ [] := fun h => hzero (by rw [h]; rfl)
    have htake : s.take body.length = body := by
      have hbody : body <+: s := List.prefix_of_prefix_length_le (List.prefix_append _ _) hfed hthere
      exact (List.prefix_iff_eq_take.mp hbody).symm
    rw [if_neg hzero]
    exact iff_of_true htake (.inl hne)

/-- A body in chunks. -/
theorem body_end_chunked {b : ChunkedBody} {t s : Bytes} {r : HttpResponse} (hc : TransferEncoding.chunked ∈ r.transferEncodings)
    (hloop : ∃ got left, r.body = got ++ left ∧ r.chunkOffset = got.length ∧ Decoded s got left) (hfed : s <+: b.raw ++ t)
    (hsuccess : (parseBody r).1 = some .success) : (parseBody r).2.body = b.payloads ↔ (Framing.chunked b).Exact s := by
  obtain ⟨got₀, left₀, hbody, hoffset, hdecoded₀⟩ := hloop
  obtain ⟨got, left, behind, hdecoded, hcloses, hkept, hmax⟩ := parseBody_loop hc hbody hoffset hdecoded₀ hsuccess
  rw [hkept, Framing.Exact]
  by_cases hsmall : ∀ c ∈ b.chunks, c.payload.length < 2 ^ 32
  · obtain ⟨p, hp⟩ := hfed
    have htail : 2 ≤ (Http.block b.trailers ++ t).length := by
      simp only [Http.block, List.length_append, crlf, List.length_cons, List.length_nil]
      omega
    have hwhole := decoded_body b hsmall t
    have hend := closes_last b.closes htail
    rw [← hp] at hwhole
    obtain ⟨rfl, hbehind⟩ := (hdecoded.append p).unique (hcloses.append p) hwhole hend
    have hlengths : s.length = b.front.length + 2 + behind.length := by
      have hsum := congrArg List.length hp
      have hrest := congrArg List.length hbehind
      simp only [ChunkedBody.raw, List.length_append, List.length_drop] at hsum hrest htail
      omega
    rw [ChunkedBody.payloads]
    constructor
    · intro hsame
      have hnone : behind = [] := List.append_right_eq_self.mp hsame
      rw [hnone] at hlengths
      exact ⟨hsmall, by rw [hlengths]; rfl⟩
    · intro hexact
      have hnone : behind = [] := List.eq_nil_of_length_eq_zero (by omega)
      rw [hnone, List.append_nil]
  · refine iff_of_false ?_ fun h => hsmall h.1
    intro hsame
    apply hsmall
    intro c hmem
    obtain ⟨cs, cs', hsplit⟩ := List.append_of_mem hmem
    rw [hsame, ChunkedBody.payloads, hsplit] at hmax
    simp only [List.flatMap_append, List.flatMap_cons, List.length_append, maxHttpBodySize] at hmax
    omega

/-- The body is the framed one where its length is announced and is not 0, or where
    nothing came behind it. -/
theorem body_end (line : Bytes) (lines : List Bytes) (framing : Framing) (t : Bytes) (qs : List Bytes) (q : Bytes)
    (h : Succeeds line lines framing t qs q) :
    (parse (feed parse fresh qs).2 q).2.body = framing.body ↔
      framing.Exact ((qs ++ [q]).flatten.drop (Http.block (line :: lines)).length) := by
  have hclosed := Http.block_closed (Http.Plain.lines h.plain)
  obtain ⟨r₀, s, r, hread, hs, hbehind, hparse⟩ := feed_success hclosed h.fed h.more h.success
  have hsplit := Http.splitString_block (Http.Plain.lines h.plain) []
  rw [List.append_nil] at hsplit
  rw [readHead, hsplit] at hread
  obtain ⟨hlength, hnames⟩ := readHeader_fields hread
  have hfed := h.fed
  have hsuccess := h.success
  have hannounced := h.announced
  rw [hs, List.prefix_append_right_inj] at hfed
  rw [hparse] at hsuccess ⊢
  rw [hs, List.drop_left]
  cases framing with
  | length digits body =>
    have hc : TransferEncoding.chunked ∉ r₀.transferEncodings := fun hc => hannounced.2.2.2.2 (hnames.mp hc)
    exact body_end_length hannounced hlength (by rwa [hbehind.encodings]) hbehind.length (hbehind.plain hc) hfed hsuccess
  | chunked b =>
    have hc := hnames.mpr hannounced
    exact body_end_chunked (by rwa [hbehind.encodings]) (hbehind.loop hc) hfed hsuccess

/-- A length of 2, and more behind the two bytes. -/
theorem body_end_sample :
    (parse (feed parse fresh []).2 (bytes "HTTP/1.1 200 OK\r\nContent-Length: 02\r\n\r\nokHTTP")).2.body = bytes "ok" := by
  refine (body_end (bytes "HTTP/1.1 200 OK") [bytes "Content-Length: 02"] (.length (bytes "02") (bytes "ok")) (bytes "HTTP")
    [] (bytes "HTTP/1.1 200 OK\r\nContent-Length: 02\r\n\r\nokHTTP") ?_).mpr (.inl (by decide))
  refine ⟨by decide, by unfold Http.Plain; decide, ⟨⟨[], by decide +kernel, by simp⟩, by decide, forall_of_all (by decide),
    by decide, ?_⟩, by decide, by simp [feed], by decide +kernel⟩
  unfold Http.NamesChunked
  decide +kernel

/-- The loop on a whole body that is sent in one piece, with more behind it. -/
theorem chunks_whole (b : ChunkedBody) (hmax : ∀ c ∈ b.chunks, c.payload.length < 2 ^ 32) (t : Bytes) :
    chunks (b.raw ++ t) 0 =
      (some .success, b.payloads ++ (Http.block b.trailers ++ t).drop 2, b.payloads.length) := by
  have htail : 2 ≤ (Http.block b.trailers ++ t).length := by
    simp only [Http.block, List.length_append, crlf, List.length_cons, List.length_nil]
    omega
  have hloop := chunks_decoded (decoded_body b hmax t) []
  rw [List.nil_append, List.nil_append, List.length_nil] at hloop
  rw [hloop, chunks_closes (closes_last b.closes htail)]

/-- One chunk of two bytes. -/
def oneChunk : ChunkedBody :=
  ⟨[⟨bytes "2", [], bytes "ok", by decide, forall_of_all (by decide), by decide, Chunk.last.extension_form,
    Chunk.last.extension_line⟩], .last, [],
    List.forall_mem_singleton.mpr (by decide), rfl, List.forall_mem_nil _⟩

/-- With a length of 0 what came behind the header is the body; of a body in chunks the
    bytes behind it are in it. -/
theorem body_end_not :
    (¬ ∀ line lines digits body t qs q, Succeeds line lines (.length digits body) t qs q →
      (parse (feed parse fresh qs).2 q).2.body = body) ∧
    ¬ ∀ line lines b t qs q, Succeeds line lines (.chunked b) t qs q →
      (parse (feed parse fresh qs).2 q).2.body = b.payloads := by
  constructor
  · intro h
    have hempty := h (bytes "HTTP/1.1 200 OK") [bytes "content-length: 0"] (bytes "0") [] (bytes "X") []
      (bytes "HTTP/1.1 200 OK\r\ncontent-length: 0\r\n\r\nX") ⟨by decide, by unfold Http.Plain; decide,
        ⟨⟨[], by decide +kernel, by simp⟩, by decide, forall_of_all (by decide), by decide,
          by unfold Http.NamesChunked; decide +kernel⟩, by decide, by simp [feed], by decide +kernel⟩
    exact absurd hempty (by decide +kernel)
  · intro h
    have hplain : ∀ l ∈ [bytes "HTTP/1.1 200 OK", bytes "transfer-encoding: chunked"], Http.Plain l := by
      unfold Http.Plain
      decide
    have hnames : Http.NamesChunked (Http.fields [bytes "transfer-encoding: chunked"]) := by
      unfold Http.NamesChunked
      decide +kernel
    obtain ⟨r, hread⟩ : ∃ r, readHeader { fresh with headerEnded := true }
        (Http.received [bytes "HTTP/1.1 200 OK", bytes "transfer-encoding: chunked"]) = (true, r) := by
      refine ⟨_, Prod.ext ?_ rfl⟩
      decide +kernel
    have hparse := parse_block hplain (by decide) hread (by decide) (oneChunk.raw ++ bytes "X")
    have hchunked := (readHeader_fields hread).2.mpr hnames
    have hoffset := (readHeader_ended { fresh with headerEnded := true }
      (Http.received [bytes "HTTP/1.1 200 OK", bytes "transfer-encoding: chunked"])).2
    rw [hread] at hoffset
    have hloop := chunks_whole oneChunk (by decide) (bytes "X")
    have hmax : (oneChunk.raw ++ bytes "X").length ≤ maxHttpBodySize := by decide
    rw [parseBody_chunked (by exact hchunked) hmax] at hparse
    simp only [show r.chunkOffset = 0 from hoffset, hloop] at hparse
    have hbody := h (bytes "HTTP/1.1 200 OK") [bytes "transfer-encoding: chunked"] oneChunk (bytes "X") []
      (Http.block [bytes "HTTP/1.1 200 OK", bytes "transfer-encoding: chunked"] ++ (oneChunk.raw ++ bytes "X"))
      ⟨by decide, hplain, hnames, List.prefix_rfl, by simp [feed], by rw [feed, hparse]⟩
    rw [feed, hparse] at hbody
    have hmore : oneChunk.payloads ++ (Http.block oneChunk.trailers ++ bytes "X").drop 2 ≠ oneChunk.payloads := by decide
    exact hmore hbody

end HttpResponse

end Frnetlib
