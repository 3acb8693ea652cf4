/-
  Frnetlib.Http.Buffering — what the two incremental parsers keep between calls that all
  asked for more.

  Before the header has ended the body is what was fed. Afterwards it is what was fed behind
  the header's end, where the piece that ended it saw that (`EndedIn`); of a chunked
  response it is the payloads of the chunks completed so far and then what was fed behind
  the last of them. Each step lemma takes the state of one call to that of the next, and the
  run is the induction over the pieces (`buffering`).
-/

import Frnetlib.Http.ChunkLoop
import Frnetlib.Http.Segmentation

namespace Frnetlib

open Base

/-- A piece ended the header: at `e`, by a terminator of `n` bytes. -/
def EndedIn (ps : List Bytes) (e n : Nat) : Prop :=
  ∃ qs q rs, ps = qs ++ q :: rs ∧ Http.headerEnd qs.flatten = none ∧ Http.headerEnd (qs.flatten ++ q) = some (e, n)

theorem EndedIn.snoc {ps : List Bytes} {e n : Nat} (h : EndedIn ps e n) (p : Bytes) : EndedIn (ps ++ [p]) e n := by
  obtain ⟨qs, q, rs, rfl, hnone, hend⟩ := h
  exact ⟨qs, q, rs ++ [p], by simp, hnone, hend⟩

theorem EndedIn.le {ps : List Bytes} {e n : Nat} (h : EndedIn ps e n) : e + n ≤ ps.flatten.length := by
  obtain ⟨qs, q, rs, rfl, -, hend⟩ := h
  have hle := (Http.headerEnd_bounds hend).1
  simp only [List.flatten_append, List.flatten_cons, List.length_append] at hle ⊢
  omega

theorem EndedIn.drop_snoc {ps : List Bytes} {e n : Nat} (h : EndedIn ps e n) (p : Bytes) :
    (ps ++ [p]).flatten.drop (e + n) = ps.flatten.drop (e + n) ++ p := by
  rw [List.flatten_append, List.flatten_singleton, List.drop_append_of_le_length h.le]

/-- The header has not ended: all is kept, and it shows no terminator. -/
structure Unended (ps : List Bytes) (headerEnded : Bool) (body : Bytes) : Prop where
  ended : headerEnded = false
  kept : body = ps.flatten
  no_crlfcrlf : ¬ crlfcrlf <:+: body
  no_lflf : ¬ lflf <:+: body
  limit : body.length ≤ maxHttpHeaderSize

/-! ## Requests -/

namespace HttpRequest

/-- The header has ended: what was fed behind it is kept, and more was announced. -/
structure Announced (ps : List Bytes) (r : HttpRequest) : Prop where
  ended : r.headerEnded = true
  limit : r.body.length ≤ maxHttpBodySize
  body : ∃ e n, EndedIn ps e n ∧ r.body = ps.flatten.drop (e + n)
  more : r.body.length < r.contentLength

theorem parseBody_limit {r : HttpRequest} (h : (parseBody r).1 = some .notEnoughData) :
    r.body.length ≤ maxHttpBodySize := by
  unfold parseBody at h
  split at h
  · cases h
  · omega

theorem parse_fresh_waits {u : Bytes} (h : (parse fresh u).1 = some .notEnoughData) (hnone : Http.headerEnd u = none) :
    u.length ≤ maxHttpHeaderSize := by
  rcases parse_fresh_cases (.inl h) with ⟨-, ⟨-, hsize, -⟩ | ⟨e, n, r, hend, -⟩⟩
  · exact hsize
  · rw [hnone] at hend
    cases hend

theorem parse_fresh_body_limit {u : Bytes} (h : (parse fresh u).1 = some .notEnoughData) {e n : Nat}
    (hend : Http.headerEnd u = some (e, n)) : (u.drop (e + n)).length ≤ maxHttpBodySize := by
  rcases parse_fresh_cases (.inl h) with ⟨-, ⟨hnone, -⟩ | ⟨e', n', r, hend', -, -, hparse⟩⟩
  · rw [hend] at hnone
    cases hnone
  · rw [hend] at hend'
    cases hend'
    rw [hparse] at h
    exact parseBody_limit h

theorem announced_snoc {ps : List Bytes} {r : HttpRequest} (hr : Announced ps r) {p : Bytes}
    (h : (parse r p).1 = some .notEnoughData) : Announced (ps ++ [p]) (parse r p).2 := by
  rw [parse_ended hr.ended] at h ⊢
  obtain ⟨hmore, hstate⟩ := parseBody_more h
  have hlimit := parseBody_limit h
  obtain ⟨e, n, hend, hbody⟩ := hr.body
  rw [hstate]
  refine ⟨hr.ended, hlimit, ⟨e, n, hend.snoc p, ?_⟩, hmore⟩
  rw [hend.drop_snoc, ← hbody]

theorem waiting_snoc {ps : List Bytes} (hnone : Http.headerEnd ps.flatten = none) {p : Bytes}
    (h : (parse (waiting ps.flatten) p).1 = some .notEnoughData) :
    (parse (waiting ps.flatten) p).2 = waiting (ps ++ [p]).flatten ∧
        Unended (ps ++ [p]) false (ps ++ [p]).flatten ∨
      Announced (ps ++ [p]) (parse (waiting ps.flatten) p).2 := by
  have hflat : (ps ++ [p]).flatten = ps.flatten ++ p := by rw [List.flatten_append, List.flatten_singleton]
  rw [parse_waiting] at h ⊢
  rcases parse_fresh_more h with ⟨hnone', hstate⟩ | ⟨e, n, r, hend, -, hread, -, hmore, hstate⟩
  · obtain ⟨hcrlf, hlf⟩ := Http.headerEnd_none.mp hnone'
    rw [hflat]
    exact .inl ⟨hstate, rfl, hflat.symm, hcrlf, hlf, parse_fresh_waits h hnone'⟩
  · rw [hstate]
    have hended : r.headerEnded = true := readHead_ended hread
    refine .inr ⟨hended, parse_fresh_body_limit h hend, ⟨e, n, ?_, ?_⟩, hmore⟩
    · exact ⟨ps, p, [], rfl, hnone, hend⟩
    · rw [hflat]

/-- The run, by the last piece. -/
theorem feed_buffer {ps : List Bytes} (hmore : ∀ a ∈ (feed parse fresh ps).1, a = some .notEnoughData) :
    (feed parse fresh ps).2 = waiting ps.flatten ∧ Unended ps false ps.flatten ∨
      Announced ps (feed parse fresh ps).2 := by
  induction ps using List.reverseRecOn with
  | nil => exact .inl ⟨rfl, rfl, rfl, by decide, by decide, by decide⟩
  | append_singleton ps p ih =>
    rw [feed_snoc] at hmore ⊢
    have hlast := hmore _ (List.mem_append_right _ (List.mem_singleton.mpr rfl))
    rcases ih fun a ha => hmore a (List.mem_append_left _ ha) with ⟨hstate, hbuffer⟩ | hannounced
    · simp only [hstate] at hlast ⊢
      exact waiting_snoc (Http.headerEnd_none.mpr ⟨hbuffer.no_crlfcrlf, hbuffer.no_lflf⟩) hlast
    · exact .inr (announced_snoc hannounced hlast)

end HttpRequest

/-! ## Responses -/

namespace HttpResponse

/-- The header has ended: what was fed behind it is kept, and more was announced; or, if it
    comes in chunks, the payloads of those completed so far and what was fed behind them. -/
structure Buffered (ps : List Bytes) (r : HttpResponse) : Prop where
  ended : r.headerEnded = true
  limit : r.body.length ≤ maxHttpBodySize
  body : ∃ e n, EndedIn ps e n ∧
    (TransferEncoding.chunked ∉ r.transferEncodings →
      r.body = ps.flatten.drop (e + n) ∧ r.body.length < r.contentLength) ∧
    (TransferEncoding.chunked ∈ r.transferEncodings →
      r.chunkOffset ≤ r.body.length ∧
        Decoded (ps.flatten.drop (e + n)) (r.body.take r.chunkOffset) (r.body.drop r.chunkOffset) ∧
        Waits (r.body.drop r.chunkOffset))

/-- What the loop keeps when it asks for more. -/
theorem chunks_buffer {raw done rest body' : Bytes} {chunkOffset' : Nat} (hdecoded : Decoded raw done rest)
    (hmax : (done ++ rest).length ≤ maxHttpBodySize)
    (h : chunks (done ++ rest) done.length = (some .notEnoughData, body', chunkOffset')) :
    body'.length ≤ maxHttpBodySize ∧ chunkOffset' ≤ body'.length ∧
      Decoded raw (body'.take chunkOffset') (body'.drop chunkOffset') ∧ Waits (body'.drop chunkOffset') := by
  have hrest : rest.length ≤ maxHttpBodySize := by
    rw [List.length_append] at hmax
    omega
  obtain ⟨got, rest', hgot, hend⟩ := decoded_exists rest hrest
  have hlength := hgot.length_le
  rw [chunks_decoded hgot] at h
  rcases hend with hwaits | hthrows | ⟨behind, hcloses⟩
  · rw [chunks_waits hwaits] at h
    cases h
    have htake : (done ++ got ++ rest').take (done ++ got).length = done ++ got := List.take_left' rfl
    have hdrop : (done ++ got ++ rest').drop (done ++ got).length = rest' := List.drop_left' rfl
    rw [htake, hdrop]
    refine ⟨?_, ?_, hdecoded.trans hgot, hwaits⟩
    · simp only [List.length_append] at hmax ⊢
      omega
    · simp only [List.length_append]
      omega
  · rw [chunks_throw hthrows] at h
    cases h
  · rw [chunks_closes hcloses] at h
    cases h

theorem parseBody_announced {r : HttpResponse} (hc : TransferEncoding.chunked ∉ r.transferEncodings)
    (h : (parseBody r).1 = some .notEnoughData) : r.body.length < r.contentLength := by
  by_cases hmax : maxHttpBodySize < r.body.length
  · rw [parseBody, if_pos hmax] at h
    cases h
  · rw [parseBody, if_neg hmax, if_neg hc] at h
    by_cases hcut : 0 < r.contentLength ∧ r.contentLength < r.body.length
    · rw [if_pos hcut] at h
      cases h
    · rw [if_neg hcut] at h
      by_contra hmore
      rw [if_neg hmore] at h
      cases h

theorem parse_fresh_waits {u : Bytes} (h : (parse fresh u).1 = some .notEnoughData) (hnone : Http.headerEnd u = none) :
    u.length ≤ maxHttpHeaderSize := by
  rcases parse_fresh_cases (.inl h) with ⟨-, ⟨-, hsize, -⟩ | ⟨e, n, r, hend, -⟩⟩
  · exact hsize
  · rw [hnone] at hend
    cases hend

/-- The part of a call behind the header, on a body that is decoded up to `chunk_offset`. -/
theorem parseBody_buffered {ps : List Bytes} {r : HttpResponse} {e n : Nat} (hended : r.headerEnded = true)
    (hend : EndedIn ps e n)
    (hplain : TransferEncoding.chunked ∉ r.transferEncodings → r.body = ps.flatten.drop (e + n))
    (hchunked : TransferEncoding.chunked ∈ r.transferEncodings →
      r.chunkOffset ≤ r.body.length ∧
        Decoded (ps.flatten.drop (e + n)) (r.body.take r.chunkOffset) (r.body.drop r.chunkOffset))
    (h : (parseBody r).1 = some .notEnoughData) : Buffered ps (parseBody r).2 := by
  rcases parseBody_more h with ⟨hmax, ⟨hc, body', chunkOffset', hchunks, hstate⟩ | ⟨hc, hstate⟩⟩
  · obtain ⟨hoffset, hdecoded⟩ := hchunked hc
    have hlength : (r.body.take r.chunkOffset).length = r.chunkOffset := by
      rw [List.length_take]
      omega
    have hloop : chunks (r.body.take r.chunkOffset ++ r.body.drop r.chunkOffset) (r.body.take r.chunkOffset).length =
        (some .notEnoughData, body', chunkOffset') := by
      rw [List.take_append_drop, hlength]
      exact hchunks
    obtain ⟨hlimit, hrest⟩ := chunks_buffer hdecoded (by rwa [List.take_append_drop]) hloop
    rw [hstate]
    exact ⟨hended, hlimit, e, n, hend, fun hno => absurd hc hno, fun _ => hrest⟩
  · have hmore := parseBody_announced hc h
    rw [hstate]
    exact ⟨hended, hmax, e, n, hend, fun _ => ⟨hplain hc, hmore⟩, fun hyes => absurd hyes hc⟩

theorem buffered_snoc {ps : List Bytes} {r : HttpResponse} (hr : Buffered ps r) {p : Bytes}
    (h : (parse r p).1 = some .notEnoughData) : Buffered (ps ++ [p]) (parse r p).2 := by
  rw [parse_ended hr.ended] at h ⊢
  obtain ⟨e, n, hend, hplain, hchunked⟩ := hr.body
  have hsnoc : EndedIn (ps ++ [p]) e n := hend.snoc p
  refine parseBody_buffered hr.ended hsnoc ?_ ?_ h
  · intro hc
    rw [hend.drop_snoc, ← (hplain hc).1]
  · intro hc
    obtain ⟨hoffset, hdecoded, -⟩ := hchunked hc
    refine ⟨?_, ?_⟩
    · rw [List.length_append]
      exact Nat.le_trans hoffset (Nat.le_add_right _ _)
    · rw [hend.drop_snoc, List.take_append_of_le_length hoffset, List.drop_append_of_le_length hoffset]
      exact hdecoded.append p

theorem waiting_snoc {ps : List Bytes} (hnone : Http.headerEnd ps.flatten = none) {p : Bytes}
    (h : (parse (waiting ps.flatten) p).1 = some .notEnoughData) :
    (parse (waiting ps.flatten) p).2 = waiting (ps ++ [p]).flatten ∧
        Unended (ps ++ [p]) false (ps ++ [p]).flatten ∨
      Buffered (ps ++ [p]) (parse (waiting ps.flatten) p).2 := by
  have hflat : (ps ++ [p]).flatten = ps.flatten ++ p := by rw [List.flatten_append, List.flatten_singleton]
  rw [parse_waiting] at h ⊢
  rcases parse_fresh_more h with ⟨hnone', hstate⟩ | ⟨e, n, r, hend, -, hread, -, hparse⟩
  · obtain ⟨hcrlf, hlf⟩ := Http.headerEnd_none.mp hnone'
    rw [hflat]
    exact .inl ⟨hstate, rfl, hflat.symm, hcrlf, hlf, parse_fresh_waits h hnone'⟩
  · obtain ⟨hended, hoffset⟩ := readHead_ended hread
    rw [hparse] at h ⊢
    have hin : EndedIn (ps ++ [p]) e n := ⟨ps, p, [], rfl, hnone, hend⟩
    refine .inr (parseBody_buffered hended hin ?_ ?_ h)
    · intro _
      rw [hflat]
    · intro _
      have hzero : ({ r with body := (ps.flatten ++ p).drop (e + n) } : HttpResponse).chunkOffset = 0 := hoffset
      rw [hzero, List.take_zero, List.drop_zero, hflat]
      exact ⟨Nat.zero_le _, .nil _⟩

/-- The run, by the last piece. -/
theorem feed_buffer {ps : List Bytes} (hmore : ∀ a ∈ (feed parse fresh ps).1, a = some .notEnoughData) :
    (feed parse fresh ps).2 = waiting ps.flatten ∧ Unended ps false ps.flatten ∨
      Buffered ps (feed parse fresh ps).2 := by
  induction ps using List.reverseRecOn with
  | nil => exact .inl ⟨rfl, rfl, rfl, by decide, by decide, by decide⟩
  | append_singleton ps p ih =>
    rw [feed_snoc] at hmore ⊢
    have hlast := hmore _ (List.mem_append_right _ (List.mem_singleton.mpr rfl))
    rcases ih fun a ha => hmore a (List.mem_append_left _ ha) with ⟨hstate, hbuffer⟩ | hbuffered
    · simp only [hstate] at hlast ⊢
      exact waiting_snoc (Http.headerEnd_none.mpr ⟨hbuffer.no_crlfcrlf, hbuffer.no_lflf⟩) hlast
    · exact .inr (buffered_snoc hbuffered hlast)

end HttpResponse

/-- After any calls that all asked for more, of a request and of a response. -/
theorem buffering (ps : List Bytes) :
    ((∀ a ∈ (feed HttpRequest.parse .fresh ps).1, a = some .notEnoughData) →
      let r := (feed HttpRequest.parse .fresh ps).2
      Unended ps r.headerEnded r.body ∨ HttpRequest.Announced ps r) ∧
    ((∀ a ∈ (feed HttpResponse.parse .fresh ps).1, a = some .notEnoughData) →
      let r := (feed HttpResponse.parse .fresh ps).2
      Unended ps r.headerEnded r.body ∨ HttpResponse.Buffered ps r) := by
  constructor
  · intro hmore
    rcases HttpRequest.feed_buffer hmore with ⟨hstate, hbuffer⟩ | hannounced
    · simp only [hstate]
      exact .inl hbuffer
    · exact .inr hannounced
  · intro hmore
    rcases HttpResponse.feed_buffer hmore with ⟨hstate, hbuffer⟩ | hbuffered
    · simp only [hstate]
      exact .inl hbuffer
    · exact .inr hbuffered

/-- A chunk, and two bytes of three of another. -/
def chunkedPieces : List Bytes :=
  [bytes "HTTP/1.1 200 OK\r\ntransfer-encoding: chunked\r\n\r\n1\r\na\r\n3\r\nb", bytes "c"]

/-- Three of five bytes, in two pieces; and chunks. -/
theorem buffering_sample :
    HttpRequest.Announced [bytes "POST / HTTP/1.1\r\ncontent-length: 5\r\n\r\nab", bytes "c"]
        (feed HttpRequest.parse .fresh [bytes "POST / HTTP/1.1\r\ncontent-length: 5\r\n\r\nab", bytes "c"]).2 ∧
      HttpResponse.Buffered [bytes "HTTP/1.1 200 OK\r\ncontent-length: 5\r\n\r\nab", bytes "c"]
        (feed HttpResponse.parse .fresh [bytes "HTTP/1.1 200 OK\r\ncontent-length: 5\r\n\r\nab", bytes "c"]).2 ∧
      HttpResponse.Buffered chunkedPieces (feed HttpResponse.parse .fresh chunkedPieces).2 := by
  refine ⟨?_, ?_, ?_⟩
  · obtain hunended | hannounced :=
      (buffering [bytes "POST / HTTP/1.1\r\ncontent-length: 5\r\n\r\nab", bytes "c"]).1 (by decide +kernel)
    · exact absurd hunended.ended (by decide +kernel)
    · exact hannounced
  · obtain hunended | hbuffered :=
      (buffering [bytes "HTTP/1.1 200 OK\r\ncontent-length: 5\r\n\r\nab", bytes "c"]).2 (by decide +kernel)
    · exact absurd hunended.ended (by decide +kernel)
    · exact hbuffered
  · obtain hunended | hbuffered := (buffering chunkedPieces).2 (by decide +kernel)
    · exact absurd hunended.ended (by decide +kernel)
    · exact hbuffered

end Frnetlib
