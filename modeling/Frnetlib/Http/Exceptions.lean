/-
  Frnetlib.Http.Exceptions — the exceptions that leave `fr::HttpResponse::parse`.

  Those of the header are caught. In the chunked loop nothing is: `std::stoul` throws on a
  length line that is no number, and `std::string::erase` where `chunk_len + 4` wrapped
  around, so that the loop takes a chunk to be there that is not. A call throws exactly when
  its loop comes to such a line (`parse_throws_iff`), and so any number of calls are
  answered by a status exactly when none of them does (`answers_iff`).
-/

import Frnetlib.Base.Feed
import Frnetlib.Http.ChunkLoop
import Frnetlib.Http.Incremental

namespace Frnetlib

open Base

namespace HttpResponse

/-- The object with which a call comes to the body, if it does. -/
def atBody (r : HttpResponse) (responseData : Bytes) : Option HttpResponse :=
  let r := { r with body := r.body ++ responseData }
  if r.headerEnded then some r
  else if 4 ≤ r.body.length ∧ r.body.take 4 ≠ bytes "HTTP" then none
  else
    match Http.headerEnd r.body with
    | none => none
    | some (headerEnd, headerEndSize) =>
      if maxHttpHeaderSize < headerEnd then none
      else
        match ({ r with headerEnded := true } : HttpResponse).parseHeader headerEnd with
        | (false, _) => none
        | (true, r) => some { r with body := r.body.drop (headerEnd + headerEndSize) }

/-- The answers of `parse`. -/
def answers : List (Option Status) :=
  [some .success, some .notEnoughData, some .parseError, some .httpHeaderTooBig, some .httpBodyTooBig]

/-- A length line that `std::stoul` reads, and whose chunk is waited for if `chunk_len + 4`
    wraps around: then there must be nothing behind the line yet, and even so the length be
    2^32 - 1. -/
def Readable (line tail : Bytes) : Prop :=
  ∃ n, stoull 16 line = some n ∧ (n % 2 ^ 32 < 2 ^ 32 - 4 ∨ (n % 2 ^ 32 = 2 ^ 32 - 1 ∧ tail = []))

/-- Every length line that the loop comes to is readable. -/
def LoopReadable (body : Bytes) (chunkOffset : Nat) : Prop :=
  ∀ got rest, Decoded (body.drop chunkOffset) got rest → ∀ line tail, LengthLine rest line tail → Readable line tail

/-- If the call comes to its loop, it reads no other length line. -/
def ReadableLines (r : HttpResponse) (responseData : Bytes) : Prop :=
  ∀ x, r.atBody responseData = some x → x.body.length ≤ maxHttpBodySize →
    TransferEncoding.chunked ∈ x.transferEncodings → LoopReadable x.body x.chunkOffset

/-! ## One call -/

/-- A call that does not come to the body answers. -/
theorem parse_atBody (r : HttpResponse) (p : Bytes) :
    (∃ x, r.atBody p = some x ∧ parse r p = parseBody x) ∨ (r.atBody p = none ∧ (parse r p).1 ∈ answers) := by
  unfold atBody parse parseBuffer
  simp only
  by_cases hended : r.headerEnded = true
  · rw [if_pos hended, if_pos hended]
    exact .inl ⟨_, rfl, rfl⟩
  · rw [if_neg hended, if_neg hended]
    by_cases hhttp : 4 ≤ (r.body ++ p).length ∧ (r.body ++ p).take 4 ≠ bytes "HTTP"
    · rw [if_pos hhttp, if_pos hhttp]
      exact .inr ⟨rfl, by simp [answers]⟩
    · rw [if_neg hhttp, if_neg hhttp]
      cases Http.headerEnd (r.body ++ p) with
      | none =>
        refine .inr ⟨rfl, ?_⟩
        simp only
        split
        · simp [answers]
        · simp [answers]
      | some en =>
        obtain ⟨e, n⟩ := en
        simp only
        by_cases hbig : maxHttpHeaderSize < e
        · rw [if_pos hbig, if_pos hbig]
          exact .inr ⟨rfl, by simp [answers]⟩
        · rw [if_neg hbig, if_neg hbig]
          rcases parseHeader { r with body := r.body ++ p, headerEnded := true } e with ⟨_ | _, x⟩
          · exact .inr ⟨rfl, by simp [answers]⟩
          · exact .inl ⟨_, rfl, rfl⟩

/-- Within the limit on the body a line is readable unless it throws. -/
theorem readable_iff {rest line tail : Bytes} (h : LengthLine rest line tail) (hmax : rest.length ≤ maxHttpBodySize) :
    Readable line tail ↔ ¬ Throws rest := by
  have hlength := h.length
  have hsmall : tail.length < 2 ^ 32 - 4 := by
    simp only [maxHttpBodySize] at hmax
    omega
  constructor
  · intro hread hthrows
    obtain ⟨n, hn, hwait⟩ := hread
    obtain ⟨line', tail', hline, hbad⟩ := hthrows
    obtain ⟨rfl, rfl⟩ := h.unique hline
    rcases hbad with hnone | ⟨n', hn', hpass, hbeyond⟩
    · rw [hn] at hnone
      cases hnone
    · rw [hn] at hn'
      cases hn'
      rcases hwait with hfits | ⟨hlast, hnil⟩
      · omega
      · rw [hnil, hlast] at hpass
        exact hpass (by decide)
  · intro hnot
    cases hn : stoull 16 line with
    | none => exact absurd ⟨line, tail, h, .inl hn⟩ hnot
    | some n =>
      refine ⟨n, hn, ?_⟩
      by_contra hwait
      refine hnot ⟨line, tail, h, .inr ⟨n, hn, ?_, by omega⟩⟩
      intro hshort
      have hnil : tail.length = 0 := by omega
      exact hwait (.inr ⟨by omega, List.eq_nil_of_length_eq_zero hnil⟩)

/-- The loop throws where it comes to a line that throws. -/
theorem chunks_throws_iff {raw : Bytes} (hmax : raw.length ≤ maxHttpBodySize) (done : Bytes) :
    (chunks (done ++ raw) done.length).1 = none ↔ ∃ got rest, Decoded raw got rest ∧ Throws rest := by
  constructor
  · intro h
    obtain ⟨got, rest, hgot, hend⟩ := decoded_exists raw hmax
    rw [chunks_decoded hgot] at h
    rcases hend with hwaits | hthrows | ⟨behind, hcloses⟩
    · rw [chunks_waits hwaits] at h
      cases h
    · exact ⟨got, rest, hgot, hthrows⟩
    · rw [chunks_closes hcloses] at h
      cases h
  · intro h
    obtain ⟨got, rest, hgot, hthrows⟩ := h
    rw [chunks_decoded hgot, chunks_throw hthrows]

theorem chunks_answers {raw : Bytes} (hmax : raw.length ≤ maxHttpBodySize) (done : Bytes) :
    (chunks (done ++ raw) done.length).1 = none ∨ (chunks (done ++ raw) done.length).1 ∈ answers := by
  obtain ⟨got, rest, hgot, hend⟩ := decoded_exists raw hmax
  rw [chunks_decoded hgot]
  rcases hend with hwaits | hthrows | ⟨behind, hcloses⟩
  · rw [chunks_waits hwaits]
    exact .inr (by simp [answers])
  · rw [chunks_throw hthrows]
    exact .inl rfl
  · rw [chunks_closes hcloses]
    exact .inr (by simp [answers])

/-- Where `chunk_offset` is in the body, the loop is the one behind it. -/
theorem chunks_at {body : Bytes} {chunkOffset : Nat} (h : chunkOffset ≤ body.length) :
    chunks body chunkOffset = chunks (body.take chunkOffset ++ body.drop chunkOffset) (body.take chunkOffset).length := by
  rw [List.take_append_drop, List.length_take, Nat.min_eq_left h]

theorem chunks_answers_iff {body : Bytes} (hmax : body.length ≤ maxHttpBodySize) (chunkOffset : Nat) :
    (chunks body chunkOffset).1 ∈ answers ↔ LoopReadable body chunkOffset := by
  by_cases hoffset : chunkOffset ≤ body.length
  · have hraw : (body.drop chunkOffset).length ≤ maxHttpBodySize := by
      rw [List.length_drop]
      omega
    have hrest : ∀ {got rest : Bytes}, Decoded (body.drop chunkOffset) got rest → rest.length ≤ maxHttpBodySize := by
      intro got rest hgot
      have hle := hgot.length_le
      omega
    have hthrows := chunks_throws_iff hraw (body.take chunkOffset)
    have hanswers := chunks_answers hraw (body.take chunkOffset)
    rw [← chunks_at hoffset] at hthrows hanswers
    constructor
    · intro hanswer got rest hgot line tail hline
      refine (readable_iff hline (hrest hgot)).mpr fun hthrow => ?_
      rw [hthrows.mpr ⟨got, rest, hgot, hthrow⟩] at hanswer
      simp [answers] at hanswer
    · intro hread
      rcases hanswers with hnone | hanswer
      · obtain ⟨got, rest, hgot, hthrow⟩ := hthrows.mp hnone
        obtain ⟨line, tail, hline, hbad⟩ := hthrow
        have hnot := (readable_iff hline (hrest hgot)).mp (hread got rest hgot line tail hline)
        exact absurd ⟨line, tail, hline, hbad⟩ hnot
      · exact hanswer
  · rw [chunks_end (by omega)]
    refine iff_of_true (by simp [answers]) ?_
    intro got rest hgot line tail hline
    have hempty := hgot.length_le
    have hlength := hline.length
    rw [List.length_drop] at hempty
    omega

theorem parseBody_answers_iff (x : HttpResponse) :
    (parseBody x).1 ∈ answers ↔
      (x.body.length ≤ maxHttpBodySize → TransferEncoding.chunked ∈ x.transferEncodings →
        LoopReadable x.body x.chunkOffset) := by
  by_cases hmax : maxHttpBodySize < x.body.length
  · rw [parseBody, if_pos hmax]
    exact iff_of_true (by simp [answers]) fun hno => absurd hno (by omega)
  · by_cases hc : TransferEncoding.chunked ∈ x.transferEncodings
    · rw [parseBody_chunked hc (by omega), chunks_answers_iff (by omega)]
      exact ⟨fun h _ _ => h, fun h => h (by omega) hc⟩
    · refine iff_of_true ?_ fun _ hyes => absurd hyes hc
      rw [parseBody, if_neg hmax, if_neg hc]
      split
      · simp [answers]
      · split
        · simp [answers]
        · simp [answers]

theorem parse_answers_iff (r : HttpResponse) (p : Bytes) : (parse r p).1 ∈ answers ↔ ReadableLines r p := by
  rcases parse_atBody r p with ⟨x, hx, hparse⟩ | ⟨hnone, hanswer⟩
  · rw [hparse, parseBody_answers_iff]
    constructor
    · intro h y hy
      rw [hx] at hy
      cases hy
      exact h
    · intro h
      exact h x hx
  · refine iff_of_true hanswer fun x hx => ?_
    rw [hnone] at hx
    cases hx

/-! ## Any number of calls -/

/-- Every call is answered by one of the five statuses, and no exception leaves it, exactly
    when no call's loop comes to a length line that is not readable. -/
theorem answers_iff (ps : List Bytes) :
    (∀ a ∈ (feed parse fresh ps).1, a ∈ answers) ↔
      ∀ qs q, qs ++ [q] <+: ps → ReadableLines (feed parse fresh qs).2 q := by
  rw [forall_feed]
  exact forall₃_congr fun qs q _ => parse_answers_iff (feed parse fresh qs).2 q

/-- A chunk header that is no number. -/
theorem answers_not : ¬ ∀ ps : List Bytes, ∀ a ∈ (feed parse fresh ps).1, a ∈ answers := by
  intro h
  have hanswer : (parse fresh (bytes "HTTP/1.1 200 OK\r\nTransfer-Encoding: chunked\r\n\r\nzz\r\n")).1 ∈ answers :=
    h [bytes "HTTP/1.1 200 OK\r\nTransfer-Encoding: chunked\r\n\r\nzz\r\n"] _ (by simp [feed])
  have hbody : (fresh.atBody (bytes "HTTP/1.1 200 OK\r\nTransfer-Encoding: chunked\r\n\r\nzz\r\n")).map
      (fun x => (x.body, x.chunkOffset, decide (TransferEncoding.chunked ∈ x.transferEncodings))) =
        some (bytes "zz\r\n", 0, true) := by
    decide +kernel
  obtain ⟨x, hx, hfields⟩ := Option.map_eq_some_iff.mp hbody
  simp only [Prod.mk.injEq, decide_eq_true_eq] at hfields
  obtain ⟨hraw, hoffset, hchunked⟩ := hfields
  have hread := (parse_answers_iff _ _).mp hanswer x hx (by rw [hraw]; decide) hchunked
  rw [hraw, hoffset] at hread
  obtain ⟨n, hn, -⟩ := hread [] (bytes "zz\r\n") (.nil _) (bytes "zz") [] ⟨by decide, by decide⟩
  have hnone : stoull 16 (bytes "zz") = none := by decide
  rw [hnone] at hn
  cases hn

end HttpResponse

end Frnetlib
