/-
  Frnetlib.Http.Reuse — one `HttpRequest` or `HttpResponse` object that is given to
  `Http::receive` again and again (`Http.cpp`, `HttpRequest.cpp`, `HttpResponse.cpp`).

  `header_ended` is never taken back, so an object reads one header in its life. After the
  first message every receive hands its block to what has been read: of a request it is more
  body, answered Success as long as the body keeps to its limit (`request_reused`); of a
  response with a content length it is cut off again, and each receive answers Success with
  the first response and the bytes of the next ones gone (`response_reused`).
-/

import Frnetlib.Http.Pipelining
import Frnetlib.Http.PostBody

namespace Frnetlib

open Base Socket Receiver

/-! ## Receiving into one object -/

namespace Http

variable {ρ σ : Type}

section

variable [Receiver σ]

/-- As many receives into one object. -/
def receiveAgain (parse : ρ → Bytes → Option Status × ρ) : Nat → ρ → σ → List (Outcome Status) × ρ × σ
  | 0, r, w => ([], r, w)
  | n + 1, r, w =>
    let x := receive parse r w
    let y := receiveAgain parse n x.2.1 x.2.2
    (x.1 :: y.1, y.2)

/-- What the receives answered that took something. -/
def answered (outcomes : List (Outcome Status)) : List Status :=
  outcomes.filterMap fun
    | .returned st => if st = .wouldBlock then none else some st
    | _ => none

end

variable [FifoReceiver σ] {parse : ρ → Bytes → Option Status × ρ}

/-- A receive that answers Success has its last block from the parser's. -/
theorem receiveFrom_last {total : Nat} {state : Option Status} {r r' : ρ} {w w' : σ} (hstate : state ≠ some .success)
    (h : receiveFrom parse total state r w = (.returned .success, r', w')) :
    ∃ r₀ b, parse r₀ b = (some .success, r') := by
  generalize hm : left w = m
  induction m using Nat.strongRecOn generalizing total state r w with
  | ind m ih =>
    rcases hraw : receiveRaw recvChunkSize w with _ | ⟨status, b, w₁⟩
    · rw [receiveFrom_waits hraw] at h
      cases h
    · have hleft := raw_left hraw (by decide)
      rcases FifoReceiver.raw_status hraw (by decide) with rfl | rfl
      · rw [receiveFrom_read hraw] at h
        rcases hparse : parse r b with ⟨_ | st, r₁⟩
        · rw [hparse] at h
          cases h
        · rw [hparse] at h
          simp only at h
          by_cases hmore : st = .notEnoughData
          · rw [if_pos hmore] at h
            exact ih (left w₁) (by omega) (by rw [hmore]; decide) h rfl
          · rw [if_neg hmore] at h
            cases h
            exact ⟨r, b, hparse⟩
      · have hb : b = [] := raw_fails hraw (by decide)
        subst hb
        rw [receiveFrom_failed hraw (by decide)] at h
        by_cases htotal : total = 0
        · rw [if_pos htotal] at h
          cases h
        · rw [if_neg htotal, if_pos rfl] at h
          cases state with
          | none => cases h
          | some st =>
            simp only at h
            by_cases hmore : st = .notEnoughData
            · rw [if_pos hmore] at h
              exact ih (left w₁) (by omega) hstate h rfl
            · rw [if_neg hmore] at h
              cases h
              exact absurd rfl hstate

/-- `R s` of an object to which `s` has come after it was complete: the parser answers more
    bytes by `status`, which never asks for more. -/
structure Late (parse : ρ → Bytes → Option Status × ρ) (R : Bytes → ρ → Prop) (status : Bytes → Status) : Prop where
  parses : ∀ {s r b}, R s r → b.length ≤ recvChunkSize → ∃ r', parse r b = (some (status (s ++ b)), r') ∧ R (s ++ b) r'
  enough : ∀ s, status s ≠ .notEnoughData ∧ status s ≠ .wouldBlock

variable {R : Bytes → ρ → Prop} {status : Bytes → Status}

/-- A receive takes one block, or nothing. -/
theorem Late.receive (h : Late parse R status) {s : Bytes} {r : ρ} (hr : R s r) (w : σ) :
    (receive parse r w = (.waits, r, w) ∨
      ∃ w', Http.receive parse r w = (.returned .wouldBlock, r, w') ∧ pending w = pending w') ∨
    ∃ b r' w', Http.receive parse r w = (.returned (status (s ++ b)), r', w') ∧ R (s ++ b) r' ∧
      pending w = b ++ pending w' := by
  rcases hraw : receiveRaw recvChunkSize w with _ | ⟨st, b, w'⟩
  · exact .inl (.inl (receiveFrom_waits hraw))
  · rcases FifoReceiver.raw_status hraw (by decide) with rfl | rfl
    · obtain ⟨r', hparse, hr'⟩ := h.parses hr (raw_length hraw)
      exact .inr ⟨b, r', w', receiveFrom_done hraw hparse (h.enough _).1, hr', raw_pending hraw⟩
    · have hb : b = [] := raw_fails hraw (by decide)
      subst hb
      exact .inl (.inr ⟨w', receiveFrom_first hraw (by decide) rfl, raw_pending hraw⟩)

theorem scanl_tail (s b : Bytes) (bs : List Bytes) (f : Bytes → Status) :
    ((b :: bs).scanl (· ++ ·) s).tail.map f = f (s ++ b) :: (bs.scanl (· ++ ·) (s ++ b)).tail.map f := by
  rw [List.scanl_cons, List.tail_cons]
  cases bs with
  | nil => simp
  | cons => simp [List.scanl_cons]

/-- The receives take blocks, each answered for all that has come so far. -/
theorem Late.again (h : Late parse R status) (n : Nat) {s : Bytes} {r : ρ} (hr : R s r) (w : σ) :
    ∃ bs : List Bytes, pending w = bs.flatten ++ pending (receiveAgain parse n r w).2.2 ∧
      R (s ++ bs.flatten) (receiveAgain parse n r w).2.1 ∧
      answered (receiveAgain parse n r w).1 = (bs.scanl (· ++ ·) s).tail.map status := by
  induction n generalizing s r w with
  | zero =>
    refine ⟨[], rfl, ?_, rfl⟩
    rw [List.flatten_nil, List.append_nil]
    exact hr
  | succ n ih =>
    rw [receiveAgain]
    rcases h.receive hr w with (hwaits | ⟨w', hblocks, hpending⟩) | ⟨b, r', w', hreads, hr', hpending⟩
    · obtain ⟨bs, hbs⟩ := ih hr w
      rw [hwaits]
      exact ⟨bs, hbs⟩
    · obtain ⟨bs, hbs, hrest⟩ := ih hr w'
      rw [hblocks]
      exact ⟨bs, hpending.trans hbs, hrest⟩
    · obtain ⟨bs, hbs, hobject, hanswers⟩ := ih hr' w'
      rw [hreads]
      refine ⟨b :: bs, ?_, ?_, ?_⟩
      · rw [hpending, hbs, List.flatten_cons, List.append_assoc]
      · rw [List.flatten_cons, ← List.append_assoc]
        exact hobject
      · rw [scanl_tail, ← hanswers, answered, List.filterMap_cons]
        simp only [if_neg (h.enough _).2]
        rfl

end Http

/-! ## Requests -/

namespace HttpRequest

/-- The header has ended, and what it announced has come. -/
structure Complete (r : HttpRequest) : Prop where
  ended : r.headerEnded = true
  length : r.contentLength ≤ r.body.length

theorem parseBody_completes {r r' : HttpRequest} (hended : r.headerEnded = true) (h : parseBody r = (some .success, r')) :
    r'.Complete := by
  obtain ⟨hlength, hmax⟩ := parseBody_complete (congrArg Prod.fst h)
  rw [parseBody_eq hlength hmax] at h
  cases h
  exact ⟨hended, hlength⟩

theorem parse_completes {r r' : HttpRequest} {p : Bytes} (h : parse r p = (some .success, r')) : r'.Complete := by
  unfold parse parseBuffer at h
  split at h
  · rename_i hended
    exact parseBody_completes hended h
  · split at h
    · cases h
    · split at h
      · split at h
        · cases h
        · cases h
      · rename_i headerEnd headerEndSize hend
        simp only at h
        split at h
        · cases h
        · split at h
          · cases h
          · rename_i x hread
            refine parseBody_completes ?_ h
            have hended := readHeader_ended { r with body := r.body ++ p, headerEnded := true }
              (Http.splitString ((r.body ++ p).take headerEnd) LF false)
            rw [show readHeader _ _ = (true, x) from hread] at hended
            exact hended

/-- How more bytes are answered. -/
def lateStatus (body : Bytes) : Status := if maxHttpBodySize < body.length then .httpBodyTooBig else .success

/-- `r` with another body. -/
def Extended (r : HttpRequest) (body : Bytes) (x : HttpRequest) : Prop := ∃ post, x = { r with body := body, postData := post }

theorem late (r : HttpRequest) (hended : r.headerEnded = true) :
    Http.Late parse (fun body x => r.contentLength ≤ body.length ∧ r.Extended body x) lateStatus where
  parses := by
    intro body x b hx _
    obtain ⟨hlength, post, rfl⟩ := hx
    have hlonger : r.contentLength ≤ (body ++ b).length := by
      rw [List.length_append]
      omega
    rw [parse_ended (by exact hended)]
    by_cases hmax : maxHttpBodySize < (body ++ b).length
    · refine ⟨_, ?_, hlonger, post, rfl⟩
      unfold parseBody lateStatus
      rw [if_pos hmax, if_pos hmax]
    · obtain ⟨post', hpost⟩ := parseBody_success (r := { r with body := body ++ b, postData := post }) hlonger
        (Nat.le_of_not_lt hmax)
      refine ⟨_, ?_, hlonger, post', rfl⟩
      rw [hpost, lateStatus, if_neg hmax]
  enough := by
    intro body
    unfold lateStatus
    split
    · decide
    · decide

end HttpRequest

/-- Whatever comes after a request, the same object has it as more of its body: each block
    that is taken is answered Success, or HttpBodyTooBig from where the body is, and nothing
    of it is looked at as a header. -/
theorem request_reused {σ : Type} [FifoReceiver σ] {w w₁ : σ} {r : HttpRequest}
    (h : Http.receive HttpRequest.parse .fresh w = (.returned .success, r, w₁)) (n : Nat) :
    let again := Http.receiveAgain HttpRequest.parse n r w₁
    ∃ bs : List Bytes, pending w₁ = bs.flatten ++ pending again.2.2 ∧ r.Extended (r.body ++ bs.flatten) again.2.1 ∧
      Http.answered again.1 = (bs.scanl (· ++ ·) r.body).tail.map HttpRequest.lateStatus := by
  intro again
  obtain ⟨r₀, b, hparse⟩ := Http.receiveFrom_last (by decide) h
  have hcomplete := HttpRequest.parse_completes hparse
  obtain ⟨bs, hpending, ⟨-, hobject⟩, hanswers⟩ :=
    (HttpRequest.late r hcomplete.ended).again n ⟨hcomplete.length, r.postData, rfl⟩ w₁
  exact ⟨bs, hpending, hobject, hanswers⟩

def sampleGet : Bytes := bytes "GET /a HTTP/1.1\r\n\r\n"

def sampleDelete : Bytes := bytes "DELETE /b HTTP/1.1\r\n\r\n"

/-- The second request ends up in the body of the first. -/
theorem request_reused_sample :
    let r := (HttpRequest.parse .fresh sampleGet).2
    let again := Http.receiveAgain HttpRequest.parse 1 r (arriving [sampleDelete])
    ∃ bs : List Bytes, sampleDelete = bs.flatten ++ pending again.2.2 ∧ again.2.1.uri = bytes "/a" ∧
      again.2.1.requestType = .get ∧ again.2.1.body = bs.flatten := by
  intro r again
  have hparse : HttpRequest.parse .fresh sampleGet = (some .success, r) := Prod.ext (by decide +kernel) rfl
  have hfirst : Http.receive HttpRequest.parse .fresh (arriving [sampleGet, sampleDelete]) =
      (.returned .success, r, arriving [sampleDelete]) :=
    Http.receiveFrom_done (arriving_read (by decide) (by decide) _) hparse (by decide)
  obtain ⟨bs, hpending, ⟨post, hobject⟩, -⟩ := request_reused hfirst 1
  have hbody : r.body = [] := by decide +kernel
  have huri : r.uri = bytes "/a" := by decide +kernel
  have htype : r.requestType = .get := by decide +kernel
  refine ⟨bs, ?_, ?_, ?_, ?_⟩
  · rw [← hpending]
    decide
  · exact (congrArg (fun x : HttpRequest => x.uri) hobject).trans huri
  · exact (congrArg (fun x : HttpRequest => x.requestType) hobject).trans htype
  · exact (congrArg (fun x : HttpRequest => x.body) hobject).trans (by rw [hbody]; rfl)

/-! ## Responses -/

namespace HttpResponse

/-- The header has ended and announced a length, and the body has it. -/
structure Sized (r : HttpResponse) : Prop where
  ended : r.headerEnded = true
  plain : TransferEncoding.chunked ∉ r.transferEncodings
  announced : 0 < r.contentLength
  length : r.body.length = r.contentLength

theorem parseBody_sized {r r' : HttpResponse} (hended : r.headerEnded = true) (h : parseBody r = (some .success, r'))
    (hplain : TransferEncoding.chunked ∉ r'.transferEncodings) (hlength : 0 < r'.contentLength) : r'.Sized := by
  unfold parseBody at h
  split at h
  · cases h
  · split at h
    · rename_i hchunked
      simp only at h
      obtain ⟨-, rfl⟩ := Prod.mk.inj h
      exact absurd hchunked hplain
    · split at h
      · rename_i hcut
        cases h
        exact ⟨hended, hplain, hlength, List.length_take_of_le hcut.2.le⟩
      · split at h
        · cases h
        · rename_i hcut hmore
          cases h
          exact ⟨hended, hplain, hlength, by omega⟩

theorem parse_sized {r r' : HttpResponse} {p : Bytes} (h : parse r p = (some .success, r'))
    (hplain : TransferEncoding.chunked ∉ r'.transferEncodings) (hlength : 0 < r'.contentLength) : r'.Sized := by
  unfold parse parseBuffer at h
  split at h
  · rename_i hended
    exact parseBody_sized hended h hplain hlength
  · split at h
    · cases h
    · split at h
      · split at h
        · cases h
        · cases h
      · rename_i headerEnd headerEndSize hend
        simp only at h
        split at h
        · cases h
        · split at h
          · cases h
          · rename_i x hread
            refine parseBody_sized ?_ h hplain hlength
            have hended := (readHeader_ended { r with body := r.body ++ p, headerEnded := true }
              (Http.splitString ((r.body ++ p).take headerEnd) LF false)).1
            rw [show readHeader _ _ = (true, x) from hread] at hended
            exact hended

/-- More bytes are cut off. -/
theorem late {r : HttpResponse} (h : r.Sized) (hroom : r.body.length + recvChunkSize ≤ maxHttpBodySize) :
    Http.Late parse (fun _ x => x = r) fun _ => .success where
  parses := by
    intro s x b hx hb
    subst hx
    have hlength := h.length
    have hlonger : (x.body ++ b).length = x.body.length + b.length := List.length_append
    have hmax : ¬ maxHttpBodySize < (x.body ++ b).length := by omega
    refine ⟨x, ?_, rfl⟩
    rw [parse_ended h.ended, parseBody, if_neg (by exact hmax), if_neg (by exact h.plain)]
    by_cases hnil : b = []
    · subst hnil
      simp only [List.append_nil]
      rw [if_neg (by omega), if_neg (by omega)]
    · have hpos := List.length_pos_iff.mpr hnil
      have hover : x.contentLength < (x.body ++ b).length := by omega
      have hcut : (x.body ++ b).take x.contentLength = x.body := List.take_left' hlength
      rw [if_pos ⟨h.announced, by exact hover⟩, hcut]
  enough := fun _ => by decide

end HttpResponse

/-- Whatever comes after a response with a content length, every block of it that the same
    object is given is taken and answered Success, and the object is as the first response
    left it. -/
theorem response_reused {σ : Type} [FifoReceiver σ] {w w₁ : σ} {r : HttpResponse}
    (h : Http.receive HttpResponse.parse .fresh w = (.returned .success, r, w₁))
    (hplain : TransferEncoding.chunked ∉ r.transferEncodings) (hlength : 0 < r.contentLength)
    (hroom : r.body.length + recvChunkSize ≤ maxHttpBodySize) (n : Nat) :
    let again := Http.receiveAgain HttpResponse.parse n r w₁
    ∃ bs : List Bytes, pending w₁ = bs.flatten ++ pending again.2.2 ∧ again.2.1 = r ∧
      Http.answered again.1 = List.replicate bs.length .success := by
  intro again
  obtain ⟨r₀, b, hparse⟩ := Http.receiveFrom_last (by decide) h
  have hsized := HttpResponse.parse_sized hparse hplain hlength
  obtain ⟨bs, hpending, hobject, hanswers⟩ := (HttpResponse.late hsized hroom).again n (s := []) rfl w₁
  refine ⟨bs, hpending, hobject, ?_⟩
  rw [hanswers, List.map_const', List.length_tail, List.length_scanl, Nat.add_sub_cancel]

def sampleFound : Bytes := bytes "HTTP/1.1 200 OK\r\ncontent-length: 2\r\n\r\nhi"

def sampleMissing : Bytes := bytes "HTTP/1.1 404 Not Found\r\ncontent-length: 2\r\n\r\nno"

/-- The second response is received as the first once more. -/
theorem response_reused_sample :
    let r := (HttpResponse.parse .fresh sampleFound).2
    let again := Http.receiveAgain HttpResponse.parse 1 r (arriving [sampleMissing])
    ∃ bs : List Bytes, sampleMissing = bs.flatten ++ pending again.2.2 ∧ again.2.1.body = bytes "hi" ∧
      Http.answered again.1 = List.replicate bs.length .success := by
  intro r again
  have hparse : HttpResponse.parse .fresh sampleFound = (some .success, r) := Prod.ext (by decide +kernel) rfl
  have hfirst : Http.receive HttpResponse.parse .fresh (arriving [sampleFound, sampleMissing]) =
      (.returned .success, r, arriving [sampleMissing]) :=
    Http.receiveFrom_done (arriving_read (by decide) (by decide) _) hparse (by decide)
  obtain ⟨bs, hpending, hobject, hanswers⟩ :=
    response_reused hfirst (by decide +kernel) (by decide +kernel) (by decide +kernel) 1
  have hbody : r.body = bytes "hi" := by decide +kernel
  refine ⟨bs, ?_, ?_, hanswers⟩
  · rw [← hpending]
    decide
  · exact (congrArg (fun x : HttpResponse => x.body) hobject).trans hbody

end Frnetlib
