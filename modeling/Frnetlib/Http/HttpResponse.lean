/-
  Frnetlib.Http.HttpResponse — `fr::HttpResponse` (`HttpResponse.h`,
  `HttpResponse.cpp`).

  As for the request, a status of `none` is an exception that leaves `parse`; here
  `std::stoul` on a chunk's length line and `std::string::erase` can throw one.
  `chunks` is the chunked loop: it edits the body in place, and `chunk_offset`
  separates the decoded payloads from what is still encoded. `chunk_len` is an
  `unsigned int`, and so is `chunk_len + 4`.
-/

import Frnetlib.Http.Http
import Frnetlib.Net.Socket

namespace Frnetlib

open Base

structure HttpResponse extends Http where
  headerEnded : Bool
  contentLength : Nat
  chunkOffset : Nat
  deriving DecidableEq

namespace HttpResponse

def fresh : HttpResponse := ⟨Http.fresh, false, 0, 0⟩

/-! ## Parsing -/

/-- The status line: code and version, `none` for a return of false or an exception. -/
def parseStatusLine (h : Http) (line : Bytes) : Option Http :=
  match find [SP] line with
  | none => none
  | some statusBegin =>
    let endPos := (findFrom [SP] line (statusBegin + 1)).getD npos
    match (substr line statusBegin (usub endPos statusBegin)).bind stoi with
    | none => none
    | some code =>
      some { h with
        status := code
        version := if line.take statusBegin = bytes "HTTP/1.0" then .v1 else .v1_1 }

/-- `parse_header` on the lines of the header. -/
def readHeader (r : HttpResponse) : List Bytes → Bool × HttpResponse
  | [] => (false, r)
  | line :: lines =>
    match parseStatusLine r.toHttp line with
    | none => (false, r)
    | some h =>
      let h := lines.foldl Http.parseHeaderLine h
      match h.headerData.lookup (bytes "content-length") with
      | none => (true, { r with toHttp := h })
      | some v =>
        match stoull 10 v with
        | none => (false, { r with toHttp := h })
        | some n => (true, { r with toHttp := h, contentLength := n })

def parseHeader (r : HttpResponse) (headerEndPos : Nat) : Bool × HttpResponse :=
  readHeader r (Http.splitString (r.body.take headerEndPos) LF false)

/-- What one round of the chunked loop does: ask for more data, throw, or decode a
    chunk of `chunk_len` bytes, which leaves this body. -/
inductive Round where
  | more
  | throws
  | chunk (chunkLen : Nat) (body : Bytes)
  deriving DecidableEq

def chunkRound (body : Bytes) (chunkOffset : Nat) : Round :=
  match findFrom crlf body chunkOffset with
  | none => .more
  | some lengthEnd =>
    let hexLength := (body.drop chunkOffset).take (lengthEnd - chunkOffset)
    match stoull 16 hexLength with
    | none => .throws
    | some n =>
      let chunkLen := n % 2 ^ 32
      if body.length - lengthEnd < (chunkLen + 4) % 2 ^ 32 then .more
      else if body.length < chunkOffset + hexLength.length + chunkLen + 2 then .throws
      else
        let body := erase body (chunkOffset + hexLength.length + chunkLen + 2) 2
        .chunk chunkLen (erase body chunkOffset (hexLength.length + 2))

/-- A round that decodes a chunk takes its length line and its end away. -/
theorem chunkRound_length {body body' : Bytes} {chunkOffset chunkLen : Nat}
    (h : chunkRound body chunkOffset = .chunk chunkLen body') (hlt : chunkOffset < body.length) :
    body'.length < body.length ∧ body'.length - (chunkOffset + chunkLen) < body.length - chunkOffset := by
  unfold chunkRound at h
  split at h
  · cases h
  · rename_i lengthEnd hf
    have hb := findFrom_bounds hf (by simp [crlf])
    simp only at h
    split at h
    · cases h
    · split at h
      · cases h
      · split at h
        · cases h
        · cases h
          simp only [erase, List.length_append, List.length_take, List.length_drop] at *
          omega

theorem chunkRound_shrinks {body body' : Bytes} {chunkOffset chunkLen : Nat}
    (h : chunkRound body chunkOffset = .chunk chunkLen body') (hlt : chunkOffset < body.length) :
    body'.length - (chunkOffset + chunkLen) < body.length - chunkOffset := (chunkRound_length h hlt).2

/-- The chunked loop: what `parse` returns from it, the body and `chunk_offset`. -/
def chunks (body : Bytes) (chunkOffset : Nat) : Option Status × Bytes × Nat :=
  if hlt : chunkOffset < body.length then
    match h : chunkRound body chunkOffset with
    | .more => (some .notEnoughData, body, chunkOffset)
    | .throws => (none, body, chunkOffset)
    | .chunk chunkLen body' =>
      have := chunkRound_shrinks h hlt
      if chunkLen = 0 then (some .success, body', chunkOffset) else chunks body' (chunkOffset + chunkLen)
  else (some .notEnoughData, body, chunkOffset)
termination_by body.length - chunkOffset

theorem chunks_more {body : Bytes} {chunkOffset : Nat} (h : chunkRound body chunkOffset = .more) :
    chunks body chunkOffset = (some .notEnoughData, body, chunkOffset) := by
  unfold chunks
  split
  · split <;> simp_all
  · rfl

theorem chunks_throws {body : Bytes} {chunkOffset : Nat} (hlt : chunkOffset < body.length)
    (h : chunkRound body chunkOffset = .throws) : chunks body chunkOffset = (none, body, chunkOffset) := by
  rw [chunks, dif_pos hlt]; split <;> simp_all

theorem chunks_chunk {body body' : Bytes} {chunkOffset chunkLen : Nat} (hlt : chunkOffset < body.length)
    (h : chunkRound body chunkOffset = .chunk chunkLen body') :
    chunks body chunkOffset =
      if chunkLen = 0 then (some .success, body', chunkOffset) else chunks body' (chunkOffset + chunkLen) := by
  rw [chunks, dif_pos hlt]; split <;> simp_all

theorem chunks_end {body : Bytes} {chunkOffset : Nat} (h : ¬ chunkOffset < body.length) :
    chunks body chunkOffset = (some .notEnoughData, body, chunkOffset) := by
  rw [chunks, dif_neg h]

/-- `parse` once the header has ended. -/
def parseBody (r : HttpResponse) : Option Status × HttpResponse :=
  if maxHttpBodySize < r.body.length then (some .httpBodyTooBig, r)
  else if TransferEncoding.chunked ∈ r.transferEncodings then
    let (st, body, chunkOffset) := chunks r.body r.chunkOffset
    (st, { r with body := body, chunkOffset := chunkOffset })
  else if 0 < r.contentLength ∧ r.contentLength < r.body.length then
    (some .success, { r with body := r.body.take r.contentLength })
  else if r.body.length < r.contentLength then (some .notEnoughData, r)
  else (some .success, r)

/-- `parse` once the received bytes are appended to `body`. -/
def parseBuffer (r : HttpResponse) : Option Status × HttpResponse :=
  if r.headerEnded then r.parseBody
  else if 4 ≤ r.body.length ∧ r.body.take 4 ≠ bytes "HTTP" then (some .parseError, r)
  else
    match Http.headerEnd r.body with
    | none => if maxHttpHeaderSize < r.body.length then (some .httpHeaderTooBig, r) else (some .notEnoughData, r)
    | some (headerEnd, headerEndSize) =>
      let r := { r with headerEnded := true }
      if maxHttpHeaderSize < headerEnd then (some .httpHeaderTooBig, r)
      else
        match r.parseHeader headerEnd with
        | (false, r) => (some .parseError, r)
        | (true, r) => parseBody { r with body := r.body.drop (headerEnd + headerEndSize) }

def parse (r : HttpResponse) (responseData : Bytes) : Option Status × HttpResponse :=
  parseBuffer { r with body := r.body ++ responseData }

/-! ## Constructing -/

def construct (o : Order) (r : HttpResponse) (_host : Bytes) : Bytes :=
  let version := if r.version = .v1 then bytes "HTTP/1.0 " else bytes "HTTP/1.1 "
  let headers := (o.headers r.headerData).flatMap Http.headerLine
  let connection := if bytes "connection" ∈ r.headerData then [] else bytes "connection: keep-alive\r\n"
  let type := if bytes "content-type" ∈ r.headerData then [] else bytes "content-type: text/html\r\n"
  let length :=
    if bytes "content-length" ∉ r.headerData ∧ r.body ≠ [] then
      bytes "content-length: " ++ toDec r.body.length ++ crlf
    else []
  version ++ toDec (r.status % 2 ^ 32).toNat ++ bytes " \r\n" ++ headers ++ connection ++ type ++ length ++ crlf ++ r.body

end HttpResponse

end Frnetlib
