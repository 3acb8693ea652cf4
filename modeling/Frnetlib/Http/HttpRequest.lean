/-
  Frnetlib.Http.HttpRequest — `fr::HttpRequest` (`HttpRequest.h`, `HttpRequest.cpp`).

  `parse` returns the status with the object it leaves, whatever the status; the
  status is `none` when an exception leaves the function. `construct` writes the
  three maps in the order `o` iterates them.

  The POST loop of `construct` compares a `post_data` iterator with
  `get_data.end()`; every end iterator of `std::unordered_map` is the same null node
  on the supported platforms, so it separates as the GET loop does.
-/

import Frnetlib.Http.Http
import Frnetlib.Net.Socket

namespace Frnetlib

open Base

structure HttpRequest extends Http where
  headerEnded : Bool
  contentLength : Nat
  deriving DecidableEq

namespace HttpRequest

def fresh : HttpRequest := ⟨Http.fresh, false, 0⟩

/-! ## Parsing -/

def parseHeaderType (str : Bytes) : RequestType :=
  match find [SP] str with
  | some typeEnd => Http.stringToRequestType (str.take typeEnd)
  | none => .unknown

/-- One GET variable of the request line, stored under its lower-case name. -/
def emplaceGet (m : StrMap) (c : Entry) : StrMap := emplace m (c.1.map tolower) c.2

/-- What lies between the method and the version: the GET variables, from the first
    `?` on, and the URI before it. -/
def storeUri (h : Http) (str : Bytes) (uriBegin uriEnd : Nat) : Option Http :=
  match find [63] str with
  | some getBegin =>
    match (substr str getBegin (usub uriEnd getBegin)).bind Http.parseArgumentList,
      substr str uriBegin (usub getBegin uriBegin) with
    | some getVars, some uri => some (Http.setUri { h with getData := getVars.foldl emplaceGet h.getData } uri)
    | _, _ => none
  | none => (substr str uriBegin (usub uriEnd uriBegin)).map h.setUri

/-- `none` is the exception that `parse_header` catches. -/
def parseHeaderUri (h : Http) (str : Bytes) : Option Http :=
  match find [47] str, find (bytes "HTTP") str with
  | some uriBegin, some httpPos =>
    let uriEnd := usub httpPos 1
    match storeUri h str uriBegin uriEnd, substr str ((uriEnd + 1) % 2 ^ 64) 8 with
    | some h, some v => some { h with version := if v = bytes "HTTP/1.0" then .v1 else .v1_1 }
    | _, _ => none
  | _, _ => none

/-- `parse_header` on the lines of the header. -/
def readHeader (r : HttpRequest) : List Bytes → Bool × HttpRequest
  | [] => (true, r)
  | line :: lines =>
    let r := { r with requestType := parseHeaderType line }
    if RequestType.requestTypeCount.toNat < r.requestType.toNat then (false, r)
    else
      match parseHeaderUri r.toHttp line with
      | none => (false, r)
      | some h =>
        let h := lines.foldl Http.parseHeaderLine h
        match h.headerData.lookup (bytes "content-length") with
        | none => (true, { r with toHttp := h })
        | some v =>
          match stoull 10 v with
          | none => (false, { r with toHttp := h })
          | some n => (true, { r with toHttp := h, contentLength := n })

def parseHeader (r : HttpRequest) (headerEndPos : Nat) : Bool × HttpRequest :=
  readHeader r (Http.splitString (r.body.take headerEndPos) LF false)

def parsePostBody (r : HttpRequest) : Option HttpRequest :=
  let postBegin := (r.body.findIdx? fun b => b != CR && b != LF).or (r.body.findIdx? (· != LF))
  let postEnd := (rfind crlfcrlf r.body).or (rfind lflf r.body)
  match postBegin with
  | none => some r
  | some b =>
    if postEnd = some b then some r
    else
      match (substr r.body b (usub (usub r.body.length b) (usub r.body.length (postEnd.getD npos)))).bind
        Http.parseArgumentList with
      | none => none
      | some post => some { r with toHttp := post.foldl (fun (h : Http) c => h.setPost c.1 c.2) r.toHttp }

/-- `parse` once the header has ended. -/
def parseBody (r : HttpRequest) : Option Status × HttpRequest :=
  if maxHttpBodySize < r.body.length then (some .httpBodyTooBig, r)
  else if r.contentLength ≤ r.body.length then
    if r.requestType = .post then
      match r.parsePostBody with
      | some r => (some .success, r)
      | none => (none, r)
    else (some .success, r)
  else (some .notEnoughData, r)

/-- `parse` once the received bytes are appended to `body`. -/
def parseBuffer (r : HttpRequest) : Option Status × HttpRequest :=
  if r.headerEnded then r.parseBody
  else if r.body ≠ [] ∧ Http.stringToRequestType r.body = .unknown then (some .parseError, r)
  else
    match Http.headerEnd r.body with
    | none => if maxHttpHeaderSize < r.body.length then (some .httpHeaderTooBig, r) else (some .notEnoughData, r)
    | some (headerEnd, headerEndSize) =>
      let r := { r with headerEnded := true }
      if maxHttpHeaderSize < headerEnd then (some .httpHeaderTooBig, r)
      else
        match r.parseHeader headerEnd with
        | (false, r) => (some .parseError, r)
        | (true, r) => parseBody { r with body := r.body.drop (headerEnd + headerEndSize) }

def parse (r : HttpRequest) (request : Bytes) : Option Status × HttpRequest := parseBuffer { r with body := r.body ++ request }

/-! ## Constructing -/

def argument (c : Entry) : Bytes := c.1 ++ [61] ++ c.2

def joinArguments (args : List Entry) : Bytes := List.intercalate [38] (args.map argument)

def construct (o : Order) (r : HttpRequest) (host : Bytes) : Bytes :=
  let type := if r.requestType = .unknown then .get else r.requestType
  let gets := if r.getData.entries.isEmpty then [] else bytes "?" ++ joinArguments (o.gets r.getData)
  let version := if r.version = .v1 then bytes " HTTP/1.0\r\n" else bytes " HTTP/1.1\r\n"
  let headers := (o.headers r.headerData).flatMap Http.headerLine
  let postString := joinArguments (o.posts r.postData)
  let postString := if postString.isEmpty then [] else postString ++ crlf
  let connection := if bytes "connection" ∈ r.headerData then [] else bytes "Connection: keep-alive\r\n"
  let hostLine := if bytes "host" ∈ r.headerData then [] else bytes "Host: " ++ host ++ crlf
  let length :=
    if r.body.isEmpty then [] else bytes "Content-Length: " ++ toDec (r.body.length + postString.length) ++ crlf
  Http.requestTypeToString type ++ bytes " " ++ r.uri ++ gets ++ version ++ headers ++ connection ++ hostLine ++ length ++
    crlf ++ postString ++ r.body

end HttpRequest

end Frnetlib
