/-
  Frnetlib.Http.Http — `fr::Http` (`Http.h`, `Http.cpp`): the state a request and a
  response share, and the functions both parsers are made of.

  `std::unordered_map` is an association list with distinct keys; its order stands
  for nothing: `Order` is an arbitrary iteration order, and every theorem about a
  serialised message holds for all of them. `emplace` keeps a value that is there.

  A string function that could throw returns an `Option`, `none` for the exception.
  Positions are natural numbers; lengths the code computes by unsigned subtraction
  are computed by `usub`.
-/

import Frnetlib.Base.Search
import Frnetlib.Base.Numeral
import Mathlib.Data.List.AList
import Mathlib.Data.List.DropRight
import Mathlib.Data.Finset.Insert

namespace Frnetlib

open Base

/-- The build's default limits (`CMakeLists.txt`). -/
def maxHttpHeaderSize : Nat := 0xC800
def maxHttpBodySize : Nat := 0xA00000

abbrev StrMap := AList fun _ : Bytes => Bytes
abbrev Entry := (_ : Bytes) × Bytes

def emplace (m : StrMap) (k v : Bytes) : StrMap := if k ∈ m then m else m.insert k v

/-- An iteration order of the three maps of a message. -/
structure Order where
  headers : StrMap → List Entry
  gets : StrMap → List Entry
  posts : StrMap → List Entry
  headers_perm : ∀ m, (headers m).Perm m.entries
  gets_perm : ∀ m, (gets m).Perm m.entries
  posts_perm : ∀ m, (posts m).Perm m.entries

/-- The order the entries are kept in. -/
def Order.kept : Order :=
  ⟨AList.entries, AList.entries, AList.entries, fun _ => .refl _, fun _ => .refl _, fun _ => .refl _⟩

inductive RequestVersion where
  | v1
  | v1_1
  | versionCount
  deriving DecidableEq, Repr

inductive RequestType where
  | get
  | post
  | put
  | delete
  | patch
  | requestTypeCount
  | unknown
  | partlyRead
  deriving DecidableEq, Repr

/-- The enumerator's value, which the code compares. -/
def RequestType.toNat : RequestType → Nat
  | .get => 0
  | .post => 1
  | .put => 2
  | .delete => 3
  | .patch => 4
  | .requestTypeCount => 5
  | .unknown => 6
  | .partlyRead => 7

inductive TransferEncoding where
  | none
  | chunked
  | compress
  | deflate
  | gzip
  | identity
  | encodingCount
  deriving DecidableEq, Repr

/-- The values of `RequestStatus`. The field of a message is an `Int`: a parsed
    status is any `int` cast to the enumeration. -/
def requestStatus : List Int :=
  [100, 101, 200, 201, 202, 203, 204, 205, 206, 226, 300, 301, 302, 303, 304, 305, 307, 308, 400, 401, 402, 403, 404,
    405, 406, 407, 408, 409, 410, 411, 412, 413, 414, 415, 416, 417, 418, 422, 426, 428, 429, 431, 451, 500, 501, 502,
    503, 504, 505, 506, 510, 511, 598, 599]

structure Http where
  headerData : StrMap
  postData : StrMap
  getData : StrMap
  transferEncodings : Finset TransferEncoding
  body : Bytes
  requestType : RequestType
  uri : Bytes
  status : Int
  version : RequestVersion
  deriving DecidableEq

namespace Http

def fresh : Http := ⟨∅, ∅, ∅, ∅, [], .unknown, bytes "/", 200, .v1_1⟩

/-! ## Small setters and getters -/

def setUri (h : Http) (str : Bytes) : Http :=
  if str.isEmpty then h else if str.head? = some 47 then { h with uri := str } else { h with uri := 47 :: str }

/-- `header(key) = value`. -/
def setHeader (h : Http) (key value : Bytes) : Http :=
  { h with headerData := h.headerData.insert (key.map tolower) value }

/-- `header(key)` read: a missing key reads as the empty string it creates. -/
def header (h : Http) (key : Bytes) : Bytes := (h.headerData.lookup (key.map tolower)).getD []

/-- `post(key) = value`. -/
def setPost (h : Http) (key value : Bytes) : Http :=
  { h with postData := h.postData.insert (key.map tolower) value }

/-! ## Methods and encodings -/

def requestTypeToString : RequestType → Bytes
  | .get => bytes "GET"
  | .post => bytes "POST"
  | .put => bytes "PUT"
  | .delete => bytes "DELETE"
  | .patch => bytes "PATCH"
  | _ => bytes "UNKNOWN"

/-- `std::string::compare` of two whole strings, by unsigned bytes. -/
def compareStr : Bytes → Bytes → Ordering
  | [], [] => .eq
  | [], _ :: _ => .lt
  | _ :: _, [] => .gt
  | a :: s, b :: t => if a = b then compareStr s t else if a < b then .lt else .gt

/-- The loop of `string_to_request_type` over the methods still to be tried. -/
def matchType (str : Bytes) : List RequestType → RequestType → RequestType
  | [], type => type
  | a :: as, type =>
    let typeString := requestTypeToString a
    let cmpRet := compareStr (str.take typeString.length) typeString
    if cmpRet = .eq then a
    else
      let type := if str.length < typeString.length ∧ cmpRet = .lt then .partlyRead else type
      let type := if type ≠ .partlyRead ∧ str.length < typeString.length ∧ cmpRet = .gt then .unknown else type
      matchType str as type

def methods : List RequestType := [.get, .post, .put, .delete, .patch]

def stringToRequestType (str : Bytes) : RequestType := matchType str methods .unknown

def stringToTransferEncoding (encoding : Bytes) : TransferEncoding :=
  let encoding := encoding.map tolower
  if encoding = bytes "chunked" then .chunked
  else if encoding = bytes "compress" then .compress
  else if encoding = bytes "deflate" then .deflate
  else if encoding = bytes "gzip" then .gzip
  else if encoding = bytes "identity" then .identity
  else .none

/-! ## Splitting -/

/-- The loop of `split_string`: `buffer` is the entry being read. Empty entries are
    dropped; with `stripSpacing` every space is. -/
def splitFrom (token : UInt8) (stripSpacing : Bool) (buffer : Bytes) : Bytes → List Bytes
  | [] => if buffer.isEmpty then [] else [buffer]
  | a :: s =>
    if a = token then
      if buffer.isEmpty then splitFrom token stripSpacing [] s else buffer :: splitFrom token stripSpacing [] s
    else if a ≠ SP ∨ ¬ stripSpacing then splitFrom token stripSpacing (buffer ++ [a]) s
    else splitFrom token stripSpacing buffer s

def splitString (str : Bytes) (token : UInt8) (stripSpacing : Bool) : List Bytes := splitFrom token stripSpacing [] str

/-- The loop of `parse_argument_list` from `readIndex` on. -/
def parseArgumentsFrom (str : Bytes) (readIndex : Nat) : Option (List Entry) :=
  match findFrom [61] str readIndex with
  | none => some []
  | some equalPos =>
    match h : findFrom [38] str readIndex with
    | none =>
      -- the last argument: line ends at the end of the string are no part of its value
      let strSize := (str.rdropWhile fun b => b = LF ∨ b = CR).length
      match substr str readIndex (usub equalPos readIndex),
        substr str (equalPos + 1) (usub (usub strSize equalPos) 1) with
      | some k, some v => some [⟨k, v⟩]
      | _, _ => none
    | some andPos =>
      have := findFrom_bounds h (by simp)
      match substr str readIndex (usub equalPos readIndex),
        substr str (equalPos + 1) (usub (usub andPos equalPos) 1) with
      | some k, some v => (parseArgumentsFrom str (andPos + 1)).map (⟨k, v⟩ :: ·)
      | _, _ => none
termination_by str.length - readIndex

def parseArgumentList (str : Bytes) : Option (List Entry) :=
  if str.isEmpty then some [] else parseArgumentsFrom str (if str.head? = some 63 then 1 else 0)

def parseHeaderLine (h : Http) (str : Bytes) : Http :=
  match find [58] str with
  | none => h
  | some colonPos =>
    match findIdxFrom (· != SP) str (colonPos + 1) with
    | none => h
    | some dataBegin =>
      let headerName := (str.take colonPos).map tolower
      let headerValue := (str.drop dataBegin).takeWhile isPrint
      let encodings :=
        if headerName = bytes "transfer-encoding" then
          (splitString headerValue 44 true).foldl (fun set enc => insert (stringToTransferEncoding enc) set)
            h.transferEncodings
        else h.transferEncodings
      { h with transferEncodings := encodings, headerData := emplace h.headerData headerName headerValue }

/-- One line of a serialised header. -/
def headerLine (c : Entry) : Bytes := c.1 ++ bytes ": " ++ c.2 ++ crlf

/-- Where the header ends and how long its terminator is: the first CR LF CR LF, and
    only where there is none the first LF LF. Both `parse` functions begin with it. -/
def headerEnd (body : Bytes) : Option (Nat × Nat) :=
  match find crlfcrlf body with
  | some e => some (e, 4)
  | none => (find lflf body).map (·, 2)

end Http

end Frnetlib
