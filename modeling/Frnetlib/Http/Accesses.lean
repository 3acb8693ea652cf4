/-
  Frnetlib.Http.Accesses — the string accesses of `fr::HttpRequest::parse`.

  Each function that takes part of a string is written once more so that it logs the
  accesses it makes: where a `substr` starts, its length and whether that wrapped around,
  and the index of each character that `parse_argument_list` looks at. `compare` and
  `erase` at position 0 are not logged. A traced function comes to what the function comes
  to, and all it logs is safe: one lemma for each function, then a call on any object
  (`parseTraced_comes`), and every sequence of calls, after an error too (`parse_total`).
-/

import Frnetlib.Base.Trace
import Frnetlib.Http.Exceptions
import Frnetlib.Http.RequestLine

namespace Frnetlib

open Base

/-! ## Argument lists -/

namespace Http

/-- `while(str[str_size - 1] == '\n' || str[str_size - 1] == '\r') --str_size;` -/
def lineEndsTraced (str : Bytes) : Nat → Traced Access Nat
  | 0 => do
    let _ ← charAt str (usub 0 1)
    Traced.throw
  | strSize + 1 => do
    let b ← charAt str strSize
    if b = LF ∨ b = CR then lineEndsTraced str strSize else pure (strSize + 1)

def parseArgumentsFromTraced (str : Bytes) (readIndex : Nat) : Traced Access (List Entry) :=
  match findFrom [61] str readIndex with
  | none => pure []
  | some equalPos =>
    match h : findFrom [38] str readIndex with
    | none => do
      let strSize ← lineEndsTraced str str.length
      let k ← substrAt str readIndex ((Unsigned.of equalPos).sub (.of readIndex))
      let v ← substrAt str (equalPos + 1) (((Unsigned.of strSize).sub (.of equalPos)).sub (.of 1))
      pure [⟨k, v⟩]
    | some andPos => do
      have := findFrom_bounds h (by simp)
      let k ← substrAt str readIndex ((Unsigned.of equalPos).sub (.of readIndex))
      let v ← substrAt str (equalPos + 1) (((Unsigned.of andPos).sub (.of equalPos)).sub (.of 1))
      let args ← parseArgumentsFromTraced str (andPos + 1)
      pure (⟨k, v⟩ :: args)
termination_by str.length - readIndex

def parseArgumentListTraced (str : Bytes) : Traced Access (List Entry) :=
  if str.isEmpty then pure [] else do
    let front ← charAt str 0
    parseArgumentsFromTraced str (if front = 63 then 1 else 0)

/-- The scan stops at the `=` at the latest. -/
theorem lineEndsTraced_comes {str : Bytes} {equalPos : Nat} (hequal : str[equalPos]? = some 61) {strSize : Nat}
    (hlt : equalPos < strSize) (hle : strSize ≤ str.length) :
    (lineEndsTraced str strSize).Comes Access.Safe (some (trimEnds (str.take strSize)).length) := by
  induction strSize with
  | zero => omega
  | succ n ih =>
    obtain ⟨b, hb⟩ : ∃ b, str[n]? = some b := ⟨_, List.getElem?_eq_getElem (by omega)⟩
    have htake : str.take (n + 1) = str.take n ++ [b] := by
      rw [List.take_add_one, hb]
      rfl
    refine (charAt_safe hb).bind ?_
    by_cases hend : b = LF ∨ b = CR
    · have hne : equalPos ≠ n := by
        intro heq
        rw [heq, hb] at hequal
        cases hequal
        exact absurd hend (by decide)
      have htrim : trimEnds (str.take n ++ [b]) = trimEnds (str.take n) := List.rdropWhile_concat_pos _ _ _ (by simpa using hend)
      rw [if_pos hend, htake, htrim]
      exact ih (by omega) (by omega)
    · have htrim : trimEnds (str.take n ++ [b]) = str.take n ++ [b] := List.rdropWhile_concat_neg _ _ _ (by simpa using hend)
      rw [if_neg hend, htake, htrim, ← htake, List.length_take, Nat.min_eq_left hle]
      exact .pure _

theorem findFrom_at {c : UInt8} {s : Bytes} {i j : Nat} (h : findFrom [c] s i = some j) : s[j]? = some c := by
  obtain ⟨k, hk, rfl⟩ := Option.map_eq_some_iff.mp h
  have hsplit := find_split hk
  have hle := find_le hk
  have hlength : ((s.drop i).take k).length = k := by
    rw [List.length_take]
    simp only [List.length_singleton] at hle
    omega
  have hchar : (s.drop i)[k]? = some c := by
    rw [hsplit, List.append_assoc, List.getElem?_append_right (by omega), hlength, Nat.sub_self]
    rfl
  rwa [List.getElem?_drop, Nat.add_comm] at hchar

/-- An argument's two parts, and then the others. -/
theorem argumentTraced_comes {str : Bytes} (hsize : str.length < 2 ^ 64) {readIndex equalPos e : Nat}
    (hread : readIndex ≤ equalPos) (hequal : equalPos < str.length) {k v : Bytes}
    (hk : substr str readIndex (usub equalPos readIndex) = some k)
    (hv : substr str (equalPos + 1) (usub (usub e equalPos) 1) = some v) {f : Entry → Traced Access (List Entry)}
    {o : Option (List Entry)} (hf : (f ⟨k, v⟩).Comes Access.Safe o) :
    Traced.Comes Access.Safe (do
      let k ← substrAt str readIndex ((Unsigned.of equalPos).sub (.of readIndex))
      let v ← substrAt str (equalPos + 1) (((Unsigned.of e).sub (.of equalPos)).sub (.of 1))
      f ⟨k, v⟩) o := by
  have hkey := substrAt_upto (e := .of equalPos) hsize (show readIndex ≤ str.length by omega) of_unwrapped
  have hvalue := substrAt_behind (e := e) hsize hequal
  rw [of_value, hk] at hkey
  rw [hv] at hvalue
  exact hkey.bind (hvalue.bind hf)

theorem parseArgumentsFromTraced_comes {str : Bytes} (hsize : str.length < 2 ^ 64) (readIndex : Nat) :
    (parseArgumentsFromTraced str readIndex).Comes Access.Safe (parseArgumentsFrom str readIndex) := by
  fun_induction parseArgumentsFrom str readIndex with
  | case1 readIndex h =>
    rw [parseArgumentsFromTraced, h]
    exact .pure _
  | case2 readIndex equalPos h hand strSize k v hv hk =>
    have hbounds := findFrom_bounds h (by simp)
    have hscan := lineEndsTraced_comes (findFrom_at h) hbounds.2 le_rfl
    rw [List.take_length, show (trimEnds str).length = strSize from rfl] at hscan
    rw [parseArgumentsFromTraced, h]
    simp only
    split
    · exact hscan.bind (argumentTraced_comes hsize hbounds.1 hbounds.2 hk hv (f := fun c => pure [c]) (.pure _))
    · rename_i hs
      rw [hand] at hs
      cases hs
  | case3 readIndex equalPos h hand strSize hn =>
    have hbounds := findFrom_bounds h (by simp)
    exact (hn _ _ (substr_of_le (by omega) _) (substr_of_le (by omega) _)).elim
  | case4 readIndex equalPos h andPos hand hbound k v hv hk ih =>
    have hbounds := findFrom_bounds h (by simp)
    rw [parseArgumentsFromTraced, h]
    simp only
    split
    · rename_i hs
      rw [hand] at hs
      cases hs
    · rename_i andPos' hs
      rw [hand] at hs
      cases hs
      refine argumentTraced_comes hsize hbounds.1 hbounds.2 hk hv
        (f := fun c => parseArgumentsFromTraced str (andPos + 1) >>= fun args => pure (c :: args)) ?_
      obtain ⟨args, hargs⟩ := parseArgumentsFrom_some str (andPos + 1)
      rw [hargs] at ih ⊢
      exact ih.bind (.pure _)
  | case5 readIndex equalPos h andPos hand hbound hn =>
    have hbounds := findFrom_bounds h (by simp)
    exact (hn _ _ (substr_of_le (by omega) _) (substr_of_le (by omega) _)).elim

theorem parseArgumentListTraced_comes {str : Bytes} (hsize : str.length < 2 ^ 64) :
    (parseArgumentListTraced str).Comes Access.Safe (parseArgumentList str) := by
  cases str with
  | nil => exact .pure _
  | cons b s =>
    rw [parseArgumentListTraced, if_neg (by simp), parseArgumentList, if_neg (by simp)]
    have hfront : (b :: s)[0]? = some b := rfl
    refine (charAt_safe hfront).bind ?_
    simp only [List.head?_cons, Option.some.injEq]
    exact parseArgumentsFromTraced_comes hsize _

/-! ## Header lines -/

def parseHeaderLineTraced (h : Http) (str : Bytes) : Traced Access Http :=
  match find [58] str with
  | none => pure h
  | some colonPos =>
    match findIdxFrom (· != SP) str (colonPos + 1) with
    | none => pure h
    | some dataBegin => do
      let dataLen := ((str.drop dataBegin).takeWhile isPrint).length
      let headerName ← substrAt str 0 (.of colonPos)
      let headerValue ← substrAt str dataBegin (.of dataLen)
      let headerName := headerName.map tolower
      let encodings :=
        if headerName = bytes "transfer-encoding" then
          (splitString headerValue 44 true).foldl (fun set enc => insert (stringToTransferEncoding enc) set)
            h.transferEncodings
        else h.transferEncodings
      pure { h with transferEncodings := encodings, headerData := emplace h.headerData headerName headerValue }

theorem parseHeaderLineTraced_comes (h : Http) (str : Bytes) :
    (parseHeaderLineTraced h str).Comes Access.Safe (some (parseHeaderLine h str)) := by
  unfold parseHeaderLineTraced parseHeaderLine
  cases hcolon : find [58] str with
  | none => exact .pure _
  | some colonPos =>
    simp only
    cases hdata : findIdxFrom (· != SP) str (colonPos + 1) with
    | none => exact .pure _
    | some dataBegin =>
      simp only
      have hle := find_le hcolon
      have hbegin : dataBegin ≤ str.length := by
        obtain ⟨k, hk, rfl⟩ := Option.map_eq_some_iff.mp hdata
        have hlt := (List.findIdx?_eq_some_iff_getElem.mp hk).1
        rw [List.length_drop] at hlt
        omega
      have hname : (substrAt str 0 (.of colonPos)).Comes Access.Safe (substr str 0 colonPos) :=
        substrAt_safe (Nat.zero_le _) of_unwrapped
      have hvalue : (substrAt str dataBegin (.of ((str.drop dataBegin).takeWhile isPrint).length)).Comes Access.Safe
          (substr str dataBegin ((str.drop dataBegin).takeWhile isPrint).length) := substrAt_safe hbegin of_unwrapped
      have htake := List.prefix_iff_eq_take.mp (List.takeWhile_prefix isPrint (l := str.drop dataBegin))
      rw [substr_of_le (Nat.zero_le _), List.drop_zero] at hname
      rw [substr_of_le hbegin, ← htake] at hvalue
      exact hname.bind (hvalue.bind (.pure _))

end Http

namespace HttpRequest

/-! ## The request line -/

def parseHeaderTypeTraced (str : Bytes) : Traced Access RequestType :=
  match find [SP] str with
  | some typeEnd => do
    let method ← substrAt str 0 (.of typeEnd)
    pure (Http.stringToRequestType method)
  | none => pure .unknown

def storeUriTraced (h : Http) (str : Bytes) (uriBegin : Nat) (uriEnd : Unsigned) : Traced Access Http :=
  match find [63] str with
  | some getBegin => do
    let query ← substrAt str getBegin (uriEnd.sub (.of getBegin))
    let getVars ← Http.parseArgumentListTraced query
    let uri ← substrAt str uriBegin ((Unsigned.of getBegin).sub (.of uriBegin))
    pure (Http.setUri { h with getData := getVars.foldl emplaceGet h.getData } uri)
  | none => do
    let uri ← substrAt str uriBegin (uriEnd.sub (.of uriBegin))
    pure (h.setUri uri)

/-- `compare` takes a position and a length as `substr` does. -/
def parseHeaderUriTraced (h : Http) (str : Bytes) : Traced Access Http :=
  match find [47] str, find (bytes "HTTP") str with
  | some uriBegin, some httpPos => do
    let uriEnd := (Unsigned.of httpPos).sub (.of 1)
    let h ← storeUriTraced h str uriBegin uriEnd
    let v ← substrAt str ((uriEnd.value + 1) % 2 ^ 64) (.of 8)
    pure { h with version := if v = bytes "HTTP/1.0" then .v1 else .v1_1 }
  | _, _ => Traced.throw

theorem parseHeaderTypeTraced_comes (str : Bytes) :
    (parseHeaderTypeTraced str).Comes Access.Safe (some (parseHeaderType str)) := by
  unfold parseHeaderTypeTraced parseHeaderType
  cases find [SP] str with
  | none => exact .pure _
  | some typeEnd =>
    have hmethod : (substrAt str 0 (.of typeEnd)).Comes Access.Safe (substr str 0 typeEnd) :=
      substrAt_safe (Nat.zero_le _) of_unwrapped
    rw [substr_of_le (Nat.zero_le _), List.drop_zero] at hmethod
    exact hmethod.bind (.pure _)

theorem storeUriTraced_comes (h : Http) {str : Bytes} (hsize : str.length < 2 ^ 64) {uriBegin : Nat}
    (hbegin : uriBegin ≤ str.length) {uriEnd : Unsigned} (hend : uriEnd.wrapped = true → str.length ≤ uriEnd.value) :
    (storeUriTraced h str uriBegin uriEnd).Comes Access.Safe (storeUri h str uriBegin uriEnd.value) := by
  unfold storeUriTraced storeUri
  cases hget : find [63] str with
  | none =>
    have huri := substrAt_upto hsize hbegin hend
    rw [substr_of_le hbegin] at huri ⊢
    exact huri.bind (.pure _)
  | some getBegin =>
    have hle := find_le hget
    have hquery := substrAt_upto hsize (show getBegin ≤ str.length by omega) hend
    have huri := substrAt_upto (e := .of getBegin) hsize hbegin of_unwrapped
    rw [substr_of_le (by omega)] at hquery
    rw [of_value, substr_of_le hbegin] at huri
    simp only
    rw [substr_of_le (by omega), substr_of_le hbegin, Option.bind_some]
    have hshort : ((str.drop getBegin).take (usub uriEnd.value getBegin)).length < 2 ^ 64 := by
      rw [List.length_take, List.length_drop]
      omega
    have hargs := Http.parseArgumentListTraced_comes hshort
    rw [Http.parseArgumentList_eq] at hargs ⊢
    exact hquery.bind (hargs.bind (huri.bind (.pure _)))

theorem parseHeaderUriTraced_comes (h : Http) {str : Bytes} (hsize : str.length < 2 ^ 64) :
    (parseHeaderUriTraced h str).Comes Access.Safe (parseHeaderUri h str) := by
  unfold parseHeaderUriTraced parseHeaderUri
  cases hslash : find [47] str with
  | none => exact .throw
  | some uriBegin =>
    cases hhttp : find (bytes "HTTP") str with
    | none => exact .throw
    | some httpPos =>
      have hbegin := find_le hslash
      have hpos := find_le hhttp
      have hend : ((Unsigned.of httpPos).sub (.of 1)).wrapped = true →
          str.length ≤ ((Unsigned.of httpPos).sub (.of 1)).value := by
        intro hwrap
        have hzero : httpPos = 0 := by simpa using hwrap
        rw [sub_value, of_value, of_value, usub_of_lt (by omega) (by omega)]
        omega
      have hversion : (usub httpPos 1 + 1) % 2 ^ 64 ≤ str.length := by
        by_cases hzero : httpPos = 0
        · rw [hzero]
          exact Nat.zero_le _
        · rw [usub_of_le (by omega), Nat.mod_eq_of_lt (by omega)]
          omega
      have hstore := storeUriTraced_comes h hsize (show uriBegin ≤ str.length by omega) hend
      have hcompare : (substrAt str ((usub httpPos 1 + 1) % 2 ^ 64) (.of 8)).Comes Access.Safe
          (substr str ((usub httpPos 1 + 1) % 2 ^ 64) 8) := substrAt_safe hversion of_unwrapped
      simp only
      rw [sub_value, of_value, of_value] at hstore ⊢
      obtain ⟨getData, uri, hstored⟩ := storeUri_some h (show uriBegin ≤ str.length by omega) (usub httpPos 1)
      rw [substr_of_le hversion] at hcompare ⊢
      rw [hstored] at hstore ⊢
      exact hstore.bind (hcompare.bind (.pure _))

/-! ## A call -/

/-- `parse_header` catches what it throws. -/
def readHeaderTraced (r : HttpRequest) : List Bytes → Traced Access (Bool × HttpRequest)
  | [] => pure (true, r)
  | line :: lines => do
    let type ← parseHeaderTypeTraced line
    let r := { r with requestType := type }
    if RequestType.requestTypeCount.toNat < r.requestType.toNat then pure (false, r)
    else do
      let taken ← (parseHeaderUriTraced r.toHttp line).attempt
      match taken with
      | none => pure (false, r)
      | some h => do
        let h ← lines.foldlM Http.parseHeaderLineTraced h
        match h.headerData.lookup (bytes "content-length") with
        | none => pure (true, { r with toHttp := h })
        | some v =>
          match stoull 10 v with
          | none => pure (false, { r with toHttp := h })
          | some n => pure (true, { r with toHttp := h, contentLength := n })

def parseHeaderTraced (r : HttpRequest) (headerEndPos : Nat) : Traced Access (Bool × HttpRequest) := do
  let header ← substrAt r.body 0 (.of headerEndPos)
  readHeaderTraced r (Http.splitString header LF false)

def parsePostBodyTraced (r : HttpRequest) : Traced Access HttpRequest :=
  let postBegin := (r.body.findIdx? fun b => b != CR && b != LF).or (r.body.findIdx? (· != LF))
  let postEnd := (rfind crlfcrlf r.body).or (rfind lflf r.body)
  match postBegin with
  | none => pure r
  | some b =>
    if postEnd = some b then pure r
    else do
      let size := Unsigned.of r.body.length
      let post ← substrAt r.body b ((size.sub (.of b)).sub (size.sub (.of (postEnd.getD npos))))
      let post ← Http.parseArgumentListTraced post
      pure { r with toHttp := post.foldl (fun (h : Http) c => h.setPost c.1 c.2) r.toHttp }

def parseBodyTraced (r : HttpRequest) : Traced Access (Option Status × HttpRequest) :=
  if maxHttpBodySize < r.body.length then pure (some .httpBodyTooBig, r)
  else if r.contentLength ≤ r.body.length then
    if r.requestType = .post then do
      let taken ← r.parsePostBodyTraced.attempt
      match taken with
      | some r => pure (some .success, r)
      | none => pure (none, r)
    else pure (some .success, r)
  else pure (some .notEnoughData, r)

def parseBufferTraced (r : HttpRequest) : Traced Access (Option Status × HttpRequest) :=
  if r.headerEnded then r.parseBodyTraced
  else if r.body ≠ [] ∧ Http.stringToRequestType r.body = .unknown then pure (some .parseError, r)
  else
    match Http.headerEnd r.body with
    | none => if maxHttpHeaderSize < r.body.length then pure (some .httpHeaderTooBig, r) else pure (some .notEnoughData, r)
    | some (headerEnd, headerEndSize) =>
      let r := { r with headerEnded := true }
      if maxHttpHeaderSize < headerEnd then pure (some .httpHeaderTooBig, r)
      else do
        let (ok, r) ← r.parseHeaderTraced headerEnd
        if ok then parseBodyTraced { r with body := r.body.drop (headerEnd + headerEndSize) }
        else pure (some .parseError, r)

def parseTraced (r : HttpRequest) (request : Bytes) : Traced Access (Option Status × HttpRequest) :=
  parseBufferTraced { r with body := r.body ++ request }

theorem readHeaderTraced_comes (r : HttpRequest) {lines : List Bytes} (hsize : ∀ l ∈ lines, l.length < 2 ^ 64) :
    (readHeaderTraced r lines).Comes Access.Safe (some (readHeader r lines)) := by
  cases lines with
  | nil => exact .pure _
  | cons line lines =>
    refine (parseHeaderTypeTraced_comes line).bind ?_
    unfold readHeader
    by_cases htype : RequestType.requestTypeCount.toNat < (parseHeaderType line).toNat
    · simp only
      rw [if_pos htype, if_pos htype]
      exact .pure _
    · simp only
      rw [if_neg htype, if_neg htype]
      refine (parseHeaderUriTraced_comes _ (hsize line (by simp))).attempt.bind ?_
      cases parseHeaderUri { r.toHttp with requestType := parseHeaderType line } line with
      | none => exact .pure _
      | some h =>
        refine (Traced.Comes.foldlM (fun h l _ => Http.parseHeaderLineTraced_comes h l) h).bind ?_
        simp only
        cases (lines.foldl Http.parseHeaderLine h).headerData.lookup (bytes "content-length") with
        | none => exact .pure _
        | some v =>
          simp only
          cases stoull 10 v with
          | none => exact .pure _
          | some n => exact .pure _

theorem parseHeaderTraced_comes (r : HttpRequest) {headerEndPos : Nat} (hmax : headerEndPos ≤ maxHttpHeaderSize) :
    (parseHeaderTraced r headerEndPos).Comes Access.Safe (some (parseHeader r headerEndPos)) := by
  have hheader : (substrAt r.body 0 (.of headerEndPos)).Comes Access.Safe (substr r.body 0 headerEndPos) :=
    substrAt_safe (Nat.zero_le _) of_unwrapped
  rw [substr_of_le (Nat.zero_le _), List.drop_zero] at hheader
  refine hheader.bind (readHeaderTraced_comes r ?_)
  intro l hl
  have hlength := Http.splitString_length hl
  rw [List.length_take] at hlength
  simp only [maxHttpHeaderSize] at hmax
  omega

theorem parsePostBodyTraced_comes (r : HttpRequest) (hmax : r.body.length ≤ maxHttpBodySize) :
    (parsePostBodyTraced r).Comes Access.Safe (parsePostBody r) := by
  unfold parsePostBodyTraced parsePostBody
  simp only
  cases hbegin : (r.body.findIdx? fun b => b != CR && b != LF).or (r.body.findIdx? (· != LF)) with
  | none => exact .pure _
  | some b =>
    simp only
    by_cases hend : (rfind crlfcrlf r.body).or (rfind lflf r.body) = some b
    · rw [if_pos hend, if_pos hend]
      exact .pure _
    · have hle : b ≤ r.body.length := by
        rcases Option.or_eq_some_iff.mp hbegin with hbegin | ⟨-, hbegin⟩
        · exact (List.findIdx?_eq_some_iff_getElem.mp hbegin).1.le
        · exact (List.findIdx?_eq_some_iff_getElem.mp hbegin).1.le
      have hpost : ((rfind crlfcrlf r.body).or (rfind lflf r.body)).getD npos < 2 ^ 64 := by
        cases hfound : (rfind crlfcrlf r.body).or (rfind lflf r.body) with
        | none => decide
        | some e =>
          simp only [maxHttpBodySize] at hmax
          rcases Option.or_eq_some_iff.mp hfound with hfound | ⟨-, hfound⟩
          · have hbound := (rfind_some hfound).1
            simp only [Option.getD_some]
            omega
          · have hbound := (rfind_some hfound).1
            simp only [Option.getD_some]
            omega
      have hcut := substrAt_less (s := r.body) (by simp only [maxHttpBodySize] at hmax; omega) hle hpost
      rw [if_neg hend, if_neg hend]
      rw [substr_of_le hle] at hcut ⊢
      have hshort : ((r.body.drop b).take (usub (usub r.body.length b) (usub r.body.length
          (((rfind crlfcrlf r.body).or (rfind lflf r.body)).getD npos)))).length < 2 ^ 64 := by
        simp only [maxHttpBodySize] at hmax
        rw [List.length_take, List.length_drop]
        omega
      have hargs := Http.parseArgumentListTraced_comes hshort
      rw [Option.bind_some]
      rw [Http.parseArgumentList_eq] at hargs ⊢
      exact hcut.bind (hargs.bind (.pure _))

theorem parseBodyTraced_comes (r : HttpRequest) : (parseBodyTraced r).Comes Access.Safe (some (parseBody r)) := by
  unfold parseBodyTraced parseBody
  by_cases hmax : maxHttpBodySize < r.body.length
  · rw [if_pos hmax, if_pos hmax]
    exact .pure _
  · rw [if_neg hmax, if_neg hmax]
    by_cases hlength : r.contentLength ≤ r.body.length
    · rw [if_pos hlength, if_pos hlength]
      by_cases hpost : r.requestType = .post
      · rw [if_pos hpost, if_pos hpost]
        refine (parsePostBodyTraced_comes r (by omega)).attempt.bind ?_
        cases parsePostBody r with
        | none => exact .pure _
        | some r => exact .pure _
      · rw [if_neg hpost, if_neg hpost]
        exact .pure _
    · rw [if_neg hlength, if_neg hlength]
      exact .pure _

/-- A call, on any object whatever. -/
theorem parseTraced_comes (r : HttpRequest) (p : Bytes) : (parseTraced r p).Comes Access.Safe (some (parse r p)) := by
  unfold parseTraced parse parseBufferTraced parseBuffer
  generalize ({ r with body := r.body ++ p } : HttpRequest) = r
  by_cases hended : r.headerEnded = true
  · rw [if_pos hended, if_pos hended]
    exact parseBodyTraced_comes r
  · rw [if_neg hended, if_neg hended]
    by_cases hunknown : r.body ≠ [] ∧ Http.stringToRequestType r.body = .unknown
    · rw [if_pos hunknown, if_pos hunknown]
      exact .pure _
    · rw [if_neg hunknown, if_neg hunknown]
      cases Http.headerEnd r.body with
      | none =>
        simp only
        by_cases hmax : maxHttpHeaderSize < r.body.length
        · rw [if_pos hmax, if_pos hmax]
          exact .pure _
        · rw [if_neg hmax, if_neg hmax]
          exact .pure _
      | some found =>
        obtain ⟨headerEnd, headerEndSize⟩ := found
        simp only
        by_cases hmax : maxHttpHeaderSize < headerEnd
        · rw [if_pos hmax, if_pos hmax]
          exact .pure _
        · rw [if_neg hmax, if_neg hmax]
          refine (parseHeaderTraced_comes _ (by omega)).bind ?_
          generalize parseHeader { r with headerEnded := true } headerEnd = read
          obtain ⟨ok, r⟩ := read
          cases ok with
          | false => exact .pure _
          | true => exact parseBodyTraced_comes _

/-! ## Every sequence of calls -/

theorem parseBody_answers (r : HttpRequest) : (parseBody r).1 ∈ HttpResponse.answers := by
  unfold parseBody
  rw [parsePostBody_eq]
  by_cases hmax : maxHttpBodySize < r.body.length
  · rw [if_pos hmax]
    simp [HttpResponse.answers]
  · rw [if_neg hmax]
    by_cases hlength : r.contentLength ≤ r.body.length
    · rw [if_pos hlength]
      split
      · simp [HttpResponse.answers]
      · simp [HttpResponse.answers]
    · rw [if_neg hlength]
      simp [HttpResponse.answers]

/-- A call on any object answers. -/
theorem parse_answers (r : HttpRequest) (p : Bytes) : (parse r p).1 ∈ HttpResponse.answers := by
  unfold parse parseBuffer
  generalize ({ r with body := r.body ++ p } : HttpRequest) = r
  by_cases hended : r.headerEnded = true
  · rw [if_pos hended]
    exact parseBody_answers r
  · rw [if_neg hended]
    split
    · simp [HttpResponse.answers]
    · split
      · split
        · simp [HttpResponse.answers]
        · simp [HttpResponse.answers]
      · simp only
        split
        · simp [HttpResponse.answers]
        · split
          · simp [HttpResponse.answers]
          · exact parseBody_answers _

/-- A call whose answer comes with the accesses it made. -/
def parseLogged (r : HttpRequest) (request : Bytes) : (Option Status × List Access) × HttpRequest :=
  match (parseTraced r request).result with
  | some (st, r') => ((st, (parseTraced r request).log), r')
  | none => ((none, (parseTraced r request).log), r)

theorem parseLogged_eq (r : HttpRequest) (p : Bytes) :
    parseLogged r p = (((parse r p).1, (parseTraced r p).log), (parse r p).2) := by
  unfold parseLogged
  rw [(parseTraced_comes r p).result]

theorem feed_logged (r : HttpRequest) (ps : List Bytes) :
    (feed parseLogged r ps).1.map Prod.fst = (feed parse r ps).1 ∧ (feed parseLogged r ps).2 = (feed parse r ps).2 := by
  induction ps generalizing r with
  | nil => exact ⟨rfl, rfl⟩
  | cons p ps ih =>
    obtain ⟨hanswers, hstate⟩ := ih (parse r p).2
    have hcall := parseLogged_eq r p
    simp only [feed, hcall, List.map_cons, hanswers, hstate, and_self]

/-- Every call of every sequence answers, and every access it makes is safe. -/
theorem parse_total (ps : List Bytes) :
    (feed parse fresh ps).1.length = ps.length ∧ (∀ a ∈ (feed parse fresh ps).1, a ∈ HttpResponse.answers) ∧
      (feed parseLogged fresh ps).1.map Prod.fst = (feed parse fresh ps).1 ∧
      (feed parseLogged fresh ps).2 = (feed parse fresh ps).2 ∧
      ∀ a ∈ (feed parseLogged fresh ps).1, ∀ w ∈ a.2, w.Safe := by
  obtain ⟨hanswers, hstate⟩ := feed_logged fresh ps
  refine ⟨feed_length _ _ _, ?_, hanswers, hstate, ?_⟩
  · exact (forall_feed _ _ _).mpr fun qs q _ => parse_answers _ q
  · refine (forall_feed (P := fun a : Option Status × List Access => ∀ w ∈ a.2, w.Safe) _ _ _).mpr ?_
    intro qs q _ w hw
    rw [parseLogged_eq] at hw
    exact (parseTraced_comes _ q).logs w hw

end HttpRequest

end Frnetlib
