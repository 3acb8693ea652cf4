/-
  Frnetlib.Http.Incremental — one call of `parse` on a fresh object, and what a
  second call adds to it.

  `readHead` is the object a fresh one becomes by reading a header; it does not
  depend on the body, so one call is a function of the bytes given (`parse_fresh`).
  A call that asked for more is continued by the next call as if both had been one
  (`parse_absorbs`), as long as the header still ends where it did and, for a
  chunked response, the raw body keeps within the limit or nothing of it has been
  decoded yet.

  The chunked loop is the induction: what it returns on a longer buffer is what it
  returns from where it stopped on the shorter one (`chunks_append`). The limit on
  the body is what keeps `chunk_len + 4` from wrapping into an accepted length.
-/

import Frnetlib.Http.HttpProofs
import Frnetlib.Http.HttpRequest
import Frnetlib.Http.HttpResponse

namespace Frnetlib

open Base

/-! ## Requests -/

namespace HttpRequest

def waiting (u : Bytes) : HttpRequest := { fresh with body := u }

def readHead (head : Bytes) : Bool × HttpRequest :=
  readHeader { fresh with headerEnded := true } (Http.splitString head LF false)

theorem setUri_body (h : Http) (b uri : Bytes) :
    Http.setUri { h with body := b } uri = { h.setUri uri with body := b } := by
  unfold Http.setUri
  split
  · rfl
  · split <;> rfl

theorem storeUri_body (h : Http) (b str : Bytes) (uriBegin uriEnd : Nat) :
    storeUri { h with body := b } str uriBegin uriEnd =
      (storeUri h str uriBegin uriEnd).map fun h => { h with body := b } := by
  unfold storeUri
  cases find [63] str with
  | some getBegin =>
    simp only
    cases (substr str getBegin (usub uriEnd getBegin)).bind Http.parseArgumentList with
    | none => rfl
    | some getVars =>
      cases substr str uriBegin (usub getBegin uriBegin) with
      | none => rfl
      | some uri => exact congrArg some (setUri_body { h with getData := getVars.foldl emplaceGet h.getData } b uri)
  | none =>
    simp only
    cases substr str uriBegin (usub uriEnd uriBegin) with
    | none => rfl
    | some uri => exact congrArg some (setUri_body h b uri)

theorem parseHeaderUri_body (h : Http) (b str : Bytes) :
    parseHeaderUri { h with body := b } str = (parseHeaderUri h str).map fun h => { h with body := b } := by
  unfold parseHeaderUri
  cases find [47] str with
  | none => rfl
  | some uriBegin =>
    cases find (bytes "HTTP") str with
    | none => rfl
    | some httpPos =>
      simp only [storeUri_body]
      cases storeUri h str uriBegin (usub httpPos 1) with
      | none => rfl
      | some h => cases substr str ((usub httpPos 1 + 1) % 2 ^ 64) 8 <;> rfl

theorem readHeader_body (r : HttpRequest) (b : Bytes) (lines : List Bytes) :
    readHeader { r with body := b } lines = ((readHeader r lines).1, { (readHeader r lines).2 with body := b }) := by
  cases lines with
  | nil => rfl
  | cons line lines =>
    simp only [readHeader]
    split
    · rfl
    · have hu := parseHeaderUri_body { r.toHttp with requestType := parseHeaderType line } b line
      dsimp only at hu
      rw [hu]
      cases parseHeaderUri { r.toHttp with requestType := parseHeaderType line } line with
      | none => rfl
      | some h =>
        simp only [Option.map_some, Http.parseHeaderLines_body]
        cases (lines.foldl Http.parseHeaderLine h).headerData.lookup (bytes "content-length") with
        | none => rfl
        | some v => simp only; cases stoull 10 v <;> rfl

theorem readHeader_ended (r : HttpRequest) (lines : List Bytes) :
    (readHeader r lines).2.headerEnded = r.headerEnded := by
  unfold readHeader
  split
  · rfl
  · simp only
    split
    · rfl
    · split
      · rfl
      · split
        · rfl
        · split <;> rfl

/-- One call on a fresh object, as a function of the bytes it is given. -/
theorem parse_fresh (s : Bytes) :
    parse fresh s =
      if s ≠ [] ∧ Http.stringToRequestType s = .unknown then (some .parseError, waiting s)
      else
        match Http.headerEnd s with
        | none => if maxHttpHeaderSize < s.length then (some .httpHeaderTooBig, waiting s) else (some .notEnoughData, waiting s)
        | some (e, n) =>
          if maxHttpHeaderSize < e then (some .httpHeaderTooBig, { waiting s with headerEnded := true })
          else
            match readHead (s.take e) with
            | (false, r) => (some .parseError, { r with body := s })
            | (true, r) => parseBody { r with body := s.drop (e + n) } := by
  show parseBuffer (waiting s) = _
  unfold parseBuffer
  rw [if_neg (show ¬ (waiting s).headerEnded = true from Bool.false_ne_true)]
  split
  · rename_i h; rw [if_pos (show s ≠ [] ∧ Http.stringToRequestType s = .unknown from h)]
  · rename_i h
    rw [if_neg (show ¬ (s ≠ [] ∧ Http.stringToRequestType s = .unknown) from h)]
    show (match Http.headerEnd s with | none => _ | some (e, n) => _) = _
    cases Http.headerEnd s with
    | none => rfl
    | some en =>
      obtain ⟨e, n⟩ := en
      simp only
      split
      · rfl
      · have hh : parseHeader { waiting s with headerEnded := true } e =
            ((readHead (s.take e)).1, { (readHead (s.take e)).2 with body := s }) :=
          readHeader_body { fresh with headerEnded := true } s _
        rw [hh]
        rcases readHead (s.take e) with ⟨_ | _, r⟩ <;> rfl

theorem parse_waiting (u p : Bytes) : parse (waiting u) p = parse fresh (u ++ p) := rfl

theorem parse_nil : parse fresh [] = (some .notEnoughData, fresh) := by
  rw [parse_fresh, if_neg (by simp)]; rfl

theorem parse_ended {r : HttpRequest} (h : r.headerEnded = true) (p : Bytes) :
    parse r p = parseBody { r with body := r.body ++ p } := by
  unfold parse parseBuffer; rw [if_pos h]

theorem parseBody_more {r : HttpRequest} (h : (parseBody r).1 = some .notEnoughData) :
    r.body.length < r.contentLength ∧ (parseBody r).2 = r := by
  unfold parseBody at h ⊢
  split at h
  · simp at h
  · rename_i h1
    split at h
    · split at h
      · split at h <;> simp at h
      · simp at h
    · rename_i h2; rw [if_neg h1, if_neg h2]; exact ⟨by omega, rfl⟩

/-- A call on a fresh object that does not fail waits for the header's end, or has read the
    header and parses what is behind it as the body. -/
theorem parse_fresh_cases {u : Bytes} (h : (parse fresh u).1 = some .notEnoughData ∨ (parse fresh u).1 = some .success) :
    ¬ (u ≠ [] ∧ Http.stringToRequestType u = .unknown) ∧
      (Http.headerEnd u = none ∧ u.length ≤ maxHttpHeaderSize ∧ parse fresh u = (some .notEnoughData, waiting u) ∨
        ∃ e n r, Http.headerEnd u = some (e, n) ∧ e ≤ maxHttpHeaderSize ∧ readHead (u.take e) = (true, r) ∧
          parse fresh u = parseBody { r with body := u.drop (e + n) }) := by
  rw [parse_fresh] at h ⊢
  by_cases hunknown : u ≠ [] ∧ Http.stringToRequestType u = .unknown
  · rw [if_pos hunknown] at h
    rcases h with h | h <;> cases h
  · rw [if_neg hunknown] at h ⊢
    refine ⟨hunknown, ?_⟩
    cases hend : Http.headerEnd u with
    | none =>
      rw [hend] at h
      simp only at h
      by_cases hsize : maxHttpHeaderSize < u.length
      · rw [if_pos hsize] at h
        rcases h with h | h <;> cases h
      · exact .inl ⟨rfl, by omega, if_neg hsize⟩
    | some found =>
      obtain ⟨e, n⟩ := found
      rw [hend] at h
      simp only at h ⊢
      by_cases hsize : maxHttpHeaderSize < e
      · rw [if_pos hsize] at h
        rcases h with h | h <;> cases h
      · rw [if_neg hsize] at h ⊢
        cases hread : readHead (u.take e) with
        | mk ok r =>
          rw [hread] at h
          cases ok with
          | false => obtain h | h := h <;> cases h
          | true => exact .inr ⟨e, n, r, rfl, by omega, hread, rfl⟩

theorem parse_fresh_success {u : Bytes} (h : (parse fresh u).1 = some .success) :
    ¬ (u ≠ [] ∧ Http.stringToRequestType u = .unknown) ∧
      ∃ e n r, Http.headerEnd u = some (e, n) ∧ e ≤ maxHttpHeaderSize ∧ readHead (u.take e) = (true, r) ∧
        parse fresh u = parseBody { r with body := u.drop (e + n) } := by
  rcases parse_fresh_cases (.inr h) with ⟨hknown, ⟨-, -, hwaiting⟩ | hread⟩
  · rw [hwaiting] at h
    cases h
  · exact ⟨hknown, hread⟩

/-- The two ways a fresh object asks for more: the header has not ended, or the body
    is shorter than announced. -/
theorem parse_fresh_more {u : Bytes} (h : (parse fresh u).1 = some .notEnoughData) :
    Http.headerEnd u = none ∧ (parse fresh u).2 = waiting u ∨
      ∃ e n r, Http.headerEnd u = some (e, n) ∧ e ≤ maxHttpHeaderSize ∧ readHead (u.take e) = (true, r) ∧
        ¬ (u ≠ [] ∧ Http.stringToRequestType u = .unknown) ∧ (u.drop (e + n)).length < r.contentLength ∧
        (parse fresh u).2 = { r with body := u.drop (e + n) } := by
  rcases parse_fresh_cases (.inl h) with ⟨hknown, ⟨hnone, -, hwaiting⟩ | ⟨e, n, r, hend, hsize, hread, hparse⟩⟩
  · exact .inl ⟨hnone, by rw [hwaiting]⟩
  · rw [hparse] at h ⊢
    obtain ⟨hmore, hstate⟩ := parseBody_more h
    exact .inr ⟨e, n, r, hend, hsize, hread, hknown, hmore, hstate⟩

theorem readHead_ended {head : Bytes} {ok : Bool} {r : HttpRequest} (h : readHead head = (ok, r)) :
    r.headerEnded = true := by
  have := readHeader_ended { fresh with headerEnded := true } (Http.splitString head LF false)
  rw [show readHeader { fresh with headerEnded := true } (Http.splitString head LF false) = (ok, r) from h] at this
  exact this

/-- A header that announces a body has a first line that starts with a method. -/
theorem readHead_method {head : Bytes} {r : HttpRequest} (h : readHead head = (true, r)) (hc : 0 < r.contentLength) :
    4 ≤ head.length := by
  unfold readHead readHeader at h
  split at h
  · cases h; exact absurd hc (by decide)
  · rename_i line lines hl
    simp only at h
    split at h
    · simp at h
    · rename_i ht
      have hle := Http.splitString_length (show line ∈ Http.splitString head LF false by rw [hl]; simp)
      unfold parseHeaderType at ht
      split at ht
      · rename_i typeEnd hfind
        obtain ⟨hm, hp⟩ := Http.method_of_le ht
        have h3 := Http.method_length hm
        have h4 := hp.length_le
        have h5 := find_le hfind
        rw [List.length_take] at h4
        simp only [List.length_singleton] at h5
        omega
      · exact absurd (by decide) ht

/-- A call that asked for more is continued by the next as if both had been one, if
    the header still ends where it did. -/
theorem parse_absorbs {u p : Bytes} (h : (parse fresh u).1 = some .notEnoughData)
    (hs : lflf <:+: u → crlfcrlf <:+: u ++ p → crlfcrlf <:+: u) :
    parse (parse fresh u).2 p = parse fresh (u ++ p) := by
  rcases parse_fresh_more h with ⟨-, hw⟩ | ⟨e, n, r, he, hm, hr, ht, hc, hx⟩
  · rw [hw, parse_waiting]
  · obtain ⟨hb, hn⟩ := Http.headerEnd_bounds he
    have hr' : r.headerEnded = true := readHead_ended hr
    have hlen : 4 ≤ (u.take e).length := readHead_method hr (by omega)
    rw [List.length_take] at hlen
    have ht' : ¬ (u ++ p ≠ [] ∧ Http.stringToRequestType (u ++ p) = .unknown) := by
      intro hgiven
      obtain ⟨-, hu⟩ := hgiven
      rcases Http.stringToRequestType_cases u with ⟨h1, h2⟩ | h1 | ⟨-, h2⟩
      · rw [Http.stringToRequestType_method h1 (h2.trans (List.prefix_append _ _))] at hu
        rw [hu] at h1
        exact absurd h1 (by decide)
      · exact ht ⟨by rintro rfl; simp at hlen, h1⟩
      · omega
    rw [hx, parse_ended (by exact hr'), parse_fresh, if_neg ht', Http.headerEnd_append he hs]
    simp only
    rw [if_neg (by omega), List.take_append_of_le_length (by omega), hr, List.drop_append_of_le_length (by omega)]

end HttpRequest

/-! ## The chunked loop on a growing buffer -/

namespace HttpResponse

theorem findFrom_append {pat s : Bytes} {pos i : Nat} (h : findFrom pat s pos = some i) (hpos : pos ≤ s.length)
    (t : Bytes) : findFrom pat (s ++ t) pos = some i := by
  unfold findFrom at h ⊢
  obtain ⟨j, hj, rfl⟩ := Option.map_eq_some_iff.mp h
  rw [List.drop_append_of_le_length hpos, find_append hj]
  rfl

theorem erase_append {s : Bytes} {pos n : Nat} (h : pos + n ≤ s.length) (t : Bytes) :
    erase (s ++ t) pos n = erase s pos n ++ t := by
  unfold erase
  rw [List.take_append_of_le_length (by omega), List.drop_append_of_le_length h, List.append_assoc]

/-- A round that decodes a chunk decodes the same chunk of a longer buffer. -/
theorem chunkRound_append {body body' : Bytes} {chunkOffset chunkLen : Nat}
    (h : chunkRound body chunkOffset = .chunk chunkLen body') (hlt : chunkOffset < body.length)
    (hmax : body.length ≤ maxHttpBodySize) (p : Bytes) :
    chunkRound (body ++ p) chunkOffset = .chunk chunkLen (body' ++ p) ∧ body'.length ≤ body.length := by
  unfold chunkRound at h
  split at h
  · cases h
  · rename_i lengthEnd hf
    obtain ⟨hb1, hb2⟩ := findFrom_bounds hf (by simp [crlf])
    have hhex : ((body ++ p).drop chunkOffset).take (lengthEnd - chunkOffset) =
        (body.drop chunkOffset).take (lengthEnd - chunkOffset) := by
      rw [List.drop_append_of_le_length (by omega), List.take_append_of_le_length (by rw [List.length_drop]; omega)]
    have hlen : ((body.drop chunkOffset).take (lengthEnd - chunkOffset)).length = lengthEnd - chunkOffset := by
      rw [List.length_take, List.length_drop]; omega
    simp only [hlen] at h
    split at h
    · cases h
    · rename_i n hn
      split at h
      · cases h
      · rename_i h1
        split at h
        · cases h
        · rename_i h2
          cases h
          -- the limit on the body rules out that `chunk_len + 4` wrapped
          have hw : (n % 2 ^ 32 + 4) % 2 ^ 32 = n % 2 ^ 32 + 4 := by
            refine Nat.mod_eq_of_lt ?_
            simp only [maxHttpBodySize] at hmax
            omega
          rw [hw] at h1
          have he : (erase body (chunkOffset + (lengthEnd - chunkOffset) + n % 2 ^ 32 + 2) 2).length + 2 = body.length := by
            simp only [erase, List.length_append, List.length_take, List.length_drop]; omega
          constructor
          · unfold chunkRound
            simp only [findFrom_append hf (by omega) p, hhex, hn, hlen, hw, List.length_append]
            rw [if_neg (by omega), if_neg (by omega), erase_append (by omega), erase_append (by omega)]
          · rw [erase, List.length_append, List.length_take, List.length_drop]; omega

/-- A loop that asked for more goes on from where it stopped as if the rest had been
    there from the start. -/
theorem chunks_append {body body' : Bytes} {chunkOffset chunkOffset' : Nat}
    (h : chunks body chunkOffset = (some .notEnoughData, body', chunkOffset')) (hmax : body.length ≤ maxHttpBodySize)
    (p : Bytes) :
    chunks (body ++ p) chunkOffset = chunks (body' ++ p) chunkOffset' ∧ body'.length ≤ body.length ∧
      chunkOffset ≤ chunkOffset' ∧ (chunkOffset' = chunkOffset → body' = body) := by
  induction body, chunkOffset using chunks.induct with
  | case1 body chunkOffset hlt hr =>
    rw [chunks_more hr] at h
    cases h
    exact ⟨rfl, le_rfl, le_rfl, fun _ => rfl⟩
  | case2 body chunkOffset hlt hr =>
    rw [chunks_throws hlt hr] at h
    cases h
  | case3 body chunkOffset hlt body₁ hr =>
    rw [chunks_chunk hlt hr, if_pos rfl] at h
    cases h
  | case4 body chunkOffset hlt chunkLen body₁ hr hs h0 ih =>
    rw [chunks_chunk hlt hr, if_neg h0] at h
    obtain ⟨hra, hle⟩ := chunkRound_append hr hlt hmax p
    obtain ⟨ih1, ih2, ih3, ih4⟩ := ih h (by omega)
    refine ⟨?_, by omega, by omega, by omega⟩
    rw [chunks_chunk (by rw [List.length_append]; omega) hra, if_neg h0, ih1]
  | case5 body chunkOffset hlt =>
    rw [chunks_end hlt] at h
    cases h
    exact ⟨rfl, le_rfl, le_rfl, fun _ => rfl⟩

/-! ## Responses -/

def waiting (u : Bytes) : HttpResponse := { fresh with body := u }

def readHead (head : Bytes) : Bool × HttpResponse :=
  readHeader { fresh with headerEnded := true } (Http.splitString head LF false)

theorem parseStatusLine_body (h : Http) (b line : Bytes) :
    parseStatusLine { h with body := b } line = (parseStatusLine h line).map fun h => { h with body := b } := by
  unfold parseStatusLine
  cases find [SP] line with
  | none => rfl
  | some statusBegin =>
    simp only
    cases (substr line statusBegin
      (usub ((findFrom [SP] line (statusBegin + 1)).getD npos) statusBegin)).bind stoi <;> rfl

theorem readHeader_body (r : HttpResponse) (b : Bytes) (lines : List Bytes) :
    readHeader { r with body := b } lines = ((readHeader r lines).1, { (readHeader r lines).2 with body := b }) := by
  cases lines with
  | nil => rfl
  | cons line lines =>
    simp only [readHeader, parseStatusLine_body]
    cases parseStatusLine r.toHttp line with
    | none => rfl
    | some h =>
      simp only [Option.map_some, Http.parseHeaderLines_body]
      cases (lines.foldl Http.parseHeaderLine h).headerData.lookup (bytes "content-length") with
      | none => rfl
      | some v => simp only; cases stoull 10 v <;> rfl

/-- Reading a header leaves the two fields that it does not concern. -/
theorem readHeader_ended (r : HttpResponse) (lines : List Bytes) :
    (readHeader r lines).2.headerEnded = r.headerEnded ∧ (readHeader r lines).2.chunkOffset = r.chunkOffset := by
  unfold readHeader
  split
  · exact ⟨rfl, rfl⟩
  · split
    · exact ⟨rfl, rfl⟩
    · simp only
      split
      · exact ⟨rfl, rfl⟩
      · split <;> exact ⟨rfl, rfl⟩

theorem readHead_ended {head : Bytes} {ok : Bool} {r : HttpResponse} (h : readHead head = (ok, r)) :
    r.headerEnded = true ∧ r.chunkOffset = 0 := by
  have := readHeader_ended { fresh with headerEnded := true } (Http.splitString head LF false)
  rw [show readHeader { fresh with headerEnded := true } (Http.splitString head LF false) = (ok, r) from h] at this
  exact this

/-- One call on a fresh object, as a function of the bytes it is given. -/
theorem parse_fresh (s : Bytes) :
    parse fresh s =
      if 4 ≤ s.length ∧ s.take 4 ≠ bytes "HTTP" then (some .parseError, waiting s)
      else
        match Http.headerEnd s with
        | none => if maxHttpHeaderSize < s.length then (some .httpHeaderTooBig, waiting s) else (some .notEnoughData, waiting s)
        | some (e, n) =>
          if maxHttpHeaderSize < e then (some .httpHeaderTooBig, { waiting s with headerEnded := true })
          else
            match readHead (s.take e) with
            | (false, r) => (some .parseError, { r with body := s })
            | (true, r) => parseBody { r with body := s.drop (e + n) } := by
  show parseBuffer (waiting s) = _
  unfold parseBuffer
  rw [if_neg (show ¬ (waiting s).headerEnded = true from Bool.false_ne_true)]
  split
  · rename_i h; rw [if_pos (show 4 ≤ s.length ∧ s.take 4 ≠ bytes "HTTP" from h)]
  · rename_i h
    rw [if_neg (show ¬ (4 ≤ s.length ∧ s.take 4 ≠ bytes "HTTP") from h)]
    show (match Http.headerEnd s with | none => _ | some (e, n) => _) = _
    cases Http.headerEnd s with
    | none => rfl
    | some en =>
      obtain ⟨e, n⟩ := en
      simp only
      split
      · rfl
      · have hh : parseHeader { waiting s with headerEnded := true } e =
            ((readHead (s.take e)).1, { (readHead (s.take e)).2 with body := s }) :=
          readHeader_body { fresh with headerEnded := true } s _
        rw [hh]
        rcases readHead (s.take e) with ⟨_ | _, r⟩ <;> rfl

theorem parse_waiting (u p : Bytes) : parse (waiting u) p = parse fresh (u ++ p) := rfl

theorem parse_nil : parse fresh [] = (some .notEnoughData, fresh) := by
  rw [parse_fresh, if_neg (by simp)]; rfl

theorem parse_ended {r : HttpResponse} (h : r.headerEnded = true) (p : Bytes) :
    parse r p = parseBody { r with body := r.body ++ p } := by
  unfold parse parseBuffer; rw [if_pos h]

theorem parseBody_chunked {r : HttpResponse} (hc : TransferEncoding.chunked ∈ r.transferEncodings)
    (hm : r.body.length ≤ maxHttpBodySize) :
    parseBody r = ((chunks r.body r.chunkOffset).1,
      { r with body := (chunks r.body r.chunkOffset).2.1, chunkOffset := (chunks r.body r.chunkOffset).2.2 }) := by
  unfold parseBody; rw [if_neg (by omega), if_pos hc]

/-- The two ways the body asks for more: the chunked loop does, or the body is
    shorter than announced. -/
theorem parseBody_more {r : HttpResponse} (h : (parseBody r).1 = some .notEnoughData) :
    r.body.length ≤ maxHttpBodySize ∧
      (TransferEncoding.chunked ∈ r.transferEncodings ∧ (∃ body' chunkOffset',
          chunks r.body r.chunkOffset = (some .notEnoughData, body', chunkOffset') ∧
          (parseBody r).2 = { r with body := body', chunkOffset := chunkOffset' }) ∨
        TransferEncoding.chunked ∉ r.transferEncodings ∧ (parseBody r).2 = r) := by
  unfold parseBody at h ⊢
  split at h
  · simp at h
  · rename_i hm
    rw [if_neg hm]
    refine ⟨by omega, ?_⟩
    split at h
    · rename_i hc
      rw [if_pos hc]
      exact Or.inl ⟨hc, _, _, Prod.ext h rfl, rfl⟩
    · rename_i hc
      rw [if_neg hc]
      right
      split at h
      · simp at h
      · rename_i h1
        rw [if_neg h1]
        split at h
        · rename_i h2; rw [if_pos h2]; exact ⟨hc, rfl⟩
        · simp at h

/-- A call on a fresh object that does not fail waits for the header's end, or has read the
    header and parses what is behind it as the body. -/
theorem parse_fresh_cases {u : Bytes} (h : (parse fresh u).1 = some .notEnoughData ∨ (parse fresh u).1 = some .success) :
    ¬ (4 ≤ u.length ∧ u.take 4 ≠ bytes "HTTP") ∧
      (Http.headerEnd u = none ∧ u.length ≤ maxHttpHeaderSize ∧ parse fresh u = (some .notEnoughData, waiting u) ∨
        ∃ e n r, Http.headerEnd u = some (e, n) ∧ e ≤ maxHttpHeaderSize ∧ readHead (u.take e) = (true, r) ∧
          parse fresh u = parseBody { r with body := u.drop (e + n) }) := by
  rw [parse_fresh] at h ⊢
  by_cases hhttp : 4 ≤ u.length ∧ u.take 4 ≠ bytes "HTTP"
  · rw [if_pos hhttp] at h
    rcases h with h | h <;> cases h
  · rw [if_neg hhttp] at h ⊢
    refine ⟨hhttp, ?_⟩
    cases hend : Http.headerEnd u with
    | none =>
      rw [hend] at h
      simp only at h
      by_cases hsize : maxHttpHeaderSize < u.length
      · rw [if_pos hsize] at h
        rcases h with h | h <;> cases h
      · exact .inl ⟨rfl, by omega, if_neg hsize⟩
    | some found =>
      obtain ⟨e, n⟩ := found
      rw [hend] at h
      simp only at h ⊢
      by_cases hsize : maxHttpHeaderSize < e
      · rw [if_pos hsize] at h
        rcases h with h | h <;> cases h
      · rw [if_neg hsize] at h ⊢
        cases hread : readHead (u.take e) with
        | mk ok r =>
          rw [hread] at h
          cases ok with
          | false => obtain h | h := h <;> cases h
          | true => exact .inr ⟨e, n, r, rfl, by omega, hread, rfl⟩

theorem parse_fresh_success {u : Bytes} (h : (parse fresh u).1 = some .success) :
    ¬ (4 ≤ u.length ∧ u.take 4 ≠ bytes "HTTP") ∧
      ∃ e n r, Http.headerEnd u = some (e, n) ∧ e ≤ maxHttpHeaderSize ∧ readHead (u.take e) = (true, r) ∧
        parse fresh u = parseBody { r with body := u.drop (e + n) } := by
  rcases parse_fresh_cases (.inr h) with ⟨hhttp, ⟨-, -, hwaiting⟩ | hread⟩
  · rw [hwaiting] at h
    cases h
  · exact ⟨hhttp, hread⟩

/-- The two ways a fresh object asks for more: the header has not ended, or the body
    has not. -/
theorem parse_fresh_more {u : Bytes} (h : (parse fresh u).1 = some .notEnoughData) :
    Http.headerEnd u = none ∧ (parse fresh u).2 = waiting u ∨
      ∃ e n r, Http.headerEnd u = some (e, n) ∧ e ≤ maxHttpHeaderSize ∧ readHead (u.take e) = (true, r) ∧
        ¬ (4 ≤ u.length ∧ u.take 4 ≠ bytes "HTTP") ∧
        parse fresh u = parseBody { r with body := u.drop (e + n) } := by
  rcases parse_fresh_cases (.inl h) with ⟨hhttp, ⟨hnone, -, hwaiting⟩ | ⟨e, n, r, hend, hsize, hread, hparse⟩⟩
  · exact .inl ⟨hnone, by rw [hwaiting]⟩
  · exact .inr ⟨e, n, r, hend, hsize, hread, hhttp, hparse⟩

theorem status_read {h h' : Http} {line : Bytes} (hs : parseStatusLine h line = some h') :
    ∃ code version, h' = { h with status := code, version := version } ∧ (-2 ^ 31 ≤ code ∧ code < 2 ^ 31) ∧
      (version = .v1 ∨ version = .v1_1) := by
  unfold parseStatusLine at hs
  split at hs
  · cases hs
  · simp only at hs
    split at hs
    · cases hs
    · rename_i code hcode
      cases hs
      obtain ⟨text, -, htext⟩ := Option.bind_eq_some_iff.mp hcode
      refine ⟨code, _, rfl, stoi_range htext, ?_⟩
      split
      · exact Or.inl rfl
      · exact Or.inr rfl

theorem parseStatusLine_length {h h' : Http} {line : Bytes} (hs : parseStatusLine h line = some h') :
    2 ≤ line.length := by
  rcases line with _ | ⟨b, _ | ⟨c, line⟩⟩
  · simp [parseStatusLine, find] at hs
  · by_cases hb : b = SP
    · subst hb
      -- a lone space leaves `std::stoi` nothing to read
      have hf : find [SP] [SP] = some 0 := by decide
      have hk : ∀ k, (substr [SP] 0 k).bind stoi = none := by
        rintro (_ | _ | k) <;> rfl
      simp only [parseStatusLine, hf, hk] at hs
      cases hs
    · rw [parseStatusLine, find_char_none (by simpa using Ne.symm hb)] at hs
      cases hs
  · simp

/-- All that a header can be read to. -/
theorem readHeader_line {line : Bytes} {lines : List Bytes} {r : HttpResponse}
    (h : readHeader { fresh with headerEnded := true } (line :: lines) = (true, r)) :
    ∃ stored, parseStatusLine fresh.toHttp line = some stored ∧ r.toHttp = lines.foldl Http.parseHeaderLine stored ∧
      ((r.headerData.lookup (bytes "content-length") = none ∧ r.contentLength = 0) ∨
        ∃ v, r.headerData.lookup (bytes "content-length") = some v ∧ stoull 10 v = some r.contentLength) := by
  rw [readHeader] at h
  simp only at h
  cases hs : parseStatusLine fresh.toHttp line with
  | none =>
    rw [hs] at h
    cases h
  | some stored =>
    rw [hs] at h
    simp only at h
    refine ⟨stored, rfl, ?_⟩
    cases hlength : (lines.foldl Http.parseHeaderLine stored).headerData.lookup (bytes "content-length") with
    | none =>
      rw [hlength] at h
      cases h
      exact ⟨rfl, .inl ⟨hlength, rfl⟩⟩
    | some v =>
      rw [hlength] at h
      simp only at h
      cases hn : stoull 10 v with
      | none =>
        rw [hn] at h
        cases h
      | some n =>
        rw [hn] at h
        cases h
        exact ⟨rfl, .inr ⟨v, hlength, hn⟩⟩

/-- A header that is accepted holds a status line. -/
theorem readHead_length {head : Bytes} {r : HttpResponse} (h : readHead head = (true, r)) : 2 ≤ head.length := by
  unfold readHead at h
  cases hsplit : Http.splitString head LF false with
  | nil =>
    rw [hsplit] at h
    cases h
  | cons line lines =>
    rw [hsplit] at h
    have hline : line ∈ Http.splitString head LF false := by
      rw [hsplit]
      exact List.mem_cons_self
    obtain ⟨stored, hs, -⟩ := readHeader_line h
    exact (parseStatusLine_length hs).trans (Http.splitString_length hline)

/-- A call that asked for more is continued by the next as if both had been one, if
    the header still ends where it did, and the limit on the body does not see that
    some of it has been decoded. -/
theorem parse_absorbs {u p : Bytes} (h : (parse fresh u).1 = some .notEnoughData)
    (hs : lflf <:+: u → crlfcrlf <:+: u ++ p → crlfcrlf <:+: u)
    (hl : ∀ e n, Http.headerEnd u = some (e, n) → TransferEncoding.chunked ∈ (parse fresh u).2.transferEncodings →
      (parse fresh u).2.chunkOffset = 0 ∨ (u ++ p).length - (e + n) ≤ maxHttpBodySize) :
    parse (parse fresh u).2 p = parse fresh (u ++ p) := by
  rcases parse_fresh_more h with ⟨-, hw⟩ | ⟨e, n, r, he, hm, hr, ht, hx⟩
  · rw [hw, parse_waiting]
  · obtain ⟨hb, hn⟩ := Http.headerEnd_bounds he
    obtain ⟨hr', h0⟩ := readHead_ended hr
    have hlen := readHead_length hr
    rw [List.length_take] at hlen
    have ht' : ¬ (4 ≤ (u ++ p).length ∧ (u ++ p).take 4 ≠ bytes "HTTP") := by
      rw [List.take_append_of_le_length (by omega)]
      exact fun h4 => ht ⟨by omega, h4.2⟩
    have hsingle : parse fresh (u ++ p) = parseBody { r with body := u.drop (e + n) ++ p } := by
      rw [parse_fresh, if_neg ht', Http.headerEnd_append he hs]
      simp only
      rw [if_neg (by omega), List.take_append_of_le_length (by omega), hr, List.drop_append_of_le_length hb]
    rw [hsingle]
    have hmore := h
    rw [hx] at hmore
    obtain ⟨hmax, hc⟩ := parseBody_more hmore
    rw [← hx] at hc
    rcases hc with ⟨hch, body', chunkOffset', hk, hst⟩ | ⟨hch, hst⟩
    · obtain ⟨k1, k2, -, k4⟩ := chunks_append hk hmax p
      have hl := hl e n he (by rw [hst]; exact hch)
      rw [hst] at hl ⊢
      rw [parse_ended (by exact hr')]
      simp only [List.length_append, List.length_drop, h0] at hl k1 k2 k4 ⊢
      by_cases hlimit : u.length - (e + n) + p.length ≤ maxHttpBodySize
      · rw [parseBody_chunked (by exact hch) (by simp only [List.length_append]; omega),
          parseBody_chunked (by exact hch) (by simp only [List.length_append, List.length_drop]; omega)]
        simp only [k1]
      · -- too long, and nothing decoded yet: the same buffer is refused
        have hoff : chunkOffset' = 0 := by omega
        rw [hoff, k4 hoff, ← h0]
    · rw [hst, parse_ended (by exact hr')]

end HttpResponse

end Frnetlib
