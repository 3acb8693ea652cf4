/-
  Frnetlib.Http.Chunked — a chunked response is decoded to the concatenation of its
  payloads, however it is cut.

  A buffer is what has been decoded and then what is still encoded, and
  `chunk_offset` is the length of the former. One round moves one chunk over
  (`chunkRound_chunk`); on less than the whole chunk it asks for more and touches
  nothing (`chunkRound_short`). The closing `0` is a chunk without a payload.
-/

import Frnetlib.Http.Message

namespace Frnetlib

open Base

/-- A chunk as it is sent: the digits of its length, an extension, its payload. -/
structure Chunk where
  digits : Bytes
  extension : Bytes
  payload : Bytes
  digits_some : digits ≠ []
  digits_hex : ∀ b ∈ digits, isDigit 16 b = true
  digits_value : digitsVal 16 digits = payload.length
  extension_form : extension = [] ∨ extension.head? = some 59
  extension_line : CR ∉ extension ∧ LF ∉ extension

namespace Chunk

def encode (c : Chunk) : Bytes := c.digits ++ c.extension ++ crlf ++ c.payload ++ crlf

/-- `0`, which closes the body. -/
def last : Chunk := ⟨bytes "0", [], [], by decide, forall_of_all (by decide), by decide, by decide, by decide⟩

/-- The raw body that carries the chunks. -/
def rawBody (cs : List Chunk) : Bytes := cs.flatMap encode ++ bytes "0\r\n\r\n"

theorem rawBody_nil : rawBody [] = last.encode := by decide

theorem rawBody_cons (c : Chunk) (cs : List Chunk) : rawBody (c :: cs) = c.encode ++ rawBody cs := by
  simp [rawBody]

theorem no_cr (c : Chunk) : CR ∉ c.digits ++ c.extension := by
  intro h
  rcases List.mem_append.mp h with h | h
  · exact absurd (isDigit_plain (by decide) (c.digits_hex _ h)).2.1 (by decide)
  · exact c.extension_line.1 h

theorem find_end (c : Chunk) (rest : Bytes) :
    find crlf (c.digits ++ c.extension ++ (crlf ++ rest)) = some (c.digits ++ c.extension).length := by
  have := find_skip (p := [LF]) c.no_cr (crlf ++ rest)
  rw [show CR :: [LF] = crlf from rfl, find_here] at this
  simpa using this

/-- The length is read up to the extension. -/
theorem stoull_length (c : Chunk) (h : c.payload.length < 2 ^ 64) :
    stoull 16 (c.digits ++ c.extension) = some c.payload.length := by
  have hends : EndsDigits 16 c.extension := by
    intro b hb
    rcases c.extension_form with h0 | h59
    · rw [h0] at hb; cases hb
    · rw [h59] at hb
      cases Option.mem_some_iff.mp hb
      decide
  have := strtoul_digits (by decide) c.digits_some c.digits_hex hends
  rw [c.digits_value] at this
  simp only [stoull, this, Bool.false_eq_true, if_false]
  rw [if_neg (by omega)]

theorem encode_eq (c : Chunk) : c.encode = c.digits ++ c.extension ++ (crlf ++ (c.payload ++ crlf)) := by
  simp [encode]

theorem encode_length (c : Chunk) :
    c.encode.length = (c.digits ++ c.extension).length + 2 + c.payload.length + 2 := by
  rw [encode_eq]; simp only [List.length_append, crlf, List.length_cons, List.length_nil]; omega

end Chunk

namespace HttpResponse

open Chunk

/-- A whole chunk after what is decoded: its payload is moved over. -/
theorem chunkRound_chunk (c : Chunk) (done rest : Bytes) (h : c.payload.length + 4 < 2 ^ 32) :
    chunkRound (done ++ (c.encode ++ rest)) done.length = .chunk c.payload.length (done ++ (c.payload ++ rest)) := by
  have hfind : findFrom crlf (done ++ (c.encode ++ rest)) done.length =
    some (done.length + (c.digits ++ c.extension).length) := by
    unfold findFrom
    rw [List.drop_left, encode_eq, List.append_assoc, List.append_assoc crlf, c.find_end, Option.map_some, Nat.add_comm]
  have hhex : ((done ++ (c.encode ++ rest)).drop done.length).take
      (done.length + (c.digits ++ c.extension).length - done.length) = c.digits ++ c.extension := by
    rw [List.drop_left, Nat.add_sub_cancel_left, encode_eq, List.append_assoc, List.take_left]
  have hlen : (done ++ (c.encode ++ rest)).length =
      done.length + (c.digits ++ c.extension).length + 2 + c.payload.length + 2 + rest.length := by
    rw [List.length_append, List.length_append, encode_length]; omega
  have herase1 : erase (done ++ (c.encode ++ rest)) (done.length + (c.digits ++ c.extension).length + c.payload.length + 2) 2 =
      done ++ (c.digits ++ c.extension ++ crlf ++ (c.payload ++ rest)) := by
    have hsplit : done ++ (c.encode ++ rest) = (done ++ (c.digits ++ c.extension ++ crlf ++ c.payload)) ++ (crlf ++ rest) := by
      simp [encode]
    rw [hsplit, erase, List.take_left' (by simp [crlf]; omega), ← List.drop_drop, List.drop_left' (by simp [crlf]; omega)]
    simp [crlf]
  have herase2 : erase (done ++ (c.digits ++ c.extension ++ crlf ++ (c.payload ++ rest))) done.length
      ((c.digits ++ c.extension).length + 2) = done ++ (c.payload ++ rest) := by
    rw [erase, List.take_left, ← List.drop_drop, List.drop_left,
      List.drop_left' (by simp only [List.length_append, crlf, List.length_cons, List.length_nil])]
  unfold chunkRound
  simp only [hfind, hhex, c.stoull_length (by omega), hlen]
  rw [Nat.mod_eq_of_lt (show c.payload.length < 2 ^ 32 by omega), Nat.mod_eq_of_lt h, if_neg (by omega), if_neg (by omega),
    herase1, herase2]

/-- Less than the whole chunk: nothing is done. -/
theorem chunkRound_short (c : Chunk) (done : Bytes) {u : Bytes} (h : c.payload.length + 4 < 2 ^ 32) (hu : u <+: c.encode)
    (hne : u ≠ c.encode) : chunkRound (done ++ u) done.length = .more := by
  have hlt : u.length < c.encode.length := prefix_length_lt hu hne
  rw [encode_length] at hlt
  unfold chunkRound findFrom
  rw [List.drop_left]
  cases hf : find crlf u with
  | none => rfl
  | some j =>
    have hle := find_le hf
    obtain ⟨t, ht⟩ := hu
    have hj : j = (c.digits ++ c.extension).length := by
      have := find_append hf t
      rw [ht, encode_eq, c.find_end] at this
      exact (Option.some.inj this).symm
    have hhex : u.take j = c.digits ++ c.extension := by
      have := congrArg (List.take j) ht
      rwa [List.take_append_of_le_length (by omega), encode_eq, hj, List.take_left, ← hj] at this
    simp only [Option.map_some, Nat.add_sub_cancel, hhex, c.stoull_length (by omega), List.length_append]
    rw [Nat.mod_eq_of_lt (show c.payload.length < 2 ^ 32 by omega), Nat.mod_eq_of_lt h]
    rw [if_pos (by omega)]

/-- The loop on the whole raw body. -/
theorem chunks_rawBody (cs : List Chunk) (done : Bytes) (hne : ∀ c ∈ cs, c.payload ≠ [])
    (hmax : ∀ c ∈ cs, c.payload.length + 4 < 2 ^ 32) :
    (chunks (done ++ rawBody cs) done.length).1 = some .success ∧
      (chunks (done ++ rawBody cs) done.length).2.1 = done ++ cs.flatMap Chunk.payload := by
  induction cs generalizing done with
  | nil =>
    have hround := chunkRound_chunk .last done [] (by decide)
    rw [List.append_nil, ← rawBody_nil] at hround
    rw [chunks_chunk (by simp [rawBody, bytes]) hround, if_pos (show Chunk.last.payload.length = 0 from rfl)]
    exact ⟨rfl, rfl⟩
  | cons c cs ih =>
    have hround := chunkRound_chunk c done (rawBody cs) (hmax c (by simp))
    have h0 : c.payload.length ≠ 0 := fun h => hne c (by simp) (List.eq_nil_of_length_eq_zero h)
    have hlt : done.length < (done ++ (c.encode ++ rawBody cs)).length := by
      simp only [List.length_append, encode_length]; omega
    have ih := ih (done ++ c.payload) (fun c hc => hne c (List.mem_cons_of_mem _ hc))
      fun c hc => hmax c (List.mem_cons_of_mem _ hc)
    rw [List.length_append, List.append_assoc] at ih
    rw [rawBody_cons, chunks_chunk hlt hround, if_neg h0]
    exact ⟨ih.1, by rw [ih.2]; simp⟩

/-- The loop on less than the whole raw body. -/
theorem chunks_rawBody_cut (cs : List Chunk) (done : Bytes) {u : Bytes} (hne : ∀ c ∈ cs, c.payload ≠ [])
    (hmax : ∀ c ∈ cs, c.payload.length + 4 < 2 ^ 32) (hu : u <+: rawBody cs) (hlt : u ≠ rawBody cs) :
    (chunks (done ++ u) done.length).1 = some .notEnoughData := by
  induction cs generalizing done u with
  | nil =>
    rw [rawBody_nil] at hu hlt
    rw [chunks_more (chunkRound_short .last done (by decide) hu hlt)]
  | cons c cs ih =>
    rw [rawBody_cons] at hu hlt
    have hcase : u <+: c.encode ∧ u ≠ c.encode ∨ ∃ v, v <+: rawBody cs ∧ u = c.encode ++ v := by
      obtain ⟨t, ht⟩ := hu
      rcases List.append_eq_append_iff.mp ht with ⟨v, hv, -⟩ | ⟨v, rfl, hv⟩
      · by_cases hc : u = c.encode
        · exact Or.inr ⟨[], List.nil_prefix, by simp [hc]⟩
        · exact Or.inl ⟨⟨v, hv.symm⟩, hc⟩
      · exact Or.inr ⟨v, ⟨t, hv.symm⟩, rfl⟩
    rcases hcase with ⟨hp, hc⟩ | ⟨v, hv, rfl⟩
    · rw [chunks_more (chunkRound_short c done (hmax c (by simp)) hp hc)]
    · have hround := chunkRound_chunk c done v (hmax c (by simp))
      have h0 : c.payload.length ≠ 0 := fun h => hne c (by simp) (List.eq_nil_of_length_eq_zero h)
      have hpos : done.length < (done ++ (c.encode ++ v)).length := by
        simp only [List.length_append, encode_length]; omega
      have ih := ih (done ++ c.payload) (fun c hc => hne c (List.mem_cons_of_mem _ hc))
        (fun c hc => hmax c (List.mem_cons_of_mem _ hc)) hv fun heq => hlt (by rw [heq])
      rw [List.length_append, List.append_assoc] at ih
      rw [chunks_chunk hpos hround, if_neg h0, ih]

/-! ## The header -/

/-- A status line: the version, the code, and maybe a space and a reason. -/
def StatusLine (line : Bytes) : Prop :=
  ∃ version code reason, (version = bytes "HTTP/1.0" ∨ version = bytes "HTTP/1.1") ∧ code.length = 3 ∧
    (∀ b ∈ code, isDigit 10 b = true) ∧ (reason = [] ∨ reason.head? = some SP) ∧ line = version ++ SP :: (code ++ reason)

theorem digitsVal_lt {ds : Bytes} (h : ∀ b ∈ ds, isDigit 10 b = true) : digitsVal 10 ds < 10 ^ ds.length := by
  induction ds using List.reverseRecOn with
  | nil => decide
  | append_singleton ds d ih =>
    have hd : digitVal d < 10 := of_decide_eq_true (h d (by simp))
    have ih := ih fun b hb => h b (List.mem_append_left _ hb)
    unfold digitsVal at ih ⊢
    rw [List.foldl_append, List.length_append, List.length_singleton, Nat.pow_succ]
    simp only [List.foldl_cons, List.foldl_nil]
    omega

/-- A code is read whatever ends it. -/
theorem stoi_code {code t : Bytes} (hlen : code.length = 3) (hcode : ∀ b ∈ code, isDigit 10 b = true)
    (ht : EndsDigits 10 t) : stoi (SP :: (code ++ t)) = some (digitsVal 10 code : Int) := by
  have hlt := digitsVal_lt hcode
  have hr := strtoul_digits (by decide) (by rintro rfl; cases hlen) hcode ht
  rw [hlen] at hlt
  simp only [stoi, strtoul_space, hr, Bool.false_eq_true, if_false]
  rw [if_pos (by omega)]

theorem parseStatusLine_status {line t : Bytes} (hline : StatusLine line) (ht : t = [] ∨ t = [CR]) (h : Http) :
    ∃ code v, parseStatusLine h (line ++ t) = some { h with status := code, version := v } := by
  obtain ⟨version, code, reason, hv, hlen, hcode, hreason, rfl⟩ := hline
  have hsp : SP ∉ version := by rcases hv with rfl | rfl <;> decide
  have hdigits : SP ∉ code := fun hm => absurd (isDigit_plain (by decide) (hcode _ hm)).2.1 (by decide)
  have hbegin := find_char hsp (code ++ (reason ++ t))
  -- the code ends at the next space, or with the line
  have hread : ((substr (version ++ SP :: (code ++ (reason ++ t))) version.length
      (usub ((findFrom [SP] (version ++ SP :: (code ++ (reason ++ t))) (version.length + 1)).getD npos)
        version.length)).bind stoi) = some (digitsVal 10 code : Int) := by
    have hsplit : version ++ SP :: (code ++ (reason ++ t)) = (version ++ [SP]) ++ (code ++ (reason ++ t)) := by simp
    rcases hreason with rfl | hreason
    · have hnone : findFrom [SP] (version ++ SP :: (code ++ ([] ++ t))) (version.length + 1) = none := by
        have hfree : SP ∉ code ++ ([] ++ t) := by
          rw [List.nil_append, List.mem_append, not_or]
          exact ⟨hdigits, by rcases ht with rfl | rfl <;> decide⟩
        rw [hsplit]
        unfold findFrom
        rw [List.drop_left' (by simp), find_char_none hfree]
        rfl
      have hv8 : version.length = 8 := by rcases hv with rfl | rfl <;> decide
      have hnpos : usub npos version.length = npos - 8 := by rw [hv8]; decide
      rw [hnone, Option.getD_none, hnpos, substr_of_le (by simp), List.drop_left, List.take_of_length_le,
        Option.bind_some, List.nil_append, stoi_code hlen hcode]
      · intro b hb
        rcases ht with rfl | rfl
        · cases hb
        · cases Option.mem_some_iff.mp hb; decide
      · have : t.length ≤ 1 := by rcases ht with rfl | rfl <;> decide
        have hn : npos = 18446744073709551615 := by decide
        simp only [List.length_cons, List.length_append, List.length_nil, hlen, hn]
        omega
    · obtain ⟨text, rfl⟩ : ∃ text, reason = SP :: text := by
        cases reason with
        | nil => cases hreason
        | cons b text => cases hreason; exact ⟨text, rfl⟩
      have hend := findFrom_char (p := version ++ [SP]) hdigits (text ++ t)
      rw [List.append_assoc, List.singleton_append, List.length_append, List.length_singleton] at hend
      have hcut := substr_mid version (SP :: code) (SP :: (text ++ t)) (i := version.length)
        (n := usub (version.length + 1 + code.length) version.length) rfl (by
          rw [usub_of_le (by omega), List.length_cons]; omega)
      rw [List.cons_append] at hcut
      rw [List.cons_append, hend, Option.getD_some, hcut, Option.bind_some]
      have := stoi_code hlen hcode (t := []) (by simp [EndsDigits])
      rwa [List.append_nil] at this
  rw [List.append_assoc, List.cons_append, List.append_assoc]
  unfold parseStatusLine
  rw [hbegin]
  simp only
  rw [hread]
  exact ⟨_, _, rfl⟩

end HttpResponse

/-- A line that does not start with a name and a colon is not a field of that name. -/
theorem Http.other_starts {line name : Bytes} (h : ¬ name ++ [58] <+: line.map tolower) : Http.Other line name := by
  have key : ∀ t, (t = [] ∨ t = [CR]) → ∀ c, Http.lineField (line ++ t) = some c → c.1 ≠ name := by
    rintro t ht c hc rfl
    refine h ?_
    simp only [Http.lineField] at hc
    split at hc
    · cases hc
    · rename_i i hi
      obtain ⟨_, -, rfl⟩ := Option.map_eq_some_iff.mp hc
      -- the colon is the line's own
      have hi : find [58] line = some i := by
        cases hl : find [58] line with
        | some j => rw [find_append hl] at hi; exact hi
        | none =>
          have hfree : (58 : UInt8) ∉ line := fun hm => find_eq_none_iff.mp hl ((List.singleton_infix_iff _ _).mpr hm)
          rw [find_char_none (by rcases ht with rfl | rfl <;> simp [hfree, CR])] at hi
          cases hi
      have hle := find_le hi
      have hsplit := congrArg (List.map tolower) (find_split hi)
      rw [List.map_append, List.map_append] at hsplit
      rw [hsplit]
      simp only
      rw [List.take_append_of_le_length (by omega)]
      exact ⟨(line.drop (i + List.length [(58 : UInt8)])).map tolower, rfl⟩
  exact ⟨fun c hc => key [] (Or.inl rfl) c (by rwa [List.append_nil]), key [CR] (Or.inr rfl)⟩

theorem Http.addEncodings_subset (l : List Entry) (set : Finset TransferEncoding) : set ⊆ l.foldl Http.addEncodings set := by
  have hinsert : ∀ (es : List Bytes) (set : Finset TransferEncoding),
      set ⊆ es.foldl (fun set enc => insert (Http.stringToTransferEncoding enc) set) set := by
    intro es
    induction es with
    | nil => exact fun _ => subset_rfl
    | cons e es ih => exact fun set => (Finset.subset_insert _ _).trans (ih _)
  induction l generalizing set with
  | nil => exact subset_rfl
  | cons c l ih =>
    refine subset_trans ?_ (ih _)
    unfold Http.addEncodings
    split
    · exact hinsert _ _
    · exact subset_rfl

theorem Http.addEncodings_chunked {l : List Entry} (h : ⟨bytes "transfer-encoding", bytes "chunked"⟩ ∈ l)
    (set : Finset TransferEncoding) : TransferEncoding.chunked ∈ l.foldl Http.addEncodings set := by
  induction l generalizing set with
  | nil => cases h
  | cons c l ih =>
    rcases List.mem_cons.mp h with rfl | h
    · refine Http.addEncodings_subset l _ ?_
      have hsplit : Http.splitString (bytes "chunked") 44 true = [bytes "chunked"] := by decide
      have hkind : Http.stringToTransferEncoding (bytes "chunked") = .chunked := by decide
      rw [Http.addEncodings, if_pos rfl, hsplit, List.foldl_cons, hkind]
      exact Finset.mem_insert_self _ _
    · exact ih h _

/-- The header is accepted, with `chunked` among its encodings. -/
theorem HttpResponse.readHeader_chunked {line : Bytes} {lines : List Bytes} (hstatus : HttpResponse.StatusLine line)
    (hchunked : bytes "transfer-encoding: chunked" ∈ lines)
    (hlength : ∀ l ∈ lines, ¬ bytes "content-length:" <+: l.map tolower) :
    ∃ r, HttpResponse.readHeader { HttpResponse.fresh with headerEnded := true } (Http.received (line :: lines)) = (true, r) ∧
      TransferEncoding.chunked ∈ r.transferEncodings := by
  obtain ⟨t, ht, hg⟩ : ∃ t, (t = [] ∨ t = [CR]) ∧ (if lines = [] then line else line ++ [CR]) = line ++ t := by
    split
    · exact ⟨[], Or.inl rfl, (List.append_nil _).symm⟩
    · exact ⟨[CR], Or.inr rfl, rfl⟩
  obtain ⟨code, v, hline⟩ := HttpResponse.parseStatusLine_status hstatus ht HttpResponse.fresh.toHttp
  have hfield : (⟨bytes "transfer-encoding", bytes "chunked"⟩ : Entry) ∈ (Http.received lines).filterMap Http.lineField := by
    have hf : Http.Field (bytes "transfer-encoding" ++ bytes ": " ++ bytes "chunked") (bytes "transfer-encoding")
        (bytes "chunked") :=
      Http.field_value (show 58 ∉ bytes "transfer-encoding" by decide) ⟨by decide, by decide, forall_of_all (by decide)⟩
    rcases Http.mem_received hchunked with hm | hm
    · exact List.mem_filterMap.mpr ⟨_, hm, hf.1⟩
    · exact List.mem_filterMap.mpr ⟨_, hm, hf.2⟩
  generalize hh : ({ HttpResponse.fresh.toHttp with status := code, version := v } : Http) = h at hline
  have hnone : ((Http.received lines).foldl Http.parseHeaderLine h).headerData.lookup (bytes "content-length") = none := by
    rw [Http.lookup_lines, ← hh]
    show ((∅ : StrMap).lookup _).or _ = _
    rw [AList.lookup_empty, Option.none_or]
    exact Http.lookup_none fun l hl => Http.other_starts (hlength l hl)
  rw [Http.received_cons, hg]
  simp only [HttpResponse.readHeader, hline, hnone]
  refine ⟨_, rfl, ?_⟩
  simp only [Http.parseHeaderLines_eq h]
  exact Http.addEncodings_chunked hfield _

/-- However the bytes of a chunked response are cut, the parser asks for more until the
    last piece, and its body is then the payloads, one after another. -/
theorem chunked_decoding (line : Bytes) (lines : List Bytes) (cs : List Chunk) (ps : List Bytes)
    (hstatus : HttpResponse.StatusLine line)
    (hlines : ∀ l ∈ line :: lines, Http.Plain l) (hchunked : bytes "transfer-encoding: chunked" ∈ lines)
    (hlength : ∀ l ∈ lines, ¬ bytes "content-length:" <+: l.map tolower)
    (hsize : (Http.block (line :: lines)).length ≤ maxHttpHeaderSize) (hcs : ∀ c ∈ cs, c.payload ≠ [])
    (hbody : (Chunk.rawBody cs).length ≤ maxHttpBodySize) (hne : ∀ p ∈ ps, p ≠ [])
    (hps : ps.flatten = Http.block (line :: lines) ++ Chunk.rawBody cs) :
    (feed HttpResponse.parse .fresh ps).1 = List.replicate (ps.length - 1) (some .notEnoughData) ++ [some .success] ∧
      (feed HttpResponse.parse .fresh ps).2.body = cs.flatMap Chunk.payload := by
  obtain ⟨r, hread, hch⟩ := HttpResponse.readHeader_chunked hstatus hchunked hlength
  have hhttp : bytes "HTTP" <+: line := by
    obtain ⟨version, code, reason, hv, -, -, -, rfl⟩ := hstatus
    refine List.IsPrefix.trans ?_ (List.prefix_append version _)
    rcases hv with rfl | rfl <;> decide
  have hoffset : r.chunkOffset = 0 := by
    have := (HttpResponse.readHeader_ended { HttpResponse.fresh with headerEnded := true } (Http.received (line :: lines))).2
    rw [hread] at this
    exact this
  have hmax : ∀ c ∈ cs, c.payload.length + 4 < 2 ^ 32 := by
    intro c hc
    obtain ⟨a, b, rfl⟩ := List.append_of_mem hc
    simp only [Chunk.rawBody, List.flatMap_append, List.flatMap_cons, List.length_append, Chunk.encode_length,
      maxHttpBodySize] at hbody
    omega
  have hwhole : ∀ v, v.length ≤ maxHttpBodySize → (HttpResponse.parse .fresh (Http.block (line :: lines) ++ v)).1 =
        (HttpResponse.chunks v 0).1 ∧
      (HttpResponse.parse .fresh (Http.block (line :: lines) ++ v)).2.body = (HttpResponse.chunks v 0).2.1 := by
    intro v hv
    rw [HttpResponse.parse_block hlines hhttp hread hsize, HttpResponse.parseBody_chunked (by exact hch) hv]
    simp only [hoffset]
    exact ⟨trivial, trivial⟩
  have hpre : ∀ u, u <+: Http.block (line :: lines) ++ Chunk.rawBody cs → u ≠ Http.block (line :: lines) ++ Chunk.rawBody cs →
      (HttpResponse.parse .fresh u).1 = some .notEnoughData := by
    intro u hu hneu
    rcases (Http.block_closed (Http.Plain.lines hlines)).cut hu with ⟨hnone, hub, -⟩ | ⟨v, hv, rfl⟩
    · exact HttpResponse.parse_block_cut hhttp hsize hub hnone
    · rw [(hwhole v (hv.length_le.trans hbody)).1]
      exact HttpResponse.chunks_rawBody_cut cs [] hcs hmax hv fun heq => hneu (by rw [heq])
  have habs : ∀ u p, u ++ p <+: Http.block (line :: lines) ++ Chunk.rawBody cs →
      (HttpResponse.parse .fresh u).1 = some .notEnoughData →
      HttpResponse.parse (HttpResponse.parse .fresh u).2 p = HttpResponse.parse .fresh (u ++ p) :=
    fun u p hup hmore => HttpResponse.parse_absorbs_block hlines hbody hup hmore
  obtain ⟨hstat, hdone⟩ := hwhole _ hbody
  obtain ⟨h1, h2⟩ := HttpResponse.chunks_rawBody cs [] hcs hmax
  rw [List.nil_append, List.length_nil] at h1 h2
  rw [feed_cut HttpResponse.parse_nil hpre habs ps hne hps (List.append_ne_nil_of_left_ne_nil (Http.block_ne_nil line lines) _),
    hstat, h1]
  exact ⟨rfl, by rw [hdone, h2, List.nil_append]⟩

/-- A payload with a line end in it, after a length with an extension. -/
def Chunk.sample : Chunk :=
  ⟨bytes "05", bytes ";a=b", bytes "1\r\n0\r", by decide, forall_of_all (by decide), by decide, by decide, by decide⟩

theorem chunked_decoding_sample :
    let s := Http.block [bytes "HTTP/1.1 200 OK", bytes "transfer-encoding: chunked"] ++ Chunk.rawBody [.sample]
    (feed HttpResponse.parse .fresh [s.take 55, s.drop 55]).1 = [some .notEnoughData, some .success] ∧
      (feed HttpResponse.parse .fresh [s.take 55, s.drop 55]).2.body = bytes "1\r\n0\r" := by
  obtain ⟨hans, hbody⟩ := chunked_decoding (bytes "HTTP/1.1 200 OK") [bytes "transfer-encoding: chunked"] [.sample]
    [(Http.block [bytes "HTTP/1.1 200 OK", bytes "transfer-encoding: chunked"] ++ Chunk.rawBody [.sample]).take 55,
      (Http.block [bytes "HTTP/1.1 200 OK", bytes "transfer-encoding: chunked"] ++ Chunk.rawBody [.sample]).drop 55]
    ⟨bytes "HTTP/1.1", bytes "200", bytes " OK", by decide, by decide, forall_of_all (by decide), by decide, by decide⟩
    (by unfold Http.Plain; decide) (by decide) (by decide) (by decide) (by decide) (by decide) (by decide) (by simp)
  refine ⟨hans.trans rfl, ?_⟩
  rw [hbody]
  rfl

end Frnetlib
