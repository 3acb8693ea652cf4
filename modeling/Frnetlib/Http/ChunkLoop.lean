/-
  Frnetlib.Http.ChunkLoop — the chunked loop of `fr::HttpResponse::parse`, in terms of the
  bytes behind `chunk_offset`.

  A `LengthLine` is what those bytes begin with: the line up to their first CR LF, and what
  is behind it. One round looks at nothing else (`chunkRound_line`). `Decoded` is what the
  loop completes of them, by the lengths it computes itself: the payloads, and the bytes
  behind the last completed chunk. The loop passes over completed chunks
  (`chunks_decoded`), and what it returns is decided by the bytes behind them
  (`chunks_cases`). More bytes at the end complete what they completed (`Decoded.append`).
-/

import Frnetlib.Http.HttpProofs
import Frnetlib.Http.HttpResponse

namespace Frnetlib

open Base

namespace HttpResponse

structure LengthLine (raw line tail : Bytes) : Prop where
  text : raw = line ++ (crlf ++ tail)
  first : find crlf raw = some line.length

theorem LengthLine.of_find {raw : Bytes} {k : Nat} (h : find crlf raw = some k) :
    LengthLine raw (raw.take k) (raw.drop (k + 2)) := by
  have hle := find_le h
  have hsplit := find_split h
  have hlength : (raw.take k).length = k := by
    rw [List.length_take]
    simp only [crlf, List.length_cons, List.length_nil] at hle
    omega
  exact ⟨by simpa [crlf] using hsplit, by rw [hlength]; exact h⟩

theorem LengthLine.append {raw line tail : Bytes} (h : LengthLine raw line tail) (p : Bytes) :
    LengthLine (raw ++ p) line (tail ++ p) := by
  refine ⟨?_, find_append h.first p⟩
  rw [h.text]
  simp

theorem LengthLine.length {raw line tail : Bytes} (h : LengthLine raw line tail) :
    raw.length = line.length + 2 + tail.length := by
  rw [h.text]
  simp only [List.length_append, crlf, List.length_cons, List.length_nil]
  omega

theorem LengthLine.unique {raw line tail line' tail' : Bytes} (h : LengthLine raw line tail)
    (h' : LengthLine raw line' tail') : line = line' ∧ tail = tail' := by
  have hlength : line.length = line'.length := Option.some.inj (h.first.symm.trans h'.first)
  obtain ⟨hline, hrest⟩ := List.append_inj (h.text.symm.trans h'.text) hlength
  exact ⟨hline, List.append_cancel_left hrest⟩

/-! ## One round -/

theorem findFrom_behind (pat done raw : Bytes) :
    findFrom pat (done ++ raw) done.length = (find pat raw).map (· + done.length) := by
  rw [findFrom, List.drop_left]

theorem chunkRound_none {raw : Bytes} (h : find crlf raw = none) (done : Bytes) :
    chunkRound (done ++ raw) done.length = .more := by
  rw [chunkRound, findFrom_behind, h]
  rfl

/-- What a round does with a length line, in the arithmetic of the code. -/
theorem chunkRound_line {raw line tail : Bytes} (h : LengthLine raw line tail) (done : Bytes) :
    chunkRound (done ++ raw) done.length =
      match stoull 16 line with
      | none => .throws
      | some n =>
        if tail.length + 2 < (n % 2 ^ 32 + 4) % 2 ^ 32 then .more
        else if tail.length < n % 2 ^ 32 then .throws
        else .chunk (n % 2 ^ 32) (done ++ (tail.take (n % 2 ^ 32) ++ tail.drop (n % 2 ^ 32 + 2))) := by
  have hlength : (done ++ raw).length = done.length + line.length + 2 + tail.length := by
    rw [List.length_append, h.length]
    omega
  have hhex : ((done ++ raw).drop done.length).take (line.length + done.length - done.length) = line := by
    rw [List.drop_left, Nat.add_sub_cancel, h.text, List.take_left]
  rw [chunkRound, findFrom_behind, h.first]
  simp only [Option.map_some, hhex, hlength]
  cases stoull 16 line with
  | none => rfl
  | some n =>
    simp only
    generalize n % 2 ^ 32 = chunkLen
    have hshort : done.length + line.length + 2 + tail.length - (line.length + done.length) = tail.length + 2 := by omega
    have hbeyond : done.length + line.length + 2 + tail.length < done.length + line.length + chunkLen + 2 ↔
        tail.length < chunkLen := by omega
    simp only [hshort, hbeyond]
    by_cases hmore : tail.length + 2 < (chunkLen + 4) % 2 ^ 32
    · rw [if_pos hmore, if_pos hmore]
    · rw [if_neg hmore, if_neg hmore]
      by_cases hthrow : tail.length < chunkLen
      · rw [if_pos hthrow, if_pos hthrow]
      · rw [if_neg hthrow, if_neg hthrow]
        -- the end of the chunk goes first, then its length line
        have hend : erase (done ++ raw) (done.length + line.length + chunkLen + 2) 2 =
            done ++ (line ++ (crlf ++ (tail.take chunkLen ++ tail.drop (chunkLen + 2)))) := by
          have hfront : (done ++ (line ++ (crlf ++ tail.take chunkLen))).length = done.length + line.length + chunkLen + 2 := by
            simp only [List.length_append, crlf, List.length_cons, List.length_nil, List.length_take]
            omega
          have hsplit : done ++ raw = (done ++ (line ++ (crlf ++ tail.take chunkLen))) ++ tail.drop chunkLen := by
            rw [h.text]
            simp
          rw [hsplit, erase, List.take_left' hfront, ← List.drop_drop, List.drop_left' hfront, List.drop_drop]
          simp
        have hline : erase (done ++ (line ++ (crlf ++ (tail.take chunkLen ++ tail.drop (chunkLen + 2))))) done.length
            (line.length + 2) = done ++ (tail.take chunkLen ++ tail.drop (chunkLen + 2)) := by
          have hfront : (line ++ crlf).length = line.length + 2 := by simp [crlf]
          rw [erase, List.take_left, ← List.drop_drop, List.drop_left, ← List.append_assoc line crlf, List.drop_left' hfront]
        rw [hend, hline]

/-! ## What the loop completes -/

/-- The chunks completed of `raw`: their payloads, and the bytes behind the last one. The
    length is the one the loop takes, the last 32 bits of the number on the line; the two
    bytes behind a payload are not looked at. -/
inductive Decoded : Bytes → Bytes → Bytes → Prop
  | nil (raw : Bytes) : Decoded raw [] raw
  | chunk {raw line payload ends raw' got rest : Bytes} {n : Nat} : LengthLine raw line (payload ++ (ends ++ raw')) →
      stoull 16 line = some n → payload.length = n % 2 ^ 32 → payload ≠ [] → ends.length = 2 →
      Decoded raw' got rest → Decoded raw (payload ++ got) rest

theorem Decoded.append {raw got rest : Bytes} (h : Decoded raw got rest) (p : Bytes) :
    Decoded (raw ++ p) got (rest ++ p) := by
  induction h with
  | nil raw => exact .nil (raw ++ p)
  | chunk hline hn hlength hne hends _ ih =>
    refine .chunk ?_ hn hlength hne hends ih
    have happend := hline.append p
    rwa [List.append_assoc, List.append_assoc] at happend

theorem Decoded.trans {raw got rest got' rest' : Bytes} (h : Decoded raw got rest) (h' : Decoded rest got' rest') :
    Decoded raw (got ++ got') rest' := by
  induction h with
  | nil raw => exact h'
  | chunk hline hn hlength hne hends _ ih =>
    rw [List.append_assoc]
    exact .chunk hline hn hlength hne hends (ih h')

theorem Decoded.length_le {raw got rest : Bytes} (h : Decoded raw got rest) : got.length + rest.length ≤ raw.length := by
  induction h with
  | nil raw => simp
  | chunk hline _ _ _ hends _ ih =>
    have hlength := hline.length
    simp only [List.length_append] at hlength ⊢
    omega

/-- Within the limit on the body `chunk_len + 4` does not wrap around for a chunk that is
    there. -/
theorem not_wrapped {tail : Bytes} {n : Nat} (h : tail.length ≤ maxHttpBodySize) (hthere : n % 2 ^ 32 ≤ tail.length) :
    (n % 2 ^ 32 + 4) % 2 ^ 32 = n % 2 ^ 32 + 4 := by
  refine Nat.mod_eq_of_lt ?_
  simp only [maxHttpBodySize] at h
  omega

theorem chunkRound_decoded {raw line payload ends raw' : Bytes} {n : Nat}
    (hline : LengthLine raw line (payload ++ (ends ++ raw'))) (hn : stoull 16 line = some n)
    (hlength : payload.length = n % 2 ^ 32) (hends : ends.length = 2) (done : Bytes) :
    chunkRound (done ++ raw) done.length = .chunk payload.length (done ++ payload ++ raw') := by
  have htail : (payload ++ (ends ++ raw')).length = payload.length + 2 + raw'.length := by
    simp only [List.length_append, hends]
    omega
  rw [chunkRound_line hline, hn]
  simp only [htail, ← hlength]
  rw [if_neg (by omega), if_neg (by omega), List.take_left, ← List.drop_drop, List.drop_left, List.drop_left' hends,
    List.append_assoc]

/-- The loop passes over the chunks it completes. -/
theorem chunks_decoded {raw got rest : Bytes} (h : Decoded raw got rest) (done : Bytes) :
    chunks (done ++ raw) done.length = chunks (done ++ got ++ rest) (done ++ got).length := by
  induction h generalizing done with
  | nil raw => simp
  | @chunk raw line payload ends raw' got rest n hline hn hlength hne hends hdecoded ih =>
    have hraw := hline.length
    have hround := chunkRound_decoded hline hn hlength hends done
    have hlt : done.length < (done ++ raw).length := by
      rw [List.length_append]
      omega
    have hpos : payload.length ≠ 0 := fun h => hne (List.eq_nil_of_length_eq_zero h)
    rw [chunks_chunk hlt hround, if_neg hpos, ← List.length_append, ih, List.append_assoc done payload]

/-- The next chunk is not there. -/
def Waits (rest : Bytes) : Prop :=
  find crlf rest = none ∨
    ∃ line tail n, LengthLine rest line tail ∧ stoull 16 line = some n ∧ tail.length + 2 < (n % 2 ^ 32 + 4) % 2 ^ 32

/-- The next length line makes the loop throw: `std::stoul`, for it is no number, or
    `std::string::erase`, for `chunk_len + 4` wrapped around and the chunk is not there. -/
def Throws (rest : Bytes) : Prop :=
  ∃ line tail, LengthLine rest line tail ∧
    (stoull 16 line = none ∨
      ∃ n, stoull 16 line = some n ∧ ¬ tail.length + 2 < (n % 2 ^ 32 + 4) % 2 ^ 32 ∧ tail.length < n % 2 ^ 32)

/-- The next chunk is empty: it closes the body, and these bytes are behind it. -/
def Closes (rest behind : Bytes) : Prop :=
  ∃ line tail n, LengthLine rest line tail ∧ stoull 16 line = some n ∧ n % 2 ^ 32 = 0 ∧ 2 ≤ tail.length ∧
    behind = tail.drop 2

theorem chunks_waits {rest : Bytes} (h : Waits rest) (done : Bytes) :
    chunks (done ++ rest) done.length = (some .notEnoughData, done ++ rest, done.length) := by
  refine chunks_more ?_
  rcases h with hnone | ⟨line, tail, n, hline, hn, hshort⟩
  · exact chunkRound_none hnone done
  · rw [chunkRound_line hline, hn]
    exact if_pos hshort

theorem chunks_throw {rest : Bytes} (h : Throws rest) (done : Bytes) :
    chunks (done ++ rest) done.length = (none, done ++ rest, done.length) := by
  obtain ⟨line, tail, hline, hbad⟩ := h
  have hlength := hline.length
  refine chunks_throws (by rw [List.length_append]; omega) ?_
  rw [chunkRound_line hline]
  rcases hbad with hnone | ⟨n, hn, hpass, hbeyond⟩
  · rw [hnone]
  · rw [hn]
    exact (if_neg hpass).trans (if_pos hbeyond)

theorem chunks_closes {rest behind : Bytes} (h : Closes rest behind) (done : Bytes) :
    chunks (done ++ rest) done.length = (some .success, done ++ behind, done.length) := by
  obtain ⟨line, tail, n, hline, hn, hzero, hlong, rfl⟩ := h
  have hlength := hline.length
  have hround : chunkRound (done ++ rest) done.length = .chunk 0 (done ++ tail.drop 2) := by
    rw [chunkRound_line hline, hn]
    simp only [hzero]
    rw [if_neg (by omega), if_neg (by omega)]
    rfl
  rw [chunks_chunk (by rw [List.length_append]; omega) hround, if_pos rfl]

/-- The bytes behind `chunk_offset` are chunks that are complete, and then one that is not
    there, that throws or that closes the body. -/
theorem decoded_exists (raw : Bytes) (hmax : raw.length ≤ maxHttpBodySize) :
    ∃ got rest, Decoded raw got rest ∧ (Waits rest ∨ Throws rest ∨ ∃ behind, Closes rest behind) := by
  induction hn : raw.length using Nat.strong_induction_on generalizing raw with
  | _ m ih =>
    cases hfind : find crlf raw with
    | none => exact ⟨[], raw, .nil raw, .inl (.inl hfind)⟩
    | some k =>
      have hline := LengthLine.of_find hfind
      have hlength := hline.length
      generalize raw.take k = line at hline hlength
      generalize raw.drop (k + 2) = tail at hline hlength
      cases hnumber : stoull 16 line with
      | none => exact ⟨[], raw, .nil raw, .inr (.inl ⟨line, tail, hline, .inl hnumber⟩)⟩
      | some n =>
        by_cases hshort : tail.length + 2 < (n % 2 ^ 32 + 4) % 2 ^ 32
        · exact ⟨[], raw, .nil raw, .inl (.inr ⟨line, tail, n, hline, hnumber, hshort⟩)⟩
        · by_cases hbeyond : tail.length < n % 2 ^ 32
          · exact ⟨[], raw, .nil raw, .inr (.inl ⟨line, tail, hline, .inr ⟨n, hnumber, hshort, hbeyond⟩⟩)⟩
          · have hwrap : (n % 2 ^ 32 + 4) % 2 ^ 32 = n % 2 ^ 32 + 4 := by
              exact not_wrapped (show tail.length ≤ maxHttpBodySize by omega) (by omega)
            rw [hwrap] at hshort
            by_cases hzero : n % 2 ^ 32 = 0
            · exact ⟨[], raw, .nil raw, .inr (.inr ⟨_, line, tail, n, hline, hnumber, hzero, by omega, rfl⟩)⟩
            · have hsplit : tail = tail.take (n % 2 ^ 32) ++ ((tail.drop (n % 2 ^ 32)).take 2 ++ tail.drop (n % 2 ^ 32 + 2)) := by
                rw [← List.drop_drop, List.take_append_drop, List.take_append_drop]
              have hpayload : (tail.take (n % 2 ^ 32)).length = n % 2 ^ 32 := by
                rw [List.length_take]
                omega
              have hends : ((tail.drop (n % 2 ^ 32)).take 2).length = 2 := by
                rw [List.length_take, List.length_drop]
                omega
              have hne : tail.take (n % 2 ^ 32) ≠ [] := fun h => hzero (by rw [← hpayload, h]; rfl)
              obtain ⟨got, rest, hdecoded, hend⟩ := ih (tail.drop (n % 2 ^ 32 + 2)).length
                (by rw [List.length_drop]; omega) _ (by rw [List.length_drop]; omega) rfl
              rw [hsplit] at hline
              exact ⟨_, rest, .chunk hline hnumber hpayload hne hends hdecoded, hend⟩

end HttpResponse

end Frnetlib
