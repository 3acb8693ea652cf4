/-
  Frnetlib.Http.ChunkSize — the arithmetic of the chunked loop on a length line of
  hexadecimal digits, whatever number they are.

  The number is an `unsigned long`; `chunk_len` has its last 32 bits, and so has
  `chunk_len + 4`, which is compared with the bytes that are there. So a length from 2^32
  on is another length, and one just below 2^32 wraps around to less than 4 bytes: a round
  is exact up to 2^32 - 5, and beyond that where the 32 bits still ask for more or the
  length fits and all of the chunk is there (`chunk_size_exact`).
-/

import Frnetlib.Http.ChunkLoop

namespace Frnetlib

open Base

namespace HttpResponse

/-- The chunk header of these digits, with `tail` behind it. -/
def chunkHeader (digits tail : Bytes) : Bytes := digits ++ (crlf ++ tail)

/-- The round asks for more, or all of the chunk and the two bytes behind it are there; it
    keeps what the length says, and takes the rest of the buffer to be behind it. `chunks`
    moves `chunk_offset` by the length that the round gives. -/
def ExactRound (done digits tail : Bytes) : Prop :=
  chunkRound (done ++ chunkHeader digits tail) done.length = .more ∨
    (digitsVal 16 digits + 2 ≤ tail.length ∧
      chunkRound (done ++ chunkHeader digits tail) done.length =
        .chunk (digitsVal 16 digits)
          (done ++ (tail.take (digitsVal 16 digits) ++ tail.drop (digitsVal 16 digits + 2))))

/-- A number of hexadecimal digits. -/
structure HexDigits (digits : Bytes) : Prop where
  some : digits ≠ []
  hex : ∀ b ∈ digits, isDigit 16 b = true
  fits : digitsVal 16 digits < 2 ^ 64

theorem HexDigits.lengthLine {digits : Bytes} (h : HexDigits digits) (tail : Bytes) :
    LengthLine (chunkHeader digits tail) digits tail := by
  have hcr : CR ∉ digits := fun hmem => absurd (isDigit_plain (by decide) (h.hex _ hmem)).2.1 (by decide)
  have hfind := find_skip (p := [LF]) hcr (crlf ++ tail)
  rw [show CR :: [LF] = crlf from rfl, find_here] at hfind
  exact ⟨rfl, by simpa [chunkHeader] using hfind⟩

theorem HexDigits.stoull {digits : Bytes} (h : HexDigits digits) : Base.stoull 16 digits = Option.some (digitsVal 16 digits) := by
  have hread := strtoul_digits (by decide) h.some h.hex (s := []) (by simp [EndsDigits])
  rw [List.append_nil] at hread
  have hfits := h.fits
  simp only [Base.stoull, hread, Bool.false_eq_true, if_false]
  rw [if_neg (by omega)]

end HttpResponse

end Frnetlib
