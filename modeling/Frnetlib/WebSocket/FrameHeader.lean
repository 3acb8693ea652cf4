/-
  Frnetlib.WebSocket.FrameHeader — the header `WebFrame::send` writes beside RFC 6455's.

  A length is announced by a code of seven bits and the bytes behind it (`announced`);
  the standard wants the shortest such form, which `lengthCode` and `lengthExtension` are
  (`announced_canonical`, `canonical_shortest`). The code takes eight bytes from the
  largest 16-bit number on and not above it, so that one length is not written in its
  shortest form, and it is the only one (`header_canonical`).
-/

import Frnetlib.Net.Stream
import Frnetlib.WebSocket.FrameStream

namespace Frnetlib

open Base Socket

/-! ## Lengths in RFC 6455 -/

/-- The length that a code of seven bits and the bytes behind it announce. -/
def announced (code : Nat) (extension : Bytes) : Option Nat :=
  if code ≤ 125 ∧ extension = [] then some code
  else if code = 126 ∧ extension.length = 2 then some (ofBe extension)
  else if code = 127 ∧ extension.length = 8 then some (ofBe extension)
  else none

def lengthCode (n : Nat) : Nat := if n ≤ 125 then n else if n ≤ 65535 then 126 else 127

def lengthExtension (n : Nat) : Bytes := if n ≤ 125 then [] else if n ≤ 65535 then be 2 n else be 8 n

theorem announced_canonical {n : Nat} (h : n < 2 ^ 64) : announced (lengthCode n) (lengthExtension n) = some n := by
  unfold lengthCode lengthExtension
  by_cases hinline : n ≤ 125
  · rw [if_pos hinline, if_pos hinline, announced, if_pos ⟨hinline, rfl⟩]
  · rw [if_neg hinline, if_neg hinline]
    by_cases hshort : n ≤ 65535
    · rw [if_pos hshort, if_pos hshort]
      simp only [announced, be_length, ofBe_be (show n < 256 ^ 2 by omega)]
      simp
    · rw [if_neg hshort, if_neg hshort]
      simp only [announced, be_length, ofBe_be (show n < 256 ^ 8 by omega)]
      simp

/-- No form of the same length is shorter. -/
theorem canonical_shortest {n code : Nat} {extension : Bytes} (h : announced code extension = some n) :
    (lengthExtension n).length ≤ extension.length := by
  unfold announced at h
  unfold lengthExtension
  by_cases hinline : n ≤ 125
  · rw [if_pos hinline]
    exact Nat.zero_le _
  · rw [if_neg hinline]
    have hbound := ofBe_lt extension
    split at h
    · rename_i hcode
      cases h
      exact absurd hcode.1 hinline
    · split at h
      · rename_i hcode
        cases h
        rw [hcode.2] at hbound
        rw [if_pos (by omega), be_length, hcode.2]
      · split at h
        · rename_i hcode
          rw [hcode.2]
          split
          · simp
          · simp
        · cases h

namespace WebFrame

/-! ## The header -/

/-- FIN, three zero bits and the opcode; the mask bit and the code of the length; what
    announces it; and the key of the mask, if there is one. -/
def canonicalHeader (frame : WebFrame) (key : UInt32) : Bytes :=
  UInt8.ofNat (frame.final.toNat * 128 + frame.opcode.toNat) ::
    UInt8.ofNat (frame.isClient.toNat * 128 + lengthCode frame.payload.length) ::
      (lengthExtension frame.payload.length ++ if frame.isClient then maskBytes key else [])

/-- The two bytes, with whatever length is in them. -/
theorem be_first2Bytes {frame : WebFrame} (h : frame.opcode.named = true) :
    be 2 frame.first2Bytes = [UInt8.ofNat (frame.final.toNat * 128 + frame.opcode.toNat),
      UInt8.ofNat (frame.isClient.toNat * 128 + lengthBits frame.payload.length)] := by
  have hlen := lengthBits_lt frame.payload.length
  have hclient := toNat_lt_two frame.isClient
  have hhigh : frame.first2Bytes / 256 = frame.final.toNat * 128 + frame.opcode.toNat := by
    rw [first2Bytes_eq h]
    omega
  have hlow : UInt8.ofNat frame.first2Bytes = UInt8.ofNat (frame.isClient.toNat * 128 + lengthBits frame.payload.length) := by
    apply UInt8.toNat_inj.mp
    rw [UInt8.toNat_ofNat', UInt8.toNat_ofNat', first2Bytes_eq h]
    omega
  rw [be, be, be, Nat.pow_one, Nat.pow_zero, Nat.div_one, hhigh, hlow]

theorem lengthBits_code {n : Nat} (h : n ≠ 65535) : lengthBits n = lengthCode n ∧ lengthBytes n = lengthExtension n := by
  unfold lengthBits lengthCode lengthBytes lengthExtension
  by_cases hinline : n ≤ 125
  · simp [hinline, Nat.not_lt.mpr hinline]
  · have hshort : n < 65535 ↔ n ≤ 65535 := by omega
    simp [hinline, hshort]

/-- What is built is the canonical header and the payload, but for one length. -/
theorem text_canonical {frame : WebFrame} (hop : frame.opcode.named = true) (key : UInt32) :
    frame.text key = frame.canonicalHeader key ++ frame.masked key ↔ frame.payload.length ≠ 65535 := by
  have htext : frame.text key = be 2 frame.first2Bytes ++ (lengthBytes frame.payload.length ++
      ((if frame.isClient then maskBytes key else []) ++ frame.masked key)) := by
    rw [text, List.append_assoc, List.append_assoc]
  rw [htext, be_first2Bytes hop]
  constructor
  · intro heq hlength
    have hlen := congrArg List.length heq
    have hcode : (lengthBytes 65535).length = 8 ∧ (lengthExtension 65535).length = 2 := by decide
    simp only [canonicalHeader, List.length_append, List.length_cons, hlength, hcode.1, hcode.2] at hlen
    omega
  · intro hlength
    obtain ⟨hbits, hbytes⟩ := lengthBits_code hlength
    rw [hbits, hbytes, canonicalHeader]
    simp

/-- However the socket behaves, what a send puts out is a part of the frame's text, all of it after
    Success; and that is the canonical header with the payload behind it for all lengths but one. -/
theorem header_canonical {frame : WebFrame} (hop : frame.opcode.named = true) {τ : Type} [Sender τ]
    (currentMaskKey : UInt32) (w : τ) :
    (∃ k, Sender.out (frame.send currentMaskKey w).2.2.2 =
        Sender.out w ++ (frame.text (frame.nextKey currentMaskKey)).take k ∧
      ((frame.send currentMaskKey w).1 = some .success → k = (frame.text (frame.nextKey currentMaskKey)).length)) ∧
    (frame.text (frame.nextKey currentMaskKey) =
        frame.canonicalHeader (frame.nextKey currentMaskKey) ++ frame.masked (frame.nextKey currentMaskKey) ↔
      frame.payload.length ≠ 65535) := by
  refine ⟨?_, text_canonical hop _⟩
  obtain ⟨k, -, -, hout, hdone⟩ := sendLoop_part (frame.text (frame.nextKey currentMaskKey)) w (Nat.zero_le _)
  rw [List.drop_zero] at hout
  exact ⟨k, hout, hdone⟩

theorem header_canonical_sample :
    let frame : WebFrame := ⟨true, [104, 105], .text, true⟩
    (∃ k, Sender.out (frame.send 0 frameWriter).2.2.2 = Sender.out frameWriter ++ (frame.text (frame.nextKey 0)).take k ∧
      ((frame.send 0 frameWriter).1 = some .success → k = (frame.text (frame.nextKey 0)).length)) ∧
    (frame.text (frame.nextKey 0) = frame.canonicalHeader (frame.nextKey 0) ++ frame.masked (frame.nextKey 0) ↔
      frame.payload.length ≠ 65535) :=
  header_canonical rfl 0 frameWriter

/-- 65535 bytes are announced in eight. -/
theorem header_canonical_not :
    ¬ ∀ (frame : WebFrame) (key : UInt32), frame.opcode.named = true → frame.payload.length < 2 ^ 63 →
      frame.text key = frame.canonicalHeader key ++ frame.masked key := by
  intro h
  have hlength : (List.replicate 65535 (0 : UInt8)).length = 65535 := List.length_replicate
  have heq := h ⟨false, List.replicate 65535 0, .binary, true⟩ 0 rfl (by simp only [hlength]; decide)
  exact (text_canonical rfl 0).mp heq hlength

end WebFrame

end Frnetlib
