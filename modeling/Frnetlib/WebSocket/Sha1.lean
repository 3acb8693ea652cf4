/-
  Frnetlib.WebSocket.Sha1 — `fr::Sha1` (`Sha1.h`, `Sha1.cpp`).

  An object keeps the five words of the digest, the bytes that are not yet a block, and the
  number of blocks hashed; the bytes are fewer than 64 whenever it is not at work. A block's
  16 words are overwritten while it is hashed, the word of a round by the one 16 rounds later,
  and the five working variables keep their values and change roles from one round to the
  next, by the order in which the unrolled calls name them (`operations`).

  `sha1_digest` returns the bytes of the digest's array in memory, each word after `ntohl`,
  on a little-endian host. After `final` nothing uses the object any more.
-/

import Frnetlib.Base.Numeral
import Mathlib.Logic.Function.Basic

namespace Frnetlib

open Base

namespace Sha1

def blockInts : Nat := 16
def blockBytes : Nat := blockInts * 4

def rol (value bits : UInt32) : UInt32 := value <<< bits ||| value >>> (32 - bits)

abbrev Block := Fin 16 → UInt32

def blk (block : Block) (i : Fin 16) : UInt32 :=
  rol (block ((i + 13) &&& 15) ^^^ block ((i + 8) &&& 15) ^^^ block ((i + 2) &&& 15) ^^^ block i) 1

/-! ## The operations of a round -/

/-- The working variables of `transform`. -/
inductive Var where
  | a
  | b
  | c
  | d
  | e
  deriving DecidableEq, Repr

structure Work where
  block : Block
  vars : Var → UInt32

/-- What all of `R0` to `R4` do, with the function and the constant of each. -/
def operation (f : UInt32 → UInt32 → UInt32 → UInt32) (constant : UInt32) (v w x y z : Var) (i : Fin 16) (s : Work) : Work :=
  let sum := s.vars z + (f (s.vars w) (s.vars x) (s.vars y) + s.block i + constant + rol (s.vars v) 5)
  let vars := Function.update s.vars z sum
  { s with vars := Function.update vars w (rol (vars w) 30) }

/-- `block[i] = blk(block, i)` -/
def refill (i : Fin 16) (s : Work) : Work := { s with block := Function.update s.block i (blk s.block i) }

def R0 (v w x y z : Var) (i : Fin 16) (s : Work) : Work :=
  operation (fun w x y => (w &&& (x ^^^ y)) ^^^ y) 0x5a827999 v w x y z i s

def R1 (v w x y z : Var) (i : Fin 16) (s : Work) : Work :=
  operation (fun w x y => (w &&& (x ^^^ y)) ^^^ y) 0x5a827999 v w x y z i (refill i s)

def R2 (v w x y z : Var) (i : Fin 16) (s : Work) : Work :=
  operation (fun w x y => w ^^^ x ^^^ y) 0x6ed9eba1 v w x y z i (refill i s)

def R3 (v w x y z : Var) (i : Fin 16) (s : Work) : Work :=
  operation (fun w x y => ((w ||| x) &&& y) ||| (w &&& x)) 0x8f1bbcdc v w x y z i (refill i s)

def R4 (v w x y z : Var) (i : Fin 16) (s : Work) : Work :=
  operation (fun w x y => w ^^^ x ^^^ y) 0xca62c1d6 v w x y z i (refill i s)

/-- The calls of `transform`. -/
def operations : List (Work → Work) :=
  [R0 .a .b .c .d .e 0, R0 .e .a .b .c .d 1, R0 .d .e .a .b .c 2, R0 .c .d .e .a .b 3,
    R0 .b .c .d .e .a 4, R0 .a .b .c .d .e 5, R0 .e .a .b .c .d 6, R0 .d .e .a .b .c 7,
    R0 .c .d .e .a .b 8, R0 .b .c .d .e .a 9, R0 .a .b .c .d .e 10, R0 .e .a .b .c .d 11,
    R0 .d .e .a .b .c 12, R0 .c .d .e .a .b 13, R0 .b .c .d .e .a 14, R0 .a .b .c .d .e 15,
    R1 .e .a .b .c .d 0, R1 .d .e .a .b .c 1, R1 .c .d .e .a .b 2, R1 .b .c .d .e .a 3,
    R2 .a .b .c .d .e 4, R2 .e .a .b .c .d 5, R2 .d .e .a .b .c 6, R2 .c .d .e .a .b 7,
    R2 .b .c .d .e .a 8, R2 .a .b .c .d .e 9, R2 .e .a .b .c .d 10, R2 .d .e .a .b .c 11,
    R2 .c .d .e .a .b 12, R2 .b .c .d .e .a 13, R2 .a .b .c .d .e 14, R2 .e .a .b .c .d 15,
    R2 .d .e .a .b .c 0, R2 .c .d .e .a .b 1, R2 .b .c .d .e .a 2, R2 .a .b .c .d .e 3,
    R2 .e .a .b .c .d 4, R2 .d .e .a .b .c 5, R2 .c .d .e .a .b 6, R2 .b .c .d .e .a 7,
    R3 .a .b .c .d .e 8, R3 .e .a .b .c .d 9, R3 .d .e .a .b .c 10, R3 .c .d .e .a .b 11,
    R3 .b .c .d .e .a 12, R3 .a .b .c .d .e 13, R3 .e .a .b .c .d 14, R3 .d .e .a .b .c 15,
    R3 .c .d .e .a .b 0, R3 .b .c .d .e .a 1, R3 .a .b .c .d .e 2, R3 .e .a .b .c .d 3,
    R3 .d .e .a .b .c 4, R3 .c .d .e .a .b 5, R3 .b .c .d .e .a 6, R3 .a .b .c .d .e 7,
    R3 .e .a .b .c .d 8, R3 .d .e .a .b .c 9, R3 .c .d .e .a .b 10, R3 .b .c .d .e .a 11,
    R4 .a .b .c .d .e 12, R4 .e .a .b .c .d 13, R4 .d .e .a .b .c 14, R4 .c .d .e .a .b 15,
    R4 .b .c .d .e .a 0, R4 .a .b .c .d .e 1, R4 .e .a .b .c .d 2, R4 .d .e .a .b .c 3,
    R4 .c .d .e .a .b 4, R4 .b .c .d .e .a 5, R4 .a .b .c .d .e 6, R4 .e .a .b .c .d 7,
    R4 .d .e .a .b .c 8, R4 .c .d .e .a .b 9, R4 .b .c .d .e .a 10, R4 .a .b .c .d .e 11,
    R4 .e .a .b .c .d 12, R4 .d .e .a .b .c 13, R4 .c .d .e .a .b 14, R4 .b .c .d .e .a 15]

/-! ## Blocks -/

abbrev Words := Fin 5 → UInt32

def initialWords : Words
  | 0 => 0x67452301
  | 1 => 0xefcdab89
  | 2 => 0x98badcfe
  | 3 => 0x10325476
  | 4 => 0xc3d2e1f0

/-- The working variables at the start of `transform`. -/
def working (digest : Words) : Var → UInt32
  | .a => digest 0
  | .b => digest 1
  | .c => digest 2
  | .d => digest 3
  | .e => digest 4

/-- The digest `transform` leaves. -/
def transform (digest : Words) (block : Block) : Words :=
  let s := operations.foldl (fun s call => call s) ⟨block, working digest⟩
  fun
    | 0 => digest 0 + s.vars .a
    | 1 => digest 1 + s.vars .b
    | 2 => digest 2 + s.vars .c
    | 3 => digest 3 + s.vars .d
    | 4 => digest 4 + s.vars .e

def bufferToBlock (buffer : Bytes) : Block := fun i =>
  (buffer.getD (4 * i + 3) 0).toUInt32 ||| (buffer.getD (4 * i + 2) 0).toUInt32 <<< 8 |||
    (buffer.getD (4 * i + 1) 0).toUInt32 <<< 16 ||| (buffer.getD (4 * i + 0) 0).toUInt32 <<< 24

end Sha1

/-! ## The object -/

structure Sha1 where
  digest : Sha1.Words
  buffer : Bytes
  transforms : UInt64
  short : buffer.length < Sha1.blockBytes

namespace Sha1

/-- `Sha1::Sha1`, by `reset`. -/
def new : Sha1 := ⟨initialWords, [], 0, by decide⟩

/-- `update` on what `is` still has. -/
def update (ctx : Sha1) (is : Bytes) : Sha1 :=
  let sbuf := is.take (blockBytes - ctx.buffer.length)
  let buffer := ctx.buffer ++ sbuf
  if h : buffer.length < blockBytes then { ctx with buffer := buffer, short := h }
  else update ⟨transform ctx.digest (bufferToBlock buffer), [], ctx.transforms + 1, by decide⟩ (is.drop sbuf.length)
termination_by is.length
decreasing_by
  have hshort := ctx.short
  simp only [List.length_append, buffer, sbuf, List.length_take, List.length_drop] at h ⊢
  omega

/-- The digest `final` leaves. -/
def final (ctx : Sha1) : Words :=
  let totalBits := (ctx.transforms * UInt64.ofNat blockBytes + UInt64.ofNat ctx.buffer.length) * 8
  let buffer := ctx.buffer ++ [0x80]
  let origSize := buffer.length
  let block := bufferToBlock (buffer ++ List.replicate (blockBytes - buffer.length) 0)
  let digest := if blockBytes - 8 < origSize then transform ctx.digest block else ctx.digest
  let block : Block := if blockBytes - 8 < origSize then fun _ => 0 else block
  let block := Function.update block 15 totalBits.toUInt32
  let block := Function.update block 14 (totalBits >>> 32).toUInt32
  transform digest block

/-- The bytes of a word in memory. -/
def stored (a : UInt32) : Bytes := [a.toUInt8, (a >>> 8).toUInt8, (a >>> 16).toUInt8, (a >>> 24).toUInt8]

/-- The bytes in the other order. -/
def ntohl (a : UInt32) : UInt32 :=
  (a >>> 24).toUInt8.toUInt32 ||| (a >>> 16).toUInt8.toUInt32 <<< 8 ||| (a >>> 8).toUInt8.toUInt32 <<< 16 |||
    a.toUInt8.toUInt32 <<< 24

/-- The bytes of the digest's array, each word after `ntohl`. -/
def returned (digest : Words) : Bytes :=
  stored (ntohl (digest 0)) ++ stored (ntohl (digest 1)) ++ stored (ntohl (digest 2)) ++ stored (ntohl (digest 3)) ++
    stored (ntohl (digest 4))

def sha1Digest (input : Bytes) : Bytes := returned (new.update input).final

end Sha1

end Frnetlib
