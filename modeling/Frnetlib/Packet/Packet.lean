/-
  Frnetlib.Packet.Packet — `fr::Packet` (`Packet.h`): values written at the end of a
  buffer and read back at a cursor.

  `Ty` are the types the templates of `operator<<` and `operator>>` generate and
  `Val t` the C++ values of `t`; an object of a map is the list of its entries in
  iteration order. `pack` and `unpack` are the two operators, one case for each
  overload. The bytes of `htons`, `htonl` and `fr_htonll` of a number, as they lie in
  memory, are its bytes from the most significant, on every host (`be`).

  An extraction runs on the packet and may throw. `outOfRange` is the exception of
  `assert_bytes_remaining`; the other two faults are undefined behaviour: a `memcpy`
  from beyond the buffer, and a `bool` made of a byte that is neither 0 nor 1. `reads`
  is a ghost, the ranges of the buffer read so far.

  An `unordered_map` iterates in an order that depends on the hash function and on the
  implementation: `Hashing` is any way to place a new entry. Memory for the announced
  counts is taken to be available.
-/

import Frnetlib.Base.BigEndian
import Frnetlib.Base.Cursor

namespace Frnetlib

open Base

/-! ## Types and values -/

inductive Ty where
  | bool
  | u8
  | u16
  | u32
  | u64
  | i16
  | i32
  | i64
  | str
  | pair (a b : Ty)
  | vec (t : Ty)
  | map (k v : Ty)
  | umap (k v : Ty)
  deriving DecidableEq, Repr

@[reducible] def Val : Ty → Type
  | .bool => Bool
  | .u8 => UInt8
  | .u16 => UInt16
  | .u32 => UInt32
  | .u64 => UInt64
  | .i16 => Int16
  | .i32 => Int32
  | .i64 => Int64
  | .str => Bytes
  | .pair a b => Val a × Val b
  | .vec t => List (Val t)
  | .map k v => List (Val k × Val v)
  | .umap k v => List (Val k × Val v)

namespace Val

/-- A value-initialised object. -/
def default : (t : Ty) → Val t
  | .bool => false
  | .u8 => (0 : UInt8)
  | .u16 => (0 : UInt16)
  | .u32 => (0 : UInt32)
  | .u64 => (0 : UInt64)
  | .i16 => (0 : Int16)
  | .i32 => (0 : Int32)
  | .i64 => (0 : Int64)
  | .str => ([] : Bytes)
  | .pair a b => (default a, default b)
  | .vec t => ([] : List (Val t))
  | .map k v => ([] : List (Val k × Val v))
  | .umap k v => ([] : List (Val k × Val v))

/-- `operator==`. Two `unordered_map`s are equal whatever their orders. -/
def eq : (t : Ty) → Val t → Val t → Bool
  | .bool, x, y => x == y
  | .u8, x, y => x == y
  | .u16, x, y => x == y
  | .u32, x, y => x == y
  | .u64, x, y => x == y
  | .i16, x, y => x == y
  | .i32, x, y => x == y
  | .i64, x, y => x == y
  | .str, x, y => x == y
  | .pair a b, x, y => eq a x.1 y.1 && eq b x.2 y.2
  | .vec t, x, y => x.isEqv y (eq t)
  | .map k v, x, y => x.isEqv y fun e f => eq k e.1 f.1 && eq v e.2 f.2
  | .umap k v, x, y => x.length == y.length && x.all fun e => y.any fun f => eq k e.1 f.1 && eq v e.2 f.2

/-- `std::lexicographical_compare`. -/
def lexLess (less : α → α → Bool) : List α → List α → Bool
  | _, [] => false
  | [], _ :: _ => true
  | x :: xs, y :: ys => less x y || (!less y x && lexLess less xs ys)

def pairLess (less₁ : α → α → Bool) (less₂ : β → β → Bool) (x y : α × β) : Bool :=
  less₁ x.1 y.1 || (!less₁ y.1 x.1 && less₂ x.2 y.2)

/-- `std::less`. An `unordered_map` has no `operator<`. -/
def less : (t : Ty) → Val t → Val t → Bool
  | .bool, x, y => !x && y
  | .u8, x, y => x < y
  | .u16, x, y => x < y
  | .u32, x, y => x < y
  | .u64, x, y => x < y
  | .i16, x, y => x < y
  | .i32, x, y => x < y
  | .i64, x, y => x < y
  | .str, x, y => lexLess (fun a b : UInt8 => decide (a < b)) x y
  | .pair a b, x, y => pairLess (less a) (less b) x y
  | .vec t, x, y => lexLess (less t) x y
  | .map k v, x, y => lexLess (pairLess (less k) (less v)) x y
  | .umap _ _, _, _ => false

/-- `std::map::emplace`: the entries are in ascending order, and an entry whose key is
    there already is not added. -/
def emplaceOrdered (k : Ty) (e : Val k × α) : List (Val k × α) → List (Val k × α)
  | [] => [e]
  | f :: m =>
    if less k e.1 f.1 then e :: f :: m
    else if less k f.1 e.1 then f :: emplaceOrdered k e m
    else f :: m

end Val

structure Hashing where
  place : (k v : Ty) → Val k × Val v → List (Val k × Val v) → List (Val k × Val v)
  place_perm : ∀ {k v} (e : Val k × Val v) m, (place k v e m).Perm (e :: m)

/-- A table that puts each new entry in front. -/
def Hashing.front : Hashing := ⟨fun _ _ e m => e :: m, fun _ _ => .refl _⟩

/-- `std::unordered_map::emplace`. -/
def Hashing.emplace (hash : Hashing) {k v : Ty} (e : Val k × Val v) (m : List (Val k × Val v)) :
    List (Val k × Val v) :=
  if m.any fun f => Val.eq k f.1 e.1 then m else hash.place k v e m

/-! ## The packet -/

structure Packet where
  buffer : Bytes
  /-- `buffer_read_index` -/
  readIndex : Nat
  /-- Ghost: where each read so far began, and its length. -/
  reads : List (Nat × Nat)
  deriving DecidableEq, Repr

inductive Fault where
  | outOfRange (what : String)
  | outOfBounds
  | notBool
  deriving DecidableEq, Repr

/-- What `assert_bytes_remaining` throws. -/
def Fault.notEnough : Fault :=
  .outOfRange "Not enough bytes remaining in packet to extract requested data"

/-- `PACKET_HEADER_LENGTH` -/
def packetHeaderLength : Nat := 4

namespace Packet

/-- The constructor; the header is filled in by `send`. -/
def fresh : Packet := ⟨List.replicate packetHeaderLength 48, packetHeaderLength, []⟩

def getBytesRemaining (p : Packet) : Nat := usub p.buffer.length p.readIndex

/-! ## Writing -/

def addRaw (data : Bytes) (p : Packet) : Packet := { p with buffer := p.buffer ++ data }

def packUInt32 (n : UInt32) (p : Packet) : Packet := p.addRaw (be 4 n.toNat)

def pack : (t : Ty) → Val t → Packet → Packet
  | .bool, b, p => p.addRaw [if b then 1 else 0]
  | .u8, n, p => p.addRaw [n]
  | .u16, n, p => p.addRaw (be 2 n.toNat)
  | .u32, n, p => packUInt32 n p
  | .u64, n, p => p.addRaw (be 8 n.toNat)
  | .i16, n, p => p.addRaw (be 2 n.toUInt16.toNat)
  | .i32, n, p => p.addRaw (be 4 n.toUInt32.toNat)
  | .i64, n, p => p.addRaw (be 8 n.toUInt64.toNat)
  | .str, s, p => (packUInt32 (UInt32.ofNat s.length) p).addRaw s
  | .pair a b, x, p => pack b x.2 (pack a x.1 p)
  | .vec t, xs, p => xs.foldl (fun p x => pack t x p) (packUInt32 (UInt32.ofNat xs.length) p)
  | .map k v, m, p => m.foldl (fun p e => pack v e.2 (pack k e.1 p)) (packUInt32 (UInt32.ofNat m.length) p)
  | .umap k v, m, p => m.foldl (fun p e => pack v e.2 (pack k e.1 p)) (packUInt32 (UInt32.ofNat m.length) p)

/-- `add_range` -/
def addRange (t : Ty) (xs : List (Val t)) (p : Packet) : Packet :=
  xs.foldl (fun p x => pack t x p) (packUInt32 (UInt32.ofNat xs.length) p)

/-! ## Reading -/

abbrev Extract := EStateM Fault Packet

/-- The sum is one of `size_t`. -/
def assertBytesRemaining (requiredSpace : Nat) : Extract Unit := fun p =>
  if (p.readIndex + requiredSpace) % 2 ^ 64 > p.buffer.length then .error .notEnough p else .ok () p

/-- The cursor after `n` bytes were read at it. -/
def advance (n : Nat) (p : Packet) : Packet :=
  { p with readIndex := p.readIndex + n, reads := (p.readIndex, n) :: p.reads }

/-- `memcpy` from `&buffer[buffer_read_index]`, and the cursor moved on. -/
def copyOut (n : Nat) : Extract Bytes := fun p =>
  if p.readIndex + n ≤ p.buffer.length then .ok ((p.buffer.drop p.readIndex).take n) (p.advance n)
  else .error .outOfBounds p

def extractRaw (n : Nat) : Extract Bytes := do
  assertBytesRemaining n
  copyOut n

def unpackUInt32 : Extract UInt32 := do
  let b ← extractRaw 4
  pure (UInt32.ofNat (ofBe b))

def toBool : Bytes → Extract Bool
  | [0] => pure false
  | [1] => pure true
  | _ => throw .notBool

/-- `std::vector::resize` -/
def resize (t : Ty) (n : Nat) (xs : List (Val t)) : List (Val t) :=
  xs.take n ++ List.replicate (n - xs.length) (Val.default t)

/-- `operator>>` into an object that holds `dst`; what it leaves there. -/
def unpack (hash : Hashing) : (t : Ty) → Val t → Extract (Val t)
  | .bool, _ => do
    let b ← extractRaw 1
    toBool b
  | .u8, _ => do
    let b ← extractRaw 1
    pure (UInt8.ofNat (ofBe b))
  | .u16, _ => do
    let b ← extractRaw 2
    pure (UInt16.ofNat (ofBe b))
  | .u32, _ => unpackUInt32
  | .u64, _ => do
    let b ← extractRaw 8
    pure (UInt64.ofNat (ofBe b))
  | .i16, _ => do
    let b ← extractRaw 2
    pure (UInt16.ofNat (ofBe b)).toInt16
  | .i32, _ => do
    let b ← extractRaw 4
    pure (UInt32.ofNat (ofBe b)).toInt32
  | .i64, _ => do
    let b ← extractRaw 8
    pure (UInt64.ofNat (ofBe b)).toInt64
  | .str, _ => do
    let length ← unpackUInt32
    extractRaw length.toNat
  | .pair a b, dst => do
    let x ← unpack hash a dst.1
    let y ← unpack hash b dst.2
    pure (x, y)
  | .vec t, dst => do
    let length ← unpackUInt32
    (resize t length.toNat dst).mapM (unpack hash t)
  | .map k v, dst => do
    let length ← unpackUInt32
    iterate (fun m => do
      let x ← unpack hash k (Val.default k)
      let y ← unpack hash v (Val.default v)
      pure (Val.emplaceOrdered k (x, y) m)) length.toNat dst
  | .umap k v, dst => do
    let length ← unpackUInt32
    iterate (fun m => do
      let x ← unpack hash k (Val.default k)
      let y ← unpack hash v (Val.default v)
      pure (hash.emplace (x, y) m)) length.toNat dst

end Packet

end Frnetlib
