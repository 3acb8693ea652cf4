/-
  Frnetlib.WebSocket.WebFrame — `fr::WebFrame` (`WebFrame.h`, `WebFrame.cpp`), with its
  two classes: a `ClientWebFrame` masks what it sends and takes unmasked frames, a
  `ServerWebFrame` the other way.

  A frame's first two bytes are its final flag, its opcode, the mask bit and seven bits
  of length. A length above 125 follows in two or eight bytes, then the key, if any, of
  a mask, and the payload. The mask is the static counter after one more increment, its
  four bytes as they lie in memory (a little-endian host's; the order plays no part).
  `send` leaves the masked payload in the frame.

  A null socket pointer is not modelled.
-/

import Frnetlib.Base.BigEndian
import Frnetlib.Net.Socket

namespace Frnetlib

open Base Socket

inductive Opcode where
  | continuation
  | text
  | binary
  | disconnect
  | ping
  | pong
  /-- A value of the enumeration's type that it does not name. -/
  | reserved (n : UInt8)
  deriving DecidableEq, Repr

namespace Opcode

def toNat : Opcode → Nat
  | continuation => 0
  | text => 1
  | binary => 2
  | disconnect => 8
  | ping => 9
  | pong => 10
  | reserved n => n.toNat

/-- `static_cast<Opcode>` -/
def ofNat (n : Nat) : Opcode :=
  if n = 0 then continuation
  else if n = 1 then text
  else if n = 2 then binary
  else if n = 8 then disconnect
  else if n = 9 then ping
  else if n = 10 then pong
  else reserved (UInt8.ofNat n)

def named : Opcode → Bool
  | reserved _ => false
  | _ => true

theorem named_lt {op : Opcode} (h : op.named = true) : op.toNat < 16 := by
  cases op <;> simp_all [named, toNat]

theorem ofNat_toNat {op : Opcode} (h : op.named = true) : ofNat op.toNat = op := by
  cases op <;> simp_all [named, toNat, ofNat]

end Opcode

structure WebFrame where
  /-- `is_client()`: the class of the frame. -/
  isClient : Bool
  payload : Bytes
  opcode : Opcode
  final : Bool
  deriving DecidableEq, Repr

namespace WebFrame

/-- The constructor of the two classes. -/
def new (isClient : Bool) (type : Opcode) : WebFrame := ⟨isClient, [], type, true⟩

/-! ## Sending -/

def lengthBits (size : Nat) : Nat := if size ≤ 125 then size else if size < 65535 then 126 else 127

def first2Bytes (frame : WebFrame) : Nat :=
  frame.final.toNat <<< 15 ||| frame.opcode.toNat <<< 8 ||| frame.isClient.toNat <<< 7 |||
    lengthBits frame.payload.length

def lengthBytes (size : Nat) : Bytes :=
  if 125 < size then if size < 65535 then be 2 size else be 8 size else []

def maskBytes (key : UInt32) : Bytes := (be 4 key.toNat).reverse

/-- `payload[a] ^ str_mask_key[a % 4]`, from `a` on. -/
def maskFrom (mask : Bytes) : Nat → Bytes → Bytes
  | _, [] => []
  | a, b :: s => (b ^^^ mask.getD (a % 4) 0) :: maskFrom mask (a + 1) s

def applyMask (mask : Bool) (maskKey payload : Bytes) : Bytes :=
  if mask then maskFrom maskKey 0 payload else payload

/-- The counter after the frame is built. -/
def nextKey (frame : WebFrame) (key : UInt32) : UInt32 := if frame.isClient then key + 1 else key

/-- The payload as it is sent. -/
def masked (frame : WebFrame) (key : UInt32) : Bytes := applyMask frame.isClient (maskBytes key) frame.payload

/-- The bytes `send` builds, with the counter already incremented. -/
def text (frame : WebFrame) (key : UInt32) : Bytes :=
  be 2 frame.first2Bytes ++ lengthBytes frame.payload.length ++
    (if frame.isClient then maskBytes key else []) ++ frame.masked key

def send {τ : Type} [RawSender τ] (frame : WebFrame) (currentMaskKey : UInt32) (w : τ) :
    Option Status × WebFrame × UInt32 × τ :=
  let key := frame.nextKey currentMaskKey
  let r := sendLoop (frame.text key) 0 w
  (r.1, { frame with payload := frame.masked key }, key, r.2)

/-- Frames sent one after the other: the statuses of the sends that have returned. -/
def sendAll {τ : Type} [RawSender τ] : List WebFrame → UInt32 → τ → List Status × UInt32 × τ
  | [], key, w => ([], key, w)
  | frame :: frames, key, w =>
    match frame.send key w with
    | (none, _, key', w') => ([], key', w')
    | (some st, _, key', w') =>
      let r := sendAll frames key' w'
      (st :: r.1, r.2)

/-! ## Receiving -/

variable {σ : Type} [Receiver σ]

/-- The length the seven bits announce, or the one that follows them. -/
def receiveLength (bits : Nat) (w : σ) : Option (Status × Nat × σ) :=
  if bits = 126 then (receiveRest 2 w).map fun r => (r.1, ofBe r.2.1, r.2.2)
  else if bits = 127 then (receiveRest 8 w).map fun r => (r.1, ofBe r.2.1, r.2.2)
  else some (.success, bits, w)

def receiveMask (mask : Bool) (w : σ) : Option (Status × Bytes × σ) :=
  if mask then receiveRest 4 w else some (.success, [0, 0, 0, 0], w)

/-- `max_size` of a `std::string`. -/
def maxSize : Nat := 2 ^ 62 - 1

/-- `payload.resize(payload_length, '\0')`, and the bytes read into it. -/
def resized (payloadLength : Nat) (b : Bytes) : Bytes := b ++ List.replicate (payloadLength - b.length) 0

/-- `none` when no status is returned: the call waits for more, or `resize` has thrown
    `std::length_error`. -/
def receive (maxReceiveSize : Nat) (frame : WebFrame) : σ → Option (Status × WebFrame × σ) :=
  let frame := { frame with payload := [] }
  andThen (receiveAll 2) (fun _ => frame) fun b =>
    let first2Bytes := ofBe b
    let frame := { frame with
      final := first2Bytes >>> 15 &&& 1 ≠ 0
      opcode := Opcode.ofNat (first2Bytes >>> 8 &&& 0xF) }
    let mask : Bool := first2Bytes >>> 7 &&& 1 ≠ 0
    if mask = frame.isClient then fun w => some (.error, frame, w)
    else
      andThen (receiveLength (first2Bytes &&& 0x7F)) (fun _ => frame) fun payloadLength =>
        if maxReceiveSize ≠ 0 ∧ maxReceiveSize < payloadLength then fun w => some (.maxPacketSizeExceeded, frame, w)
        else
          andThen (receiveMask mask) (fun _ => frame) fun maskKey =>
            if maxSize < payloadLength then fun _ => none
            else
              andThen (receiveRest payloadLength) (fun b => { frame with payload := resized payloadLength b }) fun b w =>
                some (.success, { frame with payload := applyMask mask maskKey (resized payloadLength b) }, w)

end WebFrame

end Frnetlib
