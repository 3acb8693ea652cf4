/-
  Frnetlib.Packet.Packetable — the operators of `fr::Packet` on other types than the built-in
  ones (`Packet.h`, `Packetable.h`).

  A class derived from `Packetable` says itself how an object is packed and unpacked; an
  enumeration goes as its number in 32 bits, a char array as the string before its zero; and
  the templates for pairs, vectors and maps take any of these. `Codec` is what the two
  operators do with the objects of a type. Of the maps it is the `std::map` with keys of a
  built-in type; a class of keys would bring an order of its own.

  A codec is `Lawful` if packing appends a text and unpacking takes exactly that text and
  gives the object back. The built-in types are (`builtin`), and what is made of lawful ones
  by the templates is again; `object` is a class that packs its members in an order and
  unpacks them in the same. Messages of such objects are delivered as they were packed, over
  any schedule of the connection (`objects_delivered`).
-/

import Frnetlib.Packet.Framing
import Frnetlib.Packet.Wire

namespace Frnetlib

open Base Socket

/-- `operator<<`, and `operator>>` into an object; and a new object. -/
structure Codec (α : Type) where
  pack : α → Packet → Packet
  unpack : α → Packet.Extract α
  initial : α

namespace Codec

open Packet

variable {α β : Type}

def builtin (hash : Hashing) (t : Ty) : Codec (Val t) := ⟨Packet.pack t, Packet.unpack hash t, Val.default t⟩

/-- An enumeration with an underlying type of `w` bits. -/
def enumeration (signed : Bool) (w : Nat) : Codec (BitVec w) where
  pack var := packUInt32 ⟨if signed then var.signExtend 32 else var.setWidth 32⟩
  unpack _ := do
    let val ← unpackUInt32
    pure (val.toBitVec.setWidth w)
  initial := 0

/-- A `const char *`, up to its zero and as far as its length in 32 bits goes; it is unpacked
    as a string. -/
def charArray (hash : Hashing) : Codec Bytes where
  pack var p :=
    let len := UInt32.ofNat (var.takeWhile (· ≠ 0)).length
    (packUInt32 len p).addRaw (var.take len.toNat)
  unpack := Packet.unpack hash .str
  initial := []

def pair (a : Codec α) (b : Codec β) : Codec (α × β) where
  pack var p := b.pack var.2 (a.pack var.1 p)
  unpack var := do
    let x ← a.unpack var.1
    let y ← b.unpack var.2
    pure (x, y)
  initial := (a.initial, b.initial)

def vector (c : Codec α) : Codec (List α) where
  pack vec p := vec.foldl (fun p x => c.pack x p) (packUInt32 (UInt32.ofNat vec.length) p)
  unpack vec := do
    let length ← unpackUInt32
    (vec.take length.toNat ++ List.replicate (length.toNat - vec.length) c.initial).mapM c.unpack
  initial := []

/-- An `std::map` whose keys are of a built-in type. -/
def map (hash : Hashing) (k : Ty) (c : Codec α) : Codec (List (Val k × α)) where
  pack m p := m.foldl (fun p e => c.pack e.2 (Packet.pack k e.1 p)) (packUInt32 (UInt32.ofNat m.length) p)
  unpack m := do
    let length ← unpackUInt32
    iterate (fun m => do
      let x ← Packet.unpack hash k (Val.default k)
      let y ← c.unpack c.initial
      pure (Val.emplaceOrdered k (x, y) m)) length.toNat m
  initial := []

/-- A class derived from `Packetable`, which packs its members and unpacks into them. -/
def object (members : Codec β) (get : α → β) (set : β → α) : Codec α where
  pack x := members.pack (get x)
  unpack x := do
    let m ← members.unpack (get x)
    pure (set m)
  initial := set members.initial

/-- On the built-in types the templates are those of `pack` and `unpack`. -/
theorem pair_builtin (hash : Hashing) (a b : Ty) : pair (builtin hash a) (builtin hash b) = builtin hash (.pair a b) := rfl

theorem vector_builtin (hash : Hashing) (t : Ty) : vector (builtin hash t) = builtin hash (.vec t) := rfl

theorem map_builtin (hash : Hashing) (k v : Ty) : map hash k (builtin hash v) = builtin hash (.map k v) := rfl

end Codec

/-! ## Lawful codecs -/

/-- What is packed is one text for each object, and a new object takes it back. -/
structure LawfulCodec (α : Type) extends Codec α where
  text : α → Bytes
  /-- The objects that can be packed. -/
  Fits : α → Prop
  Same : α → α → Prop
  pack_eq : ∀ x p, pack x p = p.addRaw (text x)
  reads : ∀ x, Fits x → Packet.view.Reads (unpack initial) (text x) (Same x)

namespace LawfulCodec

open Packet View

variable {α β : Type}

def builtin (hash : Hashing) (t : Ty) : LawfulCodec (Val t) where
  toCodec := .builtin hash t
  text := encode t
  Fits := Packable t
  Same x y := Val.eq t x y = true
  pack_eq := Packet.pack_eq t
  reads := unpack_reads hash t

/-- The number of an enumerator in 32 bits. -/
def widened (signed : Bool) {w : Nat} (var : BitVec w) : BitVec 32 := if signed then var.signExtend 32 else var.setWidth 32

theorem widened_narrow (signed : Bool) {w : Nat} (hw : w ≤ 32) (var : BitVec w) : (widened signed var).setWidth w = var := by
  cases signed with
  | false => exact (BitVec.setWidth_setWidth_of_le var hw).trans (BitVec.setWidth_eq var)
  | true =>
    ext i hi
    have hlt : i < 32 := Nat.lt_of_lt_of_le hi hw
    simp [widened, BitVec.getElem_signExtend, hi, hlt]

def enumeration (signed : Bool) (w : Nat) (hw : w ≤ 32) : LawfulCodec (BitVec w) where
  toCodec := .enumeration signed w
  text var := be 4 (widened signed var).toNat
  Fits _ := True
  Same := Eq
  pack_eq _ _ := rfl
  reads var _ := by
    refine (unpackUInt32_reads (widened signed var).isLt).bind_pure fun val hval => ?_
    have hbits : val.toBitVec = widened signed var := by
      rw [hval]
      simp
    rw [hbits, widened_narrow signed hw]

/-- Up to the zero, as far as 32 bits count. -/
def counted (var : Bytes) : Bytes := var.take (UInt32.ofNat (var.takeWhile (· ≠ 0)).length).toNat

theorem counted_length (var : Bytes) : UInt32.ofNat (counted var).length = UInt32.ofNat (var.takeWhile (· ≠ 0)).length := by
  have hle : (UInt32.ofNat (var.takeWhile (· ≠ 0)).length).toNat ≤ var.length :=
    (Nat.mod_le _ _).trans (List.takeWhile_prefix _).length_le
  rw [counted, List.length_take, Nat.min_eq_left hle, UInt32.ofNat_toNat]

theorem counted_all {var : Bytes} (h : (var.takeWhile (· ≠ 0)).length < 2 ^ 32) : counted var = var.takeWhile (· ≠ 0) := by
  rw [counted, UInt32.toNat_ofNat_of_lt' h]
  exact (List.prefix_iff_eq_take.mp (List.takeWhile_prefix _)).symm

def charArray (hash : Hashing) : LawfulCodec Bytes where
  toCodec := .charArray hash
  text var := encode .str (counted var)
  Fits var := (var.takeWhile (· ≠ 0)).length < 2 ^ 32
  Same var s := s = var.takeWhile (· ≠ 0)
  pack_eq var p := by
    rw [← Packet.pack_eq, Packet.pack, counted_length]
    rfl
  reads var hvar := by
    rw [counted_all hvar]
    exact (unpack_reads hash .str _ hvar).mono fun _ hs => (beq_iff_eq.mp hs).symm

def pair (a : LawfulCodec α) (b : LawfulCodec β) : LawfulCodec (α × β) where
  toCodec := .pair a.toCodec b.toCodec
  text x := a.text x.1 ++ b.text x.2
  Fits x := a.Fits x.1 ∧ b.Fits x.2
  Same x y := a.Same x.1 y.1 ∧ b.Same x.2 y.2
  pack_eq x p := by
    simp only [Codec.pair, a.pack_eq, b.pack_eq, addRaw_addRaw]
  reads x hx := by
    refine (a.reads x.1 hx.1).bind fun y hy => ?_
    exact (b.reads x.2 hx.2).bind_pure fun z hz => ⟨hy, hz⟩

def vector (c : LawfulCodec α) : LawfulCodec (List α) where
  toCodec := .vector c.toCodec
  text xs := prefixed xs.length (xs.flatMap c.text)
  Fits xs := xs.length < 2 ^ 32 ∧ ∀ x ∈ xs, c.Fits x
  Same := List.Forall₂ c.Same
  pack_eq xs p := by
    simp only [Codec.vector, c.pack_eq, packUInt32_length, prefixed]
    rw [foldl_addRaw, addRaw_addRaw]
  reads xs hxs := by
    obtain ⟨hlength, hall⟩ := hxs
    refine prefixed_reads (f := fun n => (List.take n [] ++ List.replicate (n - 0) c.initial).mapM c.unpack) hlength ?_
    rw [List.take_nil, List.nil_append, Nat.sub_zero]
    exact Reads.mapM (forall₂_replicate fun x hx => c.reads x (hall x hx))

/-- Entries with the same key, and values that are the same. -/
def Entries (c : LawfulCodec α) (k : Ty) : List (Val k × α) → List (Val k × α) → Prop :=
  List.Forall₂ fun e f => e.1 = f.1 ∧ c.Same e.2 f.2

theorem Entries.emplace {c : LawfulCodec α} {k : Ty} {us m : List (Val k × α)} {w e : Val k × α} (h : c.Entries k us m)
    (hlt : ∀ u ∈ us, Val.less k u.1 w.1 = true) (hkey : w.1 = e.1) (hval : c.Same w.2 e.2) :
    c.Entries k (us ++ [w]) (Val.emplaceOrdered k e m) := by
  rw [Val.emplaceOrdered_last]
  · exact List.rel_append h (.cons ⟨hkey, hval⟩ .nil)
  · intro f hf
    obtain ⟨u, hu, huf⟩ := forall₂_mem h hf
    rw [← huf.1, ← hkey]
    exact hlt u hu

def map (hash : Hashing) (k : Ty) (c : LawfulCodec α) : LawfulCodec (List (Val k × α)) where
  toCodec := .map hash k c.toCodec
  text m := prefixed m.length (m.flatMap fun e => encode k e.1 ++ c.text e.2)
  Fits m := k.plain ∧ m.length < 2 ^ 32 ∧ (∀ e ∈ m, Packable k e.1 ∧ c.Fits e.2) ∧ m.Pairwise fun e f => Val.less k e.1 f.1 = true
  Same := c.Entries k
  pack_eq m p := by
    simp only [Codec.map, c.pack_eq, Packet.pack_eq, packUInt32_length, prefixed, addRaw_addRaw]
    rw [foldl_addRaw, addRaw_addRaw]
  reads m hm := by
    obtain ⟨hk, hlength, hall, horder⟩ := hm
    refine prefixed_reads (f := fun n => iterate (fun m => do
      let x ← Packet.unpack hash k (Val.default k)
      let y ← c.unpack c.initial
      pure (Val.emplaceOrdered k (x, y) m)) n []) hlength ?_
    refine Reads.iterate (I := c.Entries k) m [] .nil fun us w hw _ acc hacc => ?_
    have hwm : w ∈ m := hw.subset (by simp)
    refine (unpack_reads hash k w.1 (hall w hwm).1).bind fun x hx => ?_
    refine (c.reads w.2 (hall w hwm).2).bind_pure fun y hy => ?_
    exact hacc.emplace (pairwise_last horder hw) ((Val.eq_plain hk _ _).mp hx) hy

/-- The members are all there is to an object. -/
def object (members : LawfulCodec β) (get : α → β) (set : β → α) (hget : ∀ m, get (set m) = m) : LawfulCodec α where
  toCodec := .object members.toCodec get set
  text x := members.text (get x)
  Fits x := members.Fits (get x)
  Same x y := members.Same (get x) (get y)
  pack_eq x := members.pack_eq (get x)
  reads x hx := by
    simp only [Codec.object, hget]
    exact (members.reads (get x) hx).bind_pure fun m hm => by rwa [hget]

end LawfulCodec

/-! ## Messages of objects -/

section

variable {ι : Type} {V : ι → Type} (c : (i : ι) → LawfulCodec (V i))

/-- The same object, of the same type. -/
def SameObject (x y : (i : ι) × V i) : Prop := ∃ v, y = ⟨x.1, v⟩ ∧ (c x.1).Same x.2 v

namespace Packet

open View

/-- `add`, of objects of these types. -/
def add (xs : List ((i : ι) × V i)) (p : Packet) : Packet := xs.foldl (fun p x => (c x.1).pack x.2 p) p

/-- New objects of these types are unpacked. -/
def extract (types : List ι) : Extract (List ((i : ι) × V i)) :=
  types.mapM fun i => do
    let x ← (c i).unpack (c i).initial
    pure ⟨i, x⟩

/-- The objects are unpacked of it, and nothing more is there. -/
def Holds (xs : List ((i : ι) × V i)) (p : Packet) : Prop :=
  ∃ ys p', extract c (xs.map Sigma.fst) p = .ok ys p' ∧ List.Forall₂ (SameObject c) xs ys ∧ p'.getBytesRemaining = 0

variable {c}

theorem add_eq (xs : List ((i : ι) × V i)) (p : Packet) : add c xs p = p.addRaw (xs.flatMap fun x => (c x.1).text x.2) := by
  simp only [add, LawfulCodec.pack_eq]
  exact foldl_addRaw _ xs p

theorem extract_reads {xs : List ((i : ι) × V i)} (h : ∀ x ∈ xs, (c x.1).Fits x.2) :
    view.Reads (extract c (xs.map Sigma.fst)) (xs.flatMap fun x => (c x.1).text x.2) (List.Forall₂ (SameObject c) xs) := by
  refine Reads.mapM (List.forall₂_map_left_iff.mpr (List.forall₂_same.mpr fun x hx => ?_))
  exact ((c x.1).reads x.2 (h x hx)).bind_pure fun v hv => ⟨v, rfl, hv⟩

theorem holds_payload {xs : List ((i : ι) × V i)} (h : ∀ x ∈ xs, (c x.1).Fits x.2) :
    Holds c xs (fresh.addRaw (add c xs fresh).payload) := by
  have hpayload : (add c xs fresh).payload = xs.flatMap fun x => (c x.1).text x.2 := by
    rw [add_eq]
    exact List.drop_left' rfl
  have hunread : (fresh.addRaw (add c xs fresh).payload).unread = (xs.flatMap fun x => (c x.1).text x.2) ++ [] := by
    rw [List.append_nil, ← hpayload]
    exact List.drop_left' rfl
  have hin : (fresh.addRaw (add c xs fresh).payload).readIndex ≤ (fresh.addRaw (add c xs fresh).payload).buffer.length := by
    simp [addRaw, fresh, packetHeaderLength]
  obtain ⟨ys, p', hr, hys, hrest, hmoved⟩ := extract_reads h _ [] hin hunread
  refine ⟨ys, p', hr, hys, ?_⟩
  have hinside : p'.readIndex ≤ p'.buffer.length := by
    rw [hmoved.buffer]
    exact hmoved.inside hin
  have hlength : (p'.buffer.drop p'.readIndex).length = 0 := congrArg List.length hrest
  rwa [List.length_drop, ← usub_of_le hinside] at hlength

end Packet

/-- Messages of objects that are packed and sent over a reliable FIFO connection, as far as
    the sends and the bytes have come: every send that has returned succeeded, and the k-th
    packet received holds the objects of the k-th message and nothing more. With all sent and
    arrived, enough receives get them all. -/
theorem objects_delivered {σ τ : Type} [FifoReceiver σ] [FifoSender τ] (messages : List (List ((i : ι) × V i)))
    (maxReceiveSize : Nat) (hfits : ∀ xs ∈ messages, ∀ x ∈ xs, (c x.1).Fits x.2)
    (hsize : ∀ xs ∈ messages, (Packet.add c xs .fresh).Sendable maxReceiveSize) (tx : τ) (rx : σ)
    (hconn : Connected tx (Packet.sendAll (messages.map (Packet.add c · .fresh)) tx).2 rx) (n : Nat) :
    let sent := Packet.sendAll (messages.map (Packet.add c · .fresh)) tx
    let run := calls (Packet.receive maxReceiveSize .fresh) n rx
    (∀ st ∈ sent.1, st = .success) ∧
    ∃ k, k ≤ messages.length ∧ List.Forall₂ (Packet.Holds c) (messages.take k) (received run.1) ∧
      (∀ r ∈ run.1, r.1 = .success ∨ r.1 = .wouldBlock) ∧
      (sent.1.length = messages.length → Sender.out sent.2 = Sender.out tx ++ Receiver.pending rx →
        Receiver.left rx + messages.length ≤ n → k = messages.length) := by
  intro sent run
  let packet : List ((i : ι) × V i) → Packet := fun xs => .add c xs .fresh
  have hsent : sent = sendEach (messages.map fun xs => Packet.frame (packet xs).payload) tx := by
    refine (Packet.sendAll_eq _ tx).trans (congrArg (sendEach · tx) ?_)
    rw [List.map_map]
    exact List.map_congr_left fun xs hxs => Packet.stampHeader_eq (hsize xs hxs).header (hsize xs hxs).length
  have hdelivers : Delivers (σ := σ) (Packet.receive maxReceiveSize .fresh) (· ∈ messages)
      (fun xs => Packet.frame (packet xs).payload) (Packet.Holds c) := by
    refine Packet.receive_delivers.comap packet hsize fun xs q hxs hq => ?_
    rw [hq]
    exact Packet.holds_payload (hfits xs hxs)
  rw [show (Packet.sendAll (messages.map (Packet.add c · .fresh)) tx).2 = _ from congrArg Prod.snd hsent] at hconn
  obtain ⟨hsucc, k, htaken, hall⟩ := stream_faithful hdelivers (fun _ hxs => hxs) hconn n
  rw [hsent]
  exact ⟨hsucc, k, htaken.le, htaken.messages, htaken.status, hall⟩

end

/-- A class with two members, which it packs and unpacks in this order. -/
structure CustomClass where
  member1 : Bytes
  member2 : Int32

def CustomClass.codec : LawfulCodec CustomClass :=
  .object (.pair (.builtin .front .str) (.builtin .front .i32)) (fun x => (x.member1, x.member2)) (fun m => ⟨m.1, m.2⟩)
    fun _ => rfl

/-- Vectors of these objects, and a signed enumeration of one byte. -/
def SampleObject : Bool → Type
  | true => List CustomClass
  | false => BitVec 8

def sampleCodec : (i : Bool) → LawfulCodec (SampleObject i)
  | true => .vector CustomClass.codec
  | false => .enumeration true 8 (by decide)

def sampleObjects : List ((i : Bool) × SampleObject i) := [⟨true, [⟨bytes "hi", 7⟩]⟩, ⟨false, (255 : BitVec 8)⟩]

def sampleObjectsFrame : Bytes := [0, 0, 0, 18, 0, 0, 0, 1, 0, 0, 0, 2, 104, 105, 0, 0, 0, 7, 255, 255, 255, 255]

theorem objects_delivered_sample :
    List.Forall₂ (Packet.Holds sampleCodec) [sampleObjects]
      (received (calls (Packet.receive 0 .fresh) 23 (⟨⟨false, sampleObjectsFrame, []⟩, by decide⟩ : FifoReader)).1) := by
  let tx : FifoWriter := ⟨⟨false, [], []⟩, by decide⟩
  let rx : FifoReader := ⟨⟨false, sampleObjectsFrame, []⟩, by decide⟩
  have hsent : Packet.sendAll [Packet.add sampleCodec sampleObjects .fresh] tx =
      ([.success], ⟨⟨false, sampleObjectsFrame, []⟩, by decide⟩) := by
    rw [Packet.sendAll, Packet.send, sendLoop_done rfl (by decide)]
    rfl
  have hone : CustomClass.codec.Fits ⟨bytes "hi", 7⟩ := ⟨show (bytes "hi").length < 2 ^ 32 by decide, trivial⟩
  have hvector : (sampleCodec true).Fits [⟨bytes "hi", 7⟩] := ⟨show 1 < 2 ^ 32 by decide, List.forall_mem_singleton.mpr hone⟩
  have hfits : ∀ x ∈ sampleObjects, (sampleCodec x.1).Fits x.2 :=
    List.forall_mem_cons.mpr ⟨hvector, List.forall_mem_singleton.mpr trivial⟩
  have hsize : (Packet.add sampleCodec sampleObjects .fresh).Sendable 0 := ⟨by decide, by decide, .inl rfl⟩
  obtain ⟨-, k, -, hholds, -, hall⟩ := objects_delivered sampleCodec [sampleObjects] 0 (by simpa using hfits)
    (by simpa using hsize) tx rx (by rw [List.map_singleton, hsent]; exact ⟨_, rfl, List.prefix_rfl⟩) 23
  rw [List.map_singleton, hsent] at hall
  have hk : k = 1 := hall rfl rfl (by decide)
  rw [hk] at hholds
  exact hholds

end Frnetlib
