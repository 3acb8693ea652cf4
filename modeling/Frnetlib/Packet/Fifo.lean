/-
  Frnetlib.Packet.Fifo — a packet as a typed FIFO queue.

  The abstract queue is a list of typed values: a pack, or a range added, puts a value
  at the end, an unpack takes the one at the front if it has the type asked for
  (`Queue.exec`). A packet represents a queue when its cursor is in the buffer and the
  unread bytes are the texts of the queue's values, in order (`Represents`).

  Proved: each operator refines the queue's step (`exec_refines`). So in every
  interleaving in which the i-th unpack has the type of the i-th packed value and comes
  after its pack (`InOrder`), every unpack succeeds with that value and what remains to
  be read is the total length of the values not yet unpacked (`typed_fifo`).
-/

import Frnetlib.Packet.Wire
import Mathlib.Data.List.Induction
import Mathlib.Data.List.Infix

namespace Frnetlib

open Base

/-- A typed value that can be packed. -/
structure Item where
  type : Ty
  val : Val type
  packable : Packable type val

namespace Item

def text (x : Item) : Bytes := encode x.type x.val

/-- What an unpack returned is this value, up to `operator==`; that is equality on the
    types with no `unordered_map` in them (`Val.eq_plain`). -/
def Is (x : Item) (w : (t : Ty) × Val t) : Prop := ∃ u : Val x.type, w = ⟨x.type, u⟩ ∧ Val.eq x.type x.val u = true

end Item

/-- `operator<<`, `add_range`, and `operator>>` into a default-constructed variable. -/
inductive Op where
  | pack (x : Item)
  | addRange (t : Ty) (xs : List (Val t)) (packable : Packable (.vec t) xs)
  | unpack (t : Ty)

namespace Op

def packed : Op → Option Item
  | .pack x => some x
  | .addRange t xs h => some ⟨.vec t, xs, h⟩
  | .unpack _ => none

def unpacked : Op → Option Ty
  | .unpack t => some t
  | _ => none

end Op

/-- The i-th unpack has the type of the i-th packed value and comes after its pack. -/
def InOrder (ops : List Op) : Prop :=
  ∀ qs, qs <+: ops → qs.filterMap Op.unpacked <+: (qs.filterMap Op.packed).map Item.type

namespace Packet

variable (hash : Hashing)

def exec : Op → Extract (Option ((t : Ty) × Val t))
  | .pack x => fun p => .ok none (pack x.type x.val p)
  | .addRange t xs _ => fun p => .ok none (addRange t xs p)
  | .unpack t => do
    let w ← unpack hash t (Val.default t)
    pure (some ⟨t, w⟩)

/-- The values the unpacks of a run return, in order. -/
def run (ops : List Op) : Extract (List ((t : Ty) × Val t)) :=
  ops.foldlM (fun outs op => do
    let r ← exec hash op
    pure (outs ++ r.toList)) []

end Packet

/-! ## The abstract queue -/

namespace Queue

def exec : Op → List Item → Option (Option Item × List Item)
  | .pack x, q => some (none, q ++ [x])
  | .addRange t xs h, q => some (none, q ++ [⟨.vec t, xs, h⟩])
  | .unpack t, x :: q => if x.type = t then some (some x, q) else none
  | .unpack _, [] => none

/-- The queue after a run in order: the values packed and not yet unpacked. -/
def after (ops : List Op) : List Item :=
  (ops.filterMap Op.packed).drop (ops.filterMap Op.unpacked).length

/-- The values the run has unpacked. -/
def served (ops : List Op) : List Item :=
  (ops.filterMap Op.packed).take (ops.filterMap Op.unpacked).length

theorem inOrder_length {ops : List Op} (h : InOrder ops) :
    (ops.filterMap Op.unpacked).length ≤ (ops.filterMap Op.packed).length := by
  simpa using (h ops List.prefix_rfl).length_le

/-- A value written joins the queue at the end. -/
theorem put {ops : List Op} (op : Op) {x : Item} (h : InOrder ops) (hp : op.packed = some x)
    (hu : op.unpacked = none) : after (ops ++ [op]) = after ops ++ [x] ∧ served (ops ++ [op]) = served ops := by
  have hle := inOrder_length h
  have hpacked : (ops ++ [op]).filterMap Op.packed = ops.filterMap Op.packed ++ [x] := by
    simp [hp]
  have hunpacked : (ops ++ [op]).filterMap Op.unpacked = ops.filterMap Op.unpacked := by
    simp [hu]
  rw [after, served, hpacked, hunpacked]
  exact ⟨List.drop_append_of_le_length hle, List.take_append_of_le_length hle⟩

/-- An unpack in order takes the value at the front, which has the type asked for. -/
theorem take {ops : List Op} {t : Ty} (h : InOrder (ops ++ [.unpack t])) :
    ∃ x, x.type = t ∧ after ops = x :: after (ops ++ [.unpack t]) ∧
      served (ops ++ [.unpack t]) = served ops ++ [x] := by
  have hpacked : (ops ++ [Op.unpack t]).filterMap Op.packed = ops.filterMap Op.packed := by
    simp [Op.packed]
  have hunpacked : (ops ++ [Op.unpack t]).filterMap Op.unpacked = ops.filterMap Op.unpacked ++ [t] := by
    simp [Op.unpacked]
  have hin := h _ List.prefix_rfl
  rw [hpacked, hunpacked] at hin
  obtain ⟨rest, hrest⟩ := hin
  have hget : ((ops.filterMap Op.packed).map Item.type)[(ops.filterMap Op.unpacked).length]? = some t := by
    rw [← hrest]; simp
  rw [List.getElem?_map, Option.map_eq_some_iff] at hget
  obtain ⟨x, hx, hxt⟩ := hget
  obtain ⟨hlt, hx⟩ := List.getElem?_eq_some_iff.mp hx
  refine ⟨x, hxt, ?_, ?_⟩
  · rw [after, after, hpacked, hunpacked, List.drop_eq_getElem_cons hlt, hx, List.length_append]
    rfl
  · rw [served, served, hpacked, hunpacked, List.length_append, List.length_singleton, List.take_add_one,
      List.getElem?_eq_getElem hlt, hx]
    rfl

/-- Each operation of a run in order can be done on the queue, an unpack giving the
    next value packed. -/
theorem exec_after {ops : List Op} {op : Op} (h : InOrder (ops ++ [op])) :
    ∃ r, exec op (after ops) = some (r, after (ops ++ [op])) ∧ served (ops ++ [op]) = served ops ++ r.toList := by
  have hops : InOrder ops := fun qs hqs => h qs (hqs.trans (List.prefix_append _ _))
  cases op with
  | pack x =>
    obtain ⟨ha, hs⟩ := put (.pack x) hops rfl rfl
    exact ⟨none, by rw [ha]; rfl, by rw [hs]; exact (List.append_nil _).symm⟩
  | addRange t xs hp =>
    obtain ⟨ha, hs⟩ := put (.addRange t xs hp) hops rfl rfl
    exact ⟨none, by rw [ha]; rfl, by rw [hs]; exact (List.append_nil _).symm⟩
  | unpack t =>
    obtain ⟨x, hxt, ha, hs⟩ := take h
    exact ⟨some x, by rw [ha, exec, if_pos hxt], hs⟩

end Queue

/-! ## The packet refines it -/

namespace Packet

open View

variable (hash : Hashing)

structure Represents (p : Packet) (q : List Item) : Prop where
  inside : p.readIndex ≤ p.buffer.length
  unread : p.unread = q.flatMap Item.text

theorem represents_fresh : Represents fresh [] := ⟨by decide, by decide⟩

theorem Represents.enqueue {p : Packet} {q : List Item} (h : Represents p q) (x : Item) :
    Represents (p.addRaw x.text) (q ++ [x]) := by
  have hin := h.inside
  refine ⟨by simp only [addRaw, List.length_append]; omega, ?_⟩
  have hun : (p.addRaw x.text).unread = p.unread ++ x.text := List.drop_append_of_le_length hin
  rw [hun, h.unread, List.flatMap_append, List.flatMap_singleton]

theorem Represents.getBytesRemaining {p : Packet} {q : List Item} (h : Represents p q) :
    p.getBytesRemaining = (q.flatMap Item.text).length := by
  have hlen := congrArg List.length h.unread
  rw [Packet.unread, List.length_drop] at hlen
  rw [Packet.getBytesRemaining, usub_of_le h.inside, hlen]

/-- What the queue can do, the packet does, and an unpack returns the queue's value. -/
theorem exec_refines {op : Op} {p : Packet} {q q' : List Item} {r : Option Item} (h : Represents p q)
    (hq : Queue.exec op q = some (r, q')) :
    ∃ w p', exec hash op p = .ok w p' ∧ Represents p' q' ∧ List.Forall₂ Item.Is r.toList w.toList := by
  cases op with
  | pack x =>
    cases hq
    refine ⟨none, _, rfl, ?_, .nil⟩
    rw [pack_eq]
    exact h.enqueue x
  | addRange t xs hp =>
    cases hq
    refine ⟨none, _, rfl, ?_, .nil⟩
    rw [addRange_eq]
    exact h.enqueue ⟨.vec t, xs, hp⟩
  | unpack t =>
    cases q with
    | nil => simp [Queue.exec] at hq
    | cons x q =>
      simp only [Queue.exec] at hq
      split at hq
      · rename_i hxt
        cases hq
        subst hxt
        have hun : p.unread = x.text ++ q'.flatMap Item.text := by rw [h.unread, List.flatMap_cons]
        obtain ⟨w, p', hw, heq, hu, hm⟩ := unpack_reads hash x.type x.val x.packable p _ h.inside hun
        refine ⟨some ⟨x.type, w⟩, p', bind_ok hw, ⟨?_, hu⟩, .cons ⟨w, rfl, heq⟩ .nil⟩
        rw [hm.buffer]
        exact hm.inside h.inside
      · cases hq

theorem run_snoc (ops : List Op) (op : Op) :
    run hash (ops ++ [op]) = run hash ops >>= fun outs => exec hash op >>= fun r => pure (outs ++ r.toList) := by
  rw [run, List.foldlM_append]
  simp [run]

/-- Along a run in order the packet represents the queue of what is still to be
    unpacked, and the values returned are those served. -/
theorem run_refines {ops : List Op} (h : InOrder ops) :
    ∃ outs p, run hash ops fresh = .ok outs p ∧ Represents p (Queue.after ops) ∧
      List.Forall₂ Item.Is (Queue.served ops) outs := by
  induction ops using List.reverseRecOn with
  | nil => exact ⟨[], fresh, rfl, represents_fresh, .nil⟩
  | append_singleton ops op ih =>
    obtain ⟨outs, p, hrun, hrep, houts⟩ := ih fun qs hqs => h qs (hqs.trans (List.prefix_append _ _))
    obtain ⟨r, hexec, hserved⟩ := Queue.exec_after h
    obtain ⟨w, p', hw, hrep', hr⟩ := exec_refines hash hrep hexec
    refine ⟨outs ++ w.toList, p', ?_, hrep', ?_⟩
    · rw [run_snoc, bind_ok hrun, bind_ok hw]; rfl
    · rw [hserved]; exact List.rel_append houts hr

end Packet

/-- In every interleaving in order on a fresh packet, after each step: all unpacks so far
    succeeded, the i-th with the i-th packed value, and the bytes remaining are the total
    length of the values packed and not yet unpacked. -/
theorem typed_fifo (hash : Hashing) (ops : List Op) (h : InOrder ops) (qs : List Op) (hqs : qs <+: ops) :
    ∃ outs p, Packet.run hash qs Packet.fresh = .ok outs p ∧
      outs.length = (qs.filterMap Op.unpacked).length ∧
      List.Forall₂ Item.Is ((qs.filterMap Op.packed).take outs.length) outs ∧
      p.getBytesRemaining =
        (((qs.filterMap Op.packed).drop outs.length).flatMap fun x => Packet.written x.type x.val).length := by
  have hq : InOrder qs := fun rs hrs => h rs (hrs.trans hqs)
  obtain ⟨outs, p, hrun, hrep, houts⟩ := Packet.run_refines hash hq
  have hlen : outs.length = (qs.filterMap Op.unpacked).length := by
    rw [← houts.length_eq, Queue.served, List.length_take]
    exact Nat.min_eq_left (Queue.inOrder_length hq)
  refine ⟨outs, p, hrun, hlen, ?_, ?_⟩
  · rw [hlen]; exact houts
  · rw [hlen, hrep.getBytesRemaining]
    simp only [Packet.written_eq]
    rfl

def sampleTable : Item :=
  ⟨.umap .i16 (.pair .bool .str), [(-2, (true, bytes "bob")), (7, (false, []))], by simp [Packable, Ty.plain, bytes]⟩

def sampleOps : List Op :=
  [.pack ⟨.str, bytes "hello", by simp [Packable, bytes]⟩, .pack sampleTable, .unpack .str,
    .addRange .u32 [1, 2] (by simp [Packable]), .unpack (.umap .i16 (.pair .bool .str))]

theorem typed_fifo_sample :
    ∃ outs p, Packet.run Hashing.front sampleOps Packet.fresh = .ok outs p ∧ outs.length = 2 ∧
      List.Forall₂ Item.Is [⟨.str, bytes "hello", by simp [Packable, bytes]⟩, sampleTable] outs ∧
      p.getBytesRemaining = 12 := by
  have hin : InOrder sampleOps := by
    intro qs hqs
    have hall : ∀ rs ∈ sampleOps.inits,
        rs.filterMap Op.unpacked <+: (rs.filterMap Op.packed).map Item.type := by decide
    exact hall qs ((List.mem_inits _ _).mpr hqs)
  obtain ⟨outs, p, hrun, hlen, hout, hrem⟩ := typed_fifo Hashing.front sampleOps hin sampleOps List.prefix_rfl
  have hlen : outs.length = 2 := hlen
  rw [hlen] at hout hrem
  exact ⟨outs, p, hrun, hlen, hout, hrem⟩

end Frnetlib
