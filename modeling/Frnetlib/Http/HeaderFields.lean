/-
  Frnetlib.Http.HeaderFields — what the lines of a header store, and in which order.

  The header is cut before its last CR LF and then split at LF, so every line but the last
  keeps its CR. A value of nothing but spaces is found by that CR: such a line stores an
  empty value, but as the last one nothing (`lineField_written`). Of any other line the
  same is stored wherever it stands. So where no value is blank, the names are distinct
  and the encodings a set, a reader of the fields cannot tell two orders of the lines
  apart (`sameFields_of_perm`).
-/

import Frnetlib.Http.Stored
import Mathlib.Data.Finset.Dedup
import Mathlib.Data.Finset.Lattice.Lemmas

namespace Frnetlib

open Base

namespace Http

/-! ## What a line of a header stores -/

/-- Nothing, or nothing but spaces. -/
def Blank (v : Bytes) : Prop := ∀ b ∈ v, b = SP

instance (v : Bytes) : Decidable (Blank v) := inferInstanceAs (Decidable (∀ b ∈ v, b = SP))

/-- A header as it is written, under a name that ends at its line's first colon. -/
structure Written (c : Entry) : Prop where
  colon : 58 ∉ c.1
  name : LF ∉ c.1
  value : ∀ b ∈ c.2, isPrint b = true

/-- What is stored of it: the value without the spaces before it. -/
def storedField (c : Entry) : Entry := ⟨c.1.map tolower, c.2.dropWhile (· == SP)⟩

theorem findIdx_spaces (n : Nat) {b : UInt8} (hb : b ≠ SP) (s : Bytes) :
    (List.replicate n SP ++ b :: s).findIdx? (· != SP) = some n := by
  induction n with
  | zero => rw [List.replicate_zero, List.nil_append, List.findIdx?_cons, if_pos (by simpa using hb)]
  | succ n ih => simp [List.replicate_succ, List.findIdx?_cons, ih]

theorem lineField_text {name : Bytes} (hname : 58 ∉ name) (n : Nat) {b : UInt8} (hb : b ≠ SP) (s : Bytes) :
    lineField (name ++ 58 :: (List.replicate n SP ++ b :: s)) =
      some ⟨name.map tolower, (b :: s).takeWhile isPrint⟩ := by
  have hidx : findIdxFrom (· != SP) (name ++ 58 :: (List.replicate n SP ++ b :: s)) (name.length + 1) =
      some (n + (name.length + 1)) := by
    rw [findIdxFrom, drop_behind, findIdx_spaces n hb, Option.map_some]
  have hdrop : (name ++ 58 :: (List.replicate n SP ++ b :: s)).drop (n + (name.length + 1)) = b :: s := by
    rw [Nat.add_comm, ← List.drop_drop, drop_behind, List.drop_left' (List.length_replicate)]
  simp only [lineField, find_char hname, hidx, Option.map_some, hdrop, List.take_left]

theorem lineField_spaces {name : Bytes} (hname : 58 ∉ name) (n : Nat) :
    lineField (name ++ 58 :: List.replicate n SP) = none := by
  have hidx : findIdxFrom (· != SP) (name ++ 58 :: List.replicate n SP) (name.length + 1) = none := by
    rw [findIdxFrom, drop_behind, List.findIdx?_eq_none_iff.mpr, Option.map_none]
    intro b hb
    simp [List.eq_of_mem_replicate hb]
  simp only [lineField, find_char hname, hidx, Option.map_none]

theorem blank_replicate {v : Bytes} (h : Blank v) : v = List.replicate v.length SP := List.eq_replicate_iff.mpr ⟨rfl, h⟩

/-- A value is blank, or has a first byte that is no space. -/
theorem blank_or (v : Bytes) : Blank v ∨ ∃ n b s, v = List.replicate n SP ++ b :: s ∧ b ≠ SP := by
  induction v with
  | nil => exact .inl fun b hb => absurd hb List.not_mem_nil
  | cons a v ih =>
    by_cases ha : a = SP
    · subst ha
      rcases ih with hblank | ⟨n, b, s, rfl, hb⟩
      · exact .inl fun b hb => (List.mem_cons.mp hb).elim id (hblank b)
      · exact .inr ⟨n + 1, b, s, by simp [List.replicate_succ], hb⟩
    · exact .inr ⟨0, a, v, rfl, ha⟩

theorem fieldText_eq (c : Entry) : fieldText c = c.1 ++ 58 :: (SP :: c.2) := by simp [fieldText, bytes, SP]

/-- With its CR a line always stores its field, without only where the value is not blank. -/
theorem lineField_written {c : Entry} (h : Written c) :
    lineField (fieldText c ++ [CR]) = some (storedField c) ∧
      lineField (fieldText c) = if Blank c.2 then none else some (storedField c) := by
  obtain ⟨name, v⟩ := c
  obtain ⟨hcolon, -, hprint⟩ := h
  rw [fieldText_eq]
  rcases blank_or v with hblank | ⟨n, b, s, rfl, hb⟩
  · have hv : SP :: v = List.replicate (v.length + 1) SP := by
      rw [List.replicate_succ, ← blank_replicate hblank]
    have htrim : v.dropWhile (· == SP) = [] := List.dropWhile_eq_nil_iff.mpr fun b hb => by simp [hblank b hb]
    have hcr := lineField_text hcolon (v.length + 1) (b := CR) (by decide) []
    rw [if_pos hblank]
    simp only [hv]
    refine ⟨?_, lineField_spaces hcolon _⟩
    rw [List.append_assoc, List.cons_append, hcr, storedField]
    simp only [htrim]
    rfl
  · have hblank : ¬ Blank (List.replicate n SP ++ b :: s) := fun hall => hb (hall b (by simp))
    have htrim : (List.replicate n SP ++ b :: s).dropWhile (· == SP) = b :: s := by
      rw [List.dropWhile_append_of_pos (by simp), List.dropWhile_cons_of_neg (by simpa using hb)]
    have hrest : ∀ a ∈ b :: s, isPrint a = true := fun a ha => hprint a (List.mem_append_right _ ha)
    have hspaces : SP :: (List.replicate n SP ++ b :: s) = List.replicate (n + 1) SP ++ b :: s := by
      rw [List.replicate_succ, List.cons_append]
    rw [if_neg hblank, storedField]
    simp only [htrim, hspaces]
    constructor
    · have hline := lineField_text hcolon (n + 1) hb (s ++ [CR])
      have hcut : (b :: (s ++ [CR])).takeWhile isPrint = b :: s := by
        rw [← List.cons_append, List.takeWhile_append_of_pos hrest]
        simp [show isPrint CR = false by decide]
      rw [hcut] at hline
      rw [← hline]
      simp
    · rw [lineField_text hcolon (n + 1) hb s, List.takeWhile_eq_self_iff.mpr hrest]

/-! ## The fields of a header, whatever their order -/

/-- What the header lines store, in their order. -/
def storedFields (hs : List Entry) : List Entry := (received (hs.map fieldText)).filterMap lineField

theorem storedFields_last {front : List Entry} {c : Entry} (h : ∀ d ∈ front ++ [c], Written d) :
    storedFields (front ++ [c]) = front.map storedField ++ if Blank c.2 then [] else [storedField c] := by
  have hfront : (front.map fun d => fieldText d ++ [CR]).filterMap lineField = front.map storedField := by
    rw [List.filterMap_map, ← List.filterMap_eq_map]
    refine List.filterMap_congr fun d hd => ?_
    exact (lineField_written (h d (List.mem_append_left _ hd))).1
  have hlast : [fieldText c].filterMap lineField = if Blank c.2 then [] else [storedField c] := by
    rw [List.filterMap_cons, (lineField_written (h c (by simp))).2]
    split <;> simp_all
  rw [storedFields, List.map_append, List.map_singleton, received_append _ _ (by simp), List.filterMap_append, List.map_map]
  exact congrArg₂ _ hfront hlast

theorem storedFields_filled {hs : List Entry} (h : ∀ c ∈ hs, Written c) (hfilled : ∀ c ∈ hs, ¬ Blank c.2) :
    storedFields hs = hs.map storedField := by
  rcases hs.eq_nil_or_concat with rfl | ⟨front, c, rfl⟩
  · rfl
  · rw [List.concat_eq_append] at h hfilled ⊢
    rw [storedFields_last h, if_neg (hfilled c (by simp)), List.map_append, List.map_singleton]

/-- The names a header's lines are stored under. -/
abbrev headerNames (hs : List Entry) : List Bytes := hs.map fun c => c.1.map tolower

theorem storedFields_names {hs : List Entry} (hdistinct : (headerNames hs).Nodup) :
    (hs.map storedField).NodupKeys := by
  rw [List.NodupKeys, List.keys, List.map_map]
  exact hdistinct

/-- The encodings of a field, as a set. -/
def encodings (c : Entry) : Finset TransferEncoding :=
  if c.1 = bytes "transfer-encoding" then ((splitString c.2 44 true).map stringToTransferEncoding).toFinset else ∅

theorem foldl_insert (encs : List Bytes) (set : Finset TransferEncoding) :
    encs.foldl (fun set enc => insert (stringToTransferEncoding enc) set) set =
      set ∪ (encs.map stringToTransferEncoding).toFinset := by
  induction encs generalizing set with
  | nil => simp
  | cons enc encs ih =>
    rw [List.foldl_cons, ih, List.map_cons, List.toFinset_cons, Finset.insert_union, Finset.union_insert]

theorem addEncodings_eq (set : Finset TransferEncoding) (c : Entry) : addEncodings set c = set ∪ encodings c := by
  rw [addEncodings, encodings]
  by_cases hname : c.1 = bytes "transfer-encoding"
  · rw [if_pos hname, if_pos hname, foldl_insert]
  · rw [if_neg hname, if_neg hname, Finset.union_empty]

theorem addEncodings_perm {fs fs' : List Entry} (h : fs.Perm fs') (set : Finset TransferEncoding) :
    fs.foldl addEncodings set = fs'.foldl addEncodings set := by
  refine h.foldl_eq' (fun c _ d _ set => ?_) set
  simp only [addEncodings_eq]
  exact Finset.union_right_comm _ _ _

/-- Stored fields that a reader cannot tell apart. -/
structure SameFields (fs fs' : List Entry) : Prop where
  lookup : ∀ k, fs.dlookup k = fs'.dlookup k
  encodings : fs.foldl addEncodings ∅ = fs'.foldl addEncodings ∅

theorem sameFields_of_perm {hs hs' : List Entry} (h : ∀ c ∈ hs, Written c) (hdistinct : (headerNames hs).Nodup)
    (hfilled : ∀ c ∈ hs, ¬ Blank c.2) (hperm : hs'.Perm hs) : SameFields (storedFields hs') (storedFields hs) := by
  have hstored : (hs'.map storedField).Perm (hs.map storedField) := hperm.map _
  rw [storedFields_filled h hfilled, storedFields_filled (fun c hc => h c (hperm.mem_iff.mp hc))
    fun c hc => hfilled c (hperm.mem_iff.mp hc)]
  refine ⟨fun k => (List.perm_dlookup k (storedFields_names hdistinct) hstored.symm).symm, addEncodings_perm hstored ∅⟩

theorem lookup_blank_last {front : List Entry} {c : Entry} (h : ∀ d ∈ front ++ [c], Written d)
    (hdistinct : (headerNames (front ++ [c])).Nodup) (hblank : Blank c.2) :
    (storedFields (front ++ [c])).dlookup (c.1.map tolower) = none := by
  rw [storedFields_last h, if_pos hblank, List.append_nil, List.dlookup_eq_none, List.keys, List.map_map]
  rw [headerNames, List.map_append, List.nodup_append] at hdistinct
  intro hmem
  exact hdistinct.2.2 _ hmem _ (by simp) rfl

theorem lookup_first {c : Entry} {rest : List Entry} (h : ∀ d ∈ c :: rest, Written d) (hrest : rest ≠ []) :
    (storedFields (c :: rest)).dlookup (c.1.map tolower) = some (c.2.dropWhile (· == SP)) := by
  obtain ⟨front, d, rfl⟩ := (List.eq_nil_or_concat rest).resolve_left hrest
  rw [List.concat_eq_append, ← List.cons_append] at h ⊢
  rw [storedFields_last h, List.map_cons, List.cons_append]
  exact List.dlookup_cons_eq _ _ _

end Http

end Frnetlib
