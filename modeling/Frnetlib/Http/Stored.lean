/-
  Frnetlib.Http.Stored — what reading a header leaves in its map, and what comes of it
  when the map is written as lines again.

  A name is in lower case, before the first colon; a value is printable and starts with
  no space, but it may be empty. The line of an empty value is read back from its CR
  only, which the last line of a header has lost: so every field is read back unless the
  last line of all is one with an empty value (`Stored.lookup`, `Stored.lookup_last`).
-/

import Frnetlib.Http.HeaderBlock

namespace Frnetlib.Http

open Base

/-- What a header map holds after it was read. -/
def Stored (m : StrMap) : Prop :=
  ∀ c ∈ m.entries, c.1.map tolower = c.1 ∧ 58 ∉ c.1 ∧ LF ∉ c.1 ∧ (c.2 = [] ∨ Value c.2)

theorem Stored.named {m : StrMap} (hm : Stored m) : Named m := fun c hc => ⟨(hm c hc).1, (hm c hc).2.1⟩

/-! ## What a line stores -/

theorem find_char_free {c : UInt8} {s : Bytes} {i : Nat} (h : find [c] s = some i) : c ∉ s.take i := by
  intro hm
  obtain ⟨a, b, hab, ha⟩ := List.eq_append_cons_of_mem hm
  have hlt : a.length < i := by
    have hle := congrArg List.length hab
    rw [List.length_take, List.length_append, List.length_cons] at hle
    omega
  have hfind : find [c] s = some a.length := by
    rw [← List.take_append_drop i s, hab, List.append_assoc]
    exact find_char ha _
  rw [h] at hfind
  cases hfind
  omega

theorem lineField_stored {line : Bytes} (hlf : LF ∉ line) {c : Entry} (h : lineField line = some c) :
    c.1.map tolower = c.1 ∧ 58 ∉ c.1 ∧ LF ∉ c.1 ∧ (c.2 = [] ∨ Value c.2) := by
  unfold lineField at h
  split at h
  · cases h
  · rename_i colonPos hcolon
    obtain ⟨dataBegin, hbegin, rfl⟩ := Option.map_eq_some_iff.mp h
    refine ⟨map_tolower_self _, fun hm => ?_, fun hm => ?_, ?_⟩
    · exact find_char_free hcolon ((mem_map_tolower (by decide)).mp hm)
    · exact hlf (List.mem_of_mem_take ((mem_map_tolower (by decide)).mp hm))
    · by_cases hempty : (line.drop dataBegin).takeWhile isPrint = []
      · exact Or.inl hempty
      · refine Or.inr ⟨hempty, ?_, fun b hb => ?_⟩
        · obtain ⟨i, hi, rfl⟩ := Option.map_eq_some_iff.mp hbegin
          obtain ⟨hlt, hp, -⟩ := List.findIdx?_eq_some_iff_getElem.mp hi
          have hfirst : line.drop (i + (colonPos + 1)) = (line.drop (colonPos + 1))[i] :: line.drop (i + (colonPos + 1) + 1) := by
            rw [Nat.add_comm i, ← List.drop_drop, List.drop_eq_getElem_cons hlt, List.drop_drop]
            rfl
          rw [hfirst, List.takeWhile_cons]
          split
          · simpa using hp
          · simp
        · exact List.mem_takeWhile_imp hb

/-- Reading header lines keeps the map as it should be. -/
theorem stored_read {h : Http} (hm : Stored h.headerData) {lines : List Bytes} (hlines : ∀ l ∈ lines, LF ∉ l) :
    Stored (lines.foldl parseHeaderLine h).headerData := by
  intro c hc
  have hlookup : (lines.foldl parseHeaderLine h).headerData.lookup c.1 = some c.2 := AList.mem_lookup_iff.mpr hc
  rw [lookup_lines] at hlookup
  rcases Option.or_eq_some_iff.mp hlookup with hold | ⟨-, hnew⟩
  · exact hm c (AList.mem_lookup_iff.mp hold)
  · obtain ⟨line, hline, hfield⟩ := List.mem_filterMap.mp (List.of_mem_dlookup hnew)
    exact lineField_stored (hlines line hline) hfield

theorem stored_empty : Stored ∅ := nofun

/-! ## Writing them again -/

theorem fieldText_line {c : Entry} (hname : LF ∉ c.1) (hvalue : LF ∉ c.2) : Line (fieldText c) := by
  refine ⟨by simp [fieldText, bytes], fun hm => ?_⟩
  simp only [fieldText, List.mem_append] at hm
  rcases hm with (hm | hm) | hm
  · exact hname hm
  · exact absurd hm (by decide)
  · exact hvalue hm

theorem Stored.line {m : StrMap} (hm : Stored m) {c : Entry} (hc : c ∈ m.entries) : Line (fieldText c) := by
  obtain ⟨-, -, hname, hvalue⟩ := hm c hc
  refine fieldText_line hname fun hlf => ?_
  rcases hvalue with hnil | hv
  · rw [hnil] at hlf
    cases hlf
  · exact (isPrint_plain (hv.2.2 _ hlf)).2 rfl

/-- An empty value is read from the CR. -/
theorem lineField_empty {name : Bytes} (hname : 58 ∉ name) :
    lineField (name ++ bytes ": " ++ [CR]) = some ⟨name.map tolower, []⟩ ∧ lineField (name ++ bytes ": ") = none := by
  have hfront : (name ++ [58]).length = name.length + 1 := by simp
  constructor
  · have hidx : findIdxFrom (· != SP) (name ++ bytes ": " ++ [CR]) (name.length + 1) = some (name.length + 2) := by
      unfold findIdxFrom
      rw [show name ++ bytes ": " ++ [CR] = (name ++ [58]) ++ [SP, CR] by simp [bytes, SP], List.drop_left' hfront]
      show some (1 + (name.length + 1)) = _
      congr 1
      omega
    have hvalue : (name ++ bytes ": " ++ [CR]).drop (name.length + 2) = [CR] := List.drop_left' (by simp [bytes])
    simp only [lineField, find_colon hname, hidx, Option.map_some, hvalue]
    rw [List.append_assoc, List.take_left]
    rfl
  · have hidx : findIdxFrom (· != SP) (name ++ bytes ": ") (name.length + 1) = none := by
      unfold findIdxFrom
      rw [show name ++ bytes ": " = (name ++ [58]) ++ [SP] by simp [bytes, SP], List.drop_left' hfront]
      rfl
    have hcolon := find_colon hname []
    rw [List.append_nil] at hcolon
    simp only [lineField, hcolon, hidx, Option.map_none]

variable {m : StrMap} {es ds : List Entry}

theorem Stored.field (hm : Stored m) {c : Entry} (hc : c ∈ m.entries) : lineField (fieldText c ++ [CR]) = some c := by
  obtain ⟨hlow, hcolon, -, hvalue⟩ := hm c hc
  obtain ⟨name, value⟩ := c
  have hlow : name.map tolower = name := hlow
  rcases hvalue with hnil | hv
  · have hnil : value = [] := hnil
    rw [fieldText, hnil, List.append_nil, (lineField_empty hcolon).1, hlow]
  · rw [fieldText, lineField_value hcolon hv (.inr rfl), hlow]

theorem received_append (front back : List Bytes) (hne : back ≠ []) :
    received (front ++ back) = front.map (· ++ [CR]) ++ received back := by
  induction front with
  | nil => rfl
  | cons line front ih =>
    rw [List.cons_append, received_cons, if_neg (List.append_ne_nil_of_right_ne_nil front hne), ih]
    rfl

theorem Stored.fields (hm : Stored m) (hes : ∀ c ∈ es, c ∈ m.entries) :
    ((es.map fieldText).map (· ++ [CR])).filterMap lineField = es := by
  induction es with
  | nil => rfl
  | cons c es ih =>
    rw [List.map_cons, List.map_cons, List.filterMap_cons_some (hm.field (hes c (by simp))),
      ih fun a ha => hes a (List.mem_cons_of_mem _ ha)]

/-- A field is read back, unless the last line is its and it is empty. -/
theorem Stored.lookup (hm : Stored m) (hes : es.Perm m.entries) {k v : Bytes} (hk : m.lookup k = some v)
    (hlast : ds = [] → ⟨k, v⟩ ∈ es.getLast? → v ≠ []) :
    ((received ((es ++ ds).map fieldText)).filterMap lineField).dlookup k = some v := by
  have hnodup : es.NodupKeys := (List.perm_nodupKeys hes).mpr m.nodupKeys
  have hlookup : es.dlookup k = some v := by
    rw [List.perm_dlookup k hnodup hes]
    exact hk
  by_cases hds : ds = []
  · subst hds
    have hne : es ≠ [] := by
      intro heq
      subst heq
      cases hlookup
    obtain ⟨front, c, rfl⟩ : ∃ front c, es = front ++ [c] := ⟨_, _, (List.dropLast_append_getLast hne).symm⟩
    rw [List.append_nil, List.map_append, List.map_singleton, received_append _ _ (by simp), List.filterMap_append,
      hm.fields fun a ha => hes.mem_iff.mp (List.mem_append_left _ ha), received, List.dlookup_append]
    rw [List.dlookup_append] at hlookup
    by_cases hkc : k = c.1
    · -- the last line is this field's
      have hgone : front.dlookup k = none := by
        rw [hkc, List.dlookup_eq_none]
        have hfirst := List.notMem_keys_of_nodupKeys_cons (List.nodupKeys_middle.mp hnodup)
        rwa [List.append_nil] at hfirst
      obtain ⟨name, value⟩ := c
      subst hkc
      rw [hgone, Option.none_or, List.dlookup_cons_eq] at hlookup
      cases hlookup
      have hc : ⟨k, v⟩ ∈ m.entries := hes.mem_iff.mp (by simp)
      have hv : Value v := (hm _ hc).2.2.2.resolve_left (hlast rfl (by simp))
      rw [hgone, Option.none_or, List.filterMap_cons_some (hm.named.field hc hv).1, List.dlookup_cons_eq]
    · rw [List.dlookup_cons_ne _ _ hkc, List.dlookup_nil, Option.or_none] at hlookup
      rw [hlookup]
      rfl
  · rw [List.map_append, received_append _ _ (by simpa using hds), List.filterMap_append,
      hm.fields fun a ha => hes.mem_iff.mp ha, List.dlookup_append, hlookup]
    rfl

/-- That line is not. -/
theorem Stored.lookup_last (hm : Stored m) (hes : es.Perm m.entries) {c : Entry} (hc : c ∈ es.getLast?) (hempty : c.2 = []) :
    ((received (es.map fieldText)).filterMap lineField).dlookup c.1 = none := by
  obtain ⟨front, rfl⟩ : ∃ front, es = front ++ [c] := by
    obtain ⟨hne, rfl⟩ := List.mem_getLast?_eq_getLast hc
    exact ⟨_, (List.dropLast_append_getLast hne).symm⟩
  have hnodup : (front ++ [c]).NodupKeys := (List.perm_nodupKeys hes).mpr m.nodupKeys
  have hlost : lineField (fieldText c) = none := by
    rw [fieldText, hempty, List.append_nil]
    exact (lineField_empty (hm c (hes.mem_iff.mp (by simp))).2.1).2
  rw [List.map_append, List.map_singleton, received_append _ _ (by simp), List.filterMap_append,
    hm.fields fun a ha => hes.mem_iff.mp (List.mem_append_left _ ha), received, List.filterMap_cons_none hlost,
    List.filterMap_nil, List.append_nil, List.dlookup_eq_none]
  have hfirst := List.notMem_keys_of_nodupKeys_cons (List.nodupKeys_middle.mp hnodup)
  rwa [List.append_nil] at hfirst

/-- Nothing is read that was not written. -/
theorem Stored.mem (hm : Stored m) (hes : es.Perm m.entries) (hds : ∀ d ∈ ds, 58 ∉ d.1) {c : Entry}
    (hc : c ∈ (received ((es ++ ds).map fieldText)).filterMap lineField) :
    c ∈ m.entries ∨ ∃ d ∈ ds, c.1 = d.1.map tolower := by
  obtain ⟨g, hg, hgc⟩ := List.mem_filterMap.mp hc
  obtain ⟨l, hl, hend⟩ := received_mem hg
  obtain ⟨a, ha, rfl⟩ := List.mem_map.mp hl
  rcases List.mem_append.mp ha with ha | ha
  · have ha := hes.mem_iff.mp ha
    refine Or.inl ?_
    rcases hend with rfl | rfl
    · rcases (hm a ha).2.2.2 with hempty | hv
      · rw [fieldText, hempty, List.append_nil, (lineField_empty (hm a ha).2.1).2] at hgc
        cases hgc
      · rw [(hm.named.field ha hv).1] at hgc
        cases hgc
        exact ha
    · rw [hm.field ha] at hgc
      cases hgc
      exact ha
  · refine Or.inr ⟨a, ha, ?_⟩
    rcases hend with rfl | rfl
    · exact lineField_name (hds a ha) a.2 hgc
    · rw [fieldText, List.append_assoc] at hgc
      exact lineField_name (hds a ha) (a.2 ++ [CR]) hgc

/-! ## How long it is -/

/-- How long some fields are as lines. -/
def linesSize : List Entry → Nat
  | [] => 0
  | c :: es => c.1.length + c.2.length + 4 + linesSize es

theorem linesSize_perm {es' : List Entry} (hes : es.Perm es') : linesSize (es ++ ds) = linesSize (es' ++ ds) := by
  induction hes with
  | nil => rfl
  | cons c _ ih => rw [List.cons_append, List.cons_append, linesSize, linesSize, ih]
  | swap c d es =>
    simp only [List.cons_append, linesSize]
    omega
  | trans _ _ ih ih' => exact ih.trans ih'

theorem block_size (line : Bytes) (es : List Entry) : (block (line :: es.map fieldText)).length =
  line.length + linesSize es + 4 := by
  have hlines : ((es.map fieldText).flatMap (· ++ crlf)).length = linesSize es := by
    induction es with
    | nil => rfl
    | cons c es ih =>
      rw [List.map_cons, List.flatMap_cons, List.length_append, ih]
      simp only [linesSize, fieldText, List.length_append, show (bytes ": ").length = 2 from rfl, show crlf.length = 2 from rfl]
      omega
  rw [block_cons, block]
  simp only [List.length_append, List.length_cons, hlines, show crlf.length = 2 from rfl]
  omega

/-! ## Encodings -/

theorem mem_encodings {e : TransferEncoding} (values : List Bytes) (set : Finset TransferEncoding) :
    e ∈ values.foldl (fun set enc => insert (stringToTransferEncoding enc) set) set ↔
      e ∈ set ∨ e ∈ values.map stringToTransferEncoding := by
  induction values generalizing set with
  | nil => simp
  | cons v values ih =>
    rw [List.foldl_cons, ih, Finset.mem_insert, List.map_cons, List.mem_cons]
    tauto

/-- The encodings of some fields are those that one of them names. -/
theorem mem_addEncodings {e : TransferEncoding} (fields : List Entry) (set : Finset TransferEncoding) :
    e ∈ fields.foldl addEncodings set ↔ e ∈ set ∨
      ∃ c ∈ fields, c.1 = bytes "transfer-encoding" ∧ e ∈ (splitString c.2 44 true).map stringToTransferEncoding := by
  induction fields generalizing set with
  | nil => simp
  | cons c fields ih =>
    rw [List.foldl_cons, ih]
    by_cases hc : c.1 = bytes "transfer-encoding"
    · rw [addEncodings, if_pos hc, mem_encodings]
      simp only [List.mem_cons, exists_eq_or_imp, hc, true_and, or_assoc]
    · rw [addEncodings, if_neg hc]
      simp only [List.mem_cons, exists_eq_or_imp, hc, false_and, false_or]

end Frnetlib.Http
