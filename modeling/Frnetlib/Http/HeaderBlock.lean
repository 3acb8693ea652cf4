/-
  Frnetlib.Http.HeaderBlock — a header as lines that a CR LF ends, closed by an empty
  one, and what the parsers' shared functions make of it.

  It is `Closed`: its end is found whatever follows, and no proper prefix of it has one
  (`Closed.cut`). `splitString` gives the lines back (`received`), all but
  the last with the CR they end with. `lookup_lines` reads the header map off the
  lines: a key is looked up among the fields in their order, the first one counts.
-/

import Frnetlib.Http.HttpProofs

namespace Frnetlib.Http

open Base

/-- A line of a header: not empty, and without a CR or an LF. -/
def Plain (line : Bytes) : Prop := line ≠ [] ∧ CR ∉ line ∧ LF ∉ line

/-- The lines, each ended by a CR LF, and the CR LF that closes the header. -/
def block (lines : List Bytes) : Bytes := lines.flatMap (· ++ crlf) ++ crlf

theorem block_cons (line : Bytes) (lines : List Bytes) : block (line :: lines) = line ++ CR :: LF :: block lines := by
  simp [block, crlf]

theorem block_length (line : Bytes) (lines : List Bytes) : 4 ≤ (block (line :: lines)).length := by
  rw [block_cons]; simp only [block, crlf, List.length_append, List.length_cons, List.length_nil]; omega

theorem block_ne_nil (line : Bytes) (lines : List Bytes) : block (line :: lines) ≠ [] :=
  List.ne_nil_of_length_pos (Nat.lt_of_lt_of_le (by decide) (block_length line lines))

/-- What can be a line at all: not empty, and without an LF. -/
def Line (line : Bytes) : Prop := line ≠ [] ∧ LF ∉ line

theorem Plain.lines {lines : List Bytes} (h : ∀ l ∈ lines, Plain l) : ∀ l ∈ lines, Line l :=
  fun l hl => ⟨(h l hl).1, (h l hl).2.2⟩

/-! ## Where it ends -/

theorem Line.no_end {line : Bytes} (h : Line line) (s : Bytes) : ¬ [CR, LF] <+: line ++ CR :: s := by
  obtain ⟨hne, hlf⟩ := h
  obtain ⟨b, line, rfl⟩ := List.exists_cons_of_ne_nil hne
  intro hp
  have hp := (List.cons_prefix_cons.mp hp).2
  rcases line with _ | ⟨d, line⟩
  · exact absurd (List.cons_prefix_cons.mp hp).1 (by decide)
  · exact hlf (by simp [(List.cons_prefix_cons.mp hp).1])

/-- A line in front moves the end by its length; it may be empty. -/
theorem find_block_after {line next : Bytes} {lines : List Bytes} (hline : LF ∉ line) (hnext : Line next) {rest : Bytes}
    (h : find crlfcrlf (block (next :: lines) ++ rest) = some ((block (next :: lines)).length - 4)) :
    find crlfcrlf (block (line :: next :: lines) ++ rest) = some ((block (line :: next :: lines)).length - 4) := by
  have hlen := block_length next lines
  -- neither the line nor the CR LF after it starts the terminator
  have hskip := find_skip_second (c := CR) (p := [CR, LF]) hline (show CR ≠ LF by decide)
    (LF :: (block (next :: lines) ++ rest))
  have hcr : ¬ crlfcrlf <+: CR :: LF :: (block (next :: lines) ++ rest) := by
    intro hp
    have hp := (List.cons_prefix_cons.mp (List.cons_prefix_cons.mp hp).2).2
    rw [block_cons, List.append_assoc] at hp
    exact hnext.no_end _ hp
  have hlf : ¬ crlfcrlf <+: LF :: (block (next :: lines) ++ rest) := by
    intro hp
    exact absurd (List.cons_prefix_cons.mp hp).1 (by decide)
  have hshift : find crlfcrlf (CR :: LF :: (block (next :: lines) ++ rest)) =
      ((find crlfcrlf (block (next :: lines) ++ rest)).map (· + 1)).map (· + 1) := by
    rw [find, if_neg (by rwa [List.isPrefixOf_iff_prefix]), find, if_neg (by rwa [List.isPrefixOf_iff_prefix])]
  rw [show CR :: LF :: [CR, LF] = crlfcrlf from rfl, hshift, h] at hskip
  rw [block_cons, List.append_assoc, List.cons_append, List.cons_append, hskip]
  simp only [Option.map_some, List.length_append, List.length_cons, Option.some.injEq]
  omega

theorem find_block {line : Bytes} {lines : List Bytes} (h : ∀ l ∈ line :: lines, Line l) (rest : Bytes) :
    find crlfcrlf (block (line :: lines) ++ rest) = some ((block (line :: lines)).length - 4) := by
  induction lines generalizing line with
  | nil =>
    have hskip := find_skip_second (c := CR) (p := [CR, LF]) (h line (by simp)).2 (show CR ≠ LF by decide) (LF :: crlf ++ rest)
    rw [show CR :: (LF :: crlf ++ rest) = crlfcrlf ++ rest from rfl, show CR :: LF :: [CR, LF] = crlfcrlf from rfl,
      find_here] at hskip
    simpa [block, crlf, crlfcrlf] using hskip
  | cons next lines ih =>
    have hnext : ∀ l ∈ next :: lines, Line l := fun l hl => h l (List.mem_cons_of_mem _ hl)
    exact find_block_after (h line (by simp)).2 (hnext next (by simp)) (ih hnext)

/-- Every LF of a header has a CR before it. -/
theorem lflf_block {lines : List Bytes} (h : ∀ l ∈ lines, Line l) : ¬ lflf <:+: LF :: block lines := by
  induction lines with
  | nil => decide
  | cons line lines ih =>
    have hl := h line (by simp)
    rw [block_cons, ← List.cons_append, infix_sep (by decide)]
    rintro (hi | hi)
    · rcases List.infix_cons_iff.mp hi with hp | hi
      · obtain ⟨-, hp⟩ := List.cons_prefix_cons.mp hp
        exact hl.2 (hp.mem (by simp))
      · exact hl.2 (hi.mem (by simp [lflf]))
    · exact ih (fun l hl => h l (List.mem_cons_of_mem _ hl)) hi

/-- A header that ends at its first CR LF CR LF, and nowhere before. -/
def Closed (head : Bytes) : Prop := find crlfcrlf head = some (head.length - 4) ∧ ¬ lflf <:+: head

theorem Closed.length {head : Bytes} (h : Closed head) : 4 ≤ head.length := by
  have hle := find_le h.1
  simp only [crlfcrlf, List.length_cons, List.length_nil] at hle
  omega

theorem Closed.headerEnd {head : Bytes} (h : Closed head) (rest : Bytes) :
    headerEnd (head ++ rest) = some (head.length - 4, 4) :=
  headerEnd_of_crlf (find_append h.1 rest)

theorem Closed.headerEnd_cut {head : Bytes} (h : Closed head) {u : Bytes} (hu : u <+: head) (hne : u ≠ head) :
    Http.headerEnd u = none := by
  have hs := find_split h.1
  have hlen := h.length
  have hend : head.length - 4 + crlfcrlf.length = head.length := by
    simp only [crlfcrlf, List.length_cons, List.length_nil]
    omega
  rw [hend, List.drop_length, List.append_nil] at hs
  have htake : (head.take (head.length - 4)).length = head.length - 4 := by
    rw [List.length_take]
    omega
  refine headerEnd_none.mpr ⟨?_, fun hl => h.2 (hl.trans hu.isInfix)⟩
  exact find_eq_none_iff.mp (find_closing_cut (by rw [← hs, h.1, htake]) (by rwa [← hs]) (by rwa [← hs]))

/-- A prefix of a message with such a header: its header has not ended, or it has ended
    where the message's does. -/
theorem Closed.cut {head : Bytes} (h : Closed head) {u body : Bytes} (hu : u <+: head ++ body) :
    Http.headerEnd u = none ∧ u <+: head ∧ u ≠ head ∨ ∃ v, v <+: body ∧ u = head ++ v := by
  obtain ⟨t, ht⟩ := hu
  rcases List.append_eq_append_iff.mp ht with ⟨v, hv, -⟩ | ⟨v, rfl, hv⟩
  · by_cases hne : u = head
    · exact Or.inr ⟨[], List.nil_prefix, by simp [hne]⟩
    · exact Or.inl ⟨h.headerEnd_cut ⟨v, hv.symm⟩ hne, ⟨v, hv.symm⟩, hne⟩
  · exact Or.inr ⟨v, ⟨t, hv.symm⟩, rfl⟩

theorem Closed.stable {head : Bytes} (h : Closed head) {u p body : Bytes} (hu : u ++ p <+: head ++ body) :
    lflf <:+: u → crlfcrlf <:+: u ++ p → crlfcrlf <:+: u := by
  intro hl _
  rcases h.cut ((List.prefix_append _ _).trans hu) with ⟨hn, -, -⟩ | ⟨v, -, rfl⟩
  · exact absurd hl (headerEnd_none.mp hn).2
  · exact find_isSome_iff.mp ⟨_, find_append h.1 v⟩

theorem block_closed {line : Bytes} {lines : List Bytes} (h : ∀ l ∈ line :: lines, Line l) :
    Closed (block (line :: lines)) := by
  constructor
  · have hfind := find_block h []
    rwa [List.append_nil] at hfind
  · exact fun hl => lflf_block h (hl.trans (List.suffix_cons _ _).isInfix)

/-! ## Its lines -/

/-- The lines as `splitString` gives them: all but the last keep the CR. -/
def received : List Bytes → List Bytes
  | [] => []
  | [line] => [line]
  | line :: lines => (line ++ [CR]) :: received lines

theorem splitFrom_append {token : UInt8} {line : Bytes} (h : token ∉ line) (buffer s : Bytes) :
    splitFrom token false buffer (line ++ s) = splitFrom token false (buffer ++ line) s := by
  induction line generalizing buffer with
  | nil => rw [List.nil_append, List.append_nil]
  | cons b line ih =>
    have hb : b ≠ token := by rintro rfl; exact h (by simp)
    simp only [List.cons_append, splitFrom, if_neg hb, Bool.false_eq_true, not_false_eq_true, or_true, if_true]
    rw [ih (fun hm => h (List.mem_cons_of_mem _ hm)), List.append_assoc]
    rfl

theorem splitFrom_line {token : UInt8} {line buffer : Bytes} (h : token ∉ line) (hne : buffer ++ line ≠ []) (s : Bytes) :
    splitFrom token false buffer (line ++ token :: s) = (buffer ++ line) :: splitFrom token false [] s := by
  rw [splitFrom_append h, splitFrom, if_pos rfl, if_neg (by simpa using hne)]

theorem splitFrom_last {token : UInt8} {line buffer : Bytes} (h : token ∉ line) (hne : buffer ++ line ≠ []) :
    splitFrom token false buffer line = [buffer ++ line] := by
  have happend := splitFrom_append h buffer []
  rw [List.append_nil] at happend
  rw [happend, splitFrom, if_neg (by simpa using hne)]

/-- The header without its terminator. -/
theorem take_block (line next : Bytes) (lines : List Bytes) :
    (block (line :: next :: lines)).take ((block (line :: next :: lines)).length - 4) =
      (line ++ [CR]) ++ LF :: (block (next :: lines)).take ((block (next :: lines)).length - 4) := by
  have hnext := block_length next lines
  rw [block_cons, show line ++ CR :: LF :: block (next :: lines) =
    (line ++ [CR]) ++ LF :: block (next :: lines) by simp]
  simp only [List.length_append, List.length_cons, List.length_nil]
  rw [List.take_append, List.take_of_length_le (by simp; omega), ← List.take_succ_cons]
  congr 2
  simp only [List.length_append, List.length_cons, List.length_nil]
  omega

/-- A line in front is split off with its CR; it may be empty. -/
theorem splitString_after {line : Bytes} (hline : LF ∉ line) (next : Bytes) (lines : List Bytes) :
    splitString ((block (line :: next :: lines)).take ((block (line :: next :: lines)).length - 4)) LF false =
      (line ++ [CR]) :: splitString ((block (next :: lines)).take ((block (next :: lines)).length - 4)) LF false := by
  rw [take_block, splitString, splitFrom_line (by simpa using ⟨hline, by decide⟩) (by simp)]
  rfl

/-- The header without its terminator, split at its line ends. -/
theorem splitString_block {line : Bytes} {lines : List Bytes} (h : ∀ l ∈ line :: lines, Line l) (rest : Bytes) :
    splitString ((block (line :: lines) ++ rest).take ((block (line :: lines)).length - 4)) LF false =
      received (line :: lines) := by
  have hlen := block_length line lines
  rw [List.take_append_of_le_length (by omega)]
  induction lines generalizing line with
  | nil =>
    have hl := h line (by simp)
    have htake : (block [line]).take ((block [line]).length - 4) = line := by simp [block, crlf]
    rw [htake]
    exact splitFrom_last hl.2 hl.1
  | cons next lines ih =>
    rw [splitString_after (h line (by simp)).2]
    exact congrArg _ (ih (fun l hl => h l (List.mem_cons_of_mem _ hl)) (block_length next lines))

theorem received_cons (line : Bytes) (lines : List Bytes) :
    received (line :: lines) = (if lines = [] then line else line ++ [CR]) :: received lines := by
  cases lines with
  | nil => rfl
  | cons next lines => rfl

theorem received_mem {lines : List Bytes} {g : Bytes} (h : g ∈ received lines) : ∃ l ∈ lines, g = l ∨ g = l ++ [CR] := by
  induction lines with
  | nil => cases h
  | cons line lines ih =>
    rw [received_cons] at h
    rcases List.mem_cons.mp h with rfl | h
    · refine ⟨line, by simp, ?_⟩
      split
      · exact Or.inl rfl
      · exact Or.inr rfl
    · obtain ⟨l, hl, hg⟩ := ih h; exact ⟨l, by simp [hl], hg⟩

theorem mem_received {lines : List Bytes} {l : Bytes} (h : l ∈ lines) : l ∈ received lines ∨ l ++ [CR] ∈ received lines := by
  induction lines with
  | nil => cases h
  | cons line lines ih =>
    rw [received_cons]
    rcases List.mem_cons.mp h with rfl | h
    · split
      · exact Or.inl (by simp)
      · exact Or.inr (by simp)
    · exact (ih h).imp (List.mem_cons_of_mem _) (List.mem_cons_of_mem _)

/-! ## Its fields -/

/-- What a header line stores, and under which name. -/
def lineField (str : Bytes) : Option Entry :=
  match find [58] str with
  | none => none
  | some colonPos =>
    (findIdxFrom (· != SP) str (colonPos + 1)).map fun dataBegin =>
      ⟨(str.take colonPos).map tolower, (str.drop dataBegin).takeWhile isPrint⟩

/-- The encodings that a stored field adds. -/
def addEncodings (set : Finset TransferEncoding) (c : Entry) : Finset TransferEncoding :=
  if c.1 = bytes "transfer-encoding" then
    (splitString c.2 44 true).foldl (fun set enc => insert (stringToTransferEncoding enc) set) set
  else set

theorem parseHeaderLine_eq (h : Http) (str : Bytes) :
    parseHeaderLine h str =
      match lineField str with
      | none => h
      | some c => { h with
          transferEncodings := addEncodings h.transferEncodings c
          headerData := emplace h.headerData c.1 c.2 } := by
  unfold parseHeaderLine lineField
  cases find [58] str with
  | none => rfl
  | some colonPos => simp only; cases findIdxFrom (· != SP) str (colonPos + 1) <;> rfl

theorem lookup_emplace (m : StrMap) (k v k' : Bytes) :
    (emplace m k v).lookup k' = (m.lookup k').or (if k' = k then some v else none) := by
  unfold emplace
  by_cases hk : k ∈ m
  · rw [if_pos hk]
    by_cases heq : k' = k
    · subst heq
      obtain ⟨w, hw⟩ := Option.isSome_iff_exists.mp (AList.lookup_isSome.mpr hk)
      rw [hw]; rfl
    · rw [if_neg heq, Option.or_none]
  · rw [if_neg hk]
    by_cases heq : k' = k
    · subst heq; rw [AList.lookup_insert, AList.lookup_eq_none.mpr hk, if_pos rfl]; rfl
    · rw [AList.lookup_insert_ne heq, if_neg heq, Option.or_none]

theorem lookup_emplaces (l : List Entry) (m : StrMap) (k : Bytes) :
    (l.foldl (fun m c => emplace m c.1 c.2) m).lookup k = (m.lookup k).or (l.dlookup k) := by
  induction l generalizing m with
  | nil => simp
  | cons c l ih =>
    rw [List.foldl_cons, ih, lookup_emplace, Option.or_assoc]
    by_cases hk : k = c.1
    · subst hk; rw [if_pos rfl, List.dlookup_cons_eq]; rfl
    · rw [if_neg hk, List.dlookup_cons_ne _ _ hk]; rfl

/-- What reading header lines stores. -/
theorem parseHeaderLines_eq (h : Http) (lines : List Bytes) :
    lines.foldl parseHeaderLine h =
      { h with
        transferEncodings := (lines.filterMap lineField).foldl addEncodings h.transferEncodings
        headerData := (lines.filterMap lineField).foldl (fun m c => emplace m c.1 c.2) h.headerData } := by
  induction lines generalizing h with
  | nil => rfl
  | cons line lines ih =>
    rw [List.foldl_cons, ih, parseHeaderLine_eq]
    cases hl : lineField line with
    | none => simp only [List.filterMap_cons_none hl]
    | some c => simp only [List.filterMap_cons_some hl, List.foldl_cons]

/-- Of fields with one name, the first one counts. -/
theorem lookup_lines (h : Http) (lines : List Bytes) (k : Bytes) :
    (lines.foldl parseHeaderLine h).headerData.lookup k =
      (h.headerData.lookup k).or ((lines.filterMap lineField).dlookup k) := by
  rw [parseHeaderLines_eq]; exact lookup_emplaces _ _ _

/-! ## Lines that are written as a name and a value -/

/-- A value that a header line carries unchanged. -/
def Value (v : Bytes) : Prop := v ≠ [] ∧ v.head? ≠ some SP ∧ ∀ b ∈ v, isPrint b = true

theorem isPrint_plain {b : UInt8} (h : isPrint b = true) : b ≠ CR ∧ b ≠ LF := by
  constructor <;> rintro rfl <;> revert h <;> decide

theorem plain_of_print {line : Bytes} (hne : line ≠ []) (h : ∀ b ∈ line, isPrint b = true) : Plain line :=
  ⟨hne, fun hm => (isPrint_plain (h _ hm)).1 rfl, fun hm => (isPrint_plain (h _ hm)).2 rfl⟩

theorem toDec_value (n : Nat) : Value (toDec n) := by
  have hd := fun b hb => isDigit_plain (by decide) (toDec_digits n b hb)
  refine ⟨toDec_ne_nil n, fun h => ?_, fun b hb => (hd b hb).1⟩
  exact absurd (hd SP (List.mem_of_mem_head? (by rw [h]; rfl))).2.1 (by decide)

theorem find_colon {name : Bytes} (hname : (58 : UInt8) ∉ name) (text : Bytes) :
    find [58] (name ++ bytes ": " ++ text) = some name.length := by
  have := find_char hname (SP :: text)
  rwa [show name ++ 58 :: SP :: text = name ++ bytes ": " ++ text by simp [bytes, SP]] at this

/-- A line that is written as a name and some text stores that name or nothing. -/
theorem lineField_name {name : Bytes} (hname : (58 : UInt8) ∉ name) (text : Bytes) {c : Entry}
    (h : lineField (name ++ bytes ": " ++ text) = some c) : c.1 = name.map tolower := by
  simp only [lineField, find_colon hname] at h
  obtain ⟨dataBegin, -, rfl⟩ := Option.map_eq_some_iff.mp h
  simp only
  rw [List.append_assoc, List.take_left]

/-- A line that is written as a name and a value stores both, with and without the CR. -/
theorem lineField_value {name v t : Bytes} (hname : (58 : UInt8) ∉ name) (hv : Value v) (ht : t = [] ∨ t = [CR]) :
    lineField (name ++ bytes ": " ++ v ++ t) = some ⟨name.map tolower, v⟩ := by
  obtain ⟨h0, hsp, hp⟩ := hv
  obtain ⟨b, v, rfl⟩ := List.exists_cons_of_ne_nil h0
  have hb : (b != SP) = true := by simpa using hsp
  have hidx : findIdxFrom (· != SP) (name ++ bytes ": " ++ (b :: v ++ t)) (name.length + 1) = some (name.length + 2) := by
    unfold findIdxFrom
    rw [show name ++ bytes ": " ++ (b :: v ++ t) = (name ++ [58]) ++ (SP :: (b :: v ++ t)) by simp [bytes, SP],
      List.drop_left' (by simp), List.cons_append, List.findIdx?_cons, List.findIdx?_cons]
    simp only [hb, bne_self_eq_false, Bool.false_eq_true, if_false, if_true, Option.map_some, Option.some.injEq]
    omega
  have htake : (b :: v ++ t).takeWhile isPrint = b :: v := by
    rw [List.takeWhile_append_of_pos hp]
    rcases ht with rfl | rfl
    · simp
    · simp [show isPrint CR = false by decide]
  rw [List.append_assoc (name ++ bytes ": ")]
  simp only [lineField, find_colon hname, hidx, Option.map_some]
  rw [List.append_assoc name, List.take_left, ← List.append_assoc, List.drop_left' (by simp [bytes]), htake]

theorem headerLine_plain {name v : Bytes} (hname : ∀ b ∈ name, isPrint b = true) (hv : ∀ b ∈ v, isPrint b = true) :
    Plain (name ++ bytes ": " ++ v) := by
  have hall : ∀ b ∈ name ++ bytes ": " ++ v, isPrint b = true := by
    simp only [List.mem_append]
    rintro b ((hb | hb) | hb)
    · exact hname b hb
    · exact forall_of_all (P := fun b => isPrint b = true) (by decide) b hb
    · exact hv b hb
  exact plain_of_print (by simp [bytes]) hall

/-! ## Looking a field up -/

/-- The line stores `value` under `name`, with or without its CR. -/
def Field (line name value : Bytes) : Prop := lineField line = some ⟨name, value⟩ ∧ lineField (line ++ [CR]) = some ⟨name, value⟩

/-- Whatever the line stores, with or without its CR, is not under `name`. -/
def Other (line name : Bytes) : Prop :=
  (∀ c, lineField line = some c → c.1 ≠ name) ∧ ∀ c, lineField (line ++ [CR]) = some c → c.1 ≠ name

theorem Field.other {line name value k : Bytes} (h : Field line name value) (hk : name ≠ k) : Other line k :=
  ⟨fun c hc => by rw [h.1] at hc; cases hc; exact hk, fun c hc => by rw [h.2] at hc; cases hc; exact hk⟩

theorem field_value {name v : Bytes} (hname : (58 : UInt8) ∉ name) (hv : Value v) :
    Field (name ++ bytes ": " ++ v) (name.map tolower) v := by
  have h := lineField_value hname hv (Or.inl rfl)
  rw [List.append_nil] at h
  exact ⟨h, lineField_value hname hv (Or.inr rfl)⟩

theorem other_name {name text k : Bytes} (hname : (58 : UInt8) ∉ name) (hk : name.map tolower ≠ k) :
    Other (name ++ bytes ": " ++ text) k :=
  ⟨fun c hc => by rw [lineField_name hname text hc]; exact hk,
    fun c hc => by rw [List.append_assoc] at hc; rw [lineField_name hname _ hc]; exact hk⟩

theorem lookup_none {lines : List Bytes} {k : Bytes} (h : ∀ l ∈ lines, Other l k) :
    ((received lines).filterMap lineField).dlookup k = none := by
  rw [List.dlookup_eq_none, List.mem_keys]
  intro hgiven
  obtain ⟨v, hv⟩ := hgiven
  obtain ⟨g, hg, hgv⟩ := List.mem_filterMap.mp hv
  rcases received_mem hg with ⟨l, hl, rfl | rfl⟩
  · exact (h g hl).1 _ hgv rfl
  · exact (h l hl).2 _ hgv rfl

theorem lookup_some {lines : List Bytes} {l k v : Bytes} (hl : l ∈ lines) (hf : Field l k v)
    (h : ∀ l ∈ lines, Field l k v ∨ Other l k) : ((received lines).filterMap lineField).dlookup k = some v := by
  have hk : k ∈ ((received lines).filterMap lineField).keys := by
    refine List.mem_keys.mpr ⟨v, List.mem_filterMap.mpr ?_⟩
    rcases mem_received hl with hg | hg
    · exact ⟨_, hg, hf.1⟩
    · exact ⟨_, hg, hf.2⟩
  obtain ⟨w, hw⟩ := Option.isSome_iff_exists.mp (List.dlookup_isSome.mpr hk)
  obtain ⟨g, hg, hgw⟩ := List.mem_filterMap.mp (List.of_mem_dlookup hw)
  rw [hw]
  rcases received_mem hg with ⟨l', hl', rfl | rfl⟩
  · rcases h g hl' with hf' | ho
    · rw [hf'.1] at hgw; cases hgw; rfl
    · exact absurd rfl (ho.1 _ hgw)
  · rcases h l' hl' with hf' | ho
    · rw [hf'.2] at hgw; cases hgw; rfl
    · exact absurd rfl (ho.2 _ hgw)

/-! ## The fields of a map and the defaults it lacks -/

def fieldText (c : Entry) : Bytes := c.1 ++ bytes ": " ++ c.2

/-- A default, where the map has no field of its name. -/
def missing (m : StrMap) (d : Entry) : List Entry := if d.1.map tolower ∈ m then [] else [d]

/-- The length of a body, where there is one. -/
def announced (name body : Bytes) : List Entry := if body = [] then [] else [⟨name, toDec body.length⟩]

theorem lines_if (p : Prop) [Decidable p] (d : Entry) :
    ((if p then [] else [d]).map fieldText).flatMap (· ++ crlf) = if p then [] else fieldText d ++ crlf := by
  split
  · rfl
  · simp

theorem mem_missing {m : StrMap} {c d : Entry} (h : c ∈ missing m d) : c = d ∧ d.1.map tolower ∉ m := by
  unfold missing at h
  split at h
  · cases h
  · rename_i hn; exact ⟨List.mem_singleton.mp h, hn⟩

theorem mem_announced {name body : Bytes} {c : Entry} : c ∈ announced name body ↔ body ≠ [] ∧ c = ⟨name, toDec body.length⟩ := by
  unfold announced
  split <;> simp [*]

/-- A header map that makes a block: lower-case printable names without a colon, and
    printable values. -/
def Printable (m : StrMap) : Prop :=
  ∀ c ∈ m.entries, c.1.map tolower = c.1 ∧ (∀ b ∈ c.1, isPrint b = true) ∧ 58 ∉ c.1 ∧ ∀ b ∈ c.2, isPrint b = true

/-- Names that a line is stored under again. -/
def Named (m : StrMap) : Prop := ∀ c ∈ m.entries, c.1.map tolower = c.1 ∧ 58 ∉ c.1

/-- Lines that store under other names than the map's. -/
def Added (m : StrMap) (ds : List Entry) : Prop := ∀ d ∈ ds, 58 ∉ d.1 ∧ d.1.map tolower ∉ m

/-- A header map that a block carries unchanged. -/
def Fields (m : StrMap) : Prop :=
  ∀ c ∈ m.entries, c.1.map tolower = c.1 ∧ (∀ b ∈ c.1, isPrint b = true) ∧ 58 ∉ c.1 ∧ Value c.2

/-- Fields that a message is given where the map has none of their names. -/
def Defaults (m : StrMap) (ds : List Entry) : Prop :=
  ∀ d ∈ ds, (∀ b ∈ d.1, isPrint b = true) ∧ (∀ b ∈ d.2, isPrint b = true) ∧ 58 ∉ d.1 ∧ d.1.map tolower ∉ m

variable {m : StrMap} {es ds : List Entry}

theorem Fields.printable (hm : Fields m) : Printable m := by
  intro c hc
  obtain ⟨hlow, hp, hcolon, hv⟩ := hm c hc
  exact ⟨hlow, hp, hcolon, hv.2.2⟩

theorem Printable.named (hm : Printable m) : Named m := fun c hc => ⟨(hm c hc).1, (hm c hc).2.2.1⟩

theorem Defaults.added (hds : Defaults m ds) : Added m ds := fun d hd => (hds d hd).2.2

theorem Printable.plain (hm : Printable m) (hes : es.Perm m.entries) (hds : Defaults m ds) :
    ∀ l ∈ (es ++ ds).map fieldText, Plain l := by
  intro l hl
  obtain ⟨c, hc, rfl⟩ := List.mem_map.mp hl
  rcases List.mem_append.mp hc with hc | hc
  · obtain ⟨-, hp, -, hv⟩ := hm c (hes.mem_iff.mp hc)
    exact headerLine_plain hp hv
  · obtain ⟨hp, hv, -, -⟩ := hds c hc
    exact headerLine_plain hp hv

theorem Named.field (hm : Named m) {c : Entry} (hc : c ∈ m.entries) (hv : Value c.2) :
    Field (fieldText c) c.1 c.2 := by
  obtain ⟨hlow, hcolon⟩ := hm c hc
  have := field_value hcolon hv
  rwa [hlow] at this

theorem Named.other (hm : Named m) {c : Entry} (hc : c ∈ m.entries) {k : Bytes} (hk : c.1 ≠ k) :
    Other (fieldText c) k := by
  obtain ⟨hlow, hcolon⟩ := hm c hc
  exact other_name hcolon (by rwa [hlow])

/-- A field of the map is found with its value. -/
theorem Named.lookup (hm : Named m) (hes : es.Perm m.entries) (hds : Added m ds) {k v : Bytes}
    (hk : m.lookup k = some v) (hv : Value v) :
    ((received ((es ++ ds).map fieldText)).filterMap lineField).dlookup k = some v := by
  have hmem : (⟨k, v⟩ : Entry) ∈ m.entries := AList.mem_lookup_iff.mp hk
  refine lookup_some (l := fieldText ⟨k, v⟩)
    (List.mem_map.mpr ⟨⟨k, v⟩, List.mem_append_left _ (hes.mem_iff.mpr hmem), rfl⟩) (hm.field hmem hv) fun l hl => ?_
  obtain ⟨c, hc, rfl⟩ := List.mem_map.mp hl
  rcases List.mem_append.mp hc with hc | hc
  · have hc := hes.mem_iff.mp hc
    by_cases hkc : c.1 = k
    · have hcv : m.lookup k = some c.2 := AList.mem_lookup_iff.mpr (by rw [← hkc]; exact hc)
      rw [hk] at hcv
      cases hcv
      exact Or.inl (hkc ▸ hm.field hc hv)
    · exact Or.inr (hm.other hc hkc)
  · obtain ⟨hcolon, hnot⟩ := hds c hc
    refine Or.inr (other_name hcolon fun heq => hnot ?_)
    rw [heq, ← AList.lookup_isSome, hk]
    rfl

/-- A default is found under its name, where no other default has that name. -/
theorem Named.lookup_default (hm : Named m) (hes : es.Perm m.entries) (hds : Added m ds) {d : Entry}
    (hd : d ∈ ds) (hv : Value d.2) (hone : ∀ d' ∈ ds, d'.1.map tolower = d.1.map tolower → d' = d) :
    ((received ((es ++ ds).map fieldText)).filterMap lineField).dlookup (d.1.map tolower) = some d.2 := by
  refine lookup_some (l := fieldText d) (List.mem_map.mpr ⟨d, List.mem_append_right _ hd, rfl⟩)
    (field_value (hds d hd).1 hv) fun l hl => ?_
  obtain ⟨c, hc, rfl⟩ := List.mem_map.mp hl
  rcases List.mem_append.mp hc with hc | hc
  · refine Or.inr (hm.other (hes.mem_iff.mp hc) fun heq => (hds d hd).2 ?_)
    rw [← heq]
    exact List.mem_keys_of_mem (hes.mem_iff.mp hc)
  · by_cases hcd : c.1.map tolower = d.1.map tolower
    · rw [hone c hc hcd]; exact Or.inl (field_value (hds d hd).1 hv)
    · exact Or.inr (other_name (hds c hc).1 hcd)

/-- Nothing else is found. -/
theorem Named.lookup_other (hm : Named m) (hes : es.Perm m.entries) (hds : Added m ds) {k : Bytes} (hk : k ∉ m)
    (hd : ∀ d ∈ ds, d.1.map tolower ≠ k) : ((received ((es ++ ds).map fieldText)).filterMap lineField).dlookup k = none := by
  refine lookup_none fun l hl => ?_
  obtain ⟨c, hc, rfl⟩ := List.mem_map.mp hl
  rcases List.mem_append.mp hc with hc | hc
  · refine hm.other (hes.mem_iff.mp hc) ?_
    intro heq
    subst heq
    exact hk (List.mem_keys_of_mem (hes.mem_iff.mp hc))
  · exact other_name (hds c hc).1 (hd c hc)

/-- Every field of the map is found with its value. -/
theorem Fields.lookup (hm : Fields m) (hes : es.Perm m.entries) (hds : Defaults m ds) {k v : Bytes}
    (hk : m.lookup k = some v) : ((received ((es ++ ds).map fieldText)).filterMap lineField).dlookup k = some v :=
  hm.printable.named.lookup hes hds.added hk (hm ⟨k, v⟩ (AList.mem_lookup_iff.mp hk)).2.2.2

end Frnetlib.Http
