/-
  Frnetlib.Http.HttpProofs — what the shared HTTP functions compute (see
  `Frnetlib.Http.Http`): method matching, the header's end, and that reading header
  lines neither looks at nor changes the body.
-/

import Frnetlib.Http.Http

namespace Frnetlib.Http

open Base

/-! ## Methods -/

theorem compareStr_eq {a b : Bytes} : compareStr a b = .eq ↔ a = b := by
  induction a generalizing b with
  | nil => cases b <;> simp [compareStr]
  | cons x a ih =>
    cases b with
    | nil => simp [compareStr]
    | cons y b =>
      simp only [compareStr]
      by_cases hxy : x = y
      · simp [hxy, ih]
      · simp only [hxy, if_false, List.cons.injEq, false_and, iff_false]
        split <;> simp

/-- The test a method passes when its name starts the string. -/
theorem compare_starts {str name : Bytes} : compareStr (str.take name.length) name = .eq ↔ name <+: str := by
  rw [compareStr_eq, List.prefix_iff_eq_take]; exact eq_comm

theorem matchType_cases (str : Bytes) (as : List RequestType) (type : RequestType) :
    matchType str as type ∈ as ∧ requestTypeToString (matchType str as type) <+: str ∨
      matchType str as type = type ∨ matchType str as type = .unknown ∨
      matchType str as type = .partlyRead ∧ ∃ a ∈ as, str.length < (requestTypeToString a).length := by
  induction as generalizing type with
  | nil => exact Or.inr (Or.inl rfl)
  | cons a as ih =>
    simp only [matchType]
    split
    · rename_i h; exact Or.inl ⟨by simp, compare_starts.mp h⟩
    · split
      · rename_i hlt
        split
        · rename_i hn; exact absurd rfl hn.1
        · rcases ih .partlyRead with ⟨h1, h2⟩ | h | h | ⟨h, b, hb, hl⟩
          · exact Or.inl ⟨by simp [h1], h2⟩
          · exact Or.inr (Or.inr (Or.inr ⟨h, a, by simp, hlt.1⟩))
          · exact Or.inr (Or.inr (Or.inl h))
          · exact Or.inr (Or.inr (Or.inr ⟨h, b, by simp [hb], hl⟩))
      · split
        · rcases ih .unknown with ⟨h1, h2⟩ | h | h | ⟨h, b, hb, hl⟩
          · exact Or.inl ⟨by simp [h1], h2⟩
          · exact Or.inr (Or.inr (Or.inl h))
          · exact Or.inr (Or.inr (Or.inl h))
          · exact Or.inr (Or.inr (Or.inr ⟨h, b, by simp [hb], hl⟩))
        · rcases ih type with ⟨h1, h2⟩ | h | h | ⟨h, b, hb, hl⟩
          · exact Or.inl ⟨by simp [h1], h2⟩
          · exact Or.inr (Or.inl h)
          · exact Or.inr (Or.inr (Or.inl h))
          · exact Or.inr (Or.inr (Or.inr ⟨h, b, by simp [hb], hl⟩))

theorem matchType_starts {str : Bytes} {as : List RequestType} {type t : RequestType} (ht : t ∈ as)
    (hp : requestTypeToString t <+: str) (hu : ∀ a ∈ as, requestTypeToString a <+: str → a = t) :
    matchType str as type = t := by
  induction as generalizing type with
  | nil => cases ht
  | cons a as ih =>
    simp only [matchType]
    by_cases ha : requestTypeToString a <+: str
    · rw [if_pos (compare_starts.mpr ha)]; exact hu a (by simp) ha
    · rw [if_neg fun h => ha (compare_starts.mp h)]
      rcases List.mem_cons.mp ht with rfl | ht
      · exact absurd hp ha
      · exact ih ht fun b hb => hu b (by simp [hb])

/-- No method's name starts another's. -/
theorem methods_prefix_free {a b : RequestType} (ha : a ∈ methods) (hb : b ∈ methods)
    (h : requestTypeToString a <+: requestTypeToString b) : a = b := by
  have key : ∀ a ∈ methods, ∀ b ∈ methods, requestTypeToString a <+: requestTypeToString b → a = b := by decide
  exact key a ha b hb h

theorem stringToRequestType_method {str : Bytes} {t : RequestType} (ht : t ∈ methods)
    (hp : requestTypeToString t <+: str) : stringToRequestType str = t := by
  refine matchType_starts ht hp fun a ha hpa => ?_
  rcases List.prefix_or_prefix_of_prefix hpa hp with h | h
  · exact methods_prefix_free ha ht h
  · exact (methods_prefix_free ht ha h).symm

theorem method_length_le {t : RequestType} (ht : t ∈ methods) : (requestTypeToString t).length ≤ 6 := by
  have key : ∀ t ∈ methods, (requestTypeToString t).length ≤ 6 := by decide
  exact key t ht

theorem stringToRequestType_cases (str : Bytes) :
    stringToRequestType str ∈ methods ∧ requestTypeToString (stringToRequestType str) <+: str ∨
      stringToRequestType str = .unknown ∨ stringToRequestType str = .partlyRead ∧ str.length < 6 := by
  rcases matchType_cases str methods .unknown with h | h | h | ⟨h, a, ha, hl⟩
  · exact Or.inl h
  · exact Or.inr (Or.inl h)
  · exact Or.inr (Or.inl h)
  · exact Or.inr (Or.inr ⟨h, Nat.lt_of_lt_of_le hl (method_length_le ha)⟩)

theorem method_length {t : RequestType} (ht : t ∈ methods) : 3 ≤ (requestTypeToString t).length := by
  have key : ∀ t ∈ methods, 3 ≤ (requestTypeToString t).length := by decide
  exact key t ht

/-- The names are in capital letters. -/
theorem method_free {t : RequestType} (ht : t ∈ methods) {b : UInt8} (hb : ¬ (65 ≤ b ∧ b ≤ 90)) :
    b ∉ requestTypeToString t := by
  have key : ∀ t ∈ methods, ((requestTypeToString t).all fun b => decide (65 ≤ b ∧ b ≤ 90)) = true := by decide
  intro hmem
  exact hb (of_decide_eq_true (List.all_eq_true.mp (key t ht) b hmem))

/-- What the request line must start with to be read: one of the five methods. -/
theorem method_of_le {str : Bytes}
    (h : ¬ RequestType.requestTypeCount.toNat < (stringToRequestType str).toNat) :
    stringToRequestType str ∈ methods ∧ requestTypeToString (stringToRequestType str) <+: str := by
  rcases stringToRequestType_cases str with h' | h' | ⟨h', -⟩
  · exact h'
  · rw [h'] at h; exact absurd (by decide) h
  · rw [h'] at h; exact absurd (by decide) h

/-! ## The header's end -/

theorem headerEnd_bounds {s : Bytes} {e n : Nat} (h : headerEnd s = some (e, n)) : e + n ≤ s.length ∧ 2 ≤ n := by
  unfold headerEnd at h
  split at h
  · rename_i e' he
    cases h
    have := find_le he
    exact ⟨by simpa [crlfcrlf] using this, by omega⟩
  · obtain ⟨e', he, h⟩ := Option.map_eq_some_iff.mp h
    cases h
    have := find_le he
    exact ⟨by simpa [lflf] using this, by omega⟩

theorem headerEnd_none {s : Bytes} : headerEnd s = none ↔ ¬ crlfcrlf <:+: s ∧ ¬ lflf <:+: s := by
  unfold headerEnd
  split
  · rename_i e he
    simp only [reduceCtorEq, false_iff, not_and, Classical.not_not]
    exact fun hn => absurd (find_isSome_iff.mp ⟨e, he⟩) hn
  · rename_i he
    rw [Option.map_eq_none_iff, find_eq_none_iff]
    exact ⟨fun h => ⟨find_eq_none_iff.mp he, h⟩, fun h => h.2⟩

theorem headerEnd_of_crlf {s : Bytes} {e : Nat} (h : find crlfcrlf s = some e) : headerEnd s = some (e, 4) := by
  unfold headerEnd; rw [h]

/-- The header of a prefix ends where the whole's does, unless it ended with LF LF
    and the whole holds a CR LF CR LF. -/
theorem headerEnd_append {u p : Bytes} {en : Nat × Nat} (h : headerEnd u = some en)
    (hs : lflf <:+: u → crlfcrlf <:+: u ++ p → crlfcrlf <:+: u) : headerEnd (u ++ p) = some en := by
  unfold headerEnd at h ⊢
  split at h
  · rename_i e he; rw [find_append he]; exact h
  · rename_i hn
    obtain ⟨e, he, rfl⟩ := Option.map_eq_some_iff.mp h
    have : find crlfcrlf (u ++ p) = none := by
      rw [find_eq_none_iff]
      exact fun hi => find_eq_none_iff.mp hn (hs (find_isSome_iff.mp ⟨e, he⟩) hi)
    rw [this, find_append he]; rfl

/-! ## Reading lines leaves the body alone -/

theorem parseHeaderLine_body (h : Http) (b str : Bytes) :
    parseHeaderLine { h with body := b } str = { parseHeaderLine h str with body := b } := by
  unfold parseHeaderLine
  split
  · rfl
  · split <;> rfl

theorem parseHeaderLines_body (h : Http) (b : Bytes) (lines : List Bytes) :
    lines.foldl parseHeaderLine { h with body := b } = { lines.foldl parseHeaderLine h with body := b } := by
  induction lines generalizing h with
  | nil => rfl
  | cons line lines ih => rw [List.foldl_cons, List.foldl_cons, parseHeaderLine_body, ih]

theorem splitFrom_length {token : UInt8} {strip : Bool} {s buffer line : Bytes}
    (h : line ∈ splitFrom token strip buffer s) : line.length ≤ buffer.length + s.length := by
  induction s generalizing buffer with
  | nil =>
    simp only [splitFrom] at h
    split at h
    · cases h
    · rw [List.mem_singleton.mp h]; simp
  | cons a s ih =>
    simp only [splitFrom] at h
    simp only [List.length_cons]
    split at h
    · split at h
      · have := ih h; simp only [List.length_nil] at this; omega
      · rcases List.mem_cons.mp h with rfl | h
        · omega
        · have := ih h; simp only [List.length_nil] at this; omega
    · split at h
      · have := ih h; simp only [List.length_append, List.length_singleton] at this; omega
      · have := ih h; omega

theorem splitString_length {s line : Bytes} {token : UInt8} {strip : Bool} (h : line ∈ splitString s token strip) :
    line.length ≤ s.length := by
  simpa using splitFrom_length h

theorem splitFrom_free {token : UInt8} {strip : Bool} {s buffer line : Bytes} (hbuffer : token ∉ buffer)
    (h : line ∈ splitFrom token strip buffer s) : token ∉ line := by
  induction s generalizing buffer with
  | nil =>
    rw [splitFrom] at h
    split at h
    · cases h
    · rw [List.mem_singleton.mp h]
      exact hbuffer
  | cons a s ih =>
    rw [splitFrom] at h
    split at h
    · split at h
      · exact ih (by simp) h
      · rcases List.mem_cons.mp h with rfl | h
        · exact hbuffer
        · exact ih (by simp) h
    · rename_i ha
      split at h
      · refine ih ?_ h
        rw [List.mem_append, List.mem_singleton, not_or]
        exact ⟨hbuffer, Ne.symm ha⟩
      · exact ih hbuffer h

theorem splitString_free {s line : Bytes} {token : UInt8} {strip : Bool} (h : line ∈ splitString s token strip) :
    token ∉ line :=
  splitFrom_free (by simp) h

end Frnetlib.Http
