/-
  Frnetlib.Http.Methods — `Http::string_to_request_type` and its contract.

  A name that starts the string is found, whatever else was compared. Without one the
  result is `Partial` where some longer name compares greater (`stringToRequestType_none`),
  which is less than starting a name: the contract holds of a string exactly when it is
  `Placed` (`contract_iff`). A request that is waited for can then still start with a
  method, and its first line be ended so that it is accepted (`method_contract`).
-/

import Frnetlib.Http.FirstLine
import Frnetlib.Http.RequestLine

namespace Frnetlib

open Base

namespace Http

/-! ## The result in one step -/

theorem compareStr_prefix {s t : Bytes} (h : t ≠ []) : compareStr s (s ++ t) = .lt := by
  induction s with
  | nil =>
    cases t with
    | nil => exact absurd rfl h
    | cons b t => rfl
  | cons b s ih =>
    rw [List.cons_append, compareStr, if_pos rfl]
    exact ih

/-- A longer name that compares greater. -/
def Below (str : Bytes) (t : RequestType) : Prop :=
  str.length < (requestTypeToString t).length ∧ compareStr str (requestTypeToString t) = .lt

instance (str : Bytes) (t : RequestType) : Decidable (Below str t) := inferInstanceAs (Decidable (_ ∧ _))

/-- The comparison of the loop, for a name that does not start the string. -/
theorem matchType_step {str : Bytes} {a : RequestType} (h : ¬ requestTypeToString a <+: str) (as : List RequestType)
    {type : RequestType} (htype : type = .unknown ∨ type = .partlyRead) :
    matchType str (a :: as) type = matchType str as (if Below str a then .partlyRead else type) := by
  have hne : compareStr (str.take (requestTypeToString a).length) (requestTypeToString a) ≠ .eq :=
    fun heq => h (compare_starts.mp heq)
  simp only [matchType, if_neg hne]
  by_cases hlt : str.length < (requestTypeToString a).length
  · rw [List.take_of_length_le (Nat.le_of_lt hlt)] at hne ⊢
    by_cases hbelow : Below str a
    · rw [if_pos hbelow]
      simp [hbelow.1, hbelow.2]
    · have hgt : compareStr str (requestTypeToString a) = .gt := by
        cases hc : compareStr str (requestTypeToString a) with
        | lt => exact absurd ⟨hlt, hc⟩ hbelow
        | eq => exact absurd hc hne
        | gt => rfl
      rw [if_neg hbelow, hgt]
      rcases htype with rfl | rfl
      · simp [hlt]
      · simp
  · have hbelow : ¬ Below str a := fun hb => hlt hb.1
    rw [if_neg hbelow]
    simp [hlt]

/-- Once `Partial`, it stays so. -/
theorem matchType_partlyRead {str : Bytes} {as : List RequestType} (h : ∀ a ∈ as, ¬ requestTypeToString a <+: str) :
    matchType str as .partlyRead = .partlyRead := by
  induction as with
  | nil => rfl
  | cons a as ih =>
    rw [matchType_step (h a List.mem_cons_self) as (.inr rfl), ite_self]
    exact ih fun b hb => h b (List.mem_cons_of_mem _ hb)

theorem matchType_unknown {str : Bytes} {as : List RequestType} (h : ∀ a ∈ as, ¬ requestTypeToString a <+: str) :
    matchType str as .unknown = if ∃ a ∈ as, Below str a then .partlyRead else .unknown := by
  induction as with
  | nil => rw [if_neg (by simp)]; rfl
  | cons a as ih =>
    have hrest : ∀ b ∈ as, ¬ requestTypeToString b <+: str := fun b hb => h b (List.mem_cons_of_mem _ hb)
    rw [matchType_step (h a List.mem_cons_self) as (.inl rfl)]
    by_cases hbelow : Below str a
    · rw [if_pos hbelow, if_pos ⟨a, List.mem_cons_self, hbelow⟩]
      exact matchType_partlyRead hrest
    · rw [if_neg hbelow, ih hrest]
      simp only [List.mem_cons, exists_eq_or_imp, hbelow, false_or]

theorem stringToRequestType_none {str : Bytes} (h : ∀ t ∈ methods, ¬ requestTypeToString t <+: str) :
    stringToRequestType str = if ∃ t ∈ methods, Below str t then .partlyRead else .unknown :=
  matchType_unknown h

/-! ## The contract -/

/-- What starts a method's name without being all of it. -/
def Part (str : Bytes) (t : RequestType) : Prop := str <+: requestTypeToString t ∧ str ≠ requestTypeToString t

structure Contract (str : Bytes) (type : RequestType) : Prop where
  method : ∀ t ∈ methods, type = t ↔ requestTypeToString t <+: str
  partlyRead : type = .partlyRead ↔ ∃ t ∈ methods, Part str t
  unknown : type = .unknown ↔ (∀ t ∈ methods, ¬ requestTypeToString t <+: str) ∧ ∀ t ∈ methods, ¬ Part str t

/-- The string and a method's name start alike as far as both go. -/
def Alike (str : Bytes) : Prop := ∃ t ∈ methods, requestTypeToString t <+: str ∨ str <+: requestTypeToString t

/-- That, or it compares greater than every longer name. -/
def Placed (str : Bytes) : Prop :=
  Alike str ∨
    ∀ t ∈ methods, str.length < (requestTypeToString t).length → compareStr str (requestTypeToString t) = .gt

theorem Part.below {str : Bytes} {t : RequestType} (h : Part str t) : Below str t := by
  obtain ⟨⟨rest, hrest⟩, hne⟩ := h
  have hrest' : rest ≠ [] := by
    intro hnil
    rw [hnil, List.append_nil] at hrest
    exact hne hrest
  constructor
  · rw [← hrest, List.length_append]
    have := List.length_pos_iff.mpr hrest'
    omega
  · rw [← hrest]
    exact compareStr_prefix hrest'

theorem method_known {t : RequestType} (h : t ∈ methods) : t ≠ .partlyRead ∧ t ≠ .unknown := by
  have key : ∀ t ∈ methods, t ≠ .partlyRead ∧ t ≠ .unknown := by decide
  exact key t h

/-- A name that starts the string starts no other name with it. -/
theorem starts_no_part {str : Bytes} {t u : RequestType} (ht : t ∈ methods) (hu : u ∈ methods)
    (h : requestTypeToString t <+: str) : ¬ Part str u := by
  intro hpart
  obtain ⟨hpre, hne⟩ := hpart
  have heq : t = u := methods_prefix_free ht hu (h.trans hpre)
  rw [heq] at h
  apply hne
  exact hpre.eq_of_length (Nat.le_antisymm hpre.length_le h.length_le)

theorem contract_starts {str : Bytes} {t : RequestType} (ht : t ∈ methods) (h : requestTypeToString t <+: str) :
    Contract str (stringToRequestType str) := by
  rw [stringToRequestType_method ht h]
  refine ⟨?_, ?_, ?_⟩
  · intro u hu
    constructor
    · rintro rfl
      exact h
    · intro hstarts
      rw [← stringToRequestType_method ht h, ← stringToRequestType_method hu hstarts]
  · constructor
    · intro heq
      exact absurd heq (method_known ht).1
    · intro ⟨u, hu, hpart⟩
      exact absurd hpart (starts_no_part ht hu h)
  · constructor
    · intro heq
      exact absurd heq (method_known ht).2
    · intro ⟨hnone, _⟩
      exact absurd h (hnone t ht)

/-- Where no name starts the string, the contract is that only what starts a name compares
    less than a longer one. -/
theorem contract_none {str : Bytes} (h : ∀ t ∈ methods, ¬ requestTypeToString t <+: str) :
    Contract str (stringToRequestType str) ↔ ((∃ t ∈ methods, Below str t) → ∃ t ∈ methods, Part str t) := by
  rw [stringToRequestType_none h]
  constructor
  · intro hcontract hbelow
    rw [if_pos hbelow] at hcontract
    exact hcontract.partlyRead.mp rfl
  · intro hpart
    by_cases hbelow : ∃ t ∈ methods, Below str t
    · rw [if_pos hbelow]
      obtain ⟨u, hu, hpartly⟩ := hpart hbelow
      refine ⟨?_, ?_, ?_⟩
      · intro t ht
        exact ⟨fun heq => absurd heq.symm (method_known ht).1, fun hstarts => absurd hstarts (h t ht)⟩
      · exact ⟨fun _ => ⟨u, hu, hpartly⟩, fun _ => rfl⟩
      · exact ⟨fun heq => (by cases heq), fun hnone => absurd hpartly (hnone.2 u hu)⟩
    · have hnone : ∀ t ∈ methods, ¬ Part str t := fun t ht hpartly => hbelow ⟨t, ht, hpartly.below⟩
      rw [if_neg hbelow]
      refine ⟨?_, ?_, ?_⟩
      · intro t ht
        exact ⟨fun heq => absurd heq.symm (method_known ht).2, fun hstarts => absurd hstarts (h t ht)⟩
      · exact ⟨fun heq => (by cases heq), fun ⟨t, ht, hpartly⟩ => absurd hpartly (hnone t ht)⟩
      · exact ⟨fun _ => ⟨h, hnone⟩, fun _ => rfl⟩

theorem contract_iff (str : Bytes) : Contract str (stringToRequestType str) ↔ Placed str := by
  by_cases hstarts : ∃ t ∈ methods, requestTypeToString t <+: str
  · obtain ⟨t, ht, hstarts⟩ := hstarts
    exact iff_of_true (contract_starts ht hstarts) (.inl ⟨t, ht, .inl hstarts⟩)
  · have hnone : ∀ t ∈ methods, ¬ requestTypeToString t <+: str := fun t ht h => hstarts ⟨t, ht, h⟩
    rw [contract_none hnone]
    constructor
    · intro hpart
      by_cases hbelow : ∃ t ∈ methods, Below str t
      · obtain ⟨t, ht, hpartly⟩ := hpart hbelow
        exact .inl ⟨t, ht, .inr hpartly.1⟩
      · right
        intro t ht hlt
        cases hc : compareStr str (requestTypeToString t) with
        | lt => exact absurd ⟨t, ht, hlt, hc⟩ hbelow
        | eq => exact absurd (compareStr_eq.mp hc ▸ List.prefix_rfl) (hnone t ht)
        | gt => rfl
    · rintro (⟨t, ht, hstart | hpre⟩ | hgreater) ⟨u, hu, hbelow⟩
      · exact absurd hstart (hnone t ht)
      · exact ⟨t, ht, hpre, fun heq => hnone t ht (heq ▸ List.prefix_rfl)⟩
      · rw [Below, hgreater u hu hbelow.1] at hbelow
        cases hbelow.2

theorem Contract.alike {str : Bytes} (h : Contract str (stringToRequestType str))
    (hknown : stringToRequestType str ≠ .unknown) : Alike str := by
  by_contra hnone
  refine hknown (h.unknown.mpr ⟨?_, ?_⟩)
  · exact fun t ht hp => hnone ⟨t, ht, .inl hp⟩
  · exact fun t ht hp => hnone ⟨t, ht, .inr hp.1⟩

theorem Alike.possible {str : Bytes} (h : Alike str) : ∃ rest, ∃ t ∈ methods, requestTypeToString t <+: str ++ rest := by
  rcases h with ⟨t, ht, hp | ⟨rest, hrest⟩⟩
  · exact ⟨[], t, ht, by rwa [List.append_nil]⟩
  · exact ⟨rest, t, ht, hrest ▸ List.prefix_rfl⟩

end Http

namespace HttpRequest

/-! ## What is waited for -/

/-- What has been fed passed the check of the method, or starts with one. -/
def Checked (s : Bytes) (x : HttpRequest) : Prop :=
  x = waiting s ∧ (s ≠ [] → Http.stringToRequestType s ≠ .unknown) ∨
    x.headerEnded = true ∧ ∃ t ∈ Http.methods, Http.requestTypeToString t <+: s

/-- A header that announces a body is too long for a part of a method. -/
theorem checked_fresh {u : Bytes} (h : (parse fresh u).1 = some .notEnoughData) : Checked u (parse fresh u).2 := by
  rcases parse_fresh_cases (.inl h) with ⟨hknown, ⟨-, -, hwaiting⟩ | ⟨e, n, r, hend, -, hread, hparse⟩⟩
  · rw [hwaiting]
    exact .inl ⟨rfl, fun hne hunknown => hknown ⟨hne, hunknown⟩⟩
  · rw [hparse] at h ⊢
    obtain ⟨hmore, hstate⟩ := parseBody_more h
    have hended : r.headerEnded = true := readHead_ended hread
    have hlong := readHead_method hread (Nat.lt_of_le_of_lt (Nat.zero_le _) hmore)
    rw [List.length_take] at hlong
    have hbounds := Http.headerEnd_bounds hend
    right
    refine ⟨by rw [hstate]; exact hended, ?_⟩
    rcases Http.stringToRequestType_cases u with ⟨hm, hp⟩ | hunknown | ⟨-, hshort⟩
    · exact ⟨_, hm, hp⟩
    · refine absurd ⟨?_, hunknown⟩ hknown
      rintro rfl
      simp at hlong
    · omega

theorem Checked.step {s p : Bytes} {x : HttpRequest} (h : Checked s x) (hmore : (parse x p).1 = some .notEnoughData) :
    Checked (s ++ p) (parse x p).2 := by
  rcases h with ⟨rfl, -⟩ | ⟨hended, t, ht, hp⟩
  · rw [parse_waiting] at hmore ⊢
    exact checked_fresh hmore
  · rw [parse_ended hended] at hmore ⊢
    right
    refine ⟨?_, t, ht, hp.trans (List.prefix_append _ _)⟩
    rw [(parseBody_more hmore).2]
    exact hended

theorem Checked.run {ps : List Bytes} (hmore : ∀ a ∈ (feed parse fresh ps).1, a = some .notEnoughData) :
    Checked ps.flatten (feed parse fresh ps).2 := by
  induction ps using List.reverseRecOn with
  | nil => exact .inl ⟨rfl, fun h => absurd rfl h⟩
  | append_singleton ps p ih =>
    rw [feed_snoc] at hmore ⊢
    rw [List.flatten_append, List.flatten_singleton]
    apply (ih fun a ha => hmore a (List.mem_append_left _ ha)).step
    exact hmore _ (List.mem_append_right _ (List.mem_singleton.mpr rfl))

theorem Checked.alike {s : Bytes} {x : HttpRequest} (h : Checked s x)
    (hs : Http.Contract s (Http.stringToRequestType s)) : Http.Alike s := by
  rcases h with ⟨-, hknown⟩ | ⟨-, t, ht, hp⟩
  · by_cases hempty : s = []
    · rw [hempty]
      exact ⟨.get, by decide, .inr (List.nil_prefix)⟩
    · exact hs.alike (hknown hempty)
  · exact ⟨t, ht, .inl hp⟩

/-! ## What is accepted -/

theorem parseHeaderType_of_starts {t : RequestType} (ht : t ∈ Http.methods) {line : Bytes}
    (hp : Http.requestTypeToString t <+: line) (hspace : SP ∈ line) : parseHeaderType line = t := by
  obtain ⟨a, b, rfl, hfree⟩ := List.eq_append_cons_of_mem hspace
  have hname : SP ∉ Http.requestTypeToString t := Http.method_free ht (by decide)
  unfold parseHeaderType
  rw [find_char hfree]
  simp only [List.take_left]
  exact Http.stringToRequestType_method ht (prefix_sep hname hp)

theorem parseBody_empty {r : HttpRequest} (hbody : r.body = []) (hlength : r.contentLength = 0) :
    (parseBody r).1 = some .success := by
  have hsize : ¬ maxHttpBodySize < r.body.length := by
    rw [hbody, List.length_nil]
    exact Nat.not_lt_zero _
  unfold parseBody
  rw [if_neg hsize, if_pos (by omega), parsePostBody_eq]
  split <;> rfl

/-- A first line that starts with a method's name can be ended so that the request is accepted,
    whatever else is in it. -/
theorem accepted_line {t : RequestType} (ht : t ∈ Http.methods) {line : Bytes}
    (hp : Http.requestTypeToString t <+: line) (hlf : LF ∉ line) (hroom : line.length + 11 ≤ maxHttpHeaderSize) :
    (parse fresh (Http.block [line ++ bytes " / HTTP/1.1"])).1 = some .success := by
  generalize htext : line ++ bytes " / HTTP/1.1" = text
  have hstarts : Http.requestTypeToString t <+: text := htext ▸ hp.trans (List.prefix_append _ _)
  have hline : ∀ l ∈ [text], Http.Line l := by
    rw [List.forall_mem_singleton, ← htext]
    have hrest : LF ∉ bytes " / HTTP/1.1" := by decide
    exact ⟨by simp [bytes], by rw [List.mem_append]; exact not_or.mpr ⟨hlf, hrest⟩⟩
  have hlength : (Http.block [text]).length - 4 = text.length := by simp [Http.block, crlf]
  have hend := (Http.block_closed hline).headerEnd []
  have hread := Http.splitString_block hline []
  rw [List.append_nil] at hend hread
  have htype : parseHeaderType text = t := by
    apply parseHeaderType_of_starts ht hstarts
    rw [← htext, List.mem_append]
    exact .inr (by decide)
  have hslash : 47 ∈ text := by
    rw [← htext, List.mem_append]
    exact .inr (by decide)
  have hhttp : bytes "HTTP" <:+: text := ⟨line ++ bytes " / ", bytes "/1.1", by simp [← htext, bytes]⟩
  obtain ⟨getData, uri, version, huri⟩ := parseHeaderUri_some { fresh.toHttp with requestType := t } hslash hhttp
  have hhead : readHead ((Http.block [text]).take ((Http.block [text]).length - 4)) =
      (true, { fresh with headerEnded := true, requestType := t, getData := getData, uri := uri, version := version }) := by
    have hcount : ¬ RequestType.requestTypeCount.toNat < t.toNat := by
      revert ht
      cases t <;> decide
    rw [readHead, hread, Http.received]
    simp only [readHeader, htype, if_neg hcount, huri, List.foldl_nil]
    rfl
  have hknown : ¬ (Http.block [text] ≠ [] ∧ Http.stringToRequestType (Http.block [text]) = .unknown) := by
    intro hgiven
    have hpre : Http.requestTypeToString t <+: Http.block [text] := by
      rw [Http.block_cons]
      exact hstarts.trans (List.prefix_append _ _)
    rw [Http.stringToRequestType_method ht hpre] at hgiven
    exact (Http.method_known ht).2 hgiven.2
  have hsize : ¬ maxHttpHeaderSize < (Http.block [text]).length - 4 := by
    have hlong : text.length = line.length + 11 := by rw [← htext, List.length_append]; rfl
    omega
  rw [parse_fresh, if_neg hknown, hend]
  simp only [if_neg hsize, hhead]
  apply parseBody_empty
  · apply List.drop_of_length_le
    have := Http.block_length text []
    omega
  · rfl

theorem alike_accepted {str : Bytes} (h : Http.Alike str) (hlf : LF ∉ str)
    (hroom : str.length + 11 ≤ maxHttpHeaderSize) : ∃ rest, (parse fresh (str ++ rest)).1 = some .success := by
  rcases h with ⟨t, ht, hp | ⟨rest, hrest⟩⟩
  · refine ⟨bytes " / HTTP/1.1" ++ crlfcrlf, ?_⟩
    have haccepted := accepted_line ht hp hlf hroom
    rwa [show Http.block [str ++ bytes " / HTTP/1.1"] = str ++ (bytes " / HTTP/1.1" ++ crlfcrlf) by
      simp [Http.block, crlf, crlfcrlf]] at haccepted
  · have hname : LF ∉ Http.requestTypeToString t := Http.method_free ht (by decide)
    have hlength : (Http.requestTypeToString t).length + 11 ≤ maxHttpHeaderSize := by
      have hmax := Http.method_length_le ht
      have hsize : 17 ≤ maxHttpHeaderSize := by decide
      omega
    refine ⟨rest ++ (bytes " / HTTP/1.1" ++ crlfcrlf), ?_⟩
    have haccepted := accepted_line ht List.prefix_rfl hname hlength
    rwa [show Http.block [Http.requestTypeToString t ++ bytes " / HTTP/1.1"] =
      str ++ (rest ++ (bytes " / HTTP/1.1" ++ crlfcrlf)) by simp [← hrest, Http.block, crlf, crlfcrlf]] at haccepted

/-! ## The check of the method -/

/-- The contract; and all that was fed while every call asked for more can still start with
    a method and, within its first line and the limit, be ended so that it is accepted. -/
theorem method_contract (str : Bytes) :
    (Http.Contract str (Http.stringToRequestType str) ∧
      ∀ ps : List Bytes, ps.flatten = str → (∀ a ∈ (feed parse fresh ps).1, a = some .notEnoughData) →
        (∃ rest, ∃ t ∈ Http.methods, Http.requestTypeToString t <+: str ++ rest) ∧
          (LF ∉ str → str.length + 11 ≤ maxHttpHeaderSize →
            ∃ rest, (parse fresh (str ++ rest)).1 = some .success)) ↔ Http.Placed str := by
  rw [← Http.contract_iff]
  constructor
  · intro ⟨hcontract, _⟩
    exact hcontract
  · intro hcontract
    refine ⟨hcontract, ?_⟩
    rintro ps rfl hmore
    have halike := (Checked.run hmore).alike hcontract
    exact ⟨halike.possible, alike_accepted halike⟩

/-- `A` is waited for, and no method starts with it. -/
theorem method_contract_not :
    ¬ Http.Contract (bytes "A") (Http.stringToRequestType (bytes "A")) ∧
      (feed parse fresh [bytes "A"]).1 = [some .notEnoughData] ∧
      ∀ rest, ∀ t ∈ Http.methods, ¬ Http.requestTypeToString t <+: bytes "A" ++ rest := by
  have hpartly : Http.stringToRequestType (bytes "A") = .partlyRead := by decide
  have hnone : ∀ t ∈ Http.methods, ¬ Http.requestTypeToString t <+: bytes "A" ∧
      ¬ bytes "A" <+: Http.requestTypeToString t := by decide
  refine ⟨?_, by decide +kernel, ?_⟩
  · intro h
    obtain ⟨t, ht, hpre, -⟩ := h.partlyRead.mp hpartly
    exact (hnone t ht).2 hpre
  · intro rest t ht hp
    rcases List.prefix_or_prefix_of_prefix hp (List.prefix_append (bytes "A") rest) with h | h
    · exact (hnone t ht).1 h
    · exact (hnone t ht).2 h

end HttpRequest

end Frnetlib
