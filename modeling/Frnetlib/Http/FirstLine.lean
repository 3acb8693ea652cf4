/-
  Frnetlib.Http.FirstLine — which line `parse` reads the request out of.

  After any calls of which the last returned Success, the others having asked for more, the
  request line was read once, off the front of what was fed: the object still holds the
  type, the URI, the variables and the version that were read then (`feed_line_success`).
  The line is the first one that is not empty, with its CR or, where the header ends there,
  without (`Http.first_line`).
-/

import Frnetlib.Http.ReadRequest

namespace Frnetlib

open Base

namespace HttpRequest

/-! ## What is read of it -/

/-- The same was read of the request line. -/
structure LineOf (r x : HttpRequest) : Prop where
  type : x.requestType = r.requestType
  uri : x.uri = r.uri
  gets : x.getData = r.getData
  version : x.version = r.version

theorem readHeader_fields {line : Bytes} {lines : List Bytes} {r : HttpRequest}
    (h : readHeader { fresh with headerEnded := true } (line :: lines) = (true, r)) :
    parseHeaderType line ∈ Http.methods ∧ r.requestType = parseHeaderType line ∧
      ∃ h', parseHeaderUri { fresh.toHttp with requestType := parseHeaderType line } line = some h' ∧
        r.uri = h'.uri ∧ r.getData = h'.getData ∧ r.version = h'.version := by
  obtain ⟨hmethod, stored, hs, hread, -⟩ := readHeader_line h
  obtain ⟨htype, hfields⟩ := headerLines_fields hread
  obtain ⟨a, p, -, -, -, htype', -⟩ := parseHeaderUri_cases hs
  exact ⟨hmethod, htype.trans htype', stored, hs, hfields⟩

/-! ## A run -/

theorem parseBody_line (r : HttpRequest) : LineOf r (parseBody r).2 ∧ (parseBody r).2.headerEnded = r.headerEnded := by
  unfold parseBody
  rw [parsePostBody_eq]
  split
  · exact ⟨⟨rfl, rfl, rfl, rfl⟩, rfl⟩
  · split
    · split
      · exact ⟨⟨rfl, rfl, rfl, rfl⟩, rfl⟩
      · exact ⟨⟨rfl, rfl, rfl, rfl⟩, rfl⟩
    · exact ⟨⟨rfl, rfl, rfl, rfl⟩, rfl⟩

/-- The header was read off the front of `s`. -/
def HeadFed (s : Bytes) (x : HttpRequest) : Prop :=
  x.headerEnded = true ∧ ∃ u e n r, u <+: s ∧ Http.headerEnd u = some (e, n) ∧ e ≤ maxHttpHeaderSize ∧
    readHead (u.take e) = (true, r) ∧ LineOf r x

theorem HeadFed.fed {s : Bytes} {x : HttpRequest} (h : HeadFed s x) (p : Bytes) : HeadFed (s ++ p) (parse x p).2 := by
  obtain ⟨hended, u, e, n, r, hu, hend, hsize, hread, hline⟩ := h
  obtain ⟨hkept, hended'⟩ := parseBody_line { x with body := x.body ++ p }
  rw [parse_ended hended]
  refine ⟨hended'.trans hended, u, e, n, r, hu.trans (List.prefix_append _ _), hend, hsize, hread, ?_⟩
  exact ⟨hkept.type.trans hline.type, hkept.uri.trans hline.uri, hkept.gets.trans hline.gets, hkept.version.trans hline.version⟩

theorem fresh_fed {u : Bytes} (h : (parse fresh u).1 = some .notEnoughData ∨ (parse fresh u).1 = some .success) :
    parse fresh u = (some .notEnoughData, waiting u) ∨ HeadFed u (parse fresh u).2 := by
  rcases parse_fresh_cases h with ⟨-, ⟨-, -, hwaiting⟩ | ⟨e, n, r, hend, hsize, hread, hparse⟩⟩
  · exact .inl hwaiting
  · have hhead : r.headerEnded = true := readHead_ended hread
    obtain ⟨hkept, hended⟩ := parseBody_line { r with body := u.drop (e + n) }
    rw [hparse]
    exact .inr ⟨hended.trans hhead, u, e, n, r, List.prefix_rfl, hend, hsize, hread,
      ⟨hkept.type, hkept.uri, hkept.gets, hkept.version⟩⟩

/-- The run, by the last piece. -/
theorem feed_line {ps : List Bytes} (hmore : ∀ a ∈ (feed parse fresh ps).1, a = some .notEnoughData) :
    (feed parse fresh ps).2 = waiting ps.flatten ∨ HeadFed ps.flatten (feed parse fresh ps).2 := by
  induction ps using List.reverseRecOn with
  | nil => exact .inl rfl
  | append_singleton ps p ih =>
    rw [feed_snoc] at hmore ⊢
    rw [List.flatten_append, List.flatten_singleton]
    have hlast := hmore _ (List.mem_append_right _ (List.mem_singleton.mpr rfl))
    rcases ih fun a ha => hmore a (List.mem_append_left _ ha) with hwaiting | hfed
    · simp only [hwaiting] at hlast ⊢
      rw [parse_waiting] at hlast ⊢
      rcases fresh_fed (.inl hlast) with hwaits | hfed
      · exact .inl (by rw [hwaits])
      · exact .inr hfed
    · exact .inr (hfed.fed p)

theorem feed_line_success {ps : List Bytes} {p : Bytes} (hmore : ∀ a ∈ (feed parse fresh ps).1, a = some .notEnoughData)
    (hsuccess : (parse (feed parse fresh ps).2 p).1 = some .success) :
    HeadFed (ps ++ [p]).flatten (parse (feed parse fresh ps).2 p).2 := by
  rw [List.flatten_append, List.flatten_singleton]
  rcases feed_line hmore with hwaiting | hfed
  · rw [hwaiting, parse_waiting] at hsuccess ⊢
    rcases fresh_fed (.inr hsuccess) with hwaits | hfed
    · rw [hwaits] at hsuccess
      cases hsuccess
    · exact hfed
  · exact hfed.fed p

end HttpRequest

/-! ## Where it is -/

namespace Http

/-- At the header's end there is a CR with an LF behind it, or an LF. -/
theorem headerEnd_at {s : Bytes} {e n : Nat} (h : headerEnd s = some (e, n)) :
    (∃ rest, s.drop e = CR :: LF :: rest) ∨ ∃ rest, s.drop e = LF :: rest := by
  unfold headerEnd at h
  split at h
  · rename_i e' he
    cases h
    obtain ⟨rest, hrest⟩ := (find_eq_some_iff.mp he).1
    exact .inl ⟨_, hrest.symm⟩
  · obtain ⟨e', he, h⟩ := Option.map_eq_some_iff.mp h
    cases h
    obtain ⟨rest, hrest⟩ := (find_eq_some_iff.mp he).1
    exact .inr ⟨_, hrest.symm⟩

theorem length_le_of_drop {α : Type} {a s t : List α} {c : α} {e : Nat} (hc : c ∉ a) (h : (a ++ s).drop e = c :: t) :
    a.length ≤ e := by
  by_contra hlt
  obtain ⟨b, a', hcut⟩ : ∃ b a', a.drop e = b :: a' := List.ne_nil_iff_exists_cons.mp (by simp; omega)
  rw [List.drop_append_of_le_length (by omega), hcut] at h
  obtain ⟨rfl, -⟩ := List.cons.inj h
  exact hc (List.mem_of_mem_drop (hcut ▸ List.mem_cons_self))

/-- The first line of the header is that of the text, or that without its CR if the header
    ends there. -/
theorem first_line {line rest u : Bytes} (hlf : LF ∉ line) (hne : line ≠ []) (hu : u <+: line ++ LF :: rest) {e n : Nat}
    (hend : headerEnd u = some (e, n)) :
    (∃ lines, splitString (u.take e) LF false = line :: lines) ∨ (line = u.take e ++ [CR] ∧ LF ∉ u.take e) := by
  obtain ⟨v, hv⟩ := hu
  have hbound := headerEnd_bounds hend
  have htake : u.take e = (line ++ LF :: rest).take e := by
    rw [← hv, List.take_append_of_le_length (by omega)]
  have hdrop : (line ++ LF :: rest).drop e = u.drop e ++ v := by
    rw [← hv, List.drop_append_of_le_length (by omega)]
  rw [htake]
  rcases Nat.lt_or_ge e line.length with hlt | hle
  · right
    have htaken : (line ++ LF :: rest).take e = line.take e := List.take_append_of_le_length (by omega)
    rcases headerEnd_at hend with ⟨s, hs⟩ | ⟨s, hs⟩
    · rw [hs] at hdrop
      have hnext : (line ++ LF :: rest).drop (e + 1) = LF :: (s ++ v) := by
        rw [← List.drop_drop, hdrop]
        rfl
      have hshort := length_le_of_drop hlf hnext
      obtain ⟨b, hb⟩ : ∃ b, line.drop e = [b] := List.length_eq_one_iff.mp (by rw [List.length_drop]; omega)
      rw [List.drop_append_of_le_length (by omega), hb] at hdrop
      obtain ⟨rfl, -⟩ := List.cons.inj hdrop
      rw [htaken]
      refine ⟨?_, fun hmem => hlf (List.mem_of_mem_take hmem)⟩
      rw [← hb, List.take_append_drop]
    · rw [hs] at hdrop
      have hshort := length_le_of_drop hlf hdrop
      omega
  · left
    rw [List.take_append, List.take_of_length_le hle]
    cases e - line.length with
    | zero =>
      rw [List.take_zero, List.append_nil]
      exact ⟨[], splitFrom_last hlf (by simpa using hne)⟩
    | succ k =>
      rw [List.take_succ_cons]
      exact ⟨_, splitFrom_line hlf (by simpa using hne) _⟩

end Http

end Frnetlib
