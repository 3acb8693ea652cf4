/-
  Frnetlib.Http.PostBody — what `parse_post_body` finds in the body of a POST, and how it
  is stored.

  It takes an argument list out of the body and never throws, so a body that is as long
  as announced and within the limit is always answered Success (`parseBody_eq`). The list
  is what is between the line ends in front and the last blank line
  (`postArguments_enclosed`).
-/

import Frnetlib.Http.Segments

namespace Frnetlib

open Base

/-! ## Storing the variables -/

namespace Http

/-- `post(key) = value` for each. -/
def insertAll (m : StrMap) (args : List Entry) : StrMap := args.foldl (fun m c => m.insert (c.1.map tolower) c.2) m

theorem setPost_all (h : Http) (args : List Entry) :
    args.foldl (fun (h : Http) c => h.setPost c.1 c.2) h = { h with postData := insertAll h.postData args } := by
  induction args generalizing h with
  | nil => rfl
  | cons c args ih =>
    rw [List.foldl_cons, ih]
    rfl

/-- The last value stored under a key is the one that stays. -/
theorem lookup_insertAll (m : StrMap) (args : List Entry) (k : Bytes) :
    (insertAll m args).lookup k = ((args.map lower).reverse.dlookup k).or (m.lookup k) := by
  induction args generalizing m with
  | nil => rfl
  | cons c args ih =>
    rw [insertAll, List.foldl_cons, ← insertAll, ih, List.map_cons, List.reverse_cons, List.dlookup_append, Option.or_assoc]
    congr 1
    by_cases hk : c.1.map tolower = k
    · subst hk
      simp [lower]
    · rw [AList.lookup_insert_ne (Ne.symm hk), List.dlookup_cons_ne _ _ (Ne.symm hk)]
      rfl

end Http

namespace HttpRequest

/-! ## What is found -/

/-- The arguments that `parse_post_body` finds in a body. -/
def postArguments (body : Bytes) : List Entry :=
  let postBegin := (body.findIdx? fun b => b != CR && b != LF).or (body.findIdx? (· != LF))
  let postEnd := (rfind crlfcrlf body).or (rfind lflf body)
  match postBegin with
  | none => []
  | some b =>
    if postEnd = some b then []
    else
      ((substr body b (usub (usub body.length b) (usub body.length (postEnd.getD npos)))).bind
        Http.parseArgumentList).getD []

def lastBlank (body : Bytes) : Option Nat := (rfind crlfcrlf body).or (rfind lflf body)

/-- How many bytes at the front of a body end lines. -/
def frontEnds (body : Bytes) : Nat := (body.takeWhile fun b => b = CR ∨ b = LF).length

/-- A body from the first byte on that ends no line, up to the last blank line if that is
    behind it. -/
def enclosed (body : Bytes) : Bytes :=
  (body.take (((lastBlank body).filter (frontEnds body < ·)).getD body.length)).drop (frontEnds body)

theorem lastBlank_le {body : Bytes} {e : Nat} (h : lastBlank body = some e) : e ≤ body.length := by
  rcases Option.or_eq_some_iff.mp h with h | ⟨-, h⟩
  · exact (rfind_some h).1
  · exact (rfind_some h).1

/-- It starts with a line end. -/
theorem lastBlank_end {body rest : Bytes} {e : Nat} (h : lastBlank body = some e) {b : UInt8} (hb : body.drop e = b :: rest) :
    b = CR ∨ b = LF := by
  rcases Option.or_eq_some_iff.mp h with h | ⟨-, h⟩
  · have hp := (rfind_some h).2
    rw [hb] at hp
    exact .inl (List.cons_prefix_cons.mp hp).1.symm
  · have hp := (rfind_some h).2
    rw [hb] at hp
    exact .inr (List.cons_prefix_cons.mp hp).1.symm

/-- Line ends only, or a first byte that ends no line. -/
theorem front_cases (body : Bytes) :
    (∀ b ∈ body, b = CR ∨ b = LF) ∨
      ∃ front b rest, body = front ++ b :: rest ∧ (∀ b ∈ front, b = CR ∨ b = LF) ∧ ¬ (b = CR ∨ b = LF) ∧
        frontEnds body = front.length := by
  induction body with
  | nil => exact .inl nofun
  | cons b rest ih =>
    by_cases hb : b = CR ∨ b = LF
    · rcases ih with hall | ⟨front, b', rest', hrest, hfront, hb', hends⟩
      · exact .inl (List.forall_mem_cons.mpr ⟨hb, hall⟩)
      · refine .inr ⟨b :: front, b', rest', congrArg (b :: ·) hrest, List.forall_mem_cons.mpr ⟨hb, hfront⟩, hb', ?_⟩
        rw [frontEnds, List.takeWhile_cons, if_pos (decide_eq_true hb), List.length_cons, List.length_cons, ← hends]
        rfl
    · refine .inr ⟨[], b, rest, rfl, nofun, hb, ?_⟩
      rw [frontEnds, List.takeWhile_cons, if_neg (by simpa using hb)]

/-- How much is taken from `b` on, with the end `e` before or behind it, or none. -/
theorem taken_count {n b : Nat} (hn : n < npos) (hb : b ≤ n) (last : Option Nat) (hlast : ∀ e ∈ last, e ≤ n ∧ e ≠ b) (s : Bytes)
    (hs : s.length = n) :
    (s.drop b).take (usub (usub n b) (usub n (last.getD npos))) = (s.take ((last.filter (b < ·)).getD n)).drop b := by
  unfold npos at hn
  cases last with
  | none =>
    have hwrap : usub n npos = n + 1 := by
      rw [npos, usub_of_lt hn (by decide)]
      omega
    rw [Option.getD_none, hwrap, usub_of_le hb, usub_of_lt (by omega) (by omega), Option.filter_none, Option.getD_none,
      List.take_of_length_le (by rw [List.length_drop]; omega), List.take_of_length_le hs.le]
  | some e =>
    obtain ⟨hle, hne⟩ := hlast e rfl
    rw [Option.getD_some, usub_of_le hb, usub_of_le hle]
    by_cases hbehind : b < e
    · rw [usub_of_le (by omega), Option.filter_some_pos (by simpa using hbehind), Option.getD_some, List.drop_take,
        show n - b - (n - e) = e - b by omega]
    · rw [usub_of_lt (by omega) (by omega), Option.filter_some_neg (by simpa using hbehind), Option.getD_none,
        List.take_of_length_le (by rw [List.length_drop]; omega), List.take_of_length_le hs.le]

/-- The arguments of a body. -/
theorem postArguments_enclosed {body : Bytes} (hsize : body.length < npos) :
    postArguments body = Http.arguments (Http.unmarked (enclosed body)) := by
  rcases front_cases body with hall | ⟨front, b, rest, rfl, hfront, hb, hends⟩
  · -- without an argument
    have hequal : ∀ s : Bytes, s <:+: body → Http.arguments (Http.unmarked s) = [] := by
      intro s hs
      refine Http.arguments_none fun hmem => ?_
      have hmem : 61 ∈ s := by
        unfold Http.unmarked at hmem
        split at hmem
        · exact List.mem_of_mem_drop hmem
        · exact hmem
      exact absurd (hall _ (hs.mem hmem)) (by decide)
    have hinside : enclosed body <:+: body := (List.drop_suffix _ _).isInfix.trans (List.take_prefix _ _).isInfix
    rw [hequal _ hinside]
    unfold postArguments
    simp only
    split
    · rfl
    · split
      · rfl
      · cases hsub : substr body _ _ with
        | none => rfl
        | some s =>
          have hs : s <:+: body := by
            unfold substr at hsub
            split at hsub
            · cases hsub
            · cases hsub
              exact (List.take_prefix _ _).isInfix.trans (List.drop_suffix _ _).isInfix
          rw [Option.bind_some, Http.parseArgumentList_eq]
          exact hequal s hs
  · have hbegin : ((front ++ b :: rest).findIdx? fun b => b != CR && b != LF) = some front.length := by
      rw [List.findIdx?_eq_some_iff_getElem]
      refine ⟨by simp, by simpa using hb, fun j hj => ?_⟩
      rw [List.getElem_append_left hj]
      rcases hfront _ (List.getElem_mem hj) with heq | heq
      · simp [heq]
      · simp [heq]
    have hlast : ∀ e ∈ lastBlank (front ++ b :: rest), e ≤ (front ++ b :: rest).length ∧ e ≠ front.length := by
      intro e he
      refine ⟨lastBlank_le he, fun heq => ?_⟩
      have hrest : (front ++ b :: rest).drop e = b :: rest := by rw [heq, List.drop_left]
      exact hb (lastBlank_end he hrest)
    have hle : front.length ≤ (front ++ b :: rest).length := by
      rw [List.length_append]
      omega
    have hne : (rfind crlfcrlf (front ++ b :: rest)).or (rfind lflf (front ++ b :: rest)) ≠ some front.length :=
      fun heq => (hlast _ heq).2 rfl
    unfold postArguments
    simp only [hbegin, Option.some_or]
    rw [if_neg hne, substr_of_le hle, Option.bind_some, Http.parseArgumentList_eq, Option.getD_some, enclosed, hends]
    exact congrArg (fun s => Http.arguments (Http.unmarked s)) (taken_count hsize hle _ hlast _ rfl)

theorem parsePostBody_eq (r : HttpRequest) :
    parsePostBody r = some { r with postData := Http.insertAll r.postData (postArguments r.body) } := by
  unfold parsePostBody postArguments
  simp only
  cases hb : (r.body.findIdx? fun b => b != CR && b != LF).or (r.body.findIdx? (· != LF)) with
  | none => rfl
  | some b =>
    simp only
    by_cases hend : (rfind crlfcrlf r.body).or (rfind lflf r.body) = some b
    · rw [if_pos hend, if_pos hend]
      rfl
    · have hlt : b ≤ r.body.length := by
        rcases Option.or_eq_some_iff.mp hb with hb | ⟨-, hb⟩
        · exact (List.findIdx?_eq_some_iff_getElem.mp hb).1.le
        · exact (List.findIdx?_eq_some_iff_getElem.mp hb).1.le
      rw [if_neg hend, if_neg hend, substr_of_le hlt, Option.bind_some, Http.parseArgumentList_eq]
      simp only
      rw [Http.setPost_all]
      rfl

/-- What a body that is there leaves. -/
theorem parseBody_eq {r : HttpRequest} (hc : r.contentLength ≤ r.body.length) (hm : r.body.length ≤ maxHttpBodySize) :
    parseBody r = (some .success, { r with
      postData := if r.requestType = .post then Http.insertAll r.postData (postArguments r.body) else r.postData }) := by
  rw [parseBody, if_neg (by omega), if_pos hc, parsePostBody_eq]
  split
  · rfl
  · rfl

theorem parseBody_success {r : HttpRequest} (hc : r.contentLength ≤ r.body.length) (hm : r.body.length ≤ maxHttpBodySize) :
    ∃ post, parseBody r = (some .success, { r with postData := post }) := ⟨_, parseBody_eq hc hm⟩

theorem parseBody_complete {r : HttpRequest} (h : (parseBody r).1 = some .success) :
    r.contentLength ≤ r.body.length ∧ r.body.length ≤ maxHttpBodySize := by
  unfold parseBody at h
  split at h
  · cases h
  · rename_i hm
    split at h
    · rename_i hc
      exact ⟨hc, by omega⟩
    · cases h

end HttpRequest

end Frnetlib
