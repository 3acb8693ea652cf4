/-
  Frnetlib.Http.PostVariables — the POST variables of a request, from `construct` to the
  map that `parse_post_body` fills.

  `construct` writes them as one line behind the header and the body behind that line,
  and announces a length only if there is a body. The parser takes what is between the
  first byte that is no line end and the last blank line, or all of it, as an argument
  list. So what is taken of a body may not change what the line says (`Posts.variables`).
-/

import Frnetlib.Http.RequestRoundTrip

namespace Frnetlib

open Base

namespace HttpRequest

/-! ## The request -/

/-- The line of the variables, with its end. -/
def postLine (o : Order) (r : HttpRequest) : Bytes :=
  if (joinArguments (o.posts r.postData)).isEmpty then [] else joinArguments (o.posts r.postData) ++ crlf

/-- What `construct` writes before that line: the header with the blank line behind it. -/
def head (o : Order) (r : HttpRequest) (host : Bytes) : Bytes :=
  (construct o r host).take ((construct o r host).length - (postLine o r ++ r.body).length)

theorem construct_head (o : Order) (r : HttpRequest) (host : Bytes) :
    construct o r host = head o r host ++ (postLine o r ++ r.body) := by
  obtain ⟨b, hb⟩ : ∃ b, construct o r host = b ++ (postLine o r ++ r.body) :=
    ⟨_, by rw [construct, postLine, List.append_assoc]⟩
  rw [head, hb, List.length_append, Nat.add_sub_cancel, List.take_left]

/-- A POST request with variables, each of which can be told from what surrounds it. -/
structure Posts (r : HttpRequest) : Prop where
  type : r.requestType = .post
  content_length : bytes "content-length" ∉ r.headerData
  ne : r.postData.entries ≠ []
  key : ∀ c ∈ r.postData.entries, c.1.map tolower = c.1 ∧ c.1.head? ≠ some 63 ∧
    ∀ b ∈ c.1, isPrint b = true ∧ b ≠ 61 ∧ b ≠ 38
  value : ∀ c ∈ r.postData.entries, ∀ b ∈ c.2, isPrint b = true ∧ b ≠ 38

/-- What `parse_post_body` takes from behind the variables: their line's end and the body
    up to its last blank line, or all of it. -/
def taken (body : Bytes) : Bytes := (crlf ++ body).take ((lastBlank (crlf ++ body)).getD (crlf ++ body).length)

/-- What is taken is only line ends; or there is an `&` in it, and the arguments behind it
    are cut at their separators, give the variable that was written last its value again
    and no variable another. -/
def Harmless (o : Order) (r : HttpRequest) : Prop :=
  (∀ b ∈ taken r.body, b = LF ∨ b = CR) ∨
    ∃ u v, taken r.body = u ++ 38 :: v ∧ 38 ∉ u ∧ Http.ValuedFirst v ∧
      (∀ c ∈ (o.posts r.postData).getLast?, c.1 ∈ Http.insertAll ∅ (Http.cutArguments (Http.trimEnds v))) ∧
      ∀ k value, (Http.insertAll ∅ (Http.cutArguments (Http.trimEnds v))).lookup k = some value →
        r.postData.lookup k = some value

/-- The arguments in these bytes, cut at their separators, are the variables. -/
def Regains (r : HttpRequest) (body : Bytes) : Prop :=
  Http.ValuedFirst (Http.unmarked (enclosed body)) ∧
    ∀ k, (Http.insertAll ∅ (Http.cutArguments (Http.trimEnds (Http.unmarked (enclosed body))))).lookup k =
      r.postData.lookup k

/-! ## The argument list with something behind it -/

variable {o : Order} {r : HttpRequest}

theorem Posts.argument (hr : Posts r) {c : Entry} (hc : c ∈ r.postData.entries) : Http.Argument c :=
  ⟨fun hm => ((hr.key c hc).2.2 _ hm).2.1 rfl, fun hm => ((hr.key c hc).2.2 _ hm).2.2 rfl,
    fun hm => (hr.value c hc _ hm).2 rfl, fun b hb => (hr.value c hc b hb).1⟩

theorem trimEnds_behind {v : Bytes} (hv : ∀ b ∈ v, isPrint b = true) (y : Bytes) :
    Http.trimEnds (v ++ y) = v ++ Http.trimEnds y := by
  by_cases hy : Http.trimEnds y = []
  · have hv' : Http.trimEnds v = v := Http.trimEnds_print hv
    have hempty : (y.reverse.dropWhile fun b => decide (b = LF ∨ b = CR)).isEmpty = true := by
      simpa [Http.trimEnds, List.rdropWhile] using hy
    rw [hy, List.append_nil]
    unfold Http.trimEnds List.rdropWhile at hv' ⊢
    rw [List.reverse_append, List.dropWhile_append, if_pos hempty, hv']
  · exact Http.trimEnds_append v hy

theorem Posts.lower (hr : Posts r) {args : List Entry} (h : ∀ c ∈ args, c ∈ r.postData.entries) :
    args.map Http.lower = args := by
  exact Http.lower_self fun c hc => (hr.key c (h c hc)).1

theorem Posts.mem (o : Order) (r : HttpRequest) {c : Entry} : c ∈ o.posts r.postData ↔ c ∈ r.postData.entries :=
  (o.posts_perm r.postData).mem_iff

/-- The variables that are read, as they change the written ones. -/
theorem insertAll_behind (hr : Posts r) {init args : List Entry} {c : Entry} (hargs : o.posts r.postData = init ++ [c])
    (v k : Bytes) :
    (Http.insertAll ∅ (init ++ ⟨c.1, v⟩ :: args)).lookup k =
      ((Http.insertAll ∅ args).lookup k).or (if k = c.1 then some v else r.postData.lookup k) := by
  have hmem : ∀ a ∈ init ++ [c], a ∈ r.postData.entries := fun a ha => (Posts.mem o r).mp (hargs ▸ ha)
  have hinit : init.map Http.lower = init := hr.lower fun a ha => hmem a (List.mem_append_left _ ha)
  have hc : c.1.map tolower = c.1 := (hr.key c (hmem c (by simp))).1
  have hperm : (init ++ [c]).Perm r.postData.entries := hargs ▸ o.posts_perm r.postData
  have hnodup : (init ++ [c]).NodupKeys := (List.perm_nodupKeys hperm).mpr r.postData.nodupKeys
  have hlookup : r.postData.lookup k = (init.dlookup k).or ([c].dlookup k) := by
    rw [← List.dlookup_append]
    exact (List.perm_dlookup k hnodup hperm).symm
  have hreverse : init.reverse.dlookup k = init.dlookup k :=
    (List.perm_dlookup k (hnodup.sublist (List.sublist_append_left _ _)) (List.reverse_perm init).symm).symm
  rw [Http.lookup_insertAll, Http.lookup_insertAll, List.map_append, List.map_cons, hinit, List.reverse_append,
    List.reverse_cons, List.dlookup_append, List.dlookup_append, hreverse, AList.lookup_empty, Option.or_none, Option.or_none,
    Option.or_assoc]
  congr 1
  by_cases hk : k = c.1
  · subst hk
    simp [Http.lower, hc]
  · obtain ⟨k', v'⟩ := c
    have hk' : k'.map tolower ≠ k := fun h => hk (h.symm.trans hc)
    rw [hlookup, if_neg hk, Http.lower, List.dlookup_cons_ne _ _ (Ne.symm hk'), List.dlookup_cons_ne _ _ hk]
    simp

theorem taken_start (body : Bytes) : taken body <+: crlf ++ body := List.take_prefix _ _

theorem Posts.posts_ne (hr : Posts r) (o : Order) : o.posts r.postData ≠ [] := by
  intro h
  have hperm := o.posts_perm r.postData
  rw [h] at hperm
  exact hr.ne (List.nil_perm.mp hperm)

/-- No argument has an `&` in its name when they are the variables. -/
theorem Posts.free (hr : Posts r) {args : List Entry} (h : ∀ k, (Http.insertAll ∅ args).lookup k = r.postData.lookup k) :
    ∀ c ∈ args, 38 ∉ c.1 := by
  intro c hc hand
  have hstored : (((args.map Http.lower).reverse).dlookup (c.1.map tolower)).isSome := by
    rw [List.dlookup_isSome]
    exact List.mem_keys_of_mem (s := Http.lower c) (List.mem_reverse.mpr (List.mem_map_of_mem hc))
  have hkey := h (c.1.map tolower)
  rw [Http.lookup_insertAll, AList.lookup_empty, Option.or_none] at hkey
  rw [hkey, AList.lookup_isSome] at hstored
  obtain ⟨d, hd, hname⟩ := List.mem_map.mp hstored
  have hname : d.1 = c.1.map tolower := hname
  have hmem : 38 ∈ d.1 := hname ▸ (mem_map_tolower (by decide)).mpr hand
  exact ((hr.key d hd).2.2 38 hmem).2.2 rfl

/-- With an `&` in what is taken, the value that was written last goes on up to it. -/
theorem Posts.arguments_and (hr : Posts r) {init : List Entry} {c : Entry} (hargs : o.posts r.postData = init ++ [c])
    {u v : Bytes} (htaken : taken r.body = u ++ 38 :: v) (hu : 38 ∉ u) :
    Http.arguments (joinArguments (o.posts r.postData) ++ taken r.body) = init ++ ⟨c.1, c.2 ++ u⟩ :: Http.arguments v := by
  have hmem : ∀ a ∈ init ++ [c], Http.Argument a := fun a ha => hr.argument ((Posts.mem o r).mp (hargs ▸ ha))
  have hbehind := Http.parseArguments_behind (fun a ha => (hmem a (List.mem_append_left _ ha)).apart) c [] (taken r.body)
  obtain ⟨hequal, hand, hvalue, -⟩ := hmem c (by simp)
  have hnot : 38 ∉ c.2 ++ u := by simp [hvalue, hu]
  have hstep := Http.parseArguments_step hequal hand hnot v
  rw [← hargs, Http.joinArguments_one, List.append_assoc, List.cons_append] at hbehind
  rw [List.append_assoc, ← htaken, Http.parseArgumentsFrom_eq v] at hstep
  refine Http.arguments_of_some ?_
  rw [hbehind, hstep]
  rfl

/-- Without one it goes on to the end. -/
theorem Posts.arguments_last (hr : Posts r) {init : List Entry} {c : Entry} (hargs : o.posts r.postData = init ++ [c])
    (hnot : 38 ∉ taken r.body) :
    Http.arguments (joinArguments (o.posts r.postData) ++ taken r.body) =
      init ++ [⟨c.1, c.2 ++ Http.trimEnds (taken r.body)⟩] := by
  have hmem : ∀ a ∈ init ++ [c], Http.Argument a := fun a ha => hr.argument ((Posts.mem o r).mp (hargs ▸ ha))
  have hbehind := Http.parseArguments_behind (fun a ha => (hmem a (List.mem_append_left _ ha)).apart) c [] (taken r.body)
  obtain ⟨hequal, hand, hvalue, hprint⟩ := hmem c (by simp)
  have hfree : 38 ∉ c.2 ++ taken r.body := by simp [hvalue, hnot]
  have hlast := Http.parseArguments_last hequal hand hfree
  rw [← hargs, Http.joinArguments_one, List.append_assoc, List.cons_append] at hbehind
  rw [trimEnds_behind hprint] at hlast
  refine Http.arguments_of_some ?_
  rw [hbehind, hlast]
  rfl

/-- Then the variables are read if what is behind the `&` gives the last one again and no
    other value. -/
theorem Posts.read_and (hr : Posts r) {init : List Entry} {c : Entry} (hargs : o.posts r.postData = init ++ [c])
    {u v : Bytes} (hne : u ≠ []) (hlen : v.length < 2 ^ 64) :
    (∀ k, (Http.insertAll ∅ (init ++ ⟨c.1, c.2 ++ u⟩ :: Http.arguments v)).lookup k = r.postData.lookup k) ↔
      Http.ValuedFirst v ∧ c.1 ∈ Http.insertAll ∅ (Http.cutArguments (Http.trimEnds v)) ∧
        ∀ k value, (Http.insertAll ∅ (Http.cutArguments (Http.trimEnds v))).lookup k = some value →
          r.postData.lookup k = some value := by
  have hc : c ∈ r.postData.entries := (Posts.mem o r).mp (hargs ▸ by simp)
  have hwritten : r.postData.lookup c.1 = some c.2 := AList.mem_lookup_iff.mpr hc
  constructor
  · intro h
    have hfirst : Http.ValuedFirst v := by
      by_contra hfirst
      obtain ⟨d, hd, hname⟩ := Http.arguments_not_valuedFirst hlen hfirst
      exact hr.free h d (by simp [hd]) hname
    rw [Http.arguments_valuedFirst hlen hfirst] at h
    refine ⟨hfirst, ?_, ?_⟩
    · by_contra hgone
      have hk := h c.1
      rw [insertAll_behind hr hargs, AList.lookup_eq_none.mpr hgone, hwritten] at hk
      simp [hne] at hk
    · intro k value hvalue
      rw [← h k, insertAll_behind hr hargs, hvalue]
      rfl
  · intro hgiven k
    obtain ⟨hfirst, hagain, hothers⟩ := hgiven
    rw [insertAll_behind hr hargs, Http.arguments_valuedFirst hlen hfirst]
    cases hvalue : (Http.insertAll ∅ (Http.cutArguments (Http.trimEnds v))).lookup k with
    | some value => exact (hothers k value hvalue).symm
    | none =>
      have hk : k ≠ c.1 := by
        intro heq
        subst heq
        exact AList.lookup_eq_none.mp hvalue hagain
      rw [Option.none_or, if_neg hk]

/-- And else if only line ends are behind it. -/
theorem Posts.read_last (hr : Posts r) {init : List Entry} {c : Entry} (hargs : o.posts r.postData = init ++ [c]) (y : Bytes) :
    (∀ k, (Http.insertAll ∅ (init ++ [⟨c.1, c.2 ++ Http.trimEnds y⟩])).lookup k = r.postData.lookup k) ↔
      ∀ b ∈ y, b = LF ∨ b = CR := by
  have hc : c ∈ r.postData.entries := (Posts.mem o r).mp (hargs ▸ by simp)
  have hwritten : r.postData.lookup c.1 = some c.2 := AList.mem_lookup_iff.mpr hc
  rw [← Http.trimEnds_eq_nil]
  constructor
  · intro h
    have hk := h c.1
    rw [insertAll_behind hr hargs, hwritten] at hk
    simpa [Http.insertAll] using hk
  · intro hends k
    rw [insertAll_behind hr hargs, hends, List.append_nil]
    by_cases hk : k = c.1
    · subst hk
      simp [Http.insertAll, hwritten]
    · simp [Http.insertAll, hk]

/-- What is read behind the header gives the variables that were written exactly when it
    is harmless. -/
theorem Posts.read (hr : Posts r) (o : Order) (hsize : (taken r.body).length < 2 ^ 64) :
    (∀ k, (Http.insertAll ∅ (Http.arguments (joinArguments (o.posts r.postData) ++ taken r.body))).lookup k =
      r.postData.lookup k) ↔ Harmless o r := by
  obtain ⟨init, c, hargs⟩ : ∃ init c, o.posts r.postData = init ++ [c] :=
    ⟨_, _, (List.dropLast_append_getLast (hr.posts_ne o)).symm⟩
  have hlast : (o.posts r.postData).getLast? = some c := by simp [hargs]
  by_cases hand : 38 ∈ taken r.body
  · obtain ⟨u, v, huv, hu⟩ := List.eq_append_cons_of_mem hand
    have hne : u ≠ [] := by
      intro heq
      subst heq
      have hpre := taken_start r.body
      rw [huv] at hpre
      obtain ⟨t, ht⟩ := hpre
      cases ht
    have hlen : v.length < 2 ^ 64 := by
      rw [huv, List.length_append, List.length_cons] at hsize
      omega
    rw [hr.arguments_and hargs huv hu, hr.read_and hargs hne hlen]
    constructor
    · intro hgiven
      obtain ⟨hfirst, hagain, hothers⟩ := hgiven
      refine .inr ⟨u, v, huv, hu, hfirst, ?_, hothers⟩
      rw [hlast]
      rintro c' ⟨⟩
      exact hagain
    · rintro (hall | ⟨u', v', huv', hu', hfirst, hagain, hothers⟩)
      · exact absurd (hall 38 hand) (by decide)
      · obtain ⟨rfl, rfl⟩ := Http.first_unique (huv.symm.trans huv') hu hu'
        exact ⟨hfirst, hagain c hlast, hothers⟩
  · rw [hr.arguments_last hargs hand, hr.read_last hargs]
    constructor
    · exact .inl
    · rintro (hall | ⟨u, v, huv, _⟩)
      · exact hall
      · exact absurd (by simp [huv]) hand

/-! ## What `parse_post_body` takes -/

theorem Posts.print (hr : Posts r) (o : Order) : ∀ b ∈ joinArguments (o.posts r.postData), isPrint b = true := by
  refine joinArguments_print fun c hc b hb => ?_
  have hc := (Posts.mem o r).mp hc
  rcases List.mem_append.mp hb with hb | hb
  · exact ((hr.key c hc).2.2 b hb).1
  · exact (hr.value c hc b hb).1

/-- The list starts with a byte that neither ends a line nor is skipped as a `?`. -/
theorem Posts.first (hr : Posts r) (o : Order) :
    ∃ b rest, joinArguments (o.posts r.postData) = b :: rest ∧ isPrint b = true ∧ b ≠ 63 := by
  obtain ⟨c, args, hargs⟩ := List.exists_cons_of_ne_nil (hr.posts_ne o)
  have hc : c ∈ r.postData.entries := (Posts.mem o r).mp (by rw [hargs]; simp)
  obtain ⟨tail, htail⟩ : ∃ tail, joinArguments (o.posts r.postData) = c.1 ++ 61 :: tail := by
    rw [hargs]
    cases args with
    | nil => exact ⟨c.2, Http.joinArguments_one c⟩
    | cons d args => exact ⟨_, Http.joinArguments_cons c d args⟩
  obtain ⟨-, hquery, hkey⟩ := hr.key c hc
  rw [htail]
  rcases hk : c.1 with _ | ⟨b, k⟩
  · exact ⟨61, tail, rfl, by decide, by decide⟩
  · rw [hk] at hquery hkey
    exact ⟨b, k ++ 61 :: tail, rfl, (hkey b (by simp)).1, by simpa using hquery⟩

theorem Posts.postLine (hr : Posts r) (o : Order) : postLine o r = joinArguments (o.posts r.postData) ++ crlf := by
  obtain ⟨b, rest, hlist, -⟩ := hr.first o
  rw [HttpRequest.postLine, hlist]
  rfl

/-- Behind the header, the list and what `taken` says are read as one argument list. -/
theorem Posts.enclosed (hr : Posts r) (o : Order) :
    HttpRequest.enclosed (HttpRequest.postLine o r ++ r.body) = joinArguments (o.posts r.postData) ++ taken r.body := by
  obtain ⟨b, rest, hlist, hb, -⟩ := hr.first o
  obtain ⟨hbcr, hblf⟩ := Http.isPrint_plain hb
  have hprint := hr.print o
  have hcr : CR ∉ joinArguments (o.posts r.postData) := fun hm => (Http.isPrint_plain (hprint _ hm)).1 rfl
  have hlf : LF ∉ joinArguments (o.posts r.postData) := fun hm => (Http.isPrint_plain (hprint _ hm)).2 rfl
  have hpos : 0 < (joinArguments (o.posts r.postData)).length := by
    rw [hlist]
    exact Nat.succ_pos _
  have hfront : frontEnds (joinArguments (o.posts r.postData) ++ (crlf ++ r.body)) = 0 := by
    rw [frontEnds, hlist, List.cons_append, List.takeWhile_cons, if_neg (by simp [hbcr, hblf])]
    rfl
  have hend : lastBlank (joinArguments (o.posts r.postData) ++ (crlf ++ r.body)) =
      (lastBlank (crlf ++ r.body)).map (· + (joinArguments (o.posts r.postData)).length) := by
    have h1 := rfind_skip (p := [LF, CR, LF]) hcr (crlf ++ r.body)
    have h2 := rfind_skip (p := [LF]) hlf (crlf ++ r.body)
    unfold lastBlank
    rw [show crlfcrlf = CR :: [LF, CR, LF] from rfl, show lflf = LF :: [LF] from rfl, h1, h2]
    cases rfind (CR :: [LF, CR, LF]) (crlf ++ r.body) <;> rfl
  rw [hr.postLine, List.append_assoc, HttpRequest.enclosed, hfront, List.drop_zero, hend, taken]
  cases lastBlank (crlf ++ r.body) with
  | none =>
    rw [Option.map_none, Option.filter_none, Option.getD_none, Option.getD_none, List.take_length, List.take_length]
  | some e =>
    have hbehind : 0 < e + (joinArguments (o.posts r.postData)).length := by omega
    rw [Option.map_some, Option.filter_some_pos (by simpa using hbehind), Option.getD_some, Option.getD_some,
      Nat.add_comm, List.take_length_add_append]

theorem Posts.unmarked (hr : Posts r) (o : Order) (s : Bytes) :
    Http.unmarked (joinArguments (o.posts r.postData) ++ s) = joinArguments (o.posts r.postData) ++ s := by
  obtain ⟨b, rest, hlist, -, hquery⟩ := hr.first o
  rw [Http.unmarked, hlist, if_neg (by simpa using hquery)]

/-- What is read of any bytes is the variables only if it is cut at its separators. -/
theorem Posts.regains (hr : Posts r) {body : Bytes} (hsize : body.length < npos) :
    (∀ k, (Http.insertAll ∅ (postArguments body)).lookup k = r.postData.lookup k) ↔ Regains r body := by
  have hlen : (Http.unmarked (HttpRequest.enclosed body)).length < 2 ^ 64 := by
    have hle : (Http.unmarked (HttpRequest.enclosed body)).length ≤ body.length := by
      have hinside : (HttpRequest.enclosed body).length ≤ body.length := by
        rw [HttpRequest.enclosed, List.length_drop, List.length_take]
        omega
      unfold Http.unmarked
      split
      · rw [List.length_drop]
        omega
      · exact hinside
    simp only [npos] at hsize
    omega
  rw [postArguments_enclosed hsize, Regains]
  by_cases hfirst : Http.ValuedFirst (Http.unmarked (HttpRequest.enclosed body))
  · rw [Http.arguments_valuedFirst hlen hfirst]
    exact (and_iff_right hfirst).symm
  · obtain ⟨c, hc, hand⟩ := Http.arguments_not_valuedFirst hlen hfirst
    exact iff_of_false (fun h => hr.free h c hc hand) fun h => hfirst h.1

/-- What is read behind the header that was written, or behind another. -/
theorem Posts.variables (hr : Posts r) (o : Order) (host : Bytes)
    (hbody : (HttpRequest.postLine o r ++ r.body).length ≤ maxHttpBodySize)
    {m : Nat} (hm : (construct o r host).length ≤ m + maxHttpBodySize) :
    (∀ k, (Http.insertAll ∅ (postArguments ((construct o r host).drop m))).lookup k = r.postData.lookup k) ↔
      if m = (head o r host).length then Harmless o r else Regains r ((construct o r host).drop m) := by
  simp only [maxHttpBodySize] at hm hbody
  have hsize : ((construct o r host).drop m).length < npos := by
    rw [List.length_drop]
    simp only [npos]
    omega
  by_cases hwritten : m = (head o r host).length
  · have htaken : (taken r.body).length < 2 ^ 64 := by
      have hle := (taken_start r.body).length_le
      simp only [List.length_append, crlf, List.length_cons, List.length_nil] at hle hbody
      omega
    have hrest : (construct o r host).drop m = HttpRequest.postLine o r ++ r.body := by
      rw [construct_head, hwritten, List.drop_left]
    rw [if_pos hwritten, postArguments_enclosed hsize, hrest, hr.enclosed, hr.unmarked, hr.read o htaken]
  · rw [if_neg hwritten]
    exact hr.regains hsize

/-! ## The header in front -/

theorem setUri_post (h : Http) (uri : Bytes) : (h.setUri uri).postData = h.postData := by
  unfold Http.setUri
  split
  · rfl
  · split <;> rfl

theorem parseHeaderUri_post {h h' : Http} {line : Bytes} (hs : parseHeaderUri h line = some h') : h'.postData = h.postData := by
  have hstore : ∀ {uriBegin uriEnd : Nat} {h' : Http}, storeUri h line uriBegin uriEnd = some h' → h'.postData = h.postData := by
    intro uriBegin uriEnd h' hs
    unfold storeUri at hs
    split at hs
    · split at hs
      · cases hs
        exact setUri_post _ _
      · cases hs
    · obtain ⟨uri, -, rfl⟩ := Option.map_eq_some_iff.mp hs
      exact setUri_post _ _
  unfold parseHeaderUri at hs
  split at hs
  · simp only at hs
    split at hs
    · rename_i stored _ hs' _
      cases hs
      show stored.postData = h.postData
      exact hstore hs'
    · cases hs
  · cases hs

/-- A header holds no POST variables. -/
theorem readHead_post (text : Bytes) : (readHead text).2.postData = ∅ := by
  unfold readHead readHeader
  split
  · rfl
  · simp only
    split
    · rfl
    · split
      · rfl
      · rename_i lines _ _ _ h hs
        have hlines : (lines.foldl Http.parseHeaderLine h).postData = ∅ := by
          rw [Http.parseHeaderLines_eq]
          exact parseHeaderUri_post hs
        split
        · exact hlines
        · split <;> exact hlines

theorem construct_method (o : Order) (host : Bytes) (htype : r.requestType = .post) :
    Http.requestTypeToString .post <+: construct o r host := by
  unfold construct
  simp only [htype, List.append_assoc]
  exact List.prefix_append _ _

/-- The request without its variables, which are part of the body if there is one. -/
def plain (o : Order) (r : HttpRequest) : HttpRequest :=
  { r with postData := ∅, body := if r.body = [] then [] else postLine o r ++ r.body }

theorem construct_plain (o : Order) (r : HttpRequest) (host : Bytes) :
    construct o r host =
      Http.block (requestLine o (plain o r) :: fieldLines o (plain o r) host) ++ (postLine o r ++ r.body) := by
  have hblock := construct_block o (r := plain o r) rfl host
  have hposts : o.posts ∅ = [] := (o.posts_perm ∅).eq_nil
  have hjoin : joinArguments [] = [] := rfl
  by_cases hb : r.body = []
  · have hplain : plain o r = { r with postData := ∅, body := [] } := by rw [plain, if_pos hb]
    have hbody : (plain o r).body = [] := if_pos hb
    rw [hbody, List.append_nil] at hblock
    rw [← hblock, hplain]
    unfold construct postLine
    simp only [hb, hposts, hjoin, List.isEmpty_nil, if_true, List.append_nil]
  · have hplain : plain o r = { r with postData := ∅, body := postLine o r ++ r.body } := by rw [plain, if_neg hb]
    have hbody : (plain o r).body = postLine o r ++ r.body := if_neg hb
    rw [hbody] at hblock
    have hlength : (postLine o r ++ r.body).length = r.body.length + (postLine o r).length := by
      rw [List.length_append, Nat.add_comm]
    have hempty : (postLine o r ++ r.body).isEmpty = r.body.isEmpty := by
      rw [List.isEmpty_eq_false_iff.mpr hb, List.isEmpty_eq_false_iff.mpr (List.append_ne_nil_of_right_ne_nil _ hb)]
    rw [← hblock, hplain]
    unfold construct
    simp only [hempty, hlength, hposts, hjoin, List.isEmpty_nil, if_true, List.append_nil, List.length_nil, Nat.add_zero]
    simp only [postLine, List.append_assoc]

theorem head_plain (o : Order) (r : HttpRequest) (host : Bytes) :
    head o r host = Http.block (requestLine o (plain o r) :: fieldLines o (plain o r) host) := by
  rw [head, construct_plain, List.length_append, Nat.add_sub_cancel, List.take_left]

end HttpRequest

end Frnetlib
