/-
  Frnetlib.Http.PostPieces — the POST variables of a request that arrives in pieces.

  Where the header ends and what it announces is as the pieces show it. Without a body no
  length is announced, and the line of the variables has to come with the end of the
  header (`HeaderArrives.completed`). A value may end the header early: then what is left
  of it is in front of that line, and the variables are received only if they are what is
  read there (`post_variables_survive`).
-/

import Frnetlib.Http.Buffering
import Frnetlib.Http.PostVariables

namespace Frnetlib

open Base

namespace HttpRequest

/-- The header as these pieces bring it: an end of it, of `n` bytes, first shows at `e`, and
    what is in front of that is read as the header of a POST that announces `length` bytes. -/
structure HeaderRead (text : Bytes) (ps : List Bytes) (e n length : Nat) : Prop where
  ends : EndedIn ps e n
  reads : ∃ h, readHead (text.take e) = (true, h) ∧ h.requestType = .post ∧ h.contentLength = length

/-- What is read as the header and its length is complete with the last piece and not
    before; if it is the header that was written, the body is harmless, and else the bytes
    behind it happen to have the variables. -/
def Completed (o : Order) (r : HttpRequest) (host : Bytes) (ps : List Bytes) : Prop :=
  ∃ e n length, HeaderRead (construct o r host) ps e n length ∧ ps.dropLast.flatten.length < e + n + length ∧
    e + n + length ≤ (construct o r host).length ∧ (construct o r host).length ≤ e + n + maxHttpBodySize ∧
    if e + n = (head o r host).length then Harmless o r else Regains r ((construct o r host).drop (e + n))

/-- Success comes with the last piece, and with it the variables. -/
def Survives (r : HttpRequest) (ps : List Bytes) : Prop :=
  (feed parse fresh ps).1 = List.replicate (ps.length - 1) (some .notEnoughData) ++ [some .success] ∧
    ∀ k, (feed parse fresh ps).2.postData.lookup k = r.postData.lookup k

/-! ## Where the header ends -/

theorem block_ends (line : Bytes) (lines : List Bytes) : crlfcrlf <:+: Http.block (line :: lines) := by
  induction lines generalizing line with
  | nil => exact ⟨line, [], by simp [Http.block, crlf, crlfcrlf]⟩
  | cons next lines ih =>
    rw [Http.block_cons]
    exact (ih next).trans ⟨line ++ [CR, LF], [], by simp⟩

variable {o : Order} {r : HttpRequest} {host : Bytes}

/-- What shows no end of a header is within the one that was written. -/
theorem prefix_head {u : Bytes} (hu : u <+: construct o r host) (hnone : Http.headerEnd u = none) : u <+: head o r host := by
  have hhead : head o r host <+: construct o r host := ⟨_, (construct_head o r host).symm⟩
  rcases List.prefix_or_prefix_of_prefix hu hhead with hin | hover
  · exact hin
  · have hends : crlfcrlf <:+: head o r host := head_plain o r host ▸ block_ends _ _
    exact absurd (hends.trans hover.isInfix) (Http.headerEnd_none.mp hnone).1

/-- An end of a header shows within the one that was written. -/
theorem headerEnd_le {u : Bytes} (hu : u <+: construct o r host) {e n : Nat} (hend : Http.headerEnd u = some (e, n)) :
    e + n ≤ (head o r host).length := by
  have hhead : head o r host <+: construct o r host := ⟨_, (construct_head o r host).symm⟩
  rcases List.prefix_or_prefix_of_prefix hu hhead with hin | hover
  · exact (Http.headerEnd_bounds hend).1.trans hin.length_le
  · have hends : crlfcrlf <:+: head o r host := head_plain o r host ▸ block_ends _ _
    obtain ⟨i, hi⟩ := find_isSome_iff.mpr hends
    obtain ⟨v, rfl⟩ := hover
    rw [Http.headerEnd_of_crlf (find_append hi v)] at hend
    cases hend
    exact find_le hi

theorem headerEnd_within {u s : Bytes} (hu : u <+: s) (hnone : Http.headerEnd s = none) : Http.headerEnd u = none := by
  obtain ⟨hcrlf, hlf⟩ := Http.headerEnd_none.mp hnone
  exact Http.headerEnd_none.mpr ⟨fun h => hcrlf (h.trans hu.isInfix), fun h => hlf (h.trans hu.isInfix)⟩

/-- An end that is within a prefix shows there. -/
theorem headerEnd_seen {u s : Bytes} (hu : u <+: s) {e n : Nat} (hend : Http.headerEnd s = some (e, n)) (hle : e + n ≤ u.length) :
    Http.headerEnd u ≠ none := by
  obtain ⟨v, rfl⟩ := hu
  intro hnone
  obtain ⟨hcrlf, hlf⟩ := Http.headerEnd_none.mp hnone
  unfold Http.headerEnd at hend
  split at hend
  · rename_i e' he
    cases hend
    exact hcrlf (((prefix_drop_append hle).mp (find_eq_some_iff.mp he).1).isInfix.trans (List.drop_suffix _ _).isInfix)
  · obtain ⟨e', he, hend⟩ := Option.map_eq_some_iff.mp hend
    cases hend
    exact hlf (((prefix_drop_append hle).mp (find_eq_some_iff.mp he).1).isInfix.trans (List.drop_suffix _ _).isInfix)

theorem head_method (htype : r.requestType = .post) : Http.requestTypeToString .post <+: head o r host := by
  have hhead : head o r host <+: construct o r host := ⟨_, (construct_head o r host).symm⟩
  rcases List.prefix_or_prefix_of_prefix (construct_method o host htype) hhead with hin | hover
  · exact hin
  · -- a header is longer than the method
    have hlong := Http.block_length (requestLine o (plain o r)) (fieldLines o (plain o r) host)
    rw [← head_plain] at hlong
    have heq := hover.eq_of_length_le (by simpa [Http.requestTypeToString, bytes] using hlong)
    rw [heq]

theorem parse_unended (htype : r.requestType = .post) (hsize : (head o r host).length ≤ maxHttpHeaderSize) {u : Bytes}
    (hu : u <+: construct o r host) (hnone : Http.headerEnd u = none) :
    parse fresh u = (some .notEnoughData, waiting u) := by
  have hmore := parse_head_cut (by decide) (head_method htype) hsize (prefix_head hu hnone) hnone
  rcases parse_fresh_cases (.inl hmore) with ⟨-, ⟨-, -, hwaiting⟩ | ⟨e, n, h, hend, -⟩⟩
  · exact hwaiting
  · rw [hnone] at hend
    cases hend

theorem parse_ending (htype : r.requestType = .post) (hsize : (head o r host).length ≤ maxHttpHeaderSize) {u : Bytes}
    (hu : u <+: construct o r host) {e n : Nat} (hend : Http.headerEnd u = some (e, n)) {h : HttpRequest}
    (hread : readHead ((construct o r host).take e) = (true, h)) :
    parse fresh u = parseBody { h with body := u.drop (e + n) } := by
  have hbound := Http.headerEnd_bounds hend
  have hle := headerEnd_le hu hend
  have hknown : ¬ (u ≠ [] ∧ Http.stringToRequestType u = .unknown) :=
    method_known (v := postLine o r ++ r.body) (by decide) (head_method htype) (construct_head o r host ▸ hu)
  obtain ⟨v, hv⟩ := hu
  rw [← hv, List.take_append_of_le_length (by omega)] at hread
  rw [parse_fresh, if_neg hknown, hend]
  simp only
  rw [if_neg (by omega), hread]

/-! ## What the pieces leave -/

/-- After pieces that all asked for more, by the last of them. -/
theorem feed_waits {ps : List Bytes} (hmore : ∀ a ∈ (feed parse fresh ps).1, a = some .notEnoughData) :
    Http.headerEnd ps.flatten = none ∧ (feed parse fresh ps).2 = waiting ps.flatten ∨
      ∃ e n h, EndedIn ps e n ∧ readHead (ps.flatten.take e) = (true, h) ∧ ps.flatten.length < e + n + h.contentLength ∧
        (feed parse fresh ps).2 = { h with body := ps.flatten.drop (e + n) } := by
  induction ps using List.reverseRecOn with
  | nil => exact .inl ⟨rfl, rfl⟩
  | append_singleton ps p ih =>
    rw [feed_snoc] at hmore ⊢
    have hlast := hmore _ (List.mem_append_right _ (List.mem_singleton.mpr rfl))
    have hflat : (ps ++ [p]).flatten = ps.flatten ++ p := by rw [List.flatten_append, List.flatten_singleton]
    rcases ih fun a ha => hmore a (List.mem_append_left _ ha) with ⟨hnone, hstate⟩ | ⟨e, n, h, hends, hread, hshort, hstate⟩
    · simp only [hstate, parse_waiting] at hlast ⊢
      rw [hflat]
      rcases parse_fresh_more hlast with hwaiting | ⟨e, n, h, hend, -, hread, -, hlength, hleft⟩
      · exact .inl hwaiting
      · have hbound := (Http.headerEnd_bounds hend).1
        rw [List.length_drop] at hlength
        exact .inr ⟨e, n, h, ⟨ps, p, [], rfl, hnone, hend⟩, hread, by omega, hleft⟩
    · have hended : h.headerEnded = true := readHead_ended hread
      have hle := hends.le
      rw [hstate] at hlast ⊢
      rw [parse_ended (r := { h with body := ps.flatten.drop (e + n) }) hended] at hlast ⊢
      obtain ⟨hlength, hleft⟩ := parseBody_more hlast
      simp only [List.length_append, List.length_drop] at hlength
      refine .inr ⟨e, n, h, hends.snoc p, ?_, ?_, ?_⟩
      · rw [hflat, List.take_append_of_le_length (by omega), hread]
      · rw [hflat, List.length_append]
        omega
      · rw [hleft, hends.drop_snoc]

/-- After a last piece that is answered Success. -/
theorem feed_answered {qs : List Bytes} {q : Bytes} (hmore : ∀ a ∈ (feed parse fresh qs).1, a = some .notEnoughData)
    (hsuccess : (parse (feed parse fresh qs).2 q).1 = some .success) :
    ∃ e n h, EndedIn (qs ++ [q]) e n ∧ readHead ((qs ++ [q]).flatten.take e) = (true, h) ∧
      qs.flatten.length < e + n + h.contentLength ∧ e + n + h.contentLength ≤ (qs ++ [q]).flatten.length ∧
      (qs ++ [q]).flatten.length ≤ e + n + maxHttpBodySize ∧
      (parse (feed parse fresh qs).2 q).2.postData =
        if h.requestType = .post then Http.insertAll ∅ (postArguments ((qs ++ [q]).flatten.drop (e + n))) else ∅ := by
  have hflat : (qs ++ [q]).flatten = qs.flatten ++ q := by rw [List.flatten_append, List.flatten_singleton]
  have hcomplete : ∀ {e n h}, EndedIn (qs ++ [q]) e n → readHead ((qs ++ [q]).flatten.take e) = (true, h) →
      parse (feed parse fresh qs).2 q = parseBody { h with body := (qs ++ [q]).flatten.drop (e + n) } →
      e + n + h.contentLength ≤ (qs ++ [q]).flatten.length ∧ (qs ++ [q]).flatten.length ≤ e + n + maxHttpBodySize ∧
        (parse (feed parse fresh qs).2 q).2.postData =
          if h.requestType = .post then Http.insertAll ∅ (postArguments ((qs ++ [q]).flatten.drop (e + n))) else ∅ := by
    intro e n h hends hread hparse
    have hle := hends.le
    rw [hparse] at hsuccess ⊢
    obtain ⟨hall, hmax⟩ := parseBody_complete hsuccess
    have hempty : h.postData = ∅ := by
      have hpost := readHead_post ((qs ++ [q]).flatten.take e)
      rwa [hread] at hpost
    rw [parseBody_eq hall hmax]
    simp only [List.length_drop] at hall hmax
    refine ⟨by omega, by omega, ?_⟩
    simp only [hempty]
  rcases feed_waits hmore with ⟨hnone, hstate⟩ | ⟨e, n, h, hends, hread, hshort, hstate⟩
  · have hparse : parse (feed parse fresh qs).2 q = parse fresh (qs ++ [q]).flatten := by rw [hstate, parse_waiting, hflat]
    rw [hparse] at hsuccess
    obtain ⟨-, e, n, h, hend, -, hread, hwhole⟩ := parse_fresh_success hsuccess
    have hends : EndedIn (qs ++ [q]) e n := ⟨qs, q, [], rfl, hnone, hflat ▸ hend⟩
    refine ⟨e, n, h, hends, hread, ?_, hcomplete hends hread (hparse.trans hwhole)⟩
    -- the last piece ended the header
    by_contra hlong
    have hpre : qs.flatten <+: (qs ++ [q]).flatten := ⟨q, hflat.symm⟩
    exact headerEnd_seen hpre hend (by omega) hnone
  · have hended : h.headerEnded = true := readHead_ended hread
    have hle := hends.le
    have hread' : readHead ((qs ++ [q]).flatten.take e) = (true, h) := by
      rw [hflat, List.take_append_of_le_length (by omega), hread]
    refine ⟨e, n, h, hends.snoc q, hread', hshort, hcomplete (hends.snoc q) hread' ?_⟩
    rw [hstate, parse_ended (r := { h with body := qs.flatten.drop (e + n) }) hended, hends.drop_snoc]

/-- Pieces of a body, the last of which completes it. -/
theorem feed_body {h : HttpRequest} (hended : h.headerEnded = true) {vs : List Bytes} {v : Bytes}
    (hshort : vs = [] ∨ (h.body ++ vs.flatten).length < h.contentLength)
    (hall : h.contentLength ≤ (h.body ++ (vs ++ [v]).flatten).length)
    (hmax : (h.body ++ (vs ++ [v]).flatten).length ≤ maxHttpBodySize) :
    feed parse h (vs ++ [v]) = (List.replicate vs.length (some .notEnoughData) ++ [some .success],
      { h with
        body := h.body ++ (vs ++ [v]).flatten
        postData :=
          if h.requestType = .post then Http.insertAll h.postData (postArguments (h.body ++ (vs ++ [v]).flatten))
          else h.postData }) := by
  induction vs generalizing h with
  | nil =>
    simp only [List.nil_append, List.flatten_singleton] at hall hmax ⊢
    rw [feed, parse_ended hended, parseBody_eq hall hmax]
    rfl
  | cons w vs ih =>
    have hless := hshort.resolve_left (List.cons_ne_nil _ _)
    have hassoc : ∀ t : Bytes, h.body ++ (w ++ t) = h.body ++ w ++ t := fun t => (List.append_assoc _ _ _).symm
    simp only [List.cons_append, List.flatten_cons, hassoc] at hless hall hmax ⊢
    have hpiece : parse h w = (some .notEnoughData, { h with body := h.body ++ w }) := by
      rw [List.length_append] at hless hmax
      rw [parse_ended hended, parseBody]
      simp only
      rw [if_neg (by omega), if_neg (by omega)]
    rw [feed, hpiece]
    simp only
    rw [ih (h := { h with body := h.body ++ w }) hended (.inr hless) hall hmax]
    rfl

/-- Pieces before the header's end. -/
theorem feed_unended (htype : r.requestType = .post) (hsize : (head o r host).length ≤ maxHttpHeaderSize) {ps : List Bytes}
    (hps : ps.flatten <+: construct o r host) (hnone : Http.headerEnd ps.flatten = none) :
    feed parse fresh ps = (List.replicate ps.length (some .notEnoughData), waiting ps.flatten) := by
  induction ps using List.reverseRecOn with
  | nil => rfl
  | append_singleton ps p ih =>
    have hflat : (ps ++ [p]).flatten = ps.flatten ++ p := by rw [List.flatten_append, List.flatten_singleton]
    have hpre : ps.flatten <+: (ps ++ [p]).flatten := ⟨p, hflat.symm⟩
    rw [feed_snoc, ih (hpre.trans hps) (headerEnd_within hpre hnone)]
    simp only
    rw [parse_waiting, ← hflat, parse_unended htype hsize hps hnone, List.length_append, List.replicate_add]
    rfl

/-- A header that is read, and the length it announces, complete with the last piece. -/
theorem feed_read (htype : r.requestType = .post) (hsize : (head o r host).length ≤ maxHttpHeaderSize) {ps : List Bytes}
    (hps : ps.flatten = construct o r host) {e n : Nat} {h : HttpRequest} (hends : EndedIn ps e n)
    (hread : readHead ((construct o r host).take e) = (true, h)) (hpost : h.requestType = .post)
    (hlast : ps.dropLast.flatten.length < e + n + h.contentLength)
    (hall : e + n + h.contentLength ≤ (construct o r host).length)
    (hmax : (construct o r host).length ≤ e + n + maxHttpBodySize) :
    feed parse fresh ps = (List.replicate (ps.length - 1) (some .notEnoughData) ++ [some .success],
      { h with
        body := (construct o r host).drop (e + n)
        postData := Http.insertAll ∅ (postArguments ((construct o r host).drop (e + n))) }) := by
  obtain ⟨as, a, bs, rfl, hnone, hend⟩ := hends
  have hbound := (Http.headerEnd_bounds hend).1
  have hended : h.headerEnded = true := readHead_ended hread
  have hempty : h.postData = ∅ := by
    have hpost := readHead_post ((construct o r host).take e)
    rwa [hread] at hpost
  rw [List.flatten_append, List.flatten_cons, ← List.append_assoc] at hps
  have hfirst : as.flatten ++ a <+: construct o r host := ⟨_, hps⟩
  -- the piece that ends the header brings the first of the body
  have hrest : (construct o r host).drop (e + n) = (as.flatten ++ a).drop (e + n) ++ bs.flatten := by
    rw [← hps, List.drop_append_of_le_length hbound]
  have hpiece : feed parse (waiting as.flatten) (a :: bs) =
      feed parse { h with body := [] } ((as.flatten ++ a).drop (e + n) :: bs) := by
    rw [feed, feed, parse_waiting, parse_ending htype hsize hfirst hend hread,
      parse_ended (r := { h with body := [] }) hended]
    rfl
  rw [feed_append, feed_unended htype hsize ((List.prefix_append _ a).trans hfirst) hnone]
  simp only
  rw [hpiece]
  obtain ⟨vs, v, hvs, hshort⟩ : ∃ vs v, (as.flatten ++ a).drop (e + n) :: bs = vs ++ [v] ∧
      (vs = [] ∨ vs.flatten.length < h.contentLength) := by
    rcases List.eq_nil_or_concat bs with rfl | ⟨cs, q, rfl⟩
    · exact ⟨[], _, rfl, .inl rfl⟩
    · rw [List.concat_eq_append] at hlast ⊢
      refine ⟨_ :: cs, q, rfl, .inr ?_⟩
      rw [← List.cons_append, ← List.append_assoc, List.dropLast_concat, List.flatten_append, List.flatten_cons,
        ← List.append_assoc, List.length_append] at hlast
      rw [List.flatten_cons, List.length_append, List.length_drop]
      omega
  have hwhole : (construct o r host).drop (e + n) = (vs ++ [v]).flatten := by rw [hrest, ← hvs, List.flatten_cons]
  have htotal := congrArg List.length hwhole
  rw [List.length_drop] at htotal
  have hcount := congrArg List.length hvs
  have hfed := feed_body (h := { h with body := [] }) hended hshort (v := v) (by simp only [List.nil_append]; omega)
    (by simp only [List.nil_append]; omega)
  simp only [List.length_append, List.length_cons, List.length_nil] at hcount
  rw [hvs, hfed, hwhole]
  simp only [hpost, hempty, if_true, List.nil_append]
  rw [← List.append_assoc, ← List.replicate_add, List.length_append, List.length_cons,
    show as.length + (bs.length + 1) - 1 = as.length + vs.length by omega]

/-! ## A header that is read as it was written -/

theorem endedIn_exists {ps : List Bytes} (h : Http.headerEnd ps.flatten ≠ none) : ∃ e n, EndedIn ps e n := by
  induction ps using List.reverseRecOn with
  | nil => exact absurd rfl h
  | append_singleton ps p ih =>
    by_cases hnone : Http.headerEnd ps.flatten = none
    · rw [List.flatten_append, List.flatten_singleton] at h
      obtain ⟨⟨e, n⟩, hend⟩ := Option.ne_none_iff_exists'.mp h
      exact ⟨e, n, ps, p, [], rfl, hnone, hend⟩
    · obtain ⟨e, n, hends⟩ := ih hnone
      exact ⟨e, n, hends.snoc p⟩

/-- The header is read as it is written: it ends where it should, and `parse_header` takes
    it for that of a POST with the length that was announced, if one was. -/
structure HeaderArrives (o : Order) (r : HttpRequest) (host : Bytes) : Prop where
  closed : Http.Closed (head o r host)
  reads : ∃ h, readHead ((head o r host).take ((head o r host).length - 4)) = (true, h) ∧ h.requestType = .post ∧
    h.contentLength = if r.body = [] then 0 else (postLine o r ++ r.body).length

/-- The header of a request that the round trip is about is read as it is written. -/
theorem Posts.arrives (hr : Posts r) (hw : Writable { r with postData := ∅ }) (o : Order) {host : Bytes}
    (hhost : ∀ b ∈ host, isPrint b = true) (hsize : (head o r host).length ≤ maxHttpHeaderSize)
    (hbody : (HttpRequest.postLine o r ++ r.body).length ≤ maxHttpBodySize) : HeaderArrives o r host := by
  have hplain : Writable (plain o r) := ⟨hw.type, hw.version, hw.uri_slash, hw.uri_text, hw.uri_http, hw.get_key,
    hw.get_value, hw.headers, hw.content_length, rfl⟩
  have hhead := head_plain o r host
  have hlines : ∀ l ∈ requestLine o (plain o r) :: fieldLines o (plain o r) host, Http.Plain l :=
    List.forall_mem_cons.mpr ⟨hplain.line_plain o, hplain.headers.printable.plain (o.headers_perm _)
      (defaults_lines hplain.content_length hhost)⟩
  have hline : (requestLine o (plain o r)).length < 2 ^ 64 := by
    rw [hhead, Http.block_cons, List.length_append] at hsize
    simp only [maxHttpHeaderSize] at hsize
    omega
  have hlength : (plain o r).body.length = if r.body = [] then 0 else (HttpRequest.postLine o r ++ r.body).length := by
    unfold plain
    split <;> rfl
  have hshort : (plain o r).body.length < 2 ^ 64 := by
    simp only [maxHttpBodySize] at hbody
    rw [hlength]
    split <;> omega
  obtain ⟨h, hread, htype, -, -, -, hannounced, -⟩ := hplain.read o host hline hshort
  have hsplit := Http.splitString_block (Http.Plain.lines hlines) []
  rw [List.append_nil] at hsplit
  constructor
  · rw [hhead]
    exact Http.block_closed (Http.Plain.lines hlines)
  · refine ⟨h, ?_, ?_, hannounced.trans hlength⟩
    · rw [hhead, readHead, hsplit, hread]
    · rw [htype, writtenType]
      show (if r.requestType = .unknown then .get else r.requestType) = .post
      rw [hr.type]
      rfl

theorem HeaderArrives.ends (hread : HeaderArrives o r host) {ps : List Bytes} (hps : ps.flatten = construct o r host) :
    EndedIn ps ((head o r host).length - 4) 4 ∧
      ∀ e n, EndedIn ps e n → e = (head o r host).length - 4 ∧ n = 4 := by
  have hunique : ∀ e n, EndedIn ps e n → e = (head o r host).length - 4 ∧ n = 4 := by
    rintro e n ⟨as, a, bs, rfl, -, hend⟩
    rw [List.flatten_append, List.flatten_cons, ← List.append_assoc, construct_head] at hps
    rcases hread.closed.cut ⟨_, hps⟩ with ⟨hnone, -⟩ | ⟨v, -, hv⟩
    · rw [hnone] at hend
      cases hend
    · rw [hv, hread.closed.headerEnd] at hend
      cases hend
      exact ⟨rfl, rfl⟩
  have hsome : Http.headerEnd ps.flatten ≠ none := by
    rw [hps, construct_head, hread.closed.headerEnd]
    exact Option.some_ne_none _
  obtain ⟨e, n, hends⟩ := endedIn_exists hsome
  obtain ⟨rfl, rfl⟩ := hunique e n hends
  exact ⟨hends, hunique⟩

/-- Then, without a body, the last piece starts within the header, and what is taken of the
    body is harmless. -/
theorem HeaderArrives.completed (hread : HeaderArrives o r host) (hbody : (postLine o r ++ r.body).length ≤ maxHttpBodySize)
    {ps : List Bytes} (hne : ∀ p ∈ ps, p ≠ []) (hps : ps.flatten = construct o r host) :
    Completed o r host ps ↔ (r.body = [] → ps.dropLast.flatten.length < (head o r host).length) ∧ Harmless o r := by
  obtain ⟨hends, hunique⟩ := hread.ends hps
  obtain ⟨h, hh, hpost, hlength⟩ := hread.reads
  have hlen := hread.closed.length
  have htotal : (construct o r host).length = (head o r host).length + (postLine o r ++ r.body).length := by
    rw [construct_head, List.length_append]
  have htake : (construct o r host).take ((head o r host).length - 4) = (head o r host).take ((head o r host).length - 4) := by
    rw [construct_head, List.take_append_of_le_length (by omega)]
  constructor
  · intro hgiven
    obtain ⟨e, n, length, hheader, hlast, -, -, hsame⟩ := hgiven
    obtain ⟨rfl, rfl⟩ := hunique e n hheader.ends
    obtain ⟨h', hh', -, hlength'⟩ := hheader.reads
    rw [htake, hh] at hh'
    cases hh'
    rw [if_pos (by omega)] at hsame
    refine ⟨fun hb => ?_, hsame⟩
    rw [if_pos hb] at hlength
    omega
  · intro hgiven
    obtain ⟨hlast, hharmless⟩ := hgiven
    refine ⟨_, _, h.contentLength, ⟨hends, h, htake ▸ hh, hpost, rfl⟩, ?_, ?_, by omega, ?_⟩
    · by_cases hb : r.body = []
      · have := hlast hb
        omega
      · -- the last piece is not empty
        obtain ⟨qs, q, rfl⟩ : ∃ qs q, ps = qs ++ [q] := by
          rcases List.eq_nil_or_concat ps with rfl | ⟨qs, q, rfl⟩
          · rw [← hps] at htotal
            simp only [List.flatten_nil, List.length_nil] at htotal
            omega
          · exact ⟨qs, q, List.concat_eq_append⟩
        have hq : 0 < q.length := List.length_pos_iff.mpr (hne q (by simp))
        have hsum := congrArg List.length hps
        rw [List.flatten_append, List.flatten_singleton, List.length_append] at hsum
        rw [List.dropLast_concat, hlength, if_neg hb]
        omega
    · rw [hlength]
      split <;> omega
    · rw [if_pos (by omega)]
      exact hharmless

end HttpRequest

/-- The variables of a POST request arrive exactly when what is read as its header and the
    length in it is complete with the last piece and not before, and what is taken behind
    it is the variables: for the header as it was written, when the body is harmless. -/
theorem post_variables_survive (o : Order) (r : HttpRequest) (host : Bytes) (hr : r.Posts)
    (hsize : (HttpRequest.head o r host).length ≤ maxHttpHeaderSize)
    (hbody : (HttpRequest.postLine o r ++ r.body).length ≤ maxHttpBodySize) (ps : List Bytes)
    (hps : ps.flatten = r.construct o host) : r.Survives ps ↔ HttpRequest.Completed o r host ps := by
  have hlong : 0 < (r.construct o host).length := by
    have hblock := Http.block_length (HttpRequest.requestLine o (HttpRequest.plain o r))
      (HttpRequest.fieldLines o (HttpRequest.plain o r) host)
    rw [← HttpRequest.head_plain] at hblock
    rw [HttpRequest.construct_head, List.length_append]
    omega
  constructor
  · intro hgiven
    obtain ⟨hanswers, hsame⟩ := hgiven
    obtain ⟨qs, q, rfl⟩ : ∃ qs q, ps = qs ++ [q] := by
      rcases List.eq_nil_or_concat ps with rfl | ⟨qs, q, rfl⟩
      · rw [← hps] at hlong
        exact absurd hlong (Nat.lt_irrefl 0)
      · exact ⟨qs, q, List.concat_eq_append⟩
    rw [feed_snoc, List.length_append, List.length_singleton, Nat.add_sub_cancel] at hanswers
    obtain ⟨hqs, hq⟩ := List.append_inj' hanswers rfl
    obtain ⟨e, n, h, hends, hread, hlast, hall, hmax, hpost⟩ :=
      HttpRequest.feed_answered (fun a ha => List.eq_of_mem_replicate (hqs ▸ ha)) (List.singleton_injective hq)
    simp only [feed_snoc, hpost] at hsame
    -- without a POST there would be no variables
    have htype : h.requestType = .post := by
      by_contra hother
      obtain ⟨c, args, hargs⟩ := List.exists_cons_of_ne_nil hr.ne
      have hc : r.postData.lookup c.1 = some c.2 := AList.mem_lookup_iff.mpr (hargs ▸ List.mem_cons_self)
      have hnone := hsame c.1
      rw [if_neg hother, hc, AList.lookup_empty] at hnone
      cases hnone
    rw [if_pos htype, hps] at hsame
    rw [hps] at hread hall hmax
    refine ⟨e, n, h.contentLength, ⟨hends, h, hread, htype, rfl⟩, ?_, hall, hmax, (hr.variables o host hbody hmax).mp hsame⟩
    rw [List.dropLast_concat]
    exact hlast
  · intro hgiven
    obtain ⟨e, n, length, hheader, hlast, hall, hmax, hcarried⟩ := hgiven
    obtain ⟨h, hread, hpost, rfl⟩ := hheader.reads
    rw [HttpRequest.Survives, HttpRequest.feed_read hr.type hsize hps hheader.ends hread hpost hlast hall hmax]
    exact ⟨rfl, (hr.variables o host hbody hmax).mpr hcarried⟩

/-- `a=b` and no body. -/
def samplePost : HttpRequest := { HttpRequest.fresh with
  requestType := .post
  postData := AList.singleton (bytes "a") (bytes "b") }

theorem samplePost_posts : samplePost.Posts where
  type := rfl
  content_length := by decide
  ne := by decide
  key := by
    intro c hc
    rw [List.mem_singleton.mp hc]
    exact ⟨by decide, by decide, forall_of_all (by decide)⟩
  value := by
    intro c hc
    rw [List.mem_singleton.mp hc]
    exact forall_of_all (by decide)

theorem samplePost_writable : HttpRequest.Writable { samplePost with postData := ∅ } where
  type := by decide
  version := by decide
  uri_slash := by decide
  uri_text := forall_of_all (by decide)
  uri_http := by decide
  get_key := by simp [samplePost, HttpRequest.fresh, Http.fresh]
  get_value := by simp [samplePost, HttpRequest.fresh, Http.fresh]
  headers := by simp [samplePost, HttpRequest.fresh, Http.fresh, Http.Fields]
  content_length := by decide
  posts := rfl

/-- Cut within the header, it arrives. -/
theorem post_variables_survive_sample :
    samplePost.Survives
      [(samplePost.construct .kept (bytes "h")).take 7, (samplePost.construct .kept (bytes "h")).drop 7] := by
  have hread := samplePost_posts.arrives samplePost_writable .kept
    (show ∀ b ∈ bytes "h", isPrint b = true from forall_of_all (by decide)) (by decide +kernel) (by decide +kernel)
  have hiff := post_variables_survive .kept samplePost (bytes "h") samplePost_posts (by decide +kernel) (by decide +kernel)
    [(samplePost.construct .kept (bytes "h")).take 7, (samplePost.construct .kept (bytes "h")).drop 7] (by simp)
  refine hiff.mpr ((hread.completed (by decide +kernel) (by decide +kernel) (by simp)).mpr ?_)
  exact ⟨fun _ => by decide +kernel, Or.inl (forall_of_all (by decide +kernel))⟩

/-- Cut behind the header, it is taken for complete before its variable has come. -/
theorem post_variables_lost :
    ¬ ∀ (o : Order) (r : HttpRequest) (host : Bytes), r.Posts →
      (HttpRequest.head o r host).length ≤ maxHttpHeaderSize →
      (HttpRequest.postLine o r ++ r.body).length ≤ maxHttpBodySize →
      ∀ ps : List Bytes, (∀ p ∈ ps, p ≠ []) → ps.flatten = r.construct o host → r.Survives ps := by
  intro h
  obtain ⟨hanswers, -⟩ := h .kept samplePost (bytes "h") samplePost_posts (by decide +kernel) (by decide +kernel)
    [HttpRequest.head .kept samplePost (bytes "h"), bytes "a=b\r\n"] (by decide +kernel) (by decide +kernel)
  exact absurd (congrArg List.head? hanswers) (by decide +kernel)

end Frnetlib
