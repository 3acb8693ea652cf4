/-
  Frnetlib.Http.Segmentation — what the two incremental parsers make of a message
  that arrives in pieces, against one call on the whole.

  A message is parsed the same in pieces as whole unless a header boundary was
  guessed: both parsers look for CR LF CR LF first and for LF LF only where there is
  none, but they look at what has arrived so far, so an LF LF ends the header for
  good when the CR LF CR LF after it has not arrived yet (`HeaderStable`). The tests
  of a partial response expect the answer not to depend on the cuts.

  A chunked response has a second such place: the limit on the body is tested on the
  buffer, from which the chunks decoded so far have already been cut out
  (`LimitStable`).
-/

import Frnetlib.Base.Feed
import Frnetlib.Http.Incremental
import Frnetlib.Http.PostBody

namespace Frnetlib

open Base

/-- No prefix of the pieces `ps` that came before `p` shows an LF LF and no CR LF CR LF
    while the whole holds one. -/
def HeaderStable (ps : List Bytes) (p : Bytes) : Prop :=
  ∀ qs, qs <+: ps → lflf <:+: qs.flatten → crlfcrlf <:+: ps.flatten ++ p → crlfcrlf <:+: qs.flatten

theorem HeaderStable.cut {ps qs : List Bytes} {p q : Bytes} (h : HeaderStable ps p) (hq : qs ++ [q] <+: ps ++ [p]) :
    lflf <:+: qs.flatten → crlfcrlf <:+: qs.flatten ++ q → crlfcrlf <:+: qs.flatten := by
  intro hl hc
  have hqs : qs <+: ps := by
    rcases List.prefix_concat_iff.mp hq with heq | hpre
    · rw [(List.append_inj' heq rfl).1]
    · exact (List.prefix_append _ _).trans hpre
  refine h qs hqs hl (hc.trans ?_)
  obtain ⟨rest, hr⟩ := hq
  have := congrArg List.flatten hr
  simp only [List.flatten_append, List.flatten_singleton] at this
  exact ⟨[], rest.flatten, by rw [← this]; simp⟩

/-! ## Requests -/

namespace HttpRequest

theorem parseBody_body (r : HttpRequest) :
    (parseBody r).2.body = r.body ∧ ((parseBody r).1 = some .notEnoughData → (parseBody r).2 = r) := by
  refine ⟨?_, fun h => (parseBody_more h).2⟩
  unfold parseBody
  split
  · rfl
  · split
    · rw [parsePostBody_eq]
      split <;> rfl
    · rfl

/-- Once the header has ended, pieces are appended to the body. -/
theorem feed_ended {x : HttpRequest} (hx : x.headerEnded = true) (ps : List Bytes)
    (hmore : ∀ a ∈ (feed parse x ps).1, a = some .notEnoughData) :
    (feed parse x ps).2.headerEnded = true ∧ (feed parse x ps).2.body = x.body ++ ps.flatten := by
  induction ps generalizing x with
  | nil => exact ⟨hx, by simp [feed]⟩
  | cons p ps ih =>
    simp only [feed, parse_ended hx] at hmore ⊢
    have h1 := (parseBody_body { x with body := x.body ++ p }).2 (hmore _ (by simp))
    rw [h1] at hmore ⊢
    obtain ⟨h2, h3⟩ := ih (x := { x with body := x.body ++ p }) hx fun a ha => hmore a (List.mem_cons_of_mem _ ha)
    exact ⟨h2, by rw [h3, List.flatten_cons, List.append_assoc]⟩

theorem feed_stable {ps : List Bytes} {p : Bytes} (hs : HeaderStable ps p)
    (hmore : ∀ a ∈ (feed parse fresh ps).1, a = some .notEnoughData) :
    parse fresh ps.flatten = (some .notEnoughData, (feed parse fresh ps).2) := by
  refine feed_absorbed parse_nil ps (fun qs q hq hstate => ?_) hmore
  have habs := parse_absorbs (u := qs.flatten) (p := q) (by rw [hstate])
    (hs.cut (hq.trans (List.prefix_append _ _)))
  rwa [hstate] at habs

/-- What one call leaves in the body, where the header ends. -/
theorem parse_fresh_body {s : Bytes} {e n : Nat} (he : Http.headerEnd s = some (e, n)) :
    (parse fresh s).2.body = s ∨ (parse fresh s).2.body = s.drop (e + n) := by
  rw [parse_fresh]
  split
  · exact Or.inl rfl
  · simp only [he]
    split
    · exact Or.inl rfl
    · split
      · exact Or.inl rfl
      · exact Or.inr (parseBody_body _).1

/-- A header that ended too early leaves another body than one call on the whole. -/
theorem unstable_body {ps : List Bytes} {p : Bytes} (hs : ¬ HeaderStable ps p)
    (hmore : ∀ a ∈ (feed parse fresh ps).1, a = some .notEnoughData) :
    (parse (feed parse fresh ps).2 p).2.body ≠ (parse fresh (ps.flatten ++ p)).2.body := by
  simp only [HeaderStable, Classical.not_forall] at hs
  obtain ⟨qs, ⟨rs, rfl⟩, hl, hc, hn⟩ := hs
  rw [feed_append] at hmore ⊢
  -- up to `qs` no CR LF CR LF was seen, so nothing has gone wrong yet
  have hqs : parse fresh qs.flatten = (some .notEnoughData, (feed parse fresh qs).2) := by
    refine feed_stable (p := []) (fun qs' hq' _ hc' => ?_) fun a ha => hmore a (List.mem_append_left _ ha)
    exact absurd (by simpa using hc') hn
  rcases parse_fresh_more (u := qs.flatten) (by rw [hqs]) with ⟨hnone, -⟩ | ⟨e, n, r, he, -, hr, -, -, hx⟩
  · exact absurd hl (Http.headerEnd_none.mp hnone).2
  · obtain ⟨hb, hn2⟩ := Http.headerEnd_bounds he
    rw [hqs] at hx
    have hended : (feed parse fresh qs).2.headerEnded = true := by
      rw [hx]; exact (readHead_ended hr : r.headerEnded = true)
    obtain ⟨h1, h2⟩ := feed_ended hended rs fun a ha => hmore a (List.mem_append_right _ ha)
    have hseg : (parse (feed parse (feed parse fresh qs).2 rs).2 p).2.body =
        qs.flatten.drop (e + n) ++ (rs.flatten ++ p) := by
      rw [parse_ended h1, (parseBody_body _).1]
      show (feed parse (feed parse fresh qs).2 rs).2.body ++ p = _
      rw [h2, hx, List.append_assoc]
    obtain ⟨e', he'⟩ := find_isSome_iff.mpr hc
    have hle := find_le he'
    have hlate : qs.flatten.length < e' + 4 := by
      by_contra hnot
      refine hn ?_
      obtain ⟨hpre, -⟩ := find_eq_some_iff.mp he'
      rw [List.flatten_append, List.append_assoc,
        prefix_drop_append (by simp only [crlfcrlf, List.length_cons, List.length_nil]; omega)] at hpre
      exact hpre.isInfix.trans (List.drop_suffix _ _).isInfix
    simp only [crlfcrlf, List.length_cons, List.length_nil, List.flatten_append, List.length_append] at hle
    rw [hseg]
    intro heq
    have hlen := congrArg List.length heq
    rcases parse_fresh_body (Http.headerEnd_of_crlf he') with hsingle | hsingle
    all_goals
      rw [hsingle] at hlen
      simp only [List.length_append, List.length_drop, List.flatten_append] at hlen
      omega

end HttpRequest

/-! ## Responses -/

namespace HttpResponse

/-- No chunk was decoded from the pieces `ps`, or the raw body of the whole keeps
    within the limit. -/
def LimitStable (ps : List Bytes) (p : Bytes) : Prop :=
  (feed parse fresh ps).2.chunkOffset = 0 ∨
    ∀ e n, Http.headerEnd (ps.flatten ++ p) = some (e, n) → (ps.flatten ++ p).length - (e + n) ≤ maxHttpBodySize

/-- The chunked loop only takes away from the body, and takes something away whenever
    it moves on. -/
theorem chunks_length (body : Bytes) (chunkOffset : Nat) :
    (chunks body chunkOffset).2.1.length ≤ body.length ∧ chunkOffset ≤ (chunks body chunkOffset).2.2 ∧
      ((chunks body chunkOffset).2.2 ≠ chunkOffset → (chunks body chunkOffset).2.1.length < body.length) := by
  induction body, chunkOffset using chunks.induct with
  | case1 body chunkOffset hlt hr => simp [chunks_more hr]
  | case2 body chunkOffset hlt hr => simp [chunks_throws hlt hr]
  | case3 body chunkOffset hlt body₁ hr =>
    rw [chunks_chunk hlt hr, if_pos rfl]
    exact ⟨(chunkRound_length hr hlt).1.le, le_rfl, fun _ => (chunkRound_length hr hlt).1⟩
  | case4 body chunkOffset hlt chunkLen body₁ hr hs h0 ih =>
    rw [chunks_chunk hlt hr, if_neg h0]
    have hl := (chunkRound_length hr hlt).1
    exact ⟨by omega, by omega, fun _ => by omega⟩
  | case5 body chunkOffset hlt => simp [chunks_end hlt]

theorem parseBody_length (r : HttpResponse) :
    (parseBody r).2.body.length ≤ r.body.length ∧ r.chunkOffset ≤ (parseBody r).2.chunkOffset ∧
      ((parseBody r).2.chunkOffset ≠ r.chunkOffset → (parseBody r).2.body.length < r.body.length) ∧
      (parseBody r).2.headerEnded = r.headerEnded := by
  unfold parseBody
  split
  · simp
  · split
    · obtain ⟨h1, h2, h3⟩ := chunks_length r.body r.chunkOffset
      exact ⟨h1, h2, h3, rfl⟩
    · split
      · refine ⟨?_, le_rfl, fun h => absurd rfl h, rfl⟩
        simp only [List.length_take]
        omega
      · split <;> simp

theorem parse_offset (r : HttpResponse) (p : Bytes) : r.chunkOffset ≤ (parse r p).2.chunkOffset := by
  unfold parse parseBuffer
  split
  · exact (parseBody_length { r with body := r.body ++ p }).2.1
  · split
    · exact le_rfl
    · split
      · split <;> exact le_rfl
      · simp only
        split
        · exact le_rfl
        · rename_i e n _ _
          obtain ⟨-, hh⟩ := readHeader_ended { r with body := r.body ++ p, headerEnded := true }
            (Http.splitString ((r.body ++ p).take e) LF false)
          split
          · rename_i r' hr
            have h1 : r'.chunkOffset = r.chunkOffset := (congrArg (fun x : Bool × HttpResponse => x.2.chunkOffset) hr) ▸ hh
            exact h1.symm.le
          · rename_i r' hr
            have h1 : r'.chunkOffset = r.chunkOffset := (congrArg (fun x : Bool × HttpResponse => x.2.chunkOffset) hr) ▸ hh
            exact h1.symm.le.trans (parseBody_length { r' with body := r'.body.drop (e + n) }).2.1

theorem feed_offset (r : HttpResponse) (ps : List Bytes) : r.chunkOffset ≤ (feed parse r ps).2.chunkOffset := by
  induction ps generalizing r with
  | nil => exact le_rfl
  | cons p ps ih => exact (parse_offset r p).trans (ih _)

/-- Both conditions met, the pieces before the last are one call. -/
theorem feed_stable {ps : List Bytes} {p : Bytes} (hs : HeaderStable ps p) (hl : LimitStable ps p)
    (hmore : ∀ a ∈ (feed parse fresh ps).1, a = some .notEnoughData) :
    parse fresh ps.flatten = (some .notEnoughData, (feed parse fresh ps).2) ∧
      parse (feed parse fresh ps).2 p = parse fresh (ps.flatten ++ p) := by
  have hcut : ∀ qs q, qs ++ [q] <+: ps ++ [p] → qs <+: ps →
      parse fresh qs.flatten = (some .notEnoughData, (feed parse fresh qs).2) →
      parse (feed parse fresh qs).2 q = parse fresh (qs.flatten ++ q) := by
    intro qs q hq hqs hstate
    have habs := parse_absorbs (u := qs.flatten) (p := q) (by rw [hstate]) (hs.cut hq) ?_
    · rwa [hstate] at habs
    · rintro e n he -
      rw [hstate]
      obtain ⟨rest, hr⟩ := hq
      rcases hl with hl | hl
      · obtain ⟨rest', rfl⟩ := hqs
        rw [feed_append] at hl
        exact Or.inl (Nat.le_zero.mp ((feed_offset _ rest').trans hl.le))
      · have hflat := congrArg List.flatten hr
        simp only [List.flatten_append, List.flatten_singleton] at hflat
        have hend : Http.headerEnd (ps.flatten ++ p) = some (e, n) := by
          obtain ⟨rest', hrest⟩ := hqs
          rw [← hrest, List.flatten_append, List.append_assoc]
          refine Http.headerEnd_append he fun hlf hc => ?_
          exact hs qs ⟨rest', hrest⟩ hlf (by rwa [← hrest, List.flatten_append, List.append_assoc])
        have := hl e n hend
        rw [← hflat] at this
        exact Or.inr (by simp only [List.length_append] at this ⊢; omega)
  have hps := feed_absorbed parse_nil ps
    (fun qs q hq => hcut qs q (hq.trans (List.prefix_append _ _)) ((List.prefix_append _ _).trans hq)) hmore
  exact ⟨hps, hcut ps p List.prefix_rfl List.prefix_rfl hps⟩

/-- Where a piece, of everything fed, has ended the header: the header ends there for
    the whole, and the buffer is shorter than the raw body as soon as a chunk has been
    decoded. -/
def Ended (u : Bytes) (x : HttpResponse) : Prop :=
  ∃ e n r, Http.headerEnd u = some (e, n) ∧ e ≤ maxHttpHeaderSize ∧ readHead (u.take e) = (true, r) ∧
    ¬ (4 ≤ u.length ∧ u.take 4 ≠ bytes "HTTP") ∧ x.headerEnded = true ∧ x.body.length + (e + n) ≤ u.length ∧
    (x.chunkOffset ≠ 0 → x.body.length + (e + n) < u.length)

theorem feed_state {ps : List Bytes} {p : Bytes} (hs : HeaderStable ps p)
    (hmore : ∀ a ∈ (feed parse fresh ps).1, a = some .notEnoughData) :
    (feed parse fresh ps).2 = waiting ps.flatten ∨ Ended ps.flatten (feed parse fresh ps).2 := by
  induction ps using List.reverseRecOn generalizing p with
  | nil => exact Or.inl rfl
  | append_singleton ps q ih =>
    have hcut := hs.cut (List.prefix_append (ps ++ [q]) [p])
    have hs' : HeaderStable ps q := fun qs hq hl hc =>
      hs qs (hq.trans (List.prefix_append _ _)) hl
        (by simpa using hc.trans (List.prefix_append _ p).isInfix)
    rw [feed_snoc] at hmore ⊢
    have hq := hmore _ (List.mem_append_right _ (List.mem_singleton.mpr rfl))
    rw [List.flatten_append, List.flatten_singleton]
    rcases ih hs' fun a ha => hmore a (List.mem_append_left _ ha) with hw | ⟨e, n, r, he, hm, hr, ht, hx, hb, ho⟩
    · -- this piece may end the header
      rw [hw] at hq ⊢
      simp only [parse_waiting] at hq ⊢
      rcases parse_fresh_more hq with ⟨-, hw⟩ | ⟨e, n, r, he, hm, hr, ht, hx⟩
      · exact Or.inl hw
      · obtain ⟨hb, -⟩ := Http.headerEnd_bounds he
        obtain ⟨hr', h0⟩ := readHead_ended hr
        obtain ⟨b1, -, b3, b4⟩ := parseBody_length { r with body := (ps.flatten ++ q).drop (e + n) }
        simp only [List.length_drop] at b1 b3
        rw [hx]
        refine Or.inr ⟨e, n, r, he, hm, hr, ht, b4.trans hr', by omega, fun h => ?_⟩
        have := b3 fun h' => h (h'.trans h0)
        omega
    · right
      obtain ⟨hn, hn2⟩ := Http.headerEnd_bounds he
      have hlen := readHead_length hr
      rw [List.length_take] at hlen
      obtain ⟨b1, b2, b3, b4⟩ := parseBody_length { (feed parse fresh ps).2 with body := (feed parse fresh ps).2.body ++ q }
      simp only [List.length_append] at b1 b2 b3
      simp only [parse_ended hx]
      refine ⟨e, n, r, Http.headerEnd_append he hcut, hm, ?_, ?_, b4.trans hx, ?_, fun h => ?_⟩
      · rwa [List.take_append_of_le_length (by omega)]
      · rw [List.take_append_of_le_length (by omega)]; exact fun h => ht ⟨by omega, h.2⟩
      · rw [List.length_append]; omega
      · rw [List.length_append]
        by_cases h0 : (feed parse fresh ps).2.chunkOffset = 0
        · have := b3 fun h' => h (h'.trans h0)
          omega
        · have := ho h0; omega

/-- Past the limit with something decoded, the buffer is not the raw body that one
    call on the whole refuses. -/
theorem unlimited_body {ps : List Bytes} {p : Bytes} (hs : HeaderStable ps p) (hl : ¬ LimitStable ps p)
    (hmore : ∀ a ∈ (feed parse fresh ps).1, a = some .notEnoughData) :
    (parse (feed parse fresh ps).2 p).2.body ≠ (parse fresh (ps.flatten ++ p)).2.body := by
  simp only [LimitStable, not_or, Classical.not_forall] at hl
  obtain ⟨h0, e', n', he', hmax⟩ := hl
  rcases feed_state hs hmore with hw | ⟨e, n, r, he, hm, hr, ht, hx, hb, ho⟩
  · rw [hw] at h0; exact absurd rfl h0
  · obtain ⟨hn, hn2⟩ := Http.headerEnd_bounds he
    have hlen := readHead_length hr
    rw [List.length_take] at hlen
    have hend := Http.headerEnd_append (p := p) he (hs.cut (q := p) List.prefix_rfl)
    obtain ⟨rfl, rfl⟩ : e = e' ∧ n = n' := by rw [hend] at he'; simpa using he'
    have hsingle : (parse fresh (ps.flatten ++ p)).2.body = (ps.flatten ++ p).drop (e + n) := by
      rw [parse_fresh, if_neg (by rw [List.take_append_of_le_length (by omega)]; exact fun h => ht ⟨by omega, h.2⟩), hend]
      simp only
      rw [if_neg (by omega), List.take_append_of_le_length (by omega), hr]
      simp only [parseBody]
      rw [if_pos (by rw [List.length_drop]; omega)]
    rw [hsingle, parse_ended hx]
    intro heq
    have hlen := congrArg List.length heq
    have h1 := (parseBody_length { (feed parse fresh ps).2 with body := (feed parse fresh ps).2.body ++ p }).1
    have h2 := ho h0
    simp only [List.length_append, List.length_drop] at hlen h1
    omega

end HttpResponse

/-! ## In pieces and whole -/

/-- A request is the same in pieces as whole exactly where no header boundary was
    guessed; a response is where moreover the limit on the body did not see a chunk
    already cut out, and there this is exact. -/
theorem parse_segmentation (ps : List Bytes) (p : Bytes) :
    ((∀ a ∈ (feed HttpRequest.parse .fresh ps).1, a = some .notEnoughData) →
      (((HttpRequest.parse (feed HttpRequest.parse .fresh ps).2 p).1 = (HttpRequest.parse .fresh (ps.flatten ++ p)).1 ∧
        (HttpRequest.parse (feed HttpRequest.parse .fresh ps).2 p).2.toHttp =
          (HttpRequest.parse .fresh (ps.flatten ++ p)).2.toHttp) ↔ HeaderStable ps p)) ∧
    ((∀ a ∈ (feed HttpResponse.parse .fresh ps).1, a = some .notEnoughData) → HeaderStable ps p →
      (((HttpResponse.parse (feed HttpResponse.parse .fresh ps).2 p).1 = (HttpResponse.parse .fresh (ps.flatten ++ p)).1 ∧
        (HttpResponse.parse (feed HttpResponse.parse .fresh ps).2 p).2.toHttp =
          (HttpResponse.parse .fresh (ps.flatten ++ p)).2.toHttp) ↔ HttpResponse.LimitStable ps p)) := by
  refine ⟨fun hmore => ⟨fun ⟨_, h⟩ => ?_, fun hs => ?_⟩, fun hmore hs => ⟨fun ⟨_, h⟩ => ?_, fun hl => ?_⟩⟩
  · by_contra hs
    exact HttpRequest.unstable_body hs hmore (congrArg Http.body h)
  · have hps := HttpRequest.feed_stable hs hmore
    have habs := HttpRequest.parse_absorbs (p := p) (by rw [hps]) (hs.cut (q := p) List.prefix_rfl)
    rw [hps] at habs
    rw [habs]
    exact ⟨rfl, rfl⟩
  · by_contra hl
    exact HttpResponse.unlimited_body hs hl hmore (congrArg Http.body h)
  · obtain ⟨-, habs⟩ := HttpResponse.feed_stable hs hl hmore
    rw [habs]
    exact ⟨rfl, rfl⟩

/-- A request cut inside its method and a response cut inside its version. -/
theorem parse_segmentation_cut :
    (HttpRequest.parse (feed HttpRequest.parse .fresh [bytes "GE"]).2 (bytes "T / HTTP/1.1\r\n\r\n")).1 =
        (HttpRequest.parse .fresh ([bytes "GE"].flatten ++ bytes "T / HTTP/1.1\r\n\r\n")).1 ∧
      (HttpResponse.parse (feed HttpResponse.parse .fresh [bytes "HTTP/1"]).2 (bytes ".1 200 \r\n\r\n")).1 =
        (HttpResponse.parse .fresh ([bytes "HTTP/1"].flatten ++ bytes ".1 200 \r\n\r\n")).1 := by
  have hstable : ∀ (a p : Bytes), ¬ lflf <:+: a → HeaderStable [a] p := by
    intro a p ha qs hq hl
    obtain ⟨rs, hrs⟩ := hq
    refine absurd (hl.trans ⟨[], rs.flatten, ?_⟩) ha
    rw [List.nil_append, ← List.flatten_append, hrs, List.flatten_singleton]
  have hreq := (parse_segmentation [bytes "GE"] (bytes "T / HTTP/1.1\r\n\r\n")).1 (by decide +kernel)
  have hres := (parse_segmentation [bytes "HTTP/1"] (bytes ".1 200 \r\n\r\n")).2 (by decide +kernel)
    (hstable _ _ (by decide))
  exact ⟨(hreq.mpr (hstable _ _ (by decide))).1, (hres.mpr (Or.inl (by decide +kernel))).1⟩

/-- The second line end of the header is an LF, the four bytes announced are CR LF CR LF:
    cut between the two the request is complete, and whole it is not. -/
theorem guessed_header_end :
    ¬ ∀ (ps : List Bytes) (p : Bytes), (∀ q ∈ ps, q ≠ []) → p ≠ [] →
      (∀ a ∈ (feed HttpRequest.parse .fresh ps).1, a = some .notEnoughData) →
      (HttpRequest.parse (feed HttpRequest.parse .fresh ps).2 p).1 = (HttpRequest.parse .fresh (ps.flatten ++ p)).1 := by
  intro h
  have := h [bytes "GET / HTTP/1.1\ncontent-length: 4\n\n"] (bytes "\r\n\r\n") (by decide) (by decide) (by decide +kernel)
  exact absurd this (by decide +kernel)

end Frnetlib
