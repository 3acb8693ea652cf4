/-
  Frnetlib.Http.Conversation — requests and responses over one connection, turn by turn.

  A client sends its requests one after the other, each after the response to the one before,
  and a server answers what it receives. A round of `Http::receive` takes a block of what has
  arrived and parses it (`receive_rounds`), so the two are the parties of a
  `Frnetlib.Base.Dialogue`, and every written message that keeps to the limits is one that is
  understood (`HttpRequest.Deliverable.understood`, `HttpResponse.Deliverable.understood`).
  However the bytes are cut, and whoever moves next, nothing is lost, mixed up or waited for
  in vain (`conversation`).
-/

import Frnetlib.Base.Dialogue
import Frnetlib.Http.Receive
import Frnetlib.Http.RequestRoundTrip
import Frnetlib.Http.ResponseRoundTrip

namespace Frnetlib

open Base Socket Receiver

/-! ## The rounds of `receive` -/

namespace Http

variable {ρ σ : Type} [Receiver σ]

/-- Blocks that are read one after the other. -/
inductive Reads : σ → List Bytes → σ → Prop where
  | nil (w : σ) : Reads w [] w
  | cons {w w₁ w' : σ} {b : Bytes} {bs : List Bytes} (h : receiveRaw recvChunkSize w = some (.success, b, w₁))
      (hbs : Reads w₁ bs w') : Reads w (b :: bs) w'

theorem receiveFrom_rounds {parse : ρ → Bytes → Option Status × ρ} {bs : List Bytes} {r r' : ρ} {w w' : σ} {st : Status}
    (hreads : Reads w bs w') (hst : st ≠ .notEnoughData) {n : Nat}
    (hfeed : feed parse r bs = (List.replicate n (some .notEnoughData) ++ [some st], r')) (total : Nat)
    (state : Option Status) : receiveFrom parse total state r w = (.returned st, r', w') := by
  induction hreads generalizing n r total state with
  | nil w =>
    have hlen := congrArg (fun x => x.1.length) hfeed
    simp [feed] at hlen
  | @cons w w₁ w' b bs h hbs ih =>
    obtain ⟨hanswers, hstate⟩ := Prod.mk.inj hfeed
    cases n with
    | zero =>
      -- the last block
      obtain ⟨hanswer, hnil⟩ := List.cons.inj hanswers
      have hempty : bs = [] := by
        have hlen := feed_length parse (parse r b).2 bs
        rw [hnil] at hlen
        exact List.eq_nil_of_length_eq_zero hlen.symm
      subst hempty
      cases hbs
      have hparse : parse r b = (some st, r') := Prod.ext hanswer hstate
      exact receiveFrom_done h hparse hst
    | succ n =>
      obtain ⟨hanswer, hrest⟩ := List.cons.inj hanswers
      have hparse : parse r b = (some .notEnoughData, (parse r b).2) := Prod.ext hanswer rfl
      rw [receiveFrom_more h hparse]
      exact ih (Prod.ext hrest hstate) _ _

/-- `receive` is the parser fed the blocks that are read, up to the first that is answered by
    anything else than NotEnoughData. -/
theorem receive_rounds {parse : ρ → Bytes → Option Status × ρ} {bs : List Bytes} {r r' : ρ} {w w' : σ} {st : Status}
    (hreads : Reads w bs w') (hst : st ≠ .notEnoughData) {n : Nat}
    (hfeed : feed parse r bs = (List.replicate n (some .notEnoughData) ++ [some st], r')) :
    receive parse r w = (.returned st, r', w') := receiveFrom_rounds hreads hst hfeed 0 none

end Http

/-! ## Messages that are understood -/

namespace HttpRequest

/-- A header block that is read as `r`, and the body it announces. -/
theorem understood_block {line : Bytes} {lines : List Bytes} {body : Bytes} {r : HttpRequest} {t : RequestType}
    (hlines : ∀ l ∈ line :: lines, Http.Plain l) (ht : t ∈ Http.methods) (hline : Http.requestTypeToString t <+: line)
    (hread : readHeader { fresh with headerEnded := true } (Http.received (line :: lines)) = (true, r))
    (hlength : r.contentLength = body.length) (hsize : (Http.block (line :: lines)).length ≤ maxHttpHeaderSize)
    (hbody : body.length ≤ maxHttpBodySize) :
    ∃ post, Understood parse (some .notEnoughData) (some .success) fresh (Http.block (line :: lines) ++ body)
      { r with body := body, postData := post } := by
  have hne : Http.block (line :: lines) ++ body ≠ [] := List.append_ne_nil_of_left_ne_nil (Http.block_ne_nil line lines) body
  have hfeed : ∀ ps : List Bytes, (∀ p ∈ ps, p ≠ []) → ps.flatten = Http.block (line :: lines) ++ body →
      ∃ post, feed parse fresh ps = (List.replicate (ps.length - 1) (some .notEnoughData) ++ [some .success],
        { r with body := body, postData := post }) :=
    fun _ => feed_message hlines ht hline hread hlength hsize hbody
  have hmore : ∀ u, u <+: Http.block (line :: lines) ++ body → u ≠ Http.block (line :: lines) ++ body →
      (parse fresh u).1 = some .notEnoughData := by
    intro u hu hcut
    obtain ⟨rest, hrest⟩ := hu
    by_cases hnil : u = []
    · rw [hnil, parse_nil]
    · have hrestne : rest ≠ [] := by
        rintro rfl
        exact hcut (by rw [← hrest, List.append_nil])
      obtain ⟨post, hpost⟩ := hfeed [u, rest] (by simp [hnil, hrestne]) (by simpa using hrest)
      exact (List.cons.inj (congrArg Prod.fst hpost)).1
  have habs : ∀ u p, u ++ p <+: Http.block (line :: lines) ++ body → (parse fresh u).1 = some .notEnoughData →
      parse (parse fresh u).2 p = parse fresh (u ++ p) :=
    fun u p hup hu => parse_absorbs hu ((Http.block_closed (Http.Plain.lines hlines)).stable hup)
  obtain ⟨post, hpost⟩ := hfeed [Http.block (line :: lines) ++ body] (by simpa using hne) (by simp)
  obtain ⟨hanswer, hstate⟩ := Prod.mk.inj hpost
  have hlast : parse fresh (Http.block (line :: lines) ++ body) = (some .success, { r with body := body, postData := post }) :=
    Prod.ext (List.cons.inj hanswer).1 hstate
  refine ⟨post, fun ps hps hflat => ?_⟩
  rw [feed_cut parse_nil hmore habs ps hps hflat hne, hlast]

/-- What another end can be sent, with this iteration order and this address. -/
structure Deliverable (o : Order) (host : Bytes) (r : HttpRequest) : Prop where
  writable : r.Writable
  address : ∀ b ∈ host, isPrint b = true
  body : r.body.length ≤ maxHttpBodySize
  head : (r.construct o host).length - r.body.length ≤ maxHttpHeaderSize

/-- What was received is what was sent. -/
structure Carries (r x : HttpRequest) : Prop where
  type : x.requestType = if r.requestType = .unknown then .get else r.requestType
  version : x.version = r.version
  uri : x.uri = r.uri
  gets : ∀ k, x.getData.lookup k = r.getData.lookup k
  body : x.body = r.body
  headers : ∀ k v, r.headerData.lookup k = some v → x.headerData.lookup k = some v
  others : ∀ k ∈ x.headerData, k ∈ r.headerData ∨ k ∈ [bytes "connection", bytes "host", bytes "content-length"]

/-- What is written, a header block and the body, and what its lines are read as. -/
theorem Deliverable.block {o : Order} {host : Bytes} {r : HttpRequest} (h : r.Deliverable o host) :
    ∃ line lines t x, r.construct o host = Http.block (line :: lines) ++ r.body ∧ (∀ l ∈ line :: lines, Http.Plain l) ∧
      t ∈ Http.methods ∧ Http.requestTypeToString t <+: line ∧
      readHeader { fresh with headerEnded := true } (Http.received (line :: lines)) = (true, x) ∧
      x.contentLength = r.body.length ∧ (Http.block (line :: lines)).length ≤ maxHttpHeaderSize ∧
      ∀ post, r.Carries { x with body := r.body, postData := post } := by
  have hr := h.writable
  have hsize := h.head
  rw [construct_block o hr.posts host, List.length_append, Nat.add_sub_cancel] at hsize
  have hds := defaults_lines hr.content_length h.address
  have hperm := o.headers_perm r.headerData
  have hlines : ∀ l ∈ r.requestLine o :: r.fieldLines o host, Http.Plain l :=
    List.forall_mem_cons.mpr ⟨hr.line_plain o, hr.headers.printable.plain hperm hds⟩
  have hlen : (r.requestLine o).length < 2 ^ 64 := by
    rw [Http.block_cons, List.length_append] at hsize
    simp only [maxHttpHeaderSize] at hsize
    omega
  have hbody := h.body
  obtain ⟨x, hread, htype, hversion, huri, hgets, hlength, hlookup⟩ :=
    hr.read o host hlen (by simp only [maxHttpBodySize] at hbody; omega)
  have hmethod : Http.requestTypeToString r.writtenType <+: r.requestLine o := by
    rw [requestLine, List.append_assoc]
    exact List.prefix_append _ _
  refine ⟨_, _, _, x, construct_block o hr.posts host, hlines, hr.writtenType, hmethod, hread, hlength, hsize, fun post => ?_⟩
  refine ⟨htype, hversion, huri, fun k => ?_, rfl, fun k v hk => ?_, fun k hk => ?_⟩
  · simp only [hgets]
    exact hr.gets o k
  · simp only [hlookup]
    exact hr.headers.lookup hperm hds hk
  · by_contra hnot
    simp only [not_or] at hnot
    refine absurd (AList.lookup_isSome.mpr hk) ?_
    simp only [hlookup]
    rw [fieldLines, hr.headers.printable.named.lookup_other hperm hds.added hnot.1 fun d hd heq => ?_]
    · exact Bool.false_ne_true
    · subst heq
      exact hnot.2 (defaults_names hd)

theorem Deliverable.understood {o : Order} {host : Bytes} {r : HttpRequest} (h : r.Deliverable o host) :
    ∃ x, Understood parse (some .notEnoughData) (some .success) fresh (r.construct o host) x ∧ r.Carries x := by
  obtain ⟨line, lines, t, x, htext, hlines, ht, hmethod, hread, hlength, hsize, hcarries⟩ := h.block
  obtain ⟨post, hunderstood⟩ := understood_block hlines ht hmethod hread hlength hsize h.body
  exact ⟨_, htext ▸ hunderstood, hcarries post⟩

end HttpRequest

namespace HttpResponse

structure Deliverable (o : Order) (host : Bytes) (r : HttpResponse) : Prop where
  writable : r.Writable
  body : r.body.length ≤ maxHttpBodySize
  head : (r.construct o host).length - r.body.length ≤ maxHttpHeaderSize

structure Carries (r x : HttpResponse) : Prop where
  status : x.status = r.status
  version : x.version = r.version
  body : x.body = r.body
  headers : ∀ k v, r.headerData.lookup k = some v → x.headerData.lookup k = some v
  others : ∀ k ∈ x.headerData, k ∈ r.headerData ∨ k ∈ [bytes "connection", bytes "content-type", bytes "content-length"]

theorem Deliverable.understood {o : Order} {host : Bytes} {r : HttpResponse} (h : r.Deliverable o host) :
    ∃ x, Understood parse (some .notEnoughData) (some .success) fresh (r.construct o host) x ∧ r.Carries x := by
  have hr := h.writable
  have hsize := h.head
  have hbody := h.body
  rw [construct_block o hr host, List.length_append, Nat.add_sub_cancel] at hsize
  have hds := hr.defaults
  have hperm := o.headers_perm r.headerData
  have hlines : ∀ l ∈ r.statusLine :: r.fieldLines o, Http.Plain l :=
    List.forall_mem_cons.mpr ⟨r.statusLine_plain, hr.headers.printable.plain hperm hds⟩
  obtain ⟨r', hread, hstatus, hversion, hchunked, hlength, hlookup⟩ :=
    hr.read o (by simp only [maxHttpBodySize] at hbody; omega)
  refine ⟨{ r' with body := r.body }, fun ps hps hflat => ?_, hstatus, hversion, rfl, fun k v hk => ?_, fun k hk => ?_⟩
  · rw [construct_block o hr host] at hflat
    exact feed_message hlines r.statusLine_http hread hchunked hlength hsize hbody hps hflat
  · simp only [hlookup]
    exact hr.headers.lookup hperm hds hk
  · by_contra hnot
    simp only [not_or] at hnot
    refine absurd (AList.lookup_isSome.mpr hk) ?_
    simp only [hlookup]
    rw [fieldLines, hr.headers.printable.named.lookup_other hperm hds.added hnot.1 fun d hd heq => ?_]
    · exact Bool.false_ne_true
    · subst heq
      exact hnot.2 (defaults_names hd)

end HttpResponse

/-! ## The conversation -/

namespace Http

variable (o o' : Order) (host host' : Bytes) (handler : HttpRequest → HttpResponse)

/-- A client that sends and receives in turn, and a server that answers what it receives. -/
def parties : Parties UInt8 (Option Status) HttpRequest HttpResponse where
  more := some .notEnoughData
  done := some .success
  limit := recvChunkSize
  ask := HttpRequest.parse
  ask₀ := .fresh
  answer r := (handler r).construct o' host'
  reply := HttpResponse.parse
  reply₀ := .fresh

/-- A request, and what each end makes of what it receives. -/
def exchange (request : HttpRequest) : Parties.Exchange UInt8 HttpRequest HttpResponse :=
  let asked := (HttpRequest.parse .fresh (request.construct o host)).2
  ⟨request.construct o host, asked, (HttpResponse.parse .fresh ((handler asked).construct o' host')).2⟩

variable {o o' : Order} {host host' : Bytes} {handler : HttpRequest → HttpResponse}

theorem understood_eq {σ : Type} {step : σ → Bytes → Option Status × σ} {x₀ x : σ} {s : Bytes}
    (h : Understood step (some .notEnoughData) (some .success) x₀ s x) : (step x₀ s).2 = x := by
  have hdone := h.piece_done (List.forall_mem_nil _) h.ne_nil rfl
  exact congrArg Prod.snd hdone

theorem exchange_good {request : HttpRequest} (hrequest : request.Deliverable o host)
    (hhandler : ∀ x, request.Carries x → (handler x).Deliverable o' host') :
    (parties o' host' handler).Good (exchange o o' host host' handler request) ∧
      request.Carries (exchange o o' host host' handler request).asked ∧
      (handler (exchange o o' host host' handler request).asked).Carries (exchange o o' host host' handler request).answered := by
  obtain ⟨x, hx, hcarries⟩ := hrequest.understood
  obtain ⟨y, hy, hanswers⟩ := (hhandler x hcarries).understood
  unfold exchange
  rw [understood_eq hx]
  simp only
  rw [understood_eq hy]
  exact ⟨⟨hx, hy⟩, hcarries, hanswers⟩

/-- The first parts of two lists that are made of one. -/
theorem forall₂_prefix {α β γ : Type} {f : α → β} {g : α → γ} {p : β → γ → Prop} {as : List α} {bs : List β} {cs : List γ}
    (hbs : bs <+: as.map f) (hcs : cs <+: as.map g) (hle : cs.length ≤ bs.length) (h : ∀ a ∈ as, p (f a) (g a)) :
    List.Forall₂ p (bs.take cs.length) cs := by
  have hsame : List.Forall₂ p ((as.take cs.length).map f) ((as.take cs.length).map g) := by
    rw [List.forall₂_map_left_iff, List.forall₂_map_right_iff, List.forall₂_same]
    exact fun a ha => h a (List.mem_of_mem_take ha)
  have hb : bs.take cs.length = (as.take cs.length).map f := by
    rw [List.map_take, List.prefix_iff_eq_take.mp hbs, List.take_take, Nat.min_eq_left hle]
  have hc : cs = (as.take cs.length).map g := by
    rw [List.map_take]
    exact List.prefix_iff_eq_take.mp hcs
  rw [hb]
  nth_rewrite 2 [hc]
  exact hsame

end Http

/-- However the bytes are cut and whoever moves next: what the server has received are the
    first requests as they were sent, and what the client has received the answers to the
    first of these, at most one behind. A run ends, and only when all is answered. -/
theorem conversation (o o' : Order) (host host' : Bytes) (handler : HttpRequest → HttpResponse) (requests : List HttpRequest)
    (hrequests : ∀ r ∈ requests, r.Deliverable o host)
    (hhandler : ∀ r ∈ requests, ∀ x, r.Carries x → (handler x).Deliverable o' host') :
    ∃ bound, ∀ (moves : List Parties.Move) (s : Parties.Dialogue HttpRequest HttpResponse UInt8),
      run (Http.parties o' host' handler).move
          ((Http.parties o' host' handler).start (requests.map fun r => r.construct o host)) moves = some s →
        List.Forall₂ HttpRequest.Carries (requests.take s.asked.length) s.asked ∧
        List.Forall₂ (fun x y => (handler x).Carries y) (s.asked.take s.answered.length) s.answered ∧
        s.answered.length ≤ s.asked.length ∧ s.asked.length ≤ s.answered.length + 1 ∧ moves.length ≤ bound ∧
        ((∀ m, (Http.parties o' host' handler).move s m = none) → s.answered.length = requests.length) := by
  have hgood := fun r hr => Http.exchange_good (hrequests r hr) (hhandler r hr)
  refine ⟨(Http.parties o' host' handler).work (requests.map (Http.exchange o o' host host' handler)), fun moves s hrun => ?_⟩
  have hes : ∀ e ∈ requests.map (Http.exchange o o' host host' handler), (Http.parties o' host' handler).Good e := by
    intro e he
    obtain ⟨r, hr, rfl⟩ := List.mem_map.mp he
    exact (hgood r hr).1
  have htexts : (requests.map (Http.exchange o o' host host' handler)).map Parties.Exchange.text =
      requests.map fun r => r.construct o host := by
    rw [List.map_map]
    rfl
  have hlimit : 0 < (Http.parties o' host' handler).limit := show 0 < recvChunkSize by decide
  have hne : (Http.parties o' host' handler).done ≠ (Http.parties o' host' handler).more :=
    show some Status.success ≠ some .notEnoughData by decide
  rw [← htexts] at hrun
  obtain ⟨hfaithful, hbound, hstuck⟩ := Parties.dialogue_faithful hlimit hne hes hrun
  have hasked := hfaithful.asked
  have hanswered := hfaithful.answered
  rw [List.map_map] at hasked hanswered
  have hall : requests <+: requests.map id := by rw [List.map_id]
  have hle : s.asked.length ≤ requests.length := by simpa using hasked.length_le
  refine ⟨Http.forall₂_prefix hall hasked hle fun r hr => (hgood r hr).2.1,
    Http.forall₂_prefix hasked hanswered hfaithful.behind.1 fun r hr => (hgood r hr).2.2, hfaithful.behind.1, hfaithful.behind.2,
    hbound, fun hnone => ?_⟩
  rw [hstuck hnone, List.length_map, List.length_map]

/-- A server that sends the body of a request back. -/
def echo (r : HttpRequest) : HttpResponse := { sampleNotFound with body := r.body }

theorem samplePatch_deliverable : samplePatch.Deliverable .kept (bytes "h") where
  writable := samplePatch_writable
  address := forall_of_all (by decide)
  body := by decide
  head := by decide +kernel

theorem echo_deliverable {x : HttpRequest} (hx : samplePatch.Carries x) : (echo x).Deliverable .kept [] := by
  have hsame : echo x = echo samplePatch := by rw [echo, hx.body, echo]
  rw [hsame]
  exact ⟨⟨by decide, by decide, sampleNotFound_writable.headers, by decide, by decide⟩, by decide, by decide +kernel⟩

theorem conversation_echo :
    ∃ bound, ∀ (moves : List Parties.Move) (s : Parties.Dialogue HttpRequest HttpResponse UInt8),
      run (Http.parties .kept [] echo).move
          ((Http.parties .kept [] echo).start [samplePatch.construct .kept (bytes "h"), samplePatch.construct .kept (bytes "h")])
          moves = some s →
        moves.length ≤ bound ∧ ((∀ m, (Http.parties .kept [] echo).move s m = none) → s.answered.length = 2) := by
  obtain ⟨bound, h⟩ := conversation .kept .kept (bytes "h") [] echo [samplePatch, samplePatch]
    (by simpa using samplePatch_deliverable) (by simpa using fun x hx => echo_deliverable hx)
  refine ⟨bound, fun moves s hrun => ?_⟩
  obtain ⟨-, -, -, -, hbound, hstuck⟩ := h moves s hrun
  exact ⟨hbound, hstuck⟩

end Frnetlib
