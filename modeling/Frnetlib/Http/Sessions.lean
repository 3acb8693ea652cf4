/-
  Frnetlib.Http.Sessions — what each client of the concurrent HTTP server gets
  (`examples/concurrent_http_server/ConcurrentHTTPServer.cpp`).

  However the events of the clients are interleaved, the requests handed on for a client are
  what a parser of its own would make of the blocks received from it (`sessions_apart`). Of
  requests sent in a row those that have arrived whole come out as they were sent exactly
  when a block ends where each of them does (`sessions_served`).
-/

import Frnetlib.Base.Series
import Frnetlib.Http.Pipelining
import Frnetlib.Http.Server

namespace Frnetlib

open Base

namespace HttpRequest

/-- The requests that come of the blocks of one client. -/
def served (blocks : List Bytes) : List HttpRequest := serve parse fresh (some .success) blocks

theorem Pipelinable.isText {o : Order} {host : Bytes} {r : HttpRequest} (h : r.Pipelinable o host) :
    IsText parse fresh (some .success) (some .notEnoughData) recvChunkSize (r.construct o host) r.Carries := by
  obtain ⟨hparses, hbehind, hcarries⟩ := h.parses
  refine ⟨hparses.ne_nil, hparses.more, hparses.absorbs, hparses.done, fun v hv => ⟨fun hx => ?_, ?_⟩⟩
  · have hbody := hx.body
    rw [hbehind v hv] at hbody
    exact List.append_right_eq_self.mp hbody
  · rintro rfl
    rwa [List.append_nil]

end HttpRequest

open HttpRequest

namespace Server

variable {listener : Nat} {s s' : Server}

/-- Each client's session is its own. -/
structure Private (listener : Nat) (s : Server) : Prop where
  session : ∀ key pointer d, key ≠ listener → s.process.members key = some ⟨pointer, d⟩ → ∃ session,
    s.sessions pointer = some session ∧
      (s.arrived key).foldl (serveBlock parse fresh (some .success)) ([], fresh) = (s.handed key, session.partialRequest)
  blocks : ∀ key, ∀ b ∈ s.arrived key, b.length ≤ bufferSize
  ended : ∀ x ∈ s.ended, x.2 = served x.1 ∧ ∀ b ∈ x.1, b.length ≤ bufferSize

/-- A block is added for one of the clients. -/
theorem Private.blocks_update (hp : s.Private listener) (key : Nat) {bs : List Bytes} (hbs : ∀ b ∈ bs, b.length ≤ bufferSize) :
    ∀ key', ∀ b ∈ Function.update s.arrived key bs key', b.length ≤ bufferSize := by
  intro key' b hb
  by_cases hne : key' = key
  · rw [hne, Function.update_self] at hb
    exact hbs b hb
  · rw [Function.update_of_ne hne] at hb
    exact hp.blocks key' b hb

theorem Private.blocks_snoc (hp : s.Private listener) (key : Nat) {data : Bytes} (hdata : data.length ≤ bufferSize) :
    ∀ b ∈ s.arrived key ++ [data], b.length ≤ bufferSize := by
  intro b hb
  rcases List.mem_append.mp hb with hb | hb
  · exact hp.blocks key b hb
  · rw [List.mem_singleton.mp hb]
    exact hdata

theorem Private.admitted (hp : s.Private listener) {c : Client} (hsession : s.sessions c.session = none) {p : PointerProcess}
    (hmembers : p.members = Function.update s.process.members c.key (some ⟨c.session, c.descriptor⟩)) (rest : List (Nat × Nat)) :
    Private listener { s with
      process := p
      sessions := Function.update s.sessions c.session (some .new)
      ready := rest
      arrived := Function.update s.arrived c.key []
      handed := Function.update s.handed c.key [] } := by
  refine ⟨fun key pointer d hl hk => ?_, hp.blocks_update c.key nofun, hp.ended⟩
  simp only [hmembers] at hk
  by_cases hne : key = c.key
  · subst hne
    rw [Function.update_self] at hk
    cases hk
    simp only [Function.update_self]
    exact ⟨.new, rfl, rfl⟩
  · rw [Function.update_of_ne hne] at hk
    obtain ⟨session, hsome, hserved⟩ := hp.session key pointer d hl hk
    have hpointer : pointer ≠ c.session := by
      rintro rfl
      rw [hsession] at hsome
      cases hsome
    simp only [Function.update_of_ne hne, Function.update_of_ne hpointer]
    exact ⟨session, hsome, hserved⟩

theorem Private.taken (hp : s.Private listener) (h : s.Inv listener) {key pointer : Nat} {d : Int} (hkey : key ≠ listener)
    (hmember : s.process.members key = some ⟨pointer, d⟩) {session : SessionState} (hsession : s.sessions pointer = some session)
    {data : Bytes} (hlength : data.length ≤ bufferSize) {request : HttpRequest} {b : Bool}
    (hparse : session.partialRequest.parse data = (some (if b then .success else .notEnoughData), request))
    (rest : List (Nat × Nat)) :
    Private listener { s with
      sessions := Function.update s.sessions pointer (some (if b then .new else ⟨request⟩))
      ready := rest
      arrived := Function.update s.arrived key (s.arrived key ++ [data])
      handed := if b then Function.update s.handed key (s.handed key ++ [request]) else s.handed } := by
  refine ⟨fun key' pointer' d' hl hk => ?_, hp.blocks_update key (hp.blocks_snoc key hlength), hp.ended⟩
  obtain ⟨session', hsome, hserved⟩ := hp.session key' pointer' d' hl hk
  by_cases hne : key' = key
  · subst hne
    cases hmember.symm.trans hk
    cases hsession.symm.trans hsome
    simp only [Function.update_self]
    refine ⟨_, rfl, ?_⟩
    rw [List.foldl_append, hserved, List.foldl_cons, List.foldl_nil]
    unfold serveBlock
    simp only [hparse]
    cases b
    · rfl
    · simp only [if_true, Function.update_self]
      rfl
  · have hpointer : pointer' ≠ pointer := by
      rintro rfl
      exact hne (h.apart key' key pointer' d' d hl hkey hk hmember)
    have hhanded : (if b then Function.update s.handed key (s.handed key ++ [request]) else s.handed) key' = s.handed key' := by
      cases b
      · rfl
      · exact Function.update_of_ne hne _ _
    simp only [Function.update_of_ne hne, Function.update_of_ne hpointer, hhanded]
    exact ⟨session', hsome, hserved⟩

theorem Private.dropped (hp : s.Private listener) (h : s.Inv listener) {key pointer : Nat} {d : Int} (hkey : key ≠ listener)
    (hmember : s.process.members key = some ⟨pointer, d⟩) {arrived : Nat → List Bytes}
    (harrived : arrived = s.arrived ∨ ∃ data request status session, s.sessions pointer = some session ∧
      data.length ≤ bufferSize ∧ session.partialRequest.parse data = (some status, request) ∧ status ≠ .success ∧
        arrived = Function.update s.arrived key (s.arrived key ++ [data]))
    {p : PointerProcess} (hmembers : p.members = Function.update s.process.members key none) (rest : List (Nat × Nat)) :
    Private listener { s with
      process := p
      sessions := Function.update s.sessions pointer none
      ready := rest
      removed := key :: s.removed
      arrived := arrived
      ended := s.ended ++ [(arrived key, s.handed key)] } := by
  obtain ⟨session, hsession, hown⟩ := hp.session key pointer d hkey hmember
  have hblocks : ∀ key', ∀ b ∈ arrived key', b.length ≤ bufferSize := by
    rcases harrived with rfl | ⟨data, request, status, session', -, hlength, -, -, rfl⟩
    · exact hp.blocks
    · exact hp.blocks_update key (hp.blocks_snoc key hlength)
  have hothers : ∀ key', key' ≠ key → arrived key' = s.arrived key' := by
    intro key' hne
    rcases harrived with rfl | ⟨data, request, status, session', -, -, -, -, rfl⟩
    · rfl
    · exact Function.update_of_ne hne _ _
  -- a block that is no request, nor the beginning of one, adds nothing
  have hserved : s.handed key = served (arrived key) := by
    rcases harrived with rfl | ⟨data, request, status, session', hsome, -, hparse, hstatus, rfl⟩
    · exact (congrArg Prod.fst hown).symm
    · cases hsession.symm.trans hsome
      unfold served serve
      rw [Function.update_self, List.foldl_append, hown, List.foldl_cons, List.foldl_nil]
      unfold serveBlock
      simp only [hparse]
      rw [if_neg fun hsuccess => hstatus (Option.some_inj.mp hsuccess)]
  refine ⟨fun key' pointer' d' hl hk => ?_, hblocks, fun x hx => ?_⟩
  · simp only [hmembers] at hk
    have hne : key' ≠ key := by
      rintro rfl
      rw [Function.update_self] at hk
      cases hk
    rw [Function.update_of_ne hne] at hk
    have hpointer : pointer' ≠ pointer := by
      rintro rfl
      exact hne (h.apart key' key pointer' d' d hl hkey hk hmember)
    simp only [Function.update_of_ne hpointer, hothers key' hne]
    exact hp.session key' pointer' d' hl hk
  · rcases List.mem_append.mp hx with hx | hx
    · exact hp.ended x hx
    · rw [List.mem_singleton.mp hx]
      exact ⟨hserved, hblocks key⟩

theorem Turn.keeps_private {m : Move} {o : Result} (ht : Turn listener s m o s') (h : s.Inv listener) (hp : s.Private listener) :
    s'.Private listener := by
  cases ht with
  | waited _ _ hmembers =>
    refine ⟨?_, hp.blocks, hp.ended⟩
    rw [hmembers]
    exact hp.session
  | passed _ => exact ⟨hp.session, hp.blocks, hp.ended⟩
  | refused _ => exact hp
  | admitted _ _ _ hsession _ hmembers => exact hp.admitted hsession hmembers _
  | taken _ hkey hmember hsession hlength hparse => exact hp.taken h hkey hmember hsession hlength hparse _
  | dropped _ hkey hmember harrived _ hmembers => exact hp.dropped h hkey hmember harrived hmembers _

theorem start_private {k : Kernel} {descriptor node : Nat} (h : start k listener descriptor node = some s) :
    s.Private listener := by
  have hinv := start_inv h
  obtain ⟨p, -, rfl⟩ := Option.map_eq_some_iff.mp h
  refine ⟨fun key pointer d hl hk => ?_, nofun, nofun⟩
  exact absurd rfl ((hinv.session pointer).mpr ⟨key, d, hl, hk⟩)

/-- The blocks received from a client, and the requests handed on for it: of one that is a
    member, or that has been removed. -/
def Serves (listener : Nat) (s : Server) (x : List Bytes × List HttpRequest) : Prop :=
  x ∈ s.ended ∨ ∃ key entry, key ≠ listener ∧ s.process.members key = some entry ∧ x = (s.arrived key, s.handed key)

theorem Private.serves (hp : s.Private listener) {x : List Bytes × List HttpRequest} (hx : s.Serves listener x) :
    x.2 = served x.1 ∧ ∀ b ∈ x.1, b.length ≤ bufferSize := by
  rcases hx with hended | ⟨key, entry, hl, hmember, rfl⟩
  · exact hp.ended x hended
  · obtain ⟨session, -, hserved⟩ := hp.session key entry.data entry.descriptor hl hmember
    exact ⟨(congrArg Prod.fst hserved).symm, hp.blocks key⟩

theorem run_private {k : Kernel} {descriptor node : Nat} (hstart : start k listener descriptor node = some s) {moves : List Move}
    (hrun : run (move listener) s moves = some s') : s'.Private listener := by
  have hstep : ∀ s m o s', Inv listener s ∧ Private listener s → move listener s m = some (o, s') →
      Inv listener s' ∧ Private listener s' := by
    intro s m o s' hgiven hr
    have ht := move_turns hgiven.1 hr
    exact ⟨ht.keeps hgiven.1, ht.keeps_private hgiven.1 hgiven.2⟩
  exact (run_keeps hstep ⟨start_inv hstart, start_private hstart⟩ hrun).2

end Server

/-- However the events are interleaved: the requests handed on for a client are those that
    come of its own blocks. -/
theorem sessions_apart {k : Kernel} {listener descriptor node : Nat} {s t : Server}
    (hstart : Server.start k listener descriptor node = some s) {moves : List Server.Move}
    (hrun : run (Server.move listener) s moves = some t) {x : List Bytes × List HttpRequest} (hx : t.Serves listener x) :
    x.2 = served x.1 := ((Server.run_private hstart hrun).serves hx).1

theorem sessions_apart_sample :
    ∃ s t, Server.start ⟨fun _ => none⟩ 1 3 100 = some s ∧ run (Server.move 1) s sampleEvents = some t ∧
      t.handed 2 = served [bytes "GET /a HT", bytes "TP/1.1\r\n\r\n"] := by
  have hruns : ((Server.start ⟨fun _ => none⟩ 1 3 100).bind fun s => (run (Server.move 1) s sampleEvents).map fun t =>
      (t.process.members 2, t.arrived 2)) = some (some ⟨500, 4⟩, [bytes "GET /a HT", bytes "TP/1.1\r\n\r\n"]) := by
    decide +kernel
  obtain ⟨s, hstart, hruns⟩ := Option.bind_eq_some_iff.mp hruns
  obtain ⟨t, hrun, hfinal⟩ := Option.map_eq_some_iff.mp hruns
  obtain ⟨hmember, harrived⟩ := Prod.mk.inj hfinal
  have hserved := sessions_apart hstart hrun (.inr ⟨2, ⟨500, 4⟩, by decide, hmember, rfl⟩)
  rw [harrived] at hserved
  exact ⟨s, t, hstart, hrun, hserved⟩

/-- Of requests that a client sends in a row: those that have arrived whole have been handed
    on as they were sent exactly when a block ends where each of them does. -/
theorem sessions_served {k : Kernel} {listener descriptor node : Nat} {s t : Server}
    (hstart : Server.start k listener descriptor node = some s) {moves : List Server.Move}
    (hrun : run (Server.move listener) s moves = some t) {x : List Bytes × List HttpRequest} (hx : t.Serves listener x)
    {o : Order} {host : Bytes} {requests : List HttpRequest} (hrequests : ∀ r ∈ requests, r.Pipelinable o host)
    (hsent : x.1.flatten <+: (requests.map fun r => r.construct o host).flatten) :
    List.Forall₂ Carries (requests.take (whole (requests.map fun r => r.construct o host) x.1.flatten)) x.2 ↔
      ∀ i ≤ whole (requests.map fun r => r.construct o host) x.1.flatten,
        EndsAt x.1 ((requests.map fun r => r.construct o host).take i).flatten.length := by
  obtain ⟨hserved, hblocks⟩ := (Server.run_private hstart hrun).serves hx
  have htexts : ∀ r ∈ requests,
      IsText parse fresh (some .success) (some .notEnoughData) recvChunkSize (r.construct o host) r.Carries :=
        fun r hr => (hrequests r hr).isText
  rw [hserved]
  exact serve_series parse_nil (by decide) htexts hblocks hsent

/-- A client that sends two requests, each in a block of its own. -/
def samplePipeline : List Server.Move :=
  [.wait (.ok [3]), .accept (some ⟨4, 2, 500, 200, none⟩), .wait (.ok [4]),
    .receive .success (samplePatch.construct .kept (bytes "h")), .wait (.ok [4]),
    .receive .success (samplePatch.construct .kept (bytes "h"))]

theorem sessions_served_sample :
    ∃ s t, Server.start ⟨fun _ => none⟩ 1 3 100 = some s ∧ run (Server.move 1) s samplePipeline = some t ∧
      List.Forall₂ Carries [samplePatch, samplePatch] (t.handed 2) := by
  generalize htext : samplePatch.construct .kept (bytes "h") = text
  have hruns : ((Server.start ⟨fun _ => none⟩ 1 3 100).bind fun s => (run (Server.move 1) s samplePipeline).map fun t =>
      (t.process.members 2, t.arrived 2)) = some (some ⟨500, 4⟩, [text, text]) := by
    rw [← htext]
    decide +kernel
  obtain ⟨s, hstart, hruns⟩ := Option.bind_eq_some_iff.mp hruns
  obtain ⟨t, hrun, hfinal⟩ := Option.map_eq_some_iff.mp hruns
  obtain ⟨hmember, harrived⟩ := Prod.mk.inj hfinal
  have hroom : samplePatch.Pipelinable .kept (bytes "h") := ⟨samplePatch_deliverable, by decide⟩
  have hall : ∀ r ∈ [samplePatch, samplePatch], r.Pipelinable .kept (bytes "h") := by simpa using hroom
  have hserves : t.Serves 1 ([text, text], t.handed 2) := .inr ⟨2, ⟨500, 4⟩, by decide, hmember, by rw [harrived]⟩
  have hwhole : whole ([samplePatch, samplePatch].map fun r => r.construct .kept (bytes "h")) [text, text].flatten = 2 := by
    simp [whole, htext]
  have hserved := sessions_served hstart hrun hserves hall (by simp [htext])
  rw [hwhole] at hserved
  refine ⟨s, t, hstart, hrun, hserved.mpr fun i hi => ⟨i, ?_⟩⟩
  simp [htext]

end Frnetlib
