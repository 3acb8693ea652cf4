/-
  Frnetlib.Http.Server — the loop of the concurrent HTTP server
  (`examples/concurrent_http_server/ConcurrentHTTPServer.cpp`).

  One thread waits on a selector that has the listener and the clients. A new client gets a
  `SessionState`, whose address the selector keeps for it; what a client sends is parsed
  into the request of its session, and a client whose request or socket fails is removed and
  its session deleted. The server is `PointerProcess` with the sessions and what is left of
  `ready_sockets`, which keeps the sockets it names until the next wait.

  In any order of the events, and whatever the clients send: no session is read or deleted
  after it has been deleted, none is lost while its client is a member, and nothing is
  thrown but for a failure of the kernel's (`server_safe`). Left out are the blocking mode
  of the clients and the responses, of which the loop does not read the status.
-/

import Frnetlib.Http.PostBody
import Frnetlib.Net.Wait

namespace Frnetlib

open Base

structure SessionState where
  partialRequest : HttpRequest

def SessionState.new : SessionState := ⟨.fresh⟩

namespace PointerProcess

/-- The entries of the selector, by the addresses of their sockets. -/
def members (p : PointerProcess) : Nat → Option Opaque := p.seen.selector.addedSockets

/-- The last reference to a socket goes. -/
def destroyed (p : PointerProcess) (key : Nat) : PointerProcess :=
  match p.call 0 (.disconnected key) with
  | some (_, p) => p
  | none => p

end PointerProcess

structure Server where
  process : PointerProcess
  /-- The `SessionState` objects, by their addresses. -/
  sessions : Nat → Option SessionState
  /-- What is left of `ready_sockets`: the addresses of a socket and of its session. -/
  ready : List (Nat × Nat)
  /-- The clients removed that `ready_sockets` still keeps. -/
  removed : List Nat
  /-- Ghost: the blocks received from the client whose socket has this address. -/
  arrived : Nat → List Bytes
  /-- Ghost: the requests given to `process_complete_request` with this client. -/
  handed : Nat → List HttpRequest
  /-- Ghost: the same of the clients that have been removed. -/
  ended : List (List Bytes × List HttpRequest)

namespace Server

/-- What `accept` and the allocator give for a new client. -/
structure Client where
  descriptor : Nat
  key : Nat
  session : Nat
  node : Nat
  /-- The `errno` of EPOLL_CTL_ADD, if it fails. -/
  fails : Option Nat
  deriving DecidableEq, Repr

inductive Move where
  /-- A call of `wait`, with what `epoll_wait` gives. -/
  | wait (events : Except Nat (List Nat))
  /-- The listener is ready; `none` if `accept` fails. -/
  | accept (client : Option Client)
  /-- A client is ready, and this is what `receive_raw` gives. -/
  | receive (status : Status) (data : Bytes)

inductive Result where
  | went
  /-- An exception leaves the loop. -/
  | threw
  /-- An object is used that has been deleted. -/
  | undefined
  deriving DecidableEq, Repr

def wait (s : Server) (events : Except Nat (List Nat)) : Option (Result × Server) :=
  if s.ready ≠ [] then none
  else
    match (s.removed.foldl PointerProcess.destroyed s.process).use (.wait events) with
    | none => none
    | some (.ready sockets, p) => some (.went, { s with process := p, ready := sockets, removed := [] })
    | some (.undefined, p) => some (.undefined, { s with process := p, removed := [] })
    | some (_, p) => some (.threw, { s with process := p, removed := [] })

/-- The branch of the listener: `socket` is a socket's address that no object has. -/
def accept (s : Server) (rest : List (Nat × Nat)) (client : Option Client) : Option (Result × Server) :=
  match client with
  | none => some (.went, { s with ready := rest })
  | some c =>
    if s.process.members c.key ≠ none ∨ c.key ∈ s.removed ∨ c.session = 0 ∨ s.sessions c.session ≠ none then none
    else
      match s.process.call 0 (.opened c.key c.descriptor) with
      | none => none
      | some (_, p) =>
        match p.call c.node (.add c.key c.session c.fails) with
        | none => none
        | some (.returned _, p) =>
          some (.went, { s with
            process := p
            sessions := Function.update s.sessions c.session (some .new)
            ready := rest
            arrived := Function.update s.arrived c.key []
            handed := Function.update s.handed c.key [] })
        | some (.undefined, _) => some (.undefined, s)
        | some (_, _) => some (.threw, s)

/-- `delete (SessionState*)listen_loop_selector.remove(client)`. -/
def drop (s : Server) (rest : List (Nat × Nat)) (key : Nat) : Option (Result × Server) :=
  match s.process.call 0 (.remove key) with
  | some (.returned (some pointer), p) =>
    if pointer ≠ 0 ∧ s.sessions pointer = none then some (.undefined, s)
    else
      some (.went, { s with
        process := p
        sessions := Function.update s.sessions pointer none
        ready := rest
        removed := key :: s.removed
        ended := s.ended ++ [(s.arrived key, s.handed key)] })
  | some (.undefined, _) => some (.undefined, s)
  | some (_, _) => some (.threw, s)
  | none => none

def bufferSize : Nat := 0x1000

/-- The branch of a client. -/
def receive (s : Server) (rest : List (Nat × Nat)) (key pointer : Nat) (status : Status) (data : Bytes) :
    Option (Result × Server) :=
  match s.sessions pointer with
  | none => some (.undefined, s)
  | some session =>
    if status = .success then
      if data = [] ∨ bufferSize < data.length then none
      else
        match session.partialRequest.parse data with
        | (none, _) => some (.threw, s)
        | (some parseStatus, request) =>
          let s := { s with arrived := Function.update s.arrived key (s.arrived key ++ [data]) }
          if parseStatus = .success then
            some (.went, { s with
              sessions := Function.update s.sessions pointer (some .new)
              ready := rest
              handed := Function.update s.handed key (s.handed key ++ [request]) })
          else if parseStatus ≠ .notEnoughData then s.drop rest key
          else some (.went, { s with sessions := Function.update s.sessions pointer (some ⟨request⟩), ready := rest })
    else if status ≠ .wouldBlock then s.drop rest key
    else some (.went, { s with ready := rest })

/-- A move, with the listener at this address. -/
def move (listener : Nat) (s : Server) : Move → Option (Result × Server)
  | .wait events => s.wait events
  | .accept client =>
    match s.ready with
    | [] => none
    | (key, _) :: rest =>
      if (s.process.sockets key).socketDescriptor = (s.process.sockets listener).socketDescriptor then s.accept rest client
      else none
  | .receive status data =>
    match s.ready with
    | [] => none
    | (key, pointer) :: rest =>
      if (s.process.sockets key).socketDescriptor = (s.process.sockets listener).socketDescriptor then none
      else s.receive rest key pointer status data

/-- The listener has this descriptor, and is added with a null pointer. -/
def start (k : Kernel) (listener descriptor node : Nat) : Option Server :=
  (run PointerProcess.use (.start k) [.call (.opened listener descriptor) 0, .call (.add listener 0 none) node]).map fun p =>
    ⟨p, fun _ => none, [], [], fun _ => [], fun _ => [], []⟩

end Server

/-! ## The uses of the selector -/

theorem SocketSelector.add_new {selector : SocketSelector} {k : Kernel} {key data d : Nat} {socket : TcpSocket}
    (hkey : selector.addedSockets key = none) (hd : socket.socketDescriptor = d) (hopen : k.isOpen d)
    (hregistered : selector.epoll d = none) :
    selector.add k key socket data none = (.ok (), ⟨Function.update selector.addedSockets key (some ⟨data, d⟩),
      Function.update selector.epoll d (some key)⟩) := by
  have hconnected : socket.connected = true := TcpSocket.connected_iff.mpr ⟨d, hd⟩
  unfold add
  rw [if_neg (not_not_intro hconnected), hkey, hd]
  simp only [Epoll.ctlAdd, if_neg (not_not_intro hopen), if_neg (not_not_intro hregistered)]

namespace PointerProcess

variable {p p' : PointerProcess} {key : Nat}

theorem destroyed_spec (h : p.Inv) (key : Nat) :
    (p.destroyed key).Inv ∧ (p.destroyed key).members = p.members ∧
      ∀ key', key' ≠ key → (p.destroyed key).sockets key' = p.sockets key' := by
  have hcall : p.call 0 (.disconnected key) = some (.returned none, p.destroyed key) := rfl
  have hinv := (use_finds h (u := .call (.disconnected key) 0) hcall trivial).1
  exact ⟨hinv, rfl, fun key' hne => Function.update_of_ne hne _ _⟩

theorem destroyed_all (h : p.Inv) (keys : List Nat) :
    (keys.foldl destroyed p).Inv ∧ (keys.foldl destroyed p).members = p.members ∧
      ∀ key, key ∉ keys → (keys.foldl destroyed p).sockets key = p.sockets key := by
  induction keys generalizing p with
  | nil => exact ⟨h, rfl, fun _ _ => rfl⟩
  | cons key keys ih =>
    obtain ⟨hinv, hmembers, hsockets⟩ := destroyed_spec h key
    obtain ⟨hinv', hmembers', hsockets'⟩ := ih hinv
    refine ⟨hinv', hmembers'.trans hmembers, fun key' hkey' => ?_⟩
    simp only [List.mem_cons, not_or] at hkey'
    exact (hsockets' key' hkey'.2).trans (hsockets key' hkey'.1)

theorem opened_spec (h : p.Inv) (hkey : p.members key = none) {d : Nat} {o : Result}
    (hr : p.call 0 (.opened key d) = some (o, p')) :
    p'.Inv ∧ p'.members = p.members ∧ (p'.sockets key).socketDescriptor = d ∧ p'.kernel.isOpen d ∧
      p'.seen.selector.epoll d = none ∧ ∀ key', key' ≠ key → p'.sockets key' = p.sockets key' := by
  have hinv := (use_finds h (u := .call (.opened key d) 0) hr hkey).1
  simp only [call] at hr
  by_cases hopen : p.kernel.isOpen d
  · rw [if_pos hopen] at hr
    cases hr
  · rw [if_neg hopen] at hr
    cases hr
    refine ⟨hinv, rfl, ?_, (p.kernel.isOpen_opened d d).mpr (.inl rfl), ?_, fun key' hne => Function.update_of_ne hne _ _⟩
    · simp only [Function.update_self]
      rfl
    · by_contra hregistered
      obtain ⟨other, hother⟩ := Option.ne_none_iff_exists'.mp hregistered
      exact hopen (h.seen.registered_open hother)

/-- A connected socket that is no member becomes one, or the kernel has failed. -/
theorem add_spec (h : p.Inv) (hkey : p.members key = none) {d : Nat} (hd : (p.sockets key).socketDescriptor = d)
    (hopen : p.kernel.isOpen d) (hregistered : p.seen.selector.epoll d = none) {data node : Nat} {fails : Option Nat}
    {o : Result} (hr : p.call node (.add key data fails) = some (o, p')) :
    (fails ≠ none ∧ ∃ what, o = .threw what) ∨
      (o = .returned none ∧ p'.Inv ∧ p'.members = Function.update p.members key (some ⟨data, d⟩) ∧
        p'.sockets = p.sockets) := by
  have hinv := (use_finds h (u := .call (.add key data fails) node) hr trivial).1
  obtain ⟨-, result, hcall, hresult⟩ := call_refines h.linked hr
  have hsockets : p'.sockets = p.sockets := by
    simp only [call, Option.map_eq_some_iff, Prod.mk.injEq] at hr
    obtain ⟨_, -, -, rfl⟩ := hr
    rfl
  have hnone : p.seen.selector.addedSockets key = none := hkey
  simp only [Process.call] at hcall
  rcases p.seen.selector.add_cases p.seen.kernel key (p.seen.sockets key) data fails with ⟨what, hadd⟩ | ⟨d', hd', -, hadd⟩
  · rw [hadd] at hcall
    simp only [Option.some.injEq, Prod.mk.injEq] at hcall
    obtain ⟨rfl, -⟩ := hcall
    refine .inl ⟨?_, what, hresult⟩
    rintro rfl
    cases hadd.symm.trans (SocketSelector.add_new hnone hd hopen hregistered)
  · obtain rfl : d = d' := Int.ofNat_inj.mp (hd.symm.trans hd')
    rw [hadd] at hcall
    simp only [Option.some.injEq, Prod.mk.injEq] at hcall
    obtain ⟨rfl, hseen⟩ := hcall
    refine .inr ⟨hresult, hinv, ?_, hsockets⟩
    unfold members
    rw [← hseen]

/-- A member that is connected is taken out, and its pointer given back. -/
theorem remove_spec (h : p.Inv) {entry : Opaque} (hkey : p.members key = some entry)
    (hconnected : (p.sockets key).connected = true) :
    ∃ p', p.call 0 (.remove key) = some (.returned (some entry.data), p') ∧ p'.Inv ∧
      p'.members = Function.update p.members key none ∧ p'.sockets = p.sockets := by
  obtain ⟨result, q, hremove, hlinked, -⟩ := h.linked.remove_refines p.kernel key
  have hr : p.call 0 (.remove key) = some (.of (result.map some), { p with selector := q }) := by
    simp only [call, hremove]
  have horderly : Process.Call.Orderly p.seen (.remove key) := fun _ => hconnected
  have hinv := (use_finds h (u := .call (.remove key) 0) hr horderly).1
  obtain ⟨-, result', hcall, hresult⟩ := call_refines h.linked hr
  obtain ⟨-, hremoves, -⟩ := (Process.call_keeps h.seen hcall horderly).2
  obtain ⟨hmembers, hreturned, -⟩ := hremoves key rfl entry hkey
  refine ⟨{ p with selector := q }, ?_, hinv, hmembers, rfl⟩
  rw [hr, hresult, hreturned]
  rfl

end PointerProcess

/-! ## The invariant -/

theorem HttpRequest.parseBody_returns (r : HttpRequest) : (parseBody r).1 ≠ none := by
  by_cases hmax : maxHttpBodySize < r.body.length
  · rw [parseBody, if_pos hmax]
    exact Option.some_ne_none _
  · by_cases hlength : r.contentLength ≤ r.body.length
    · rw [parseBody_eq hlength (Nat.le_of_not_lt hmax)]
      exact Option.some_ne_none _
    · rw [parseBody, if_neg hmax, if_neg hlength]
      exact Option.some_ne_none _

theorem HttpRequest.parse_returns (r : HttpRequest) (p : Bytes) : (parse r p).1 ≠ none := by
  unfold parse parseBuffer
  simp only
  repeat' split
  all_goals first | exact Option.some_ne_none _ | exact parseBody_returns _

namespace Server

variable {listener : Nat} {s s' : Server}

/-- Before and after each event. -/
structure Inv (listener : Nat) (s : Server) : Prop where
  process : s.process.Inv
  listening : ∃ d, s.process.members listener = some ⟨0, d⟩
  connected : ∀ key, s.process.members key ≠ none → (s.process.sockets key).connected = true
  session : ∀ pointer, s.sessions pointer ≠ none ↔ ∃ key d, key ≠ listener ∧ s.process.members key = some ⟨pointer, d⟩
  apart : ∀ key key' pointer d d', key ≠ listener → key' ≠ listener → s.process.members key = some ⟨pointer, d⟩ →
    s.process.members key' = some ⟨pointer, d'⟩ → key = key'
  ready : ∀ x ∈ s.ready, ∃ d, s.process.members x.1 = some ⟨x.2, d⟩
  once : (s.ready.map Prod.fst).Nodup
  removed : ∀ key ∈ s.removed, s.process.members key = none

/-- Every session is that of one client that is a member, and each of these has one. -/
def Kept (listener : Nat) (s : Server) : Prop :=
  (∀ pointer, s.sessions pointer ≠ none ↔ ∃ key d, key ≠ listener ∧ s.process.members key = some ⟨pointer, d⟩) ∧
    ∀ key key' pointer d d', key ≠ listener → key' ≠ listener → s.process.members key = some ⟨pointer, d⟩ →
      s.process.members key' = some ⟨pointer, d'⟩ → key = key'

/-- The kernel fails. -/
def Move.Fails : Move → Prop
  | .wait (.error errno) => errno ≠ PointerSelector.EINTR
  | .accept (some client) => client.fails ≠ none
  | _ => False

/-- What an event is to come to. -/
def Fine (listener : Nat) (m : Move) (o : Result) (s' : Server) : Prop :=
  o ≠ .undefined ∧ (o = .threw → m.Fails) ∧ s'.Kept listener

/-- What can come of an event. -/
inductive Turn (listener : Nat) (s : Server) : Move → Result → Server → Prop where
  | waited {events : Except Nat (List Nat)} {p : PointerProcess} {ready : List (Nat × Nat)} {o : Result} (hready : s.ready = [])
      (hinv : p.Inv) (hmembers : p.members = s.process.members)
      (hsockets : ∀ key, key ∉ s.removed → p.sockets key = s.process.sockets key)
      (hall : ∀ x ∈ ready, ∃ d, p.members x.1 = some ⟨x.2, d⟩) (honce : (ready.map Prod.fst).Nodup)
      (ho : o ≠ .undefined ∧ (o = .threw → (Move.wait events).Fails)) :
      Turn listener s (.wait events) o { s with process := p, ready := ready, removed := [] }
  /-- No client was accepted, or a read would block. -/
  | passed {m : Move} {x : Nat × Nat} {rest : List (Nat × Nat)} (hready : s.ready = x :: rest) :
      Turn listener s m .went { s with ready := rest }
  | refused {c : Client} (hfails : c.fails ≠ none) : Turn listener s (.accept (some c)) .threw s
  /-- A new client is a member, with a new session. -/
  | admitted {c : Client} {x : Nat × Nat} {rest : List (Nat × Nat)} {p : PointerProcess} (hready : s.ready = x :: rest)
      (hkey : s.process.members c.key = none) (hremoved : c.key ∉ s.removed) (hsession : s.sessions c.session = none)
      (hinv : p.Inv) (hmembers : p.members = Function.update s.process.members c.key (some ⟨c.session, c.descriptor⟩))
      (hconnected : (p.sockets c.key).connected = true) (hothers : ∀ key, key ≠ c.key → p.sockets key = s.process.sockets key) :
      Turn listener s (.accept (some c)) .went { s with
        process := p
        sessions := Function.update s.sessions c.session (some .new)
        ready := rest
        arrived := Function.update s.arrived c.key []
        handed := Function.update s.handed c.key [] }
  /-- A block is taken in, and with it a request is there or not. -/
  | taken {key pointer : Nat} {d : Int} {rest : List (Nat × Nat)} {session : SessionState} {data : Bytes} {request : HttpRequest}
      {b : Bool} (hready : s.ready = (key, pointer) :: rest) (hkey : key ≠ listener)
      (hmember : s.process.members key = some ⟨pointer, d⟩) (hsession : s.sessions pointer = some session)
      (hlength : data.length ≤ bufferSize)
      (hparse : session.partialRequest.parse data = (some (if b then .success else .notEnoughData), request)) :
      Turn listener s (.receive .success data) .went { s with
        sessions := Function.update s.sessions pointer (some (if b then .new else ⟨request⟩))
        ready := rest
        arrived := Function.update s.arrived key (s.arrived key ++ [data])
        handed := if b then Function.update s.handed key (s.handed key ++ [request]) else s.handed }
  /-- A client is no member any more, and its session is gone. -/
  | dropped {m : Move} {key pointer : Nat} {d : Int} {rest : List (Nat × Nat)} {p : PointerProcess} {arrived : Nat → List Bytes}
      (hready : s.ready = (key, pointer) :: rest) (hkey : key ≠ listener) (hmember : s.process.members key = some ⟨pointer, d⟩)
      (harrived : arrived = s.arrived ∨ ∃ data request status session, s.sessions pointer = some session ∧
        data.length ≤ bufferSize ∧ session.partialRequest.parse data = (some status, request) ∧ status ≠ .success ∧
          arrived = Function.update s.arrived key (s.arrived key ++ [data]))
      (hinv : p.Inv) (hmembers : p.members = Function.update s.process.members key none)
      (hsockets : p.sockets = s.process.sockets) :
      Turn listener s m .went { s with
        process := p
        sessions := Function.update s.sessions pointer none
        ready := rest
        removed := key :: s.removed
        arrived := arrived
        ended := s.ended ++ [(arrived key, s.handed key)] }

theorem wait_turns (h : s.Inv listener) {events : Except Nat (List Nat)} {o : Result} (hr : s.wait events = some (o, s')) :
    Turn listener s (.wait events) o s' := by
  unfold wait at hr
  by_cases hready : s.ready = []
  · rw [if_neg (not_not_intro hready)] at hr
    obtain ⟨hinv, hmembers, hsockets⟩ := PointerProcess.destroyed_all h.process s.removed
    generalize s.removed.foldl PointerProcess.destroyed s.process = p at hr hinv hmembers hsockets
    rcases huse : p.use (.wait events) with _ | ⟨o', p'⟩
    · rw [huse] at hr
      cases hr
    · obtain ⟨-, rfl, hwaits⟩ := PointerProcess.use_refines hinv.linked huse
      have hfinds := (PointerProcess.use_finds hinv huse trivial).2
      rw [huse] at hr
      cases events with
      | error errno =>
        have ho' : o' = if errno = PointerSelector.EINTR then .ready [] else
          .threw (bytes "epoll_wait returned: " ++ toDec errno) := hwaits
        by_cases heintr : errno = PointerSelector.EINTR
        · rw [if_pos heintr] at ho'
          subst ho'
          cases hr
          exact .waited hready hinv hmembers hsockets nofun List.nodup_nil ⟨nofun, nofun⟩
        · rw [if_neg heintr] at ho'
          subst ho'
          cases hr
          have hturn : Turn listener s (.wait (.error errno)) .threw { s with process := p', ready := [], removed := [] } :=
            .waited hready hinv hmembers hsockets nofun List.nodup_nil ⟨nofun, fun _ => heintr⟩
          rwa [← hready] at hturn
      | ok events =>
        obtain ⟨sockets, rfl, honce, -⟩ := hwaits
        obtain ⟨sockets', hsame, -, hfound⟩ := hfinds events rfl
        cases hsame
        cases hr
        refine .waited hready hinv hmembers hsockets (fun x hx => ?_) honce ⟨nofun, nofun⟩
        obtain ⟨d, -, hmember, -⟩ := (hfound x.1 x.2).mp hx
        exact ⟨d, hmember⟩
  · rw [if_pos hready] at hr
    cases hr

theorem accept_turns (h : s.Inv listener) {x : Nat × Nat} {rest : List (Nat × Nat)} (hready : s.ready = x :: rest)
    {client : Option Client} {o : Result} (hr : s.accept rest client = some (o, s')) :
    Turn listener s (.accept client) o s' := by
  unfold accept at hr
  cases client with
  | none =>
    cases hr
    exact .passed hready
  | some c =>
    simp only at hr
    by_cases hused : s.process.members c.key ≠ none ∨ c.key ∈ s.removed ∨ c.session = 0 ∨ s.sessions c.session ≠ none
    · rw [if_pos hused] at hr
      cases hr
    · rw [if_neg hused] at hr
      simp only [not_or, not_not] at hused
      obtain ⟨hkey, hremoved, -, hsession⟩ := hused
      rcases hopened : s.process.call 0 (.opened c.key c.descriptor) with _ | ⟨o₁, p₁⟩
      · rw [hopened] at hr
        cases hr
      · rw [hopened] at hr
        simp only at hr
        obtain ⟨hinv₁, hmembers₁, hd, hopen, hregistered, hothers⟩ := PointerProcess.opened_spec h.process hkey hopened
        rcases hadded : p₁.call c.node (.add c.key c.session c.fails) with _ | ⟨o₂, p₂⟩
        · rw [hadded] at hr
          cases hr
        · rw [hadded] at hr
          rcases PointerProcess.add_spec hinv₁ (hmembers₁ ▸ hkey) hd hopen hregistered hadded with
            ⟨hfails, what, rfl⟩ | ⟨rfl, hinv₂, hmembers₂, hsockets₂⟩
          · cases hr
            exact .refused hfails
          · cases hr
            rw [hmembers₁] at hmembers₂
            refine .admitted hready hkey hremoved hsession hinv₂ hmembers₂ ?_ fun key hne => ?_
            · rw [hsockets₂]
              exact TcpSocket.connected_iff.mpr ⟨_, hd⟩
            · rw [hsockets₂]
              exact hothers key hne

theorem drop_turns (h : s.Inv listener) {key pointer : Nat} {d : Int} {rest : List (Nat × Nat)}
    (hready : s.ready = (key, pointer) :: rest) (hkey : key ≠ listener)
    (hmember : s.process.members key = some ⟨pointer, d⟩) {arrived : Nat → List Bytes}
    (harrived : arrived = s.arrived ∨ ∃ data request status session, s.sessions pointer = some session ∧
      data.length ≤ bufferSize ∧ session.partialRequest.parse data = (some status, request) ∧ status ≠ .success ∧
        arrived = Function.update s.arrived key (s.arrived key ++ [data]))
    {m : Move} {o : Result} (hr : drop { s with arrived := arrived } rest key = some (o, s')) : Turn listener s m o s' := by
  have hconnected := h.connected key (by rw [hmember]; exact Option.some_ne_none _)
  obtain ⟨p, hremove, hinv, hmembers, hsockets⟩ := PointerProcess.remove_spec h.process hmember hconnected
  have hsession : s.sessions pointer ≠ none := (h.session pointer).mpr ⟨key, d, hkey, hmember⟩
  unfold drop at hr
  simp only at hr
  rw [hremove] at hr
  simp only at hr
  rw [if_neg fun hnone => hsession hnone.2] at hr
  cases hr
  exact .dropped hready hkey hmember harrived hinv hmembers hsockets

theorem receive_turns (h : s.Inv listener) {key pointer : Nat} {rest : List (Nat × Nat)}
    (hready : s.ready = (key, pointer) :: rest) (hkey : key ≠ listener) {status : Status} {data : Bytes} {o : Result}
    (hr : s.receive rest key pointer status data = some (o, s')) : Turn listener s (.receive status data) o s' := by
  obtain ⟨d, hmember⟩ := h.ready (key, pointer) (by rw [hready]; exact List.mem_cons_self)
  obtain ⟨session, hsession⟩ := Option.ne_none_iff_exists'.mp ((h.session pointer).mpr ⟨key, d, hkey, hmember⟩)
  unfold receive at hr
  rw [hsession] at hr
  simp only at hr
  by_cases hsuccess : status = .success
  · rw [if_pos hsuccess] at hr
    subst hsuccess
    by_cases hdata : data = [] ∨ bufferSize < data.length
    · rw [if_pos hdata] at hr
      cases hr
    · rw [if_neg hdata] at hr
      have hlength : data.length ≤ bufferSize := Nat.le_of_not_lt fun hlong => hdata (.inr hlong)
      rcases hparse : session.partialRequest.parse data with ⟨_ | parseStatus, request⟩
      · exact absurd (congrArg Prod.fst hparse) (session.partialRequest.parse_returns data)
      · rw [hparse] at hr
        simp only at hr
        by_cases hdone : parseStatus = .success
        · rw [if_pos hdone] at hr
          subst hdone
          cases hr
          exact .taken (b := true) hready hkey hmember hsession hlength hparse
        · rw [if_neg hdone] at hr
          by_cases hmore : parseStatus ≠ .notEnoughData
          · rw [if_pos hmore] at hr
            exact drop_turns h hready hkey hmember
              (.inr ⟨data, request, parseStatus, session, hsession, hlength, hparse, hdone, rfl⟩) hr
          · rw [if_neg hmore] at hr
            obtain rfl := not_not.mp hmore
            cases hr
            exact .taken (b := false) hready hkey hmember hsession hlength hparse
  · rw [if_neg hsuccess] at hr
    by_cases hblock : status ≠ .wouldBlock
    · rw [if_pos hblock] at hr
      exact drop_turns h hready hkey hmember (.inl rfl) hr
    · rw [if_neg hblock] at hr
      cases hr
      exact .passed hready

theorem move_turns (h : s.Inv listener) {m : Move} {o : Result} (hr : s.move listener m = some (o, s')) :
    Turn listener s m o s' := by
  cases m with
  | wait events => exact wait_turns h hr
  | accept client =>
    unfold move at hr
    rcases hready : s.ready with _ | ⟨⟨key, pointer⟩, rest⟩
    · rw [hready] at hr
      cases hr
    · rw [hready] at hr
      simp only at hr
      split at hr
      · exact accept_turns h hready hr
      · cases hr
  | receive status data =>
    unfold move at hr
    rcases hready : s.ready with _ | ⟨⟨key, pointer⟩, rest⟩
    · rw [hready] at hr
      cases hr
    · rw [hready] at hr
      simp only at hr
      split at hr
      · cases hr
      · rename_i hdescriptor
        exact receive_turns h hready (fun heq => hdescriptor (by rw [heq])) hr

/-! ## What an event keeps -/

theorem Inv.swept (h : s.Inv listener) {p : PointerProcess} (hinv : p.Inv) (hmembers : p.members = s.process.members)
    (hsockets : ∀ key, key ∉ s.removed → p.sockets key = s.process.sockets key) {ready : List (Nat × Nat)}
    (hall : ∀ x ∈ ready, ∃ d, p.members x.1 = some ⟨x.2, d⟩) (honce : (ready.map Prod.fst).Nodup) :
    Inv listener { s with process := p, ready := ready, removed := [] } := by
  refine ⟨hinv, ?_, fun key hkey => ?_, fun pointer => ?_, ?_, hall, honce, nofun⟩
  · rw [hmembers]
    exact h.listening
  · rw [hmembers] at hkey
    rw [hsockets key fun hremoved => hkey (h.removed key hremoved)]
    exact h.connected key hkey
  · rw [hmembers]
    exact h.session pointer
  · rw [hmembers]
    exact h.apart

/-- Another value for a session that there is, and less to do. -/
theorem Inv.served (h : s.Inv listener) {rest : List (Nat × Nat)} {x : Nat × Nat} (hready : s.ready = x :: rest)
    {sessions : Nat → Option SessionState} (hsessions : ∀ pointer, sessions pointer ≠ none ↔ s.sessions pointer ≠ none)
    (arrived : Nat → List Bytes) (handed : Nat → List HttpRequest) :
    Inv listener { s with sessions := sessions, ready := rest, arrived := arrived, handed := handed } := by
  have hall := h.ready
  have honce := h.once
  rw [hready] at hall honce
  exact ⟨h.process, h.listening, h.connected, fun pointer => (hsessions pointer).trans (h.session pointer), h.apart,
    fun y hy => hall y (List.mem_cons_of_mem _ hy), (List.nodup_cons.mp honce).2, h.removed⟩

theorem Inv.admitted (h : s.Inv listener) {c : Client} (hkey : s.process.members c.key = none) (hremoved : c.key ∉ s.removed)
    (hsession : s.sessions c.session = none) {p : PointerProcess} (hinv : p.Inv)
    (hmembers : p.members = Function.update s.process.members c.key (some ⟨c.session, c.descriptor⟩))
    (hconnected : (p.sockets c.key).connected = true)
    (hothers : ∀ key, key ≠ c.key → p.sockets key = s.process.sockets key) {x : Nat × Nat} {rest : List (Nat × Nat)}
    (hready : s.ready = x :: rest) :
    Inv listener { s with
      process := p
      sessions := Function.update s.sessions c.session (some .new)
      ready := rest
      arrived := Function.update s.arrived c.key []
      handed := Function.update s.handed c.key [] } := by
  obtain ⟨dl, hlistening⟩ := h.listening
  have hlistener : listener ≠ c.key := by
    rintro rfl
    rw [hkey] at hlistening
    cases hlistening
  have hother : ∀ key, key ≠ c.key → p.members key = s.process.members key := fun key hne => by
    rw [hmembers, Function.update_of_ne hne]
  have hself : p.members c.key = some ⟨c.session, c.descriptor⟩ := by rw [hmembers, Function.update_self]
  have hnew : ∀ key d, key ≠ listener → s.process.members key ≠ some ⟨c.session, d⟩ := fun key d hl hk =>
    (h.session c.session).mpr ⟨key, d, hl, hk⟩ hsession
  have hall := h.ready
  have honce := h.once
  rw [hready] at hall honce
  refine ⟨hinv, ⟨dl, ?_⟩, fun key hk => ?_, fun pointer => ?_, ?_, fun y hy => ?_, (List.nodup_cons.mp honce).2,
    fun key hk => ?_⟩
  · rw [hother listener hlistener]
    exact hlistening
  · by_cases hne : key = c.key
    · subst hne
      exact hconnected
    · rw [hother key hne] at hk
      rw [hothers key hne]
      exact h.connected key hk
  · by_cases hp : pointer = c.session
    · subst hp
      simp only [Function.update_self]
      exact iff_of_true (Option.some_ne_none _) ⟨c.key, c.descriptor, hlistener.symm, hself⟩
    · simp only [Function.update_of_ne hp]
      rw [h.session pointer]
      refine exists_congr fun key => exists_congr fun d => and_congr_right fun hl => ?_
      by_cases hne : key = c.key
      · subst hne
        rw [hself, hkey]
        refine iff_of_false nofun fun hk => hp ?_
        cases hk
        rfl
      · rw [hother key hne]
  · intro key key' pointer d d' hl hl' hk hk'
    by_cases hne : key = c.key
    · by_cases hne' : key' = c.key
      · rw [hne, hne']
      · subst hne
        rw [hself] at hk
        cases hk
        rw [hother key' hne'] at hk'
        exact absurd hk' (hnew key' d' hl')
    · rw [hother key hne] at hk
      by_cases hne' : key' = c.key
      · subst hne'
        rw [hself] at hk'
        cases hk'
        exact absurd hk (hnew key d hl)
      · rw [hother key' hne'] at hk'
        exact h.apart key key' pointer d d' hl hl' hk hk'
  · obtain ⟨d, hmember⟩ := hall y (List.mem_cons_of_mem _ hy)
    refine ⟨d, ?_⟩
    rw [hother y.1 fun heq => ?_]
    · exact hmember
    · rw [heq, hkey] at hmember
      cases hmember
  · rw [hother key fun heq => hremoved (heq ▸ hk)]
    exact h.removed key hk

theorem Inv.dismissed (h : s.Inv listener) {key pointer : Nat} {rest : List (Nat × Nat)}
    (hready : s.ready = (key, pointer) :: rest) (hkey : key ≠ listener) {p : PointerProcess} (hinv : p.Inv)
    (hmembers : p.members = Function.update s.process.members key none)
    (hsockets : p.sockets = s.process.sockets) (arrived : Nat → List Bytes)
    (ended : List (List Bytes × List HttpRequest)) :
    Inv listener { s with
      process := p
      sessions := Function.update s.sessions pointer none
      ready := rest
      removed := key :: s.removed
      arrived := arrived
      ended := ended } := by
  have hall := h.ready
  have honce := h.once
  rw [hready] at hall honce
  obtain ⟨hnot, honce⟩ : key ∉ rest.map Prod.fst ∧ (rest.map Prod.fst).Nodup := List.nodup_cons.mp honce
  obtain ⟨dk, hmember⟩ := hall _ List.mem_cons_self
  have hother : ∀ key', key' ≠ key → p.members key' = s.process.members key' := fun key' hne => by
    rw [hmembers, Function.update_of_ne hne]
  have hself : p.members key = none := by rw [hmembers, Function.update_self]
  have hold : ∀ {key' entry}, p.members key' = some entry → key' ≠ key ∧ s.process.members key' = some entry := by
    intro key' entry hk
    have hne : key' ≠ key := by
      rintro rfl
      rw [hself] at hk
      cases hk
    exact ⟨hne, hother key' hne ▸ hk⟩
  obtain ⟨dl, hlistening⟩ := h.listening
  refine ⟨hinv, ⟨dl, ?_⟩, fun key' hk => ?_, fun pointer' => ?_, ?_, fun y hy => ?_, honce, fun key' hk => ?_⟩
  · rw [hother listener hkey.symm]
    exact hlistening
  · obtain ⟨entry, hk⟩ := Option.ne_none_iff_exists'.mp hk
    rw [hsockets]
    exact h.connected key' (by rw [(hold hk).2]; exact Option.some_ne_none _)
  · by_cases hp : pointer' = pointer
    · subst hp
      simp only [Function.update_self]
      refine iff_of_false (fun hnone => hnone rfl) fun hgiven => ?_
      obtain ⟨key', d, hl, hk⟩ := hgiven
      obtain ⟨hne, hk⟩ := hold hk
      exact hne (h.apart key' key pointer' d dk hl hkey hk hmember)
    · simp only [Function.update_of_ne hp]
      rw [h.session pointer']
      refine exists_congr fun key' => exists_congr fun d => and_congr_right fun _ => ?_
      by_cases hne : key' = key
      · subst hne
        rw [hself, hmember]
        refine iff_of_false (fun hk => hp ?_) nofun
        cases hk
        rfl
      · rw [hother key' hne]
  · intro key₁ key₂ pointer' d d' hl hl' hk hk'
    exact h.apart key₁ key₂ pointer' d d' hl hl' (hold hk).2 (hold hk').2
  · obtain ⟨d, hk⟩ := hall y (List.mem_cons_of_mem _ hy)
    refine ⟨d, ?_⟩
    rw [hother y.1 fun heq => hnot (by rw [← heq]; exact List.mem_map_of_mem hy)]
    exact hk
  · rcases List.mem_cons.mp hk with rfl | hk
    · exact hself
    · by_cases hne : key' = key
      · rw [hne]
        exact hself
      · rw [hother key' hne]
        exact h.removed key' hk

theorem Turn.keeps {m : Move} {o : Result} (ht : Turn listener s m o s') (h : s.Inv listener) : s'.Inv listener := by
  cases ht with
  | waited _ hinv hmembers hsockets hall honce _ => exact h.swept hinv hmembers hsockets hall honce
  | passed hready => exact h.served hready (fun _ => Iff.rfl) s.arrived s.handed
  | refused _ => exact h
  | admitted hready hkey hremoved hsession hinv hmembers hconnected hothers =>
    exact h.admitted hkey hremoved hsession hinv hmembers hconnected hothers hready
  | @taken key pointer _ _ _ _ _ _ hready _ _ hsession _ _ =>
    refine h.served hready (fun pointer' => ?_) _ _
    by_cases hp : pointer' = pointer
    · subst hp
      rw [Function.update_self, hsession]
      exact iff_of_true (Option.some_ne_none _) (Option.some_ne_none _)
    · rw [Function.update_of_ne hp]
  | dropped hready hkey _ _ hinv hmembers hsockets => exact h.dismissed hready hkey hinv hmembers hsockets _ _

theorem Turn.result {m : Move} {o : Result} (ht : Turn listener s m o s') : o ≠ .undefined ∧ (o = .threw → m.Fails) := by
  cases ht with
  | waited _ _ _ _ _ _ ho => exact ho
  | passed _ => exact ⟨nofun, nofun⟩
  | refused hfails => exact ⟨nofun, fun _ => hfails⟩
  | admitted => exact ⟨nofun, nofun⟩
  | taken => exact ⟨nofun, nofun⟩
  | dropped => exact ⟨nofun, nofun⟩

/-- One event. -/
theorem move_fine (h : s.Inv listener) {m : Move} {o : Result} (hr : s.move listener m = some (o, s')) :
    s'.Inv listener ∧ Fine listener m o s' := by
  have ht := move_turns h hr
  have hinv := ht.keeps h
  exact ⟨hinv, ht.result.1, ht.result.2, hinv.session, hinv.apart⟩

/-! ## The runs -/

theorem start_inv {k : Kernel} {descriptor node : Nat} (h : start k listener descriptor node = some s) : s.Inv listener := by
  obtain ⟨p, hrun, rfl⟩ := Option.map_eq_some_iff.mp h
  obtain ⟨o₁, p₁, hopened, hrun⟩ := exists_of_run_cons hrun
  obtain ⟨o₂, p₂, hadded, hrun⟩ := exists_of_run_cons hrun
  cases hrun
  obtain ⟨hinv₁, hmembers₁, hd, hopen, hregistered, hothers⟩ :=
    PointerProcess.opened_spec (PointerProcess.start_inv k) rfl hopened
  rcases PointerProcess.add_spec hinv₁ (by rw [hmembers₁]; rfl) hd hopen hregistered hadded with
    ⟨hfails, -⟩ | ⟨-, hinv₂, hmembers₂, hsockets₂⟩
  · exact absurd rfl hfails
  · have hmember : ∀ key entry, p.members key = some entry → key = listener := by
      intro key entry hk
      by_contra hne
      rw [hmembers₂, Function.update_of_ne hne, hmembers₁] at hk
      cases hk
    refine ⟨hinv₂, ⟨descriptor, ?_⟩, fun key hk => ?_, fun pointer => ?_, ?_, nofun, List.nodup_nil, nofun⟩
    · rw [hmembers₂, Function.update_self]
    · obtain ⟨entry, hk⟩ := Option.ne_none_iff_exists'.mp hk
      rw [hmember key entry hk, hsockets₂]
      exact TcpSocket.connected_iff.mpr ⟨_, hd⟩
    · refine iff_of_false (fun hnone => hnone rfl) fun hgiven => ?_
      obtain ⟨key, d, hl, hk⟩ := hgiven
      exact hl (hmember key _ hk)
    · intro key key' pointer d d' hl _ hk
      exact absurd (hmember key _ hk) hl

end Server

/-- In any order of the events, whatever the clients send and the allocator and the kernel
    give: no session is used after it has been deleted, each is that of one client in the
    selector and each of these has one, and only a failure of the kernel throws. -/
theorem server_safe {k : Kernel} {listener descriptor node : Nat} {s : Server}
    (h : Server.start k listener descriptor node = some s) (moves : List Server.Move) :
    Always (Server.move listener) (fun _ m o s' => Server.Fine listener m o s') s moves := by
  have hstep : ∀ s m o s', Server.Inv listener s → Server.move listener s m = some (o, s') →
      s'.Inv listener ∧ Server.Fine listener m o s' := fun _ _ _ _ h hr => Server.move_fine h hr
  exact always_of_step hstep (Server.start_inv h) moves

/-- Two clients, of whom one asks in two pieces and the other sends what is no request; its
    descriptor goes to a third. -/
def sampleEvents : List Server.Move :=
  [.wait (.ok [3]), .accept (some ⟨4, 2, 500, 200, none⟩), .wait (.ok [3, 4]), .accept (some ⟨5, 6, 600, 300, none⟩),
    .receive .success (bytes "GET /a HT"), .wait (.ok [5, 4]), .receive .success (bytes "SIT /a"),
    .receive .success (bytes "TP/1.1\r\n\r\n"), .wait (.ok [3]), .accept (some ⟨5, 6, 600, 300, none⟩)]

theorem server_safe_sample :
    ∃ s, Server.start ⟨fun _ => none⟩ 1 3 100 = some s ∧ (run (Server.move 1) s sampleEvents).isSome = true ∧
      Always (Server.move 1) (fun _ m o s' => Server.Fine 1 m o s') s sampleEvents := by
  have hruns : ((Server.start ⟨fun _ => none⟩ 1 3 100).bind fun s => run (Server.move 1) s sampleEvents).isSome = true := by
    decide +kernel
  rcases hstart : Server.start ⟨fun _ => none⟩ 1 3 100 with _ | s
  · rw [hstart] at hruns
    cases hruns
  · rw [hstart] at hruns
    exact ⟨s, rfl, hruns, server_safe hstart sampleEvents⟩

end Frnetlib
