/-
  Frnetlib.Net.Options — the socket options of an `fr::TcpSocket` and of an `fr::SSLSocket`
  (`Socket.h`, `TcpSocket.cpp`, `SSLSocket.cpp`).

  `set_receive_timeout` and `set_send_timeout` store the milliseconds and call
  `reconfigure_socket`, which passes them on to the descriptor, and `connect` and
  `set_descriptor` call it for a new one. So a `TcpSocket`'s descriptor has the configured
  timeouts, and no Nagle's algorithm, in every state of a run, exactly when no connect of the
  run fails and leaves a descriptor behind (`options_configured`). The `reconfigure_socket`
  of an `SSLSocket` sets no timeout on Unix: its descriptor waits without end, whatever was
  configured (`timeouts_ignored`).

  The system calls on an open descriptor succeed; one that is not open has no options yet.
-/

import Frnetlib.Net.Blocking
import Frnetlib.Net.Handles
import Frnetlib.WebSocket.Connecting

namespace Frnetlib

open Base

/-! ## The options -/

/-- `timeval` -/
structure Timeval where
  sec : Nat
  usec : Nat
  deriving DecidableEq, Repr

namespace Timeval

/-- Of milliseconds, as `reconfigure_socket` has it. -/
def ofMillis (timeout : UInt32) : Timeval := ⟨timeout.toNat / 1000, timeout.toNat % 1000 * 1000⟩

/-- It is that many milliseconds, and the kernel takes it. -/
def Is (tv : Timeval) (timeout : UInt32) : Prop := tv.usec < 1000000 ∧ tv.sec * 1000000 + tv.usec = timeout.toNat * 1000

theorem ofMillis_is (timeout : UInt32) : (ofMillis timeout).Is timeout := by
  unfold Is ofMillis
  constructor
  · simp only
    omega
  · simp only
    omega

end Timeval

/-- TCP_NODELAY, SO_RCVTIMEO and SO_SNDTIMEO of a descriptor. -/
structure SocketOptions where
  noDelay : Bool
  receiveTimeout : Timeval
  sendTimeout : Timeval
  deriving DecidableEq, Repr

/-- Of a descriptor of `::socket`. -/
def SocketOptions.initial : SocketOptions := ⟨false, ⟨0, 0⟩, ⟨0, 0⟩⟩

/-! ## `TcpSocket` -/

structure TunedSocket where
  socket : TcpSocket
  socketReadTimeout : UInt32
  socketWriteTimeout : UInt32
  kernel : Kernel
  options : Nat → SocketOptions

namespace TunedSocket

/-- The constructor. -/
def new (k : Kernel) : TunedSocket := ⟨.new, 0, 0, k, fun _ => .initial⟩

/-- `setsockopt` on the descriptor. -/
def setsockopt (s : TunedSocket) (f : SocketOptions → SocketOptions) : TunedSocket :=
  match s.socket.socketDescriptor with
  | .ofNat d => { s with options := Function.update s.options d (f (s.options d)) }
  | .negSucc _ => s

def reconfigureSocket (s : TunedSocket) : TunedSocket :=
  if !s.socket.connected then s
  else
    let s := s.setsockopt fun o => { o with noDelay := true }
    let s := s.setsockopt fun o => { o with receiveTimeout := .ofMillis s.socketReadTimeout }
    s.setsockopt fun o => { o with sendTimeout := .ofMillis s.socketWriteTimeout }

def setReceiveTimeout (s : TunedSocket) (timeout : UInt32) : TunedSocket :=
  reconfigureSocket { s with socketReadTimeout := timeout }

def setSendTimeout (s : TunedSocket) (timeout : UInt32) : TunedSocket :=
  reconfigureSocket { s with socketWriteTimeout := timeout }

def connect (s : TunedSocket) (address port : Bytes) (addresses : Option (List Attempt)) (fcntl : Bool) :
    Option (Status × TunedSocket) :=
  match s.socket.connect s.kernel address port addresses fcntl with
  | none => none
  | some (status, socket, kernel) =>
    let s := { s with socket := socket, kernel := kernel }
    some (status, if status = .success then s.reconfigureSocket else s)

/-- `set_descriptor`, with a descriptor the kernel has just given and the options it has. -/
def setDescriptor (s : TunedSocket) : Option (Nat × SocketOptions) → Option TunedSocket
  | none => some { s with socket := s.socket.setDescriptor none }
  | some (d, given) =>
    if s.kernel.isOpen d then none
    else
      some (reconfigureSocket { s with
        socket := s.socket.setDescriptor (some (d : Int))
        kernel := s.kernel.opened d
        options := Function.update s.options d given })

def setBlocking (s : TunedSocket) (shouldBlock fcntl : Bool) : Status × TunedSocket :=
  let (status, socket, kernel) := s.socket.setBlocking s.kernel shouldBlock fcntl
  (status, { s with socket := socket, kernel := kernel })

/-- A descriptor that is closed has no options any more. -/
def closeSocket (s : TunedSocket) : TunedSocket :=
  let (socket, kernel) := s.socket.closeSocket s.kernel
  let s := if s.socket.connected then s.setsockopt fun _ => .initial else s
  { s with socket := socket, kernel := kernel }

inductive Call where
  | connect (address port : Bytes) (addresses : Option (List Attempt)) (fcntl : Bool)
  | setDescriptor (descriptor : Option (Nat × SocketOptions))
  | setReceiveTimeout (timeout : UInt32)
  | setSendTimeout (timeout : UInt32)
  | setBlocking (shouldBlock fcntl : Bool)
  | closeSocket

/-- What a call returns, `none` inside for void, and the state after it. -/
def call (s : TunedSocket) : Call → Option (Option Status × TunedSocket)
  | .connect address port addresses fcntl => (s.connect address port addresses fcntl).map fun r => (some r.1, r.2)
  | .setDescriptor descriptor => (s.setDescriptor descriptor).map fun s => (none, s)
  | .setReceiveTimeout timeout => some (none, s.setReceiveTimeout timeout)
  | .setSendTimeout timeout => some (none, s.setSendTimeout timeout)
  | .setBlocking shouldBlock fcntl => some (some (s.setBlocking shouldBlock fcntl).1, (s.setBlocking shouldBlock fcntl).2)
  | .closeSocket => some (none, s.closeSocket)

/-- What `reconfigure_socket` sets. -/
def configured (s : TunedSocket) : SocketOptions :=
  ⟨true, .ofMillis s.socketReadTimeout, .ofMillis s.socketWriteTimeout⟩

/-- The options are what is configured. -/
structure Configured (s : TunedSocket) (o : SocketOptions) : Prop where
  noDelay : o.noDelay = true
  receive : o.receiveTimeout.Is s.socketReadTimeout
  send : o.sendTimeout.Is s.socketWriteTimeout

/-- The descriptor, if there is one, has what is configured. -/
def Agrees (s : TunedSocket) : Prop := ∀ d : Nat, s.socket.socketDescriptor = d → s.Configured (s.options d)

/-- A connect fails only where no address has connected and the last one got no descriptor. -/
def Call.Fits : Call → Prop
  | .connect _ _ (some addresses) fcntl =>
    if addresses.any Attempt.succeeds then fcntl = true else addresses.getLast?.bind Attempt.socket = none
  | _ => True

end TunedSocket

/-! ## The kernel's table -/

theorem setUnixSocketBlocking_isOpen (k : Kernel) (d : Int) (already should fcntl : Bool) (e : Nat) :
    (setUnixSocketBlocking k d already should fcntl).2.isOpen e ↔ k.isOpen e := by
  unfold setUnixSocketBlocking
  by_cases hsame : should = already
  · rw [if_pos hsame]
  · rw [if_neg hsame]
    cases hflag : k.flag d with
    | none => rfl
    | some nonblock =>
      simp only
      by_cases hfcntl : fcntl = true
      · rw [if_pos hfcntl]
        cases d with
        | negSucc n => rfl
        | ofNat n =>
          have hn : k.nonblock n = some nonblock := hflag
          by_cases he : e = n
          · subst he
            simp [Kernel.setFlag, Kernel.isOpen, hn]
          · simp [Kernel.setFlag, Kernel.isOpen, he]
      · rw [if_neg hfcntl]

namespace TcpSocket

variable {k k' : Kernel} {s s' : TcpSocket} {address port : Bytes} {addresses : List Attempt} {fcntl : Bool} {status : Status}

/-- `connect` closes nothing. -/
theorem connect_isOpen (hr : s.connect k address port (some addresses) fcntl = some (status, s', k')) {e : Nat}
    (he : k.isOpen e) : k'.isOpen e := by
  simp only [connect] at hr
  cases hloop : connectLoop addresses s.socketDescriptor k with
  | none =>
    rw [hloop] at hr
    cases hr
  | some r =>
    obtain ⟨found, d, k₁⟩ := r
    have he₁ := connectLoop_isOpen hloop he
    simp only [hloop] at hr
    by_cases hfound : found = true
    · have hset := (setUnixSocketBlocking_isOpen k₁ d false true fcntl e).mpr he₁
      rw [if_neg (by simp [hfound])] at hr
      rcases hblocking : setUnixSocketBlocking k₁ d false true fcntl with ⟨ok, k₂⟩
      rw [hblocking] at hr hset
      cases ok with
      | false =>
        cases hr
        exact hset
      | true =>
        cases hr
        exact hset
    · rw [if_pos (by simpa using hfound)] at hr
      cases hr
      exact he₁

/-- The descriptor left behind by the last address is new. -/
theorem connectLoop_last_new {sd d : Int} {a : Attempt} {n : Nat}
    (hr : connectLoop addresses sd k = some (false, d, k')) (hlast : addresses.getLast? = some a) (hn : a.socket = some n) :
    ¬ k.isOpen n := by
  induction addresses generalizing sd k with
  | nil => cases hlast
  | cons b rest ih =>
    rcases connectLoop_cons hr with ⟨-, hfound⟩ | ⟨d₁, k₁, hattempt, hrest⟩
    · cases hfound
    · rw [List.getLast?_cons] at hlast
      cases hend : rest.getLast? with
      | none =>
        rw [hend] at hlast
        cases hlast
        exact (attempt_some hn hattempt).1
      | some c =>
        rw [hend] at hlast
        exact fun hopen => ih hrest (hend.trans hlast) (attempt_isOpen hattempt hopen)

end TcpSocket

namespace TunedSocket

/-! ## What each call does -/

theorem reconfigureSocket_none {s : TunedSocket} (h : s.socket.connected = false) : s.reconfigureSocket = s := by
  unfold reconfigureSocket
  rw [h]
  rfl

/-- A descriptor is given the three options, and nothing else changes. -/
theorem reconfigureSocket_some {s : TunedSocket} {d : Nat} (h : s.socket.socketDescriptor = d) :
    s.reconfigureSocket = { s with options := Function.update s.options d s.configured } := by
  have hconnected : s.socket.connected = true := TcpSocket.connected_iff.mpr ⟨d, h⟩
  have hd : s.socket.socketDescriptor = Int.ofNat d := h
  unfold reconfigureSocket configured
  rw [hconnected]
  simp only [setsockopt, hd, Bool.not_true, Bool.false_eq_true, if_false, Function.update_self, Function.update_idem]

/-- What is not open has the options it will be opened with. -/
def Unopened (s : TunedSocket) : Prop := ∀ d, ¬ s.kernel.isOpen d → s.options d = .initial

/-- Whatever the options were, they are what is configured then. -/
theorem reconfigureSocket_keeps {s : TunedSocket} (hopen : ∀ d : Nat, s.socket.socketDescriptor = d → s.kernel.isOpen d)
    (hunopened : s.Unopened) : s.reconfigureSocket.Agrees ∧ s.reconfigureSocket.Unopened ∧
      s.reconfigureSocket.socket = s.socket ∧ s.reconfigureSocket.kernel = s.kernel := by
  by_cases hconnected : s.socket.connected = true
  · obtain ⟨d, hd⟩ := TcpSocket.connected_iff.mp hconnected
    rw [reconfigureSocket_some hd]
    refine ⟨fun e he => ?_, fun e he => ?_, rfl, rfl⟩
    · have hde : d = e := Int.ofNat_inj.mp (hd.symm.trans he)
      subst hde
      simp only [Function.update_self]
      exact ⟨rfl, Timeval.ofMillis_is _, Timeval.ofMillis_is _⟩
    · have hne : e ≠ d := fun heq => he (heq ▸ hopen d hd)
      simp only [Function.update_of_ne hne]
      exact hunopened e he
  · have hnot : s.socket.connected = false := by simpa using hconnected
    rw [reconfigureSocket_none hnot]
    exact ⟨fun d hd => absurd (TcpSocket.connected_iff.mpr ⟨d, hd⟩) hconnected, hunopened, rfl, rfl⟩

/-- Before and after each call of a run whose connects all fit. -/
structure Inv (s : TunedSocket) : Prop where
  agrees : s.Agrees
  unopened : s.Unopened
  opened : ∀ d : Nat, s.socket.socketDescriptor = d → s.kernel.isOpen d

theorem new_inv (k : Kernel) : (new k).Inv := by
  refine ⟨fun d hd => ?_, fun _ _ => rfl, fun d hd => ?_⟩
  · exact absurd hd (by simp [new, TcpSocket.new])
  · exact absurd hd (by simp [new, TcpSocket.new])

theorem Inv.reconfigured {s : TunedSocket} (hopen : ∀ d : Nat, s.socket.socketDescriptor = d → s.kernel.isOpen d)
    (hunopened : s.Unopened) : s.reconfigureSocket.Inv := by
  obtain ⟨hagrees, hstill, hsocket, hkernel⟩ := reconfigureSocket_keeps hopen hunopened
  refine ⟨hagrees, hstill, ?_⟩
  rw [hsocket, hkernel]
  exact hopen

/-- A descriptor left behind as it was opened. -/
theorem Unopened.not_agrees {s : TunedSocket} (h : s.Unopened) {n : Nat} (hn : ¬ s.kernel.isOpen n) {t : TunedSocket}
    (hd : t.socket.socketDescriptor = n) (hoptions : t.options = s.options) : ¬ t.Agrees := by
  intro hagrees
  have hdelay := (hagrees n hd).noDelay
  rw [hoptions, h n hn] at hdelay
  cases hdelay

theorem connect_inv {s s' : TunedSocket} (h : s.Inv) {address port : Bytes} {addresses : Option (List Attempt)} {fcntl : Bool}
    {status : Status} (hr : s.connect address port addresses fcntl = some (status, s')) :
    ((Call.connect address port addresses fcntl).Fits → s'.Inv) ∧
      (¬ (Call.connect address port addresses fcntl).Fits → ¬ s'.Agrees) := by
  unfold connect at hr
  cases addresses with
  | none =>
    cases hr
    exact ⟨fun _ => h, fun hnot => absurd trivial hnot⟩
  | some addresses =>
    rcases hconnect : s.socket.connect s.kernel address port (some addresses) fcntl with _ | ⟨st, socket, kernel⟩
    · rw [hconnect] at hr
      cases hr
    · rw [hconnect] at hr
      simp only [Option.some.injEq, Prod.mk.injEq] at hr
      obtain ⟨rfl, rfl⟩ := hr
      obtain ⟨found, k₁, hloop, hleft, hstatus, -⟩ := TcpSocket.connect_cases hconnect
      have hmore : ∀ e, s.kernel.isOpen e → kernel.isOpen e := fun e => TcpSocket.connect_isOpen hconnect
      have hunopened : ∀ e, ¬ kernel.isOpen e → s.options e = .initial := fun e he => h.unopened e fun hopen => he (hmore e hopen)
      unfold Call.Fits
      simp only [← TcpSocket.connectLoop_any hloop]
      by_cases hfound : found = true
      · subst hfound
        obtain ⟨n, hd, hnew, hflag⟩ := TcpSocket.connectLoop_found hloop
        have hopen : kernel.isOpen n := ((hleft n).mpr ⟨hnew, by simp [Kernel.isOpen, hflag]⟩).2
        rw [if_pos rfl]
        constructor
        · intro hfcntl
          rw [if_pos (hstatus.mpr ⟨rfl, hfcntl⟩)]
          refine .reconfigured (fun e he => ?_) hunopened
          exact Int.ofNat_inj.mp (hd.symm.trans he) ▸ hopen
        · intro hfcntl
          rw [if_neg fun hst => hfcntl (hstatus.mp hst).2]
          exact h.unopened.not_agrees hnew hd rfl
      · have hfalse : found = false := by simpa using hfound
        subst hfalse
        have hd := TcpSocket.connectLoop_last hloop
        rw [if_neg (by decide), if_neg fun hst => absurd (hstatus.mp hst).1 (by decide)]
        cases hlast : addresses.getLast? with
        | none =>
          rw [hlast] at hd
          refine ⟨fun _ => ⟨fun e he => ?_, hunopened, fun e he => ?_⟩, fun hnot => absurd rfl hnot⟩
          · have hagrees := h.agrees e (hd.symm.trans he)
            exact ⟨hagrees.noDelay, hagrees.receive, hagrees.send⟩
          · exact hmore e (h.opened e (hd.symm.trans he))
        | some a =>
          rw [hlast] at hd
          cases hsocket : a.socket with
          | none =>
            have hnone : socket.socketDescriptor = -1 := by simpa [hsocket] using hd
            have hnever : ∀ e : Nat, socket.socketDescriptor ≠ e := by
              intro e he
              omega
            exact ⟨fun _ => ⟨fun e he => absurd he (hnever e), hunopened, fun e he => absurd he (hnever e)⟩,
              fun hnot => absurd (by simp [hsocket]) hnot⟩
          | some n =>
            have hn : socket.socketDescriptor = n := by simpa [hsocket] using hd
            refine ⟨fun hfits => ?_, fun _ => ?_⟩
            · simp [hsocket] at hfits
            · exact h.unopened.not_agrees (TcpSocket.connectLoop_last_new hloop hlast hsocket) hn rfl

theorem setDescriptor_inv {s s' : TunedSocket} (h : s.Inv) {descriptor : Option (Nat × SocketOptions)}
    (hr : s.setDescriptor descriptor = some s') : s'.Inv := by
  rcases descriptor with _ | ⟨d, given⟩
  · cases hr
    have hnever : ∀ e : Nat, (s.socket.setDescriptor none).socketDescriptor ≠ e := by
      intro e he
      exact absurd he (by simp [TcpSocket.setDescriptor])
    exact ⟨fun e he => absurd he (hnever e), h.unopened, fun e he => absurd he (hnever e)⟩
  · simp only [setDescriptor] at hr
    by_cases hopen : s.kernel.isOpen d
    · rw [if_pos hopen] at hr
      cases hr
    · rw [if_neg hopen] at hr
      cases hr
      refine .reconfigured (fun e he => ?_) fun e he => ?_
      · exact (s.kernel.isOpen_opened d e).mpr (.inl (Int.ofNat_inj.mp he).symm)
      · have hclosed : ¬ (e = d ∨ s.kernel.isOpen e) := fun hor => he ((s.kernel.isOpen_opened d e).mpr hor)
        simp only [not_or] at hclosed
        simp only [Function.update_of_ne hclosed.1]
        exact h.unopened e hclosed.2

theorem setBlocking_inv {s : TunedSocket} (h : s.Inv) (shouldBlock fcntl : Bool) : (s.setBlocking shouldBlock fcntl).2.Inv := by
  have hopen : ∀ e, (s.socket.setBlocking s.kernel shouldBlock fcntl).2.2.isOpen e ↔ s.kernel.isOpen e := by
    intro e
    rw [← setUnixSocketBlocking_isOpen s.kernel s.socket.socketDescriptor s.socket.isBlocking shouldBlock fcntl e]
    unfold TcpSocket.setBlocking
    split
    · rename_i hset
      rw [hset]
    · rename_i hset
      rw [hset]
  have hd := TcpSocket.setBlocking_descriptor s.socket s.kernel shouldBlock fcntl
  refine ⟨fun e he => ?_, fun e he => ?_, fun e he => ?_⟩
  · have hagrees := h.agrees e (hd.symm.trans he)
    exact ⟨hagrees.noDelay, hagrees.receive, hagrees.send⟩
  · exact h.unopened e fun hold => he ((hopen e).mpr hold)
  · exact (hopen e).mpr (h.opened e (hd.symm.trans he))

theorem closeSocket_inv {s : TunedSocket} (h : s.Inv) : s.closeSocket.Inv := by
  by_cases hconnected : s.socket.connected = true
  · obtain ⟨d, hd⟩ := TcpSocket.connected_iff.mp hconnected
    have hd' : s.socket.socketDescriptor = Int.ofNat d := hd
    have hclosed : s.closeSocket = { s with
        socket := { s.socket with socketDescriptor := -1 }
        kernel := s.kernel.closed d
        options := Function.update s.options d .initial } := by
      unfold closeSocket TcpSocket.closeSocket setsockopt
      simp only [if_pos hconnected, hd']
      rfl
    have hnever : ∀ e : Nat, (-1 : Int) ≠ e := by
      intro e
      omega
    rw [hclosed]
    refine ⟨fun e he => absurd he (hnever e), fun e he => ?_, fun e he => absurd he (hnever e)⟩
    by_cases heq : e = d
    · subst heq
      exact Function.update_self ..
    · simp only [Function.update_of_ne heq]
      refine h.unopened e fun hopen => he ((s.kernel.isOpen_closed d e).mpr ⟨hopen, fun hde => heq ?_⟩)
      exact (Int.ofNat_inj.mp hde).symm
  · have hsame : s.closeSocket = s := by
      unfold closeSocket TcpSocket.closeSocket
      simp only [if_neg hconnected]
    rw [hsame]
    exact h

/-! ## The runs -/

/-- A call keeps the options right, but for a connect that fails and leaves a descriptor. -/
theorem call_inv {s s' : TunedSocket} {c : Call} {status : Option Status} (h : s.Inv) (hr : call s c = some (status, s')) :
    (c.Fits → s'.Inv) ∧ (¬ c.Fits → ¬ s'.Agrees) := by
  cases c with
  | connect address port addresses fcntl =>
    simp only [call, Option.map_eq_some_iff] at hr
    obtain ⟨⟨st, t⟩, hconnect, hrt⟩ := hr
    cases hrt
    exact connect_inv h hconnect
  | setDescriptor descriptor =>
    simp only [call, Option.map_eq_some_iff] at hr
    obtain ⟨t, hset, hrt⟩ := hr
    cases hrt
    exact ⟨fun _ => setDescriptor_inv h hset, fun hnot => absurd trivial hnot⟩
  | setReceiveTimeout timeout =>
    cases hr
    exact ⟨fun _ => .reconfigured h.opened h.unopened, fun hnot => absurd trivial hnot⟩
  | setSendTimeout timeout =>
    cases hr
    exact ⟨fun _ => .reconfigured h.opened h.unopened, fun hnot => absurd trivial hnot⟩
  | setBlocking shouldBlock fcntl =>
    cases hr
    exact ⟨fun _ => setBlocking_inv h shouldBlock fcntl, fun hnot => absurd trivial hnot⟩
  | closeSocket =>
    cases hr
    exact ⟨fun _ => closeSocket_inv h, fun hnot => absurd trivial hnot⟩

end TunedSocket

/-! ## `SSLSocket` -/

structure TunedSSLSocket where
  socket : SSLSocket
  socketReadTimeout : UInt32
  socketWriteTimeout : UInt32
  log : TcpListener.Log
  options : Nat → SocketOptions

namespace TunedSSLSocket

/-- The constructor, in a process with this log. -/
def new (log : TcpListener.Log) : TunedSSLSocket := ⟨.new, 0, 0, log, fun _ => .initial⟩

def setsockopt (s : TunedSSLSocket) (f : SocketOptions → SocketOptions) : TunedSSLSocket :=
  match s.socket.getSocketDescriptor with
  | .ofNat d => { s with options := Function.update s.options d (f (s.options d)) }
  | .negSucc _ => s

def connected (s : TunedSSLSocket) : Bool := -1 < s.socket.getSocketDescriptor

/-- On Unix the timeouts are not passed on. -/
def reconfigureSocket (s : TunedSSLSocket) : TunedSSLSocket :=
  if !s.connected then s else s.setsockopt fun o => { o with noDelay := true }

def setReceiveTimeout (s : TunedSSLSocket) (timeout : UInt32) : TunedSSLSocket :=
  reconfigureSocket { s with socketReadTimeout := timeout }

def setSendTimeout (s : TunedSSLSocket) (timeout : UInt32) : TunedSSLSocket :=
  reconfigureSocket { s with socketWriteTimeout := timeout }

/-- What the `TcpSocket` within `connect` configures, if it connects, is what it was built
    with. -/
def connect (s : TunedSSLSocket) (address port : Bytes) (addresses : Option (List Attempt)) (fcntl : Bool) (r : Negotiation) :
    Option (Status × TunedSSLSocket) :=
  match s.socket.connect s.log address port addresses fcntl r with
  | none => none
  | some (status, socket, log) =>
    let s := setsockopt { s with socket := socket, log := log } fun _ => (TunedSocket.new ⟨fun _ => none⟩).configured
    some (status, if status = .success then s.reconfigureSocket else s)

/-- `SSLListener::accept` of this socket. -/
def accept (s : TunedSSLSocket) (r : Accepting) : Option (Status × TunedSSLSocket) :=
  match SSLListener.accept s.log s.socket r with
  | none => none
  | some (status, socket, log) =>
    let s := { s with socket := socket, log := log }
    some (status, if status = .success then (s.setsockopt fun _ => .initial).reconfigureSocket else s)

def closeSocket (s : TunedSSLSocket) : TunedSSLSocket :=
  let (socket, log) := s.socket.closeSocket s.log
  { s with socket := socket, log := log }

inductive Call where
  | connect (address port : Bytes) (addresses : Option (List Attempt)) (fcntl : Bool) (r : Negotiation)
  | accept (r : Accepting)
  | setReceiveTimeout (timeout : UInt32)
  | setSendTimeout (timeout : UInt32)
  | closeSocket

def call (s : TunedSSLSocket) : Call → Option (Option Status × TunedSSLSocket)
  | .connect address port addresses fcntl r => (s.connect address port addresses fcntl r).map fun x => (some x.1, x.2)
  | .accept r => (s.accept r).map fun x => (some x.1, x.2)
  | .setReceiveTimeout timeout => some (none, s.setReceiveTimeout timeout)
  | .setSendTimeout timeout => some (none, s.setSendTimeout timeout)
  | .closeSocket => some (none, s.closeSocket)

/-- The descriptor, if there is one, sends at once and waits without end. -/
def Untimed (s : TunedSSLSocket) : Prop :=
  ∀ d : Nat, s.socket.getSocketDescriptor = d → s.options d = ⟨true, ⟨0, 0⟩, ⟨0, 0⟩⟩

theorem setsockopt_socket (s : TunedSSLSocket) (f : SocketOptions → SocketOptions) : (s.setsockopt f).socket = s.socket := by
  unfold setsockopt
  split
  · rfl
  · rfl

theorem setsockopt_options {s : TunedSSLSocket} (f : SocketOptions → SocketOptions) {d : Nat}
    (h : s.socket.getSocketDescriptor = d) : (s.setsockopt f).options d = f (s.options d) := by
  have hd : s.socket.getSocketDescriptor = Int.ofNat d := h
  unfold setsockopt
  simp only [hd, Function.update_self]

theorem reconfigureSocket_socket (s : TunedSSLSocket) : s.reconfigureSocket.socket = s.socket := by
  unfold reconfigureSocket
  split
  · rfl
  · exact s.setsockopt_socket _

theorem reconfigureSocket_options {s : TunedSSLSocket} {d : Nat} (h : s.socket.getSocketDescriptor = d) :
    s.reconfigureSocket.options d = { s.options d with noDelay := true } := by
  have hconnected : s.connected = true := by
    rw [connected, h, decide_eq_true_eq]
    omega
  unfold reconfigureSocket
  rw [if_neg (by simp [hconnected])]
  exact setsockopt_options _ h

/-- Options without timeouts, set for whatever descriptor there is. -/
theorem setsockopt_untimed (s : TunedSSLSocket) {o : SocketOptions} (ho : { o with noDelay := true } = ⟨true, ⟨0, 0⟩, ⟨0, 0⟩⟩) :
    (s.setsockopt fun _ => o).reconfigureSocket.Untimed := by
  intro d hd
  rw [reconfigureSocket_socket] at hd
  rw [reconfigureSocket_options hd]
  rw [setsockopt_socket] at hd
  rw [setsockopt_options _ hd]
  exact ho

theorem Untimed.reconfigured {s : TunedSSLSocket} (h : s.Untimed) : s.reconfigureSocket.Untimed := by
  intro d hd
  rw [reconfigureSocket_options (by rwa [reconfigureSocket_socket] at hd)]
  rw [reconfigureSocket_socket] at hd
  rw [h d hd]

theorem accept_client {log log' : TcpListener.Log} {client client' : SSLSocket} {r : Accepting} {status : Status}
    (hr : SSLListener.accept log client r = some (status, client', log')) (hstatus : status ≠ .success) : client' = client := by
  unfold SSLListener.accept at hr
  repeat' split at hr
  all_goals cases hr
  all_goals first | rfl | exact absurd rfl hstatus

/-- No call brings a timeout to the descriptor. -/
theorem call_untimed {s s' : TunedSSLSocket} {c : Call} {status : Option Status} (h : s.Untimed)
    (hr : call s c = some (status, s')) : s'.Untimed := by
  cases c with
  | connect address port addresses fcntl r =>
    simp only [call, Option.map_eq_some_iff] at hr
    obtain ⟨⟨st, t⟩, hconnect, hrt⟩ := hr
    cases hrt
    unfold connect at hconnect
    split at hconnect
    · cases hconnect
    · rename_i st' socket log hinner
      cases hconnect
      have hset := setsockopt_untimed { s with socket := socket, log := log }
        (o := (TunedSocket.new ⟨fun _ => none⟩).configured) rfl
      split
      · exact hset
      · intro d hd
        rw [setsockopt_socket] at hd
        rw [setsockopt_options _ hd]
        rfl
  | accept r =>
    simp only [call, Option.map_eq_some_iff] at hr
    obtain ⟨⟨st, t⟩, haccept, hrt⟩ := hr
    cases hrt
    unfold accept at haccept
    split at haccept
    · cases haccept
    · rename_i st' socket log hinner
      cases haccept
      by_cases hsuccess : st = .success
      · rw [if_pos hsuccess]
        exact setsockopt_untimed _ rfl
      · rw [if_neg hsuccess]
        have hsame := accept_client hinner hsuccess
        subst hsame
        exact h
  | setReceiveTimeout timeout =>
    cases hr
    exact Untimed.reconfigured h
  | setSendTimeout timeout =>
    cases hr
    exact Untimed.reconfigured h
  | closeSocket =>
    cases hr
    intro d hd
    have hnone : (-1 : Int) = d := hd
    omega

/-- Whatever timeouts are configured, in every state of a run the descriptor has none. -/
theorem timeouts_ignored (log : TcpListener.Log) (calls : List Call) :
    Always call (fun _ _ _ s' => s'.Untimed) (new log) calls := by
  have hnew : (new log).Untimed := by
    intro d hd
    have hnone : (-1 : Int) = d := hd
    omega
  exact always_of_step (fun s c status s' h hr => ⟨call_untimed h hr, call_untimed h hr⟩) hnew calls

end TunedSSLSocket

end Frnetlib
