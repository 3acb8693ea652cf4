/-
  Frnetlib.Net.Handles — what `fr::TcpSocket`, `fr::TcpListener`, `fr::SSLSocket` and
  `fr::SSLListener` do with their descriptors (`TcpSocket.cpp`, `TcpListener.cpp`,
  `SSLSocket.cpp`, `SSLListener.cpp`), over the log of the descriptors of the process.

  A descriptor of `::socket` or `::accept` is any that is not open, and an outcome that
  names an open one is no run (`none`). `SSLSocket::connect` and `SSLListener::listen` work
  with a `TcpSocket` and a `TcpListener` of their own and steal the descriptor. The
  descriptor of an `SSLSocket` is in a context on the heap, which closes it when it is
  freed; so nothing is written over there.

  `TcpSocket::connect` is that of `Net.Descriptor`, with the log in the place of the
  kernel's table (`connectLog_connect`).
-/

import Frnetlib.Base.Owners
import Frnetlib.Net.TcpListener

namespace Frnetlib

open Base Ledger

/-- The descriptor that a field holds, if it is one. -/
def number : Int → Option Nat
  | .ofNat d => some d
  | .negSucc _ => none

@[simp] theorem number_natCast (d : Nat) : number (d : Int) = some d := rfl

theorem number_neg {d : Int} (h : d < 0) : number d = none := by
  cases d with
  | ofNat n => exact absurd h (by show ¬ (n : Int) < 0; omega)
  | negSucc n => rfl

theorem number_eq_some {d : Int} {n : Nat} : number d = some n ↔ d = n := by
  cases d with
  | ofNat m =>
    rw [number, Option.some.injEq]
    exact Int.ofNat_inj.symm
  | negSucc m => simp [number]

theorem closesocket_none {d : Int} (h : number d = none) (log : TcpListener.Log) : TcpListener.closesocket log d = log := by
  cases d with
  | ofNat n => cases h
  | negSucc n => rfl

/-- `close` of what is had leaves nothing had, and nothing else changes. -/
theorem beside_closesocket {others : Finset Nat} {d : Int} {log : TcpListener.Log} :
    Beside others none (TcpListener.closesocket log d) ↔ Beside others (number d) log := by
  cases d with
  | ofNat n => exact beside_closes
  | negSucc n => exact Iff.rfl

/-! ## `TcpSocket` -/

namespace TcpSocket

def closeLog (s : TcpSocket) (log : TcpListener.Log) : TcpSocket × TcpListener.Log :=
  if s.connected then ({ s with socketDescriptor := -1 }, TcpListener.closesocket log s.socketDescriptor) else (s, log)

/-- The destructor. -/
def destroyLog (s : TcpSocket) (log : TcpListener.Log) : TcpListener.Log := (s.closeLog log).2

/-- A round of the loop over the addresses. -/
def attemptLog (a : Attempt) (log : TcpListener.Log) : Option (Bool × Int × TcpListener.Log) :=
  match a.socket with
  | none => some (false, -1, log)
  | some d => if d ∈ held log then none else some (a.succeeds, d, log ++ [.opens d])

def connectLoopLog : List Attempt → Int → TcpListener.Log → Option (Bool × Int × TcpListener.Log)
  | [], socketDescriptor, log => some (false, socketDescriptor, log)
  | a :: rest, _, log =>
    match attemptLog a log with
    | none => none
    | some (found, socketDescriptor, log) =>
      if found then some (true, socketDescriptor, log) else connectLoopLog rest socketDescriptor log

def connectLog (s : TcpSocket) (log : TcpListener.Log) (address port : Bytes) (addresses : Option (List Attempt))
    (fcntl : Bool) : Option (Status × TcpSocket × TcpListener.Log) :=
  match addresses with
  | none => some (.addressLookupFailure, s, log)
  | some addresses =>
    match connectLoopLog addresses s.socketDescriptor log with
    | none => none
    | some (found, socketDescriptor, log) =>
      let s := { s with socketDescriptor := socketDescriptor }
      if !found then some (.noRouteToHost, s, log)
      else if !fcntl then some (.error, s, log)
      else some (.success, { s with remoteAddress := address ++ bytes ":" ++ port }, log)

end TcpSocket

/-! ## `SSLSocket` -/

/-- `mbedtls_net_free` -/
def netFree (log : TcpListener.Log) (fd : Int) : TcpListener.Log :=
  if fd = -1 then log else TcpListener.closesocket log fd

structure SSLSocket where
  /-- `fd` of the context, if there is one. -/
  sslSocketDescriptor : Option Int
  shouldVerify : Bool
  remoteAddress : Bytes
  deriving DecidableEq, Repr

/-- What the calls of mbedtls after the inner `connect` give. -/
structure Negotiation where
  configDefaults : Bool
  setup : Bool
  setHostname : Bool
  handshake : Bool
  verifyResult : Bool
  deriving DecidableEq, Repr

/-- What `connect` returns then. -/
def Negotiation.status (r : Negotiation) (shouldVerify : Bool) : Status :=
  if !r.configDefaults then .sslError
  else if !r.setup then .sslError
  else if !r.setHostname then .sslError
  else if !r.handshake then .sslError
  else if shouldVerify && !r.verifyResult then .verificationFailed
  else .success

namespace SSLSocket

/-- The constructor. -/
def new : SSLSocket := ⟨none, true, []⟩

def getSocketDescriptor (s : SSLSocket) : Int := s.sslSocketDescriptor.getD (-1)

/-- What `reset` does with the context that was there. -/
def webFree (log : TcpListener.Log) : Option Int → TcpListener.Log
  | none => log
  | some fd => netFree log fd

def closeSocket (s : SSLSocket) (log : TcpListener.Log) : SSLSocket × TcpListener.Log :=
  ({ s with sslSocketDescriptor := none }, webFree log s.sslSocketDescriptor)

/-- The destructor. -/
def destroy (s : SSLSocket) (log : TcpListener.Log) : TcpListener.Log := (s.closeSocket log).2

/-- `set_descriptor`, `none` for a null pointer. -/
def setDescriptor (s : SSLSocket) (log : TcpListener.Log) (descriptor : Option Int) : SSLSocket × TcpListener.Log :=
  ({ s with sslSocketDescriptor := descriptor }, webFree log s.sslSocketDescriptor)

def connect (s : SSLSocket) (log : TcpListener.Log) (address port : Bytes) (addresses : Option (List Attempt))
    (fcntl : Bool) (r : Negotiation) : Option (Status × SSLSocket × TcpListener.Log) :=
  let (s, log) := s.setDescriptor log (some (-1))
  match TcpSocket.new.connectLog log address port addresses fcntl with
  | none => none
  | some (ret, socket, log) =>
    if ret ≠ .success then some (ret, s, socket.destroyLog log)
    else
      let s := { s with sslSocketDescriptor := some socket.socketDescriptor, remoteAddress := socket.remoteAddress }
      let log := (socket.setDescriptor none).destroyLog log
      some (r.status s.shouldVerify, s, log)

end SSLSocket

/-! ## `SSLListener` -/

structure SSLListener where
  listenFd : Int
  deriving DecidableEq, Repr

/-- What the calls of `accept` give. -/
structure Accepting where
  setup : Bool
  /-- The descriptor of `::accept`, if it succeeds. -/
  descriptor : Option Nat
  /-- `mbedtls_net_accept` has nothing else to object to. -/
  accepted : Bool
  handshake : Bool
  printableAddr : Option Bytes
  deriving DecidableEq, Repr

namespace SSLListener

/-- The constructor, where it does not throw. -/
def new : SSLListener := ⟨-1⟩

def closeSocket (s : SSLListener) (log : TcpListener.Log) : SSLListener × TcpListener.Log :=
  if s.listenFd ≠ -1 then (⟨-1⟩, netFree log s.listenFd) else (s, log)

/-- The destructor. -/
def destroy (s : SSLListener) (log : TcpListener.Log) : TcpListener.Log :=
  let (s, log) := s.closeSocket log
  netFree log s.listenFd

def listen (s : SSLListener) (log : TcpListener.Log) (info : Option (List Address)) (listens : Bool) :
    Option (Status × SSLListener × TcpListener.Log) :=
  let log := (s.closeSocket log).2
  match TcpListener.new.listen log info listens with
  | none => none
  | some (status, tcpListen, log) =>
    if status ≠ .success then some (.bindFailed, ⟨-1⟩, tcpListen.destroy log)
    else some (.success, ⟨tcpListen.socketDescriptor⟩, (⟨-1⟩ : TcpListener).destroy log)

def accept (log : TcpListener.Log) (client : SSLSocket) (r : Accepting) : Option (Status × SSLSocket × TcpListener.Log) :=
  if !r.setup then some (.error, client, netFree log (-1))
  else
    match r.descriptor with
    | none => some (.acceptError, client, netFree log (-1))
    | some d =>
      if d ∈ held log then none
      else
        let log := log ++ [.opens d]
        if !r.accepted then some (.acceptError, client, netFree log d)
        else if !r.handshake then some (.sslError, client, netFree log d)
        else
          let (client, log) := client.setDescriptor log (some (d : Int))
          some (.success, { client with remoteAddress := r.printableAddr.getD (bytes "unknown") }, log)

end SSLListener

/-! ## The log and the kernel's table -/

namespace TcpSocket

/-- What is open is what the log holds. -/
def Logged (k : Kernel) (log : TcpListener.Log) : Prop := ∀ e, k.isOpen e ↔ e ∈ held log

theorem Logged.opens {k : Kernel} {log : TcpListener.Log} (h : Logged k log) (n : Nat) (nonblock : Bool) :
    Logged (k.set n (some nonblock)) (log ++ [.opens n]) := by
  intro e
  rw [held_opens, Finset.mem_insert, ← h e]
  by_cases he : e = n
  · simp [Kernel.isOpen, he]
  · simp [Kernel.isOpen, he]

/-- A round ends, where the number is one that is not open. -/
theorem attempt_ne_none {k : Kernel} {a : Attempt} {n : Nat} (h : a.socket = some n) (hn : ¬ k.isOpen n) :
    attempt a k ≠ none := by
  rw [attempt, h, openSocket, if_neg hn]
  repeat' split
  all_goals simp_all

theorem attemptLog_attempt {k : Kernel} {log : TcpListener.Log} (h : Logged k log) (a : Attempt) :
    (attempt a k = none ∧ attemptLog a log = none) ∨
    ∃ found d k' log', attempt a k = some (found, d, k') ∧ attemptLog a log = some (found, d, log') ∧ Logged k' log' ∧
      (found = true → k'.flag d ≠ none) := by
  rw [attemptLog]
  cases hsocket : a.socket with
  | none => exact .inr ⟨false, -1, k, log, attempt_none hsocket k, rfl, h, fun hfound => by cases hfound⟩
  | some n =>
    by_cases hopen : k.isOpen n
    · refine .inl ⟨?_, if_pos ((h n).mp hopen)⟩
      rw [attempt, hsocket, openSocket, if_pos hopen]
    · have hheld : n ∉ held log := fun hn => hopen ((h n).mpr hn)
      cases hattempt : attempt a k with
      | none => exact absurd hattempt (attempt_ne_none hsocket hopen)
      | some r =>
        obtain ⟨found, d, k'⟩ := r
        obtain ⟨-, rfl, rfl, nonblock, rfl, -⟩ := attempt_some hsocket hattempt
        exact .inr ⟨_, _, _, _, rfl, if_neg hheld, h.opens n nonblock, fun _ => by simp [Kernel.flag]⟩

theorem connectLoopLog_connectLoop {k : Kernel} {log : TcpListener.Log} (h : Logged k log) (addresses : List Attempt)
    (d : Int) :
    (connectLoop addresses d k = none ∧ connectLoopLog addresses d log = none) ∨
    ∃ found d' k' log', connectLoop addresses d k = some (found, d', k') ∧
      connectLoopLog addresses d log = some (found, d', log') ∧ Logged k' log' ∧ (found = true → k'.flag d' ≠ none) := by
  induction addresses generalizing d k log with
  | nil => exact .inr ⟨false, d, k, log, rfl, rfl, h, fun hfound => by cases hfound⟩
  | cons a rest ih =>
    rw [connectLoop, connectLoopLog]
    rcases attemptLog_attempt h a with ⟨hk, hlog⟩ | ⟨found, d₁, k₁, log₁, hk, hlog, h₁, hflag⟩
    · rw [hk, hlog]
      exact .inl ⟨rfl, rfl⟩
    · rw [hk, hlog]
      cases found with
      | true => exact .inr ⟨true, d₁, k₁, log₁, rfl, rfl, h₁, hflag⟩
      | false => exact ih h₁ d₁

/-- Both have the same result, or neither is a run, and the log goes on to say what is
    open. -/
theorem connectLog_connect {k : Kernel} {log : TcpListener.Log} (h : Logged k log) (s : TcpSocket) (address port : Bytes)
    (addresses : Option (List Attempt)) (fcntl : Bool) :
    (s.connect k address port addresses fcntl = none ∧ s.connectLog log address port addresses fcntl = none) ∨
    ∃ status s' k' log', s.connect k address port addresses fcntl = some (status, s', k') ∧
      s.connectLog log address port addresses fcntl = some (status, s', log') ∧ Logged k' log' := by
  cases addresses with
  | none => exact .inr ⟨_, _, k, log, rfl, rfl, h⟩
  | some addresses =>
    rw [connect, connectLog]
    rcases connectLoopLog_connectLoop h addresses s.socketDescriptor with
      ⟨hk, hlog⟩ | ⟨found, d, k₁, log₁, hk, hlog, h₁, hflag⟩
    · rw [hk, hlog]
      exact .inl ⟨rfl, rfl⟩
    · rw [hk, hlog]
      cases found with
      | false => exact .inr ⟨_, _, k₁, log₁, rfl, rfl, h₁⟩
      | true =>
        obtain ⟨nonblock, hnonblock⟩ := Option.ne_none_iff_exists'.mp (hflag rfl)
        have hset : setUnixSocketBlocking k₁ d false true fcntl =
            if fcntl then (true, k₁.setFlag (!nonblock) d) else (false, k₁) := by
          simp [setUnixSocketBlocking, hnonblock]
        cases fcntl with
        | false => exact .inr ⟨.error, _, k₁, log₁, by simp [hset], rfl, h₁⟩
        | true =>
          have hlogged : Logged (k₁.setFlag (!nonblock) d) log₁ := by
            cases d with
            | negSucc n => cases hnonblock
            | ofNat n =>
              have hopen : k₁.isOpen n := by simpa [Kernel.isOpen, Kernel.flag] using hflag rfl
              intro e
              rw [← h₁ e]
              by_cases he : e = n
              · subst he
                simpa [Kernel.setFlag, Kernel.isOpen] using hopen
              · simp [Kernel.setFlag, Kernel.isOpen, he]
          exact .inr ⟨.success, _, _, log₁, by simp [hset], rfl, hlogged⟩

end TcpSocket

end Frnetlib
