/-
  Frnetlib.Net.Descriptor — the descriptor of an `fr::TcpSocket` (`TcpSocket.cpp`,
  `NetworkEncoding.h`) in the kernel's table.

  `Kernel` has the open descriptors, each with its O_NONBLOCK flag. What the system calls
  of `connect` give for one of the resolved addresses is an `Attempt`; the number
  `::socket` returns is any that is not open, and an outcome that names an open one is no
  run (`none`). `errno`, the socket options and the timeouts have no effect here.

  `::socket` fails with -1, and the source compares with an INVALID_SOCKET of 0: so it is
  the `fcntl` on -1 that passes over a failure, and a descriptor of number 0, the standard
  input's once that is closed, is passed over while it is open.
-/

import Frnetlib.Net.Socket
import Mathlib.Logic.Function.Basic

namespace Frnetlib

open Base

/-! ## The kernel -/

structure Kernel where
  nonblock : Nat → Option Bool

namespace Kernel

def isOpen (k : Kernel) (d : Nat) : Prop := k.nonblock d ≠ none

instance (k : Kernel) (d : Nat) : Decidable (k.isOpen d) := inferInstanceAs (Decidable (_ ≠ _))

def set (k : Kernel) (d : Nat) (nonblock : Option Bool) : Kernel := ⟨Function.update k.nonblock d nonblock⟩

/-- A new descriptor blocks. -/
def opened (k : Kernel) (d : Nat) : Kernel := k.set d (some false)

/-- `close` -/
def closed (k : Kernel) : Int → Kernel
  | .ofNat d => k.set d none
  | .negSucc _ => k

/-- The O_NONBLOCK flag of a descriptor, if it is open. -/
def flag (k : Kernel) : Int → Option Bool
  | .ofNat d => k.nonblock d
  | .negSucc _ => none

/-- F_SETFL -/
def setFlag (k : Kernel) (nonblock : Bool) : Int → Kernel
  | .ofNat d => k.set d (some nonblock)
  | .negSucc _ => k

@[simp] theorem set_self (k : Kernel) (d : Nat) (b : Option Bool) : (k.set d b).nonblock d = b := by simp [set]

@[simp] theorem set_ne (k : Kernel) {d e : Nat} (b : Option Bool) (h : e ≠ d) :
    (k.set d b).nonblock e = k.nonblock e := by simp [set, h]

@[simp] theorem set_set (k : Kernel) (d : Nat) (b c : Option Bool) : (k.set d b).set d c = k.set d c := by
  simp [set]

theorem isOpen_opened (k : Kernel) (d e : Nat) : (k.opened d).isOpen e ↔ e = d ∨ k.isOpen e := by
  by_cases he : e = d
  · simp [isOpen, opened, he]
  · simp [isOpen, opened, he]

theorem isOpen_closed (k : Kernel) (descriptor : Int) (e : Nat) :
    (k.closed descriptor).isOpen e ↔ k.isOpen e ∧ descriptor ≠ e := by
  cases descriptor with
  | negSucc n =>
    have hne : Int.negSucc n ≠ e := by omega
    simp [closed, hne]
  | ofNat d =>
    by_cases he : e = d
    · simp [isOpen, closed, he]
    · have hne : Int.ofNat d ≠ e := fun h => he (Int.ofNat.inj h).symm
      simp only [closed, isOpen, set_ne k none he, hne, ne_eq, not_false_eq_true, and_true]

end Kernel

/-- `set_unix_socket_blocking`, where the calls of `fcntl` succeed or not: the flag is
    toggled, whatever it is. -/
def setUnixSocketBlocking (k : Kernel) (socketDescriptor : Int) (isBlockingAlready shouldBlock fcntl : Bool) :
    Bool × Kernel :=
  if shouldBlock = isBlockingAlready then (true, k)
  else
    match k.flag socketDescriptor with
    | none => (false, k)
    | some nonblock => if fcntl then (true, k.setFlag (!nonblock) socketDescriptor) else (false, k)

/-! ## The socket -/

/-- `INVALID_SOCKET` (`NetworkEncoding.h`) -/
def invalidSocket : Int := 0

structure TcpSocket where
  socketDescriptor : Int
  isBlocking : Bool
  remoteAddress : Bytes
  deriving DecidableEq, Repr

inductive ConnectResult where
  | connected
  /-- It fails with EINPROGRESS. -/
  | inProgress
  | failed
  deriving DecidableEq, Repr

/-- What the calls for one address give. -/
structure Attempt where
  /-- The number of the new descriptor, if `::socket` succeeds. -/
  socket : Option Nat
  fcntl : Bool
  connect : ConnectResult
  /-- The descriptor is ready before the timeout. -/
  select : Bool
  /-- The SO_ERROR of the descriptor, if the call succeeds. -/
  getsockopt : Option Int
  deriving DecidableEq, Repr

namespace TcpSocket

/-- The constructor. -/
def new : TcpSocket := ⟨-1, true, []⟩

def connected (s : TcpSocket) : Bool := -1 < s.socketDescriptor

def closeSocket (s : TcpSocket) (k : Kernel) : TcpSocket × Kernel :=
  if s.connected then ({ s with socketDescriptor := -1 }, k.closed s.socketDescriptor) else (s, k)

/-- `set_descriptor`, `none` for a null pointer. -/
def setDescriptor (s : TcpSocket) (descriptor : Option Int) : TcpSocket :=
  { s with socketDescriptor := descriptor.getD (-1) }

def setBlocking (s : TcpSocket) (k : Kernel) (shouldBlock fcntl : Bool) : Status × TcpSocket × Kernel :=
  match setUnixSocketBlocking k s.socketDescriptor s.isBlocking shouldBlock fcntl with
  | (false, k) => (.error, s, k)
  | (true, k) => (.success, { s with isBlocking := shouldBlock }, k)

/-- `::socket` -/
def openSocket (k : Kernel) : Option Nat → Option (Int × Kernel)
  | none => some (-1, k)
  | some d => if k.isOpen d then none else some (d, k.opened d)

/-- A round of the loop over the addresses: whether it breaks out, and
    `socket_descriptor`. -/
def attempt (a : Attempt) (k : Kernel) : Option (Bool × Int × Kernel) :=
  match openSocket k a.socket with
  | none => none
  | some (d, k) =>
    if d = invalidSocket then some (false, d, k)
    else
      match setUnixSocketBlocking k d true false a.fcntl with
      | (false, k) => some (false, d, k)
      | (true, k) =>
        match a.connect with
        | .failed => some (false, d, k)
        | .connected => some (true, d, k)
        | .inProgress =>
          if !a.select then some (false, d, k)
          else
            match a.getsockopt with
            | none => some (false, d, k)
            | some ret => some (ret = 0, d, k)

def connectLoop : List Attempt → Int → Kernel → Option (Bool × Int × Kernel)
  | [], socketDescriptor, k => some (false, socketDescriptor, k)
  | a :: rest, _, k =>
    match attempt a k with
    | none => none
    | some (found, socketDescriptor, k) =>
      if found then some (true, socketDescriptor, k) else connectLoop rest socketDescriptor k

/-- `connect`, where the lookup gives these addresses, `none` if it fails, and the last
    calls of `fcntl` succeed or not. -/
def connect (s : TcpSocket) (k : Kernel) (address port : Bytes) (addresses : Option (List Attempt)) (fcntl : Bool) :
    Option (Status × TcpSocket × Kernel) :=
  match addresses with
  | none => some (.addressLookupFailure, s, k)
  | some addresses =>
    match connectLoop addresses s.socketDescriptor k with
    | none => none
    | some (found, socketDescriptor, k) =>
      let s := { s with socketDescriptor := socketDescriptor }
      if !found then some (.noRouteToHost, s, k)
      else
        match setUnixSocketBlocking k s.socketDescriptor false true fcntl with
        | (false, k) => some (.error, s, k)
        | (true, k) => some (.success, { s with remoteAddress := address ++ bytes ":" ++ port }, k)

end TcpSocket

/-! ## Closing -/

namespace TcpSocket

theorem connected_iff {s : TcpSocket} : s.connected = true ↔ ∃ d : Nat, s.socketDescriptor = d := by
  simp only [connected, decide_eq_true_eq]
  constructor
  · intro h
    exact ⟨s.socketDescriptor.toNat, by omega⟩
  · intro hgiven
    obtain ⟨d, h⟩ := hgiven
    omega

theorem closeSocket_connected (s : TcpSocket) (k : Kernel) : (s.closeSocket k).1.connected = false := by
  unfold closeSocket
  by_cases hconn : s.connected = true
  · rw [if_pos hconn]
    rfl
  · rw [if_neg hconn]
    simpa using hconn

theorem closeSocket_isOpen (s : TcpSocket) (k : Kernel) (e : Nat) :
    (s.closeSocket k).2.isOpen e ↔ k.isOpen e ∧ s.socketDescriptor ≠ e := by
  unfold closeSocket
  by_cases hconn : s.connected = true
  · rw [if_pos hconn]
    exact k.isOpen_closed s.socketDescriptor e
  · rw [if_neg hconn]
    have hne : s.socketDescriptor ≠ e := fun h => hconn (connected_iff.mpr ⟨e, h⟩)
    simp [hne]

end TcpSocket

/-! ## What one address comes to -/

/-- The calls for the address all succeed, with a descriptor that is not taken for none. -/
def Attempt.succeeds (a : Attempt) : Bool :=
  a.socket.any (fun d : Nat => (d : Int) ≠ invalidSocket) && a.fcntl &&
    (a.connect = .connected || (a.connect = .inProgress && a.select && a.getsockopt = some 0))

theorem Attempt.socket_some (a : Attempt) (h : a.succeeds = true) : ∃ n, a.socket = some n := by
  simp only [succeeds, Bool.and_eq_true, Option.any_eq_true] at h
  obtain ⟨⟨⟨n, hn, -⟩, -⟩, -⟩ := h
  exact ⟨n, hn⟩

namespace TcpSocket

theorem attempt_none {a : Attempt} (h : a.socket = none) (k : Kernel) : attempt a k = some (false, -1, k) := by
  rw [attempt, h]
  rfl

/-- A descriptor that was opened stays open, whatever the calls after it give. -/
theorem attempt_some {a : Attempt} {n : Nat} (h : a.socket = some n) {k k' : Kernel} {found : Bool} {d : Int}
    (hr : attempt a k = some (found, d, k')) :
    ¬ k.isOpen n ∧ found = a.succeeds ∧ d = n ∧
      ∃ nonblock, k' = k.set n (some nonblock) ∧ (found = true → nonblock = true) := by
  rw [attempt, h, openSocket] at hr
  by_cases hopen : k.isOpen n
  · rw [if_pos hopen] at hr
    cases hr
  · rw [if_neg hopen] at hr
    simp only at hr
    by_cases hinvalid : (n : Int) = invalidSocket
    · rw [if_pos hinvalid] at hr
      cases hr
      exact ⟨hopen, by simp [Attempt.succeeds, h, hinvalid], rfl, false, rfl, fun hfound => by cases hfound⟩
    · rw [if_neg hinvalid] at hr
      have hset : setUnixSocketBlocking (k.opened n) n true false a.fcntl =
          if a.fcntl then (true, k.set n (some true)) else (false, k.opened n) := by
        simp [setUnixSocketBlocking, Kernel.flag, Kernel.setFlag, Kernel.opened]
      rw [hset] at hr
      refine ⟨hopen, ?_⟩
      unfold Attempt.succeeds
      by_cases hfcntl : a.fcntl = true
      · rw [if_pos hfcntl] at hr
        cases hconnect : a.connect with
        | failed =>
          simp only [hconnect] at hr
          cases hr
          simp
        | connected =>
          simp only [hconnect] at hr
          cases hr
          simp [h, hinvalid, hfcntl]
        | inProgress =>
          simp only [hconnect] at hr
          by_cases hselect : a.select = true
          · rw [if_neg (by simp [hselect])] at hr
            cases hget : a.getsockopt with
            | none =>
              simp only [hget] at hr
              cases hr
              simp
            | some ret =>
              simp only [hget] at hr
              cases hr
              simp [h, hinvalid, hfcntl, hselect]
          · rw [if_pos (by simp [hselect])] at hr
            cases hr
            simp [hselect]
      · rw [if_neg hfcntl] at hr
        cases hr
        simp [hfcntl, Kernel.opened]

end TcpSocket

end Frnetlib
