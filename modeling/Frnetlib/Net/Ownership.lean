/-
  Frnetlib.Net.Ownership — who has which descriptor in a process of sockets and listeners of
  both kinds (`Net.Handles`), under any order of constructors, calls and destructors.

  A field is written over by the loops of `TcpSocket::connect` and `TcpListener::listen`, by
  these calls on an object that has a descriptor, and by an `accept` into a `TcpSocket` that
  has one. `SSLSocket` and `SSLListener` free what they had first, so there only the inner
  loops remain. Every open descriptor has exactly one owner, and none is closed by another
  or twice, after every step of a run exactly when no call of the run does so
  (`descriptors_owned`); then nothing is left once all objects are destroyed.

  Descriptor 0 is the standard input, which is open all along. `INVALID_SOCKET` is 0: a
  `::socket` that failed goes on to a call that fails on -1, and one that returned 0 would
  be taken for one that failed.
-/

import Frnetlib.Base.Run
import Frnetlib.Net.Handles

namespace Frnetlib

open Base Ledger

/-! ## Connecting -/

namespace TcpSocket

/-- Only the last address the loop comes to gets a descriptor. -/
def LastOnly : List Attempt → Prop
  | [] => True
  | a :: rest => if a.socket.isSome then a.succeeds = true ∨ rest = [] else LastOnly rest

instance LastOnly.decidable : (addresses : List Attempt) → Decidable (LastOnly addresses)
  | [] => isTrue trivial
  | a :: rest => by
    have : Decidable (LastOnly rest) := LastOnly.decidable rest
    unfold LastOnly
    infer_instance

/-- The loop comes to no address, or to these while there is nothing to write over. -/
def Keeps (s : TcpSocket) : Option (List Attempt) → Prop
  | none => True
  | some addresses => addresses = [] ∨ (s.connected = false ∧ LastOnly addresses)

instance (s : TcpSocket) (addresses : Option (List Attempt)) : Decidable (s.Keeps addresses) := by
  unfold Keeps
  split <;> infer_instance

theorem connected_number {s : TcpSocket} : s.connected = false ↔ number s.socketDescriptor = none := by
  simp only [connected, decide_eq_false_iff_not]
  cases s.socketDescriptor with
  | ofNat n => simp only [number]; simp; omega
  | negSucc n => simp only [number]; simp; omega

theorem closeLog_eq (s : TcpSocket) (log : TcpListener.Log) :
    (s.closeLog log).2 = TcpListener.closesocket log s.socketDescriptor ∧
      number (s.closeLog log).1.socketDescriptor = none := by
  unfold closeLog
  by_cases hconn : s.connected = true
  · rw [if_pos hconn]
    exact ⟨rfl, rfl⟩
  · rw [if_neg hconn]
    have hnone : number s.socketDescriptor = none := connected_number.mp (by simpa using hconn)
    exact ⟨(closesocket_none hnone log).symm, hnone⟩

theorem attemptLog_some {a : Attempt} {n : Nat} (h : a.socket = some n) {log log' : TcpListener.Log} {found : Bool}
    {d : Int} (hr : attemptLog a log = some (found, d, log')) :
    n ∉ held log ∧ found = a.succeeds ∧ d = n ∧ log' = log ++ [.opens n] := by
  rw [attemptLog, h] at hr
  by_cases hn : n ∈ held log
  · simp only [if_pos hn] at hr
    cases hr
  · simp only [if_neg hn] at hr
    cases hr
    exact ⟨hn, rfl, rfl, rfl⟩

/-- What is open stays open, and is not what a round leaves in the field. -/
theorem attemptLog_held {a : Attempt} {log log' : TcpListener.Log} {found : Bool} {d : Int}
    (hr : attemptLog a log = some (found, d, log')) {e : Nat} (he : e ∈ held log) :
    e ∈ held log' ∧ number d ≠ some e := by
  cases hsocket : a.socket with
  | none =>
    rw [attemptLog, hsocket] at hr
    cases hr
    exact ⟨he, fun hne => by cases hne⟩
  | some n =>
    obtain ⟨hn, -, rfl, rfl⟩ := attemptLog_some hsocket hr
    refine ⟨by simp [he], fun hne => hn ?_⟩
    cases hne
    exact he

theorem connectLoopLog_held {addresses : List Attempt} {d d' : Int} {log log' : TcpListener.Log} {found : Bool}
    (hr : connectLoopLog addresses d log = some (found, d', log')) {e : Nat} (he : e ∈ held log)
    (hd : addresses = [] → number d ≠ some e) : e ∈ held log' ∧ number d' ≠ some e := by
  induction addresses generalizing d log with
  | nil =>
    cases hr
    exact ⟨he, hd rfl⟩
  | cons a rest ih =>
    rw [connectLoopLog] at hr
    cases hattempt : attemptLog a log with
    | none => simp [hattempt] at hr
    | some r =>
      obtain ⟨found₁, d₁, log₁⟩ := r
      obtain ⟨he₁, hd₁⟩ := attemptLog_held hattempt he
      simp only [hattempt] at hr
      cases found₁ with
      | true =>
        cases hr
        exact ⟨he₁, hd₁⟩
      | false => exact ih hr he₁ fun _ => hd₁

/-- Where there is nothing to write over. -/
theorem connectLoopLog_beside {others : Finset Nat} {addresses : List Attempt} {d d' : Int} {log log' : TcpListener.Log}
    {found : Bool} (h : Beside others none log) (hd : addresses = [] → number d = none)
    (hr : connectLoopLog addresses d log = some (found, d', log')) :
    Beside others (number d') log' ↔ LastOnly addresses := by
  induction addresses generalizing d log with
  | nil =>
    cases hr
    rw [hd rfl]
    exact iff_of_true h trivial
  | cons a rest ih =>
    rw [connectLoopLog] at hr
    rw [LastOnly]
    cases hsocket : a.socket with
    | none =>
      have hattempt : attemptLog a log = some (false, -1, log) := by rw [attemptLog, hsocket]
      simp only [hattempt] at hr
      exact ih h (fun _ => rfl) hr
    | some n =>
      cases hattempt : attemptLog a log with
      | none => simp [hattempt] at hr
      | some r =>
        obtain ⟨found₁, d₁, log₁⟩ := r
        obtain ⟨hn, rfl, rfl, rfl⟩ := attemptLog_some hsocket hattempt
        have hopen : Beside others (some n) (log ++ [.opens n]) := (beside_opens hn).mpr h
        simp only [hattempt] at hr
        simp only [Option.isSome_some, if_true]
        cases hsucceeds : a.succeeds with
        | true =>
          rw [hsucceeds] at hr
          cases hr
          exact iff_of_true hopen (.inl rfl)
        | false =>
          rw [hsucceeds] at hr
          by_cases hnil : rest = []
          · subst hnil
            cases hr
            exact iff_of_true hopen (.inr rfl)
          · -- the next address writes over it
            obtain ⟨hstill, hne⟩ := connectLoopLog_held hr (e := n) (by simp) fun hno => absurd hno hnil
            refine iff_of_false (fun hbeside => hne (hbeside.kept hstill (hopen.apart n rfl))) ?_
            simp [hnil]

theorem connectLog_some {s s' : TcpSocket} {log log' : TcpListener.Log} {address port : Bytes} {addresses : List Attempt}
    {fcntl : Bool} {status : Status}
    (hr : s.connectLog log address port (some addresses) fcntl = some (status, s', log')) :
    ∃ found, connectLoopLog addresses s.socketDescriptor log = some (found, s'.socketDescriptor, log') := by
  rw [connectLog] at hr
  cases hloop : connectLoopLog addresses s.socketDescriptor log with
  | none => simp [hloop] at hr
  | some r =>
    obtain ⟨found, d, log₁⟩ := r
    simp only [hloop] at hr
    refine ⟨found, ?_⟩
    cases found <;> cases fcntl <;> cases hr <;> rfl

theorem connectLog_beside {others : Finset Nat} {s s' : TcpSocket} {log log' : TcpListener.Log} {address port : Bytes}
    {addresses : Option (List Attempt)} {fcntl : Bool} {status : Status}
    (h : Beside others (number s.socketDescriptor) log)
    (hr : s.connectLog log address port addresses fcntl = some (status, s', log')) :
    Beside others (number s'.socketDescriptor) log' ↔ s.Keeps addresses := by
  cases addresses with
  | none =>
    cases hr
    exact iff_of_true h trivial
  | some addresses =>
    obtain ⟨found, hloop⟩ := connectLog_some hr
    rw [Keeps]
    by_cases hnil : addresses = []
    · subst hnil
      simp only [connectLoopLog, Option.some.injEq, Prod.mk.injEq] at hloop
      obtain ⟨-, hfield, rfl⟩ := hloop
      rw [← hfield]
      exact iff_of_true h (.inl rfl)
    · simp only [hnil, false_or]
      cases hfield : number s.socketDescriptor with
      | none =>
        rw [hfield] at h
        rw [connectLoopLog_beside h (fun hno => absurd hno hnil) hloop]
        simp [connected_number.mpr hfield]
      | some n =>
        rw [hfield] at h
        have hn : n ∈ held log := (h.held n).mpr (.inr rfl)
        obtain ⟨hstill, hne⟩ := connectLoopLog_held hloop hn fun hno => absurd hno hnil
        refine iff_of_false (fun hbeside => hne (hbeside.kept hstill (h.apart n rfl))) fun hconn => ?_
        rw [connected_number, hfield] at hconn
        cases hconn.1

theorem closeLog_beside {others : Finset Nat} {s : TcpSocket} {log : TcpListener.Log} :
    Beside others (number (s.closeLog log).1.socketDescriptor) (s.closeLog log).2 ↔
      Beside others (number s.socketDescriptor) log := by
  obtain ⟨hlog, hnone⟩ := s.closeLog_eq log
  rw [hlog, hnone]
  exact beside_closesocket

theorem destroyLog_beside {others : Finset Nat} {s : TcpSocket} {log : TcpListener.Log} :
    Beside others none (s.destroyLog log) ↔ Beside others (number s.socketDescriptor) log := by
  rw [← closeLog_beside, (s.closeLog_eq log).2]
  rfl

end TcpSocket

/-! ## Listening -/

namespace TcpListener

/-- The addresses the loop comes to before the last one leave no descriptor, and the last
    one is not closed again. -/
def LeavesLast : List Address → Prop
  | [] => True
  | c :: rest =>
    if c.socket.isSome then
      if c.configured then c.bind = true ∨ (rest ≠ [] ∧ LeavesLast rest) else rest = []
    else LeavesLast rest

instance LeavesLast.decidable : (info : List Address) → Decidable (LeavesLast info)
  | [] => isTrue trivial
  | c :: rest => by
    have : Decidable (LeavesLast rest) := LeavesLast.decidable rest
    unfold LeavesLast
    infer_instance

/-- The loop comes to no address, or to these while there is nothing to write over. -/
def Keeps (s : TcpListener) : Option (List Address) → Prop
  | none => True
  | some info => info = [] ∨ (s.connected = false ∧ LeavesLast info)

instance (s : TcpListener) (info : Option (List Address)) : Decidable (s.Keeps info) := by
  unfold Keeps
  split <;> infer_instance

theorem connected_number {s : TcpListener} : s.connected = false ↔ number s.socketDescriptor = none := by
  rw [not_connected_iff]
  cases s.socketDescriptor with
  | ofNat n => simp only [number]; simp
  | negSucc n => simp only [number]; simp

theorem listenLoop_kept {info : List Address} {d d' : Int} {log log' : Log} {bound : Bool}
    (hr : listenLoop info d log = some (bound, d', log')) (hfresh : Fresh log) {e : Nat} (he : e ∈ held log)
    (hnil : info ≠ []) : e ∈ held log' ∧ number d' ≠ some e := by
  obtain ⟨hstill, hne⟩ := (listenLoop_held hr hfresh).2 e he fun hno => absurd hno hnil
  exact ⟨hstill, fun heq => hne (number_eq_some.mp heq)⟩

/-- Where there is nothing to write over. -/
theorem listenLoop_beside {others : Finset Nat} {info : List Address} {d d' : Int} {log log' : Log} {bound : Bool}
    (h : Beside others none log) (hd : info = [] → number d = none)
    (hr : listenLoop info d log = some (bound, d', log')) : Beside others (number d') log' ↔ LeavesLast info := by
  induction info generalizing d log with
  | nil =>
    cases hr
    rw [hd rfl]
    exact iff_of_true h trivial
  | cons c rest ih =>
    rw [listenLoop] at hr
    rw [LeavesLast]
    cases hsocket : c.socket with
    | none =>
      simp only [tryAddress_none hsocket] at hr
      exact ih h (fun _ => rfl) hr
    | some n =>
      cases htry : tryAddress c log with
      | none => simp [htry] at hr
      | some r =>
        obtain ⟨bound₁, d₁, log₁⟩ := r
        obtain ⟨hn, rfl, hlog⟩ := tryAddress_some hsocket htry
        have hopen : Beside others (some n) (log ++ [.opens n]) := (beside_opens hn).mpr h
        simp only [htry] at hr
        simp only [Option.isSome_some, if_true]
        rcases hlog with ⟨hnot, rfl, rfl⟩ | ⟨hconfigured, hbind, rfl, rfl⟩ | ⟨hconfigured, hbind, rfl, rfl⟩
        · rw [if_neg (by simp [hnot])]
          by_cases hnil : rest = []
          · subst hnil
            cases hr
            exact iff_of_true hopen rfl
          · -- the descriptor is left open: the next address writes over it
            obtain ⟨hstill, hne⟩ := listenLoop_kept hr hopen.fresh (e := n) (by simp) hnil
            exact iff_of_false (fun hbeside => hne (hbeside.kept hstill (hopen.apart n rfl))) hnil
        · rw [if_pos hconfigured]
          have hclosed : Beside others none (log ++ [.opens n] ++ [.closes n]) := beside_closes.mpr hopen
          by_cases hnil : rest = []
          · -- the field keeps the number of the one that was closed
            subst hnil
            cases hr
            refine iff_of_false (fun hbeside => ?_) (by simp [hbind])
            have hheld := (hbeside.held n).mpr (.inr rfl)
            rw [held_closes] at hheld
            exact Finset.notMem_erase n _ hheld
          · simp only [hbind, Bool.false_eq_true, false_or, ne_eq, hnil, not_false_eq_true, true_and]
            exact ih hclosed (fun hno => absurd hno hnil) hr
        · rw [if_pos hconfigured]
          cases hr
          exact iff_of_true hopen (.inl hbind)

theorem listen_beside {others : Finset Nat} {s s' : TcpListener} {log log' : Log} {info : Option (List Address)}
    {listens : Bool} {status : Status} (h : Beside others (number s.socketDescriptor) log)
    (hr : s.listen log info listens = some (status, s', log')) :
    Beside others (number s'.socketDescriptor) log' ↔ s.Keeps info := by
  cases info with
  | none =>
    cases hr
    exact iff_of_true h trivial
  | some info =>
    obtain ⟨bound, hloop, -⟩ := listen_some hr
    rw [Keeps]
    by_cases hnil : info = []
    · subst hnil
      simp only [listenLoop, Option.some.injEq, Prod.mk.injEq] at hloop
      obtain ⟨-, hfield, rfl⟩ := hloop
      rw [← hfield]
      exact iff_of_true h (.inl rfl)
    · simp only [hnil, false_or]
      cases hfield : number s.socketDescriptor with
      | none =>
        rw [hfield] at h
        rw [listenLoop_beside h (fun hno => absurd hno hnil) hloop]
        simp [connected_number.mpr hfield]
      | some n =>
        rw [hfield] at h
        obtain ⟨hstill, hne⟩ := listenLoop_kept hloop h.fresh ((h.held n).mpr (.inr rfl)) hnil
        refine iff_of_false (fun hbeside => hne (hbeside.kept hstill (h.apart n rfl))) fun hconn => ?_
        rw [connected_number, hfield] at hconn
        cases hconn.1

theorem closeSocket_eq (s : TcpListener) (log : Log) :
    (s.closeSocket log).2 = closesocket log s.socketDescriptor ∧ number (s.closeSocket log).1.socketDescriptor = none := by
  rcases closeSocket_cases s log with ⟨hneg, hclose⟩ | ⟨n, hn, hclose⟩
  · rw [hclose]
    exact ⟨(closesocket_none (number_neg hneg) log).symm, number_neg hneg⟩
  · rw [hclose, hn]
    exact ⟨rfl, rfl⟩

theorem closeSocket_beside {others : Finset Nat} {s : TcpListener} {log : Log} :
    Beside others (number (s.closeSocket log).1.socketDescriptor) (s.closeSocket log).2 ↔
      Beside others (number s.socketDescriptor) log := by
  obtain ⟨hlog, hnone⟩ := s.closeSocket_eq log
  rw [hlog, hnone]
  exact beside_closesocket

theorem destroy_beside {others : Finset Nat} {s : TcpListener} {log : Log} :
    Beside others none (s.destroy log) ↔ Beside others (number s.socketDescriptor) log := by
  rw [← closeSocket_beside, (s.closeSocket_eq log).2]
  rfl

end TcpListener

/-! ## The descriptors in contexts -/

theorem netFree_beside {others : Finset Nat} {log : TcpListener.Log} {fd : Int} :
    Beside others none (netFree log fd) ↔ Beside others (number fd) log := by
  unfold netFree
  by_cases hfd : fd = -1
  · rw [if_pos hfd, hfd]
    rfl
  · rw [if_neg hfd]
    exact beside_closesocket

namespace SSLSocket

theorem webFree_beside {others : Finset Nat} {log : TcpListener.Log} {context : Option Int} :
    Beside others none (webFree log context) ↔ Beside others (number (context.getD (-1))) log := by
  cases context with
  | none => exact Iff.rfl
  | some fd => exact netFree_beside

/-- Whatever the calls after the inner `connect` give, the context has the descriptor. -/
theorem connect_cases {s s' : SSLSocket} {log log' : TcpListener.Log} {address port : Bytes}
    {addresses : Option (List Attempt)} {fcntl : Bool} {r : Negotiation} {status : Status}
    (hr : s.connect log address port addresses fcntl r = some (status, s', log')) :
    ∃ ret socket log₁, TcpSocket.new.connectLog (webFree log s.sslSocketDescriptor) address port addresses fcntl =
        some (ret, socket, log₁) ∧
      ((ret ≠ .success ∧ s'.getSocketDescriptor = -1 ∧ log' = socket.destroyLog log₁) ∨
        (ret = .success ∧ s'.getSocketDescriptor = socket.socketDescriptor ∧ log' = log₁)) := by
  rw [connect] at hr
  simp only [setDescriptor] at hr
  cases hconnect : TcpSocket.new.connectLog (webFree log s.sslSocketDescriptor) address port addresses fcntl with
  | none => simp [hconnect] at hr
  | some r =>
    obtain ⟨ret, socket, log₁⟩ := r
    simp only [hconnect] at hr
    refine ⟨ret, socket, log₁, rfl, ?_⟩
    by_cases hret : ret = .success
    · rw [if_neg (by simp [hret])] at hr
      have hstolen : (socket.setDescriptor none).destroyLog log₁ = log₁ := rfl
      rw [hstolen] at hr
      cases hr
      exact .inr ⟨hret, rfl, rfl⟩
    · rw [if_pos hret] at hr
      cases hr
      exact .inl ⟨hret, rfl, rfl⟩

theorem connect_beside {others : Finset Nat} {s s' : SSLSocket} {log log' : TcpListener.Log} {address port : Bytes}
    {addresses : Option (List Attempt)} {fcntl : Bool} {r : Negotiation} {status : Status}
    (h : Beside others (number s.getSocketDescriptor) log)
    (hr : s.connect log address port addresses fcntl r = some (status, s', log')) :
    Beside others (number s'.getSocketDescriptor) log' ↔ TcpSocket.new.Keeps addresses := by
  obtain ⟨ret, socket, log₁, hconnect, hend⟩ := connect_cases hr
  rw [← TcpSocket.connectLog_beside (webFree_beside.mpr h) hconnect]
  rcases hend with ⟨-, hfield, rfl⟩ | ⟨-, hfield, rfl⟩
  · rw [hfield]
    exact TcpSocket.destroyLog_beside
  · rw [hfield]

end SSLSocket

namespace SSLListener

theorem closeSocket_eq (s : SSLListener) (log : TcpListener.Log) :
    (s.closeSocket log).1 = ⟨-1⟩ ∧ (s.closeSocket log).2 = netFree log s.listenFd := by
  obtain ⟨fd⟩ := s
  unfold closeSocket
  by_cases hfd : fd = -1
  · simp [hfd, netFree]
  · simp [hfd]

theorem destroy_eq (s : SSLListener) (log : TcpListener.Log) : s.destroy log = netFree log s.listenFd := by
  obtain ⟨hfield, hlog⟩ := s.closeSocket_eq log
  rw [destroy]
  simp only [hfield, hlog]
  rfl

theorem closeSocket_beside {others : Finset Nat} {s : SSLListener} {log : TcpListener.Log} :
    Beside others (number (s.closeSocket log).1.listenFd) (s.closeSocket log).2 ↔ Beside others (number s.listenFd) log := by
  obtain ⟨hfield, hlog⟩ := s.closeSocket_eq log
  rw [hfield, hlog]
  exact netFree_beside

theorem listen_beside {others : Finset Nat} {s s' : SSLListener} {log log' : TcpListener.Log}
    {info : Option (List Address)} {listens : Bool} {status : Status} (h : Beside others (number s.listenFd) log)
    (hr : s.listen log info listens = some (status, s', log')) :
    Beside others (number s'.listenFd) log' ↔ TcpListener.new.Keeps info := by
  rw [listen] at hr
  have hclosed : Beside others none (s.closeSocket log).2 := by
    rw [(s.closeSocket_eq log).2]
    exact netFree_beside.mpr h
  cases hlisten : TcpListener.new.listen (s.closeSocket log).2 info listens with
  | none => simp [hlisten] at hr
  | some r =>
    obtain ⟨st, tcpListen, log₁⟩ := r
    simp only [hlisten] at hr
    rw [← TcpListener.listen_beside hclosed hlisten]
    by_cases hst : st = .success
    · rw [if_neg (by simp [hst])] at hr
      cases hr
      rfl
    · rw [if_pos hst] at hr
      cases hr
      exact TcpListener.destroy_beside

theorem accept_beside {others : Finset Nat} {client client' : SSLSocket} {log log' : TcpListener.Log} {r : Accepting}
    {status : Status} (h : Beside others (number client.getSocketDescriptor) log)
    (hr : accept log client r = some (status, client', log')) :
    Beside others (number client'.getSocketDescriptor) log' := by
  rw [accept] at hr
  by_cases hsetup : (!r.setup) = true
  · rw [if_pos hsetup] at hr
    cases hr
    exact h
  rw [if_neg hsetup] at hr
  cases hdescriptor : r.descriptor with
  | none =>
    simp only [hdescriptor] at hr
    cases hr
    exact h
  | some d =>
    simp only [hdescriptor] at hr
    by_cases hd : d ∈ held log
    · rw [if_pos hd] at hr
      cases hr
    rw [if_neg hd] at hr
    have hfree : netFree (log ++ [.opens d]) (d : Int) = log ++ [.opens d] ++ [.closes d] :=
      if_neg (by omega)
    by_cases haccepted : (!r.accepted) = true
    · rw [if_pos haccepted, hfree] at hr
      cases hr
      exact h.reopened hd
    rw [if_neg haccepted] at hr
    by_cases hhandshake : (!r.handshake) = true
    · rw [if_pos hhandshake, hfree] at hr
      cases hr
      exact h.reopened hd
    rw [if_neg hhandshake] at hr
    cases hr
    -- the context that the client had is freed once it has the new one
    exact (SSLSocket.webFree_beside.mpr (h.opened hd)).given fun hother => hd ((h.held d).mpr (.inl hother))

end SSLListener

theorem TcpListener.accept_beside {others : Finset Nat} {client client' : TcpSocket} {log : Log} {d : Option Nat}
    {printableAddr : Option Bytes} {status : Status} (h : Beside others (number client.socketDescriptor) log)
    (hr : accept log client d printableAddr = some (status, client')) :
    Beside others (number client'.socketDescriptor) (log ++ (d.map Event.opens).toList) ↔
      d = none ∨ client.connected = false := by
  cases d with
  | none =>
    cases hr
    rw [Option.map_none, Option.toList_none, List.append_nil]
    exact iff_of_true h (.inl rfl)
  | some d =>
    rw [accept] at hr
    by_cases hd : d ∈ held log
    · simp only [if_pos hd] at hr
      cases hr
    · simp only [if_neg hd] at hr
      cases hr
      have hfield : number (client.setDescriptor (some (d : Int))).socketDescriptor = some d := rfl
      rw [TcpSocket.connected_number, hfield]
      simpa using h.taken_iff hd

/-! ## The process -/

inductive Endpoint where
  | tcpSocket (s : TcpSocket)
  | sslSocket (s : SSLSocket)
  | tcpListener (s : TcpListener)
  | sslListener (s : SSLListener)
  deriving DecidableEq, Repr

namespace Endpoint

def getSocketDescriptor : Endpoint → Int
  | tcpSocket s => s.socketDescriptor
  | sslSocket s => s.getSocketDescriptor
  | tcpListener s => s.socketDescriptor
  | sslListener s => s.listenFd

inductive Class where
  | tcpSocket
  | sslSocket
  | tcpListener
  | sslListener
  deriving DecidableEq, Repr

/-- The constructors. -/
def new : Class → Endpoint
  | .tcpSocket => tcpSocket .new
  | .sslSocket => sslSocket .new
  | .tcpListener => tcpListener .new
  | .sslListener => sslListener .new

def closeSocket (log : TcpListener.Log) : Endpoint → Endpoint × TcpListener.Log
  | tcpSocket s => ((tcpSocket (s.closeLog log).1), (s.closeLog log).2)
  | sslSocket s => ((sslSocket (s.closeSocket log).1), (s.closeSocket log).2)
  | tcpListener s => ((tcpListener (s.closeSocket log).1), (s.closeSocket log).2)
  | sslListener s => ((sslListener (s.closeSocket log).1), (s.closeSocket log).2)

/-- The destructors. -/
def destroy (log : TcpListener.Log) : Endpoint → TcpListener.Log
  | tcpSocket s => s.destroyLog log
  | sslSocket s => s.destroy log
  | tcpListener s => s.destroy log
  | sslListener s => s.destroy log

/-- `connect`, which the listeners do not have. -/
def connect (log : TcpListener.Log) (address port : Bytes) (addresses : Option (List Attempt)) (fcntl : Bool)
    (r : Negotiation) : Endpoint → Option (Status × Endpoint × TcpListener.Log)
  | tcpSocket s => (s.connectLog log address port addresses fcntl).map fun (st, s, log) => (st, tcpSocket s, log)
  | sslSocket s => (s.connect log address port addresses fcntl r).map fun (st, s, log) => (st, sslSocket s, log)
  | tcpListener _ | sslListener _ => none

/-- `listen`, which the sockets do not have. -/
def listen (log : TcpListener.Log) (info : Option (List Address)) (listens : Bool) :
    Endpoint → Option (Status × Endpoint × TcpListener.Log)
  | tcpSocket _ | sslSocket _ => none
  | tcpListener s => (s.listen log info listens).map fun (st, s, log) => (st, tcpListener s, log)
  | sslListener s => (s.listen log info listens).map fun (st, s, log) => (st, sslListener s, log)

/-- `accept` of a listener into a client; the wrong class of client is a bad cast, and
    nothing happens. -/
def accept (log : TcpListener.Log) (client : Endpoint) (r : Accepting) :
    Endpoint → Option (Option Status × Endpoint × TcpListener.Log)
  | tcpSocket _ | sslSocket _ => none
  | tcpListener _ =>
    match client with
    | tcpSocket c => (TcpListener.accept log c r.descriptor r.printableAddr).map fun (st, c) =>
      (some st, tcpSocket c, log ++ (r.descriptor.map Event.opens).toList)
    | _ => some (none, client, log)
  | sslListener _ =>
    match client with
    | sslSocket c => (SSLListener.accept log c r).map fun (st, c, log) => (some st, sslSocket c, log)
    | _ => some (none, client, log)

/-! ### What they write over -/

def ConnectKeeps (addresses : Option (List Attempt)) : Endpoint → Prop
  | tcpSocket s => s.Keeps addresses
  | sslSocket _ => TcpSocket.new.Keeps addresses
  | tcpListener _ | sslListener _ => True

def ListenKeeps (info : Option (List Address)) : Endpoint → Prop
  | tcpSocket _ | sslSocket _ => True
  | tcpListener s => s.Keeps info
  | sslListener _ => TcpListener.new.Keeps info

def AcceptKeeps (client : Endpoint) (r : Accepting) : Endpoint → Prop
  | tcpListener _ =>
    match client with
    | tcpSocket c => r.descriptor = none ∨ c.connected = false
    | _ => True
  | _ => True

instance (addresses : Option (List Attempt)) (o : Endpoint) : Decidable (o.ConnectKeeps addresses) := by
  unfold ConnectKeeps
  split <;> infer_instance

instance (info : Option (List Address)) (o : Endpoint) : Decidable (o.ListenKeeps info) := by
  unfold ListenKeeps
  split <;> infer_instance

instance (client : Endpoint) (r : Accepting) (o : Endpoint) : Decidable (AcceptKeeps client r o) := by
  unfold AcceptKeeps
  split
  · split <;> infer_instance
  · infer_instance

variable {others : Finset Nat} {o o' : Endpoint} {log log' : TcpListener.Log}

theorem new_beside {c : Class} : Beside others (number (new c).getSocketDescriptor) log ↔ Beside others none log := by
  cases c <;> rfl

theorem closeSocket_beside (h : Beside others (number o.getSocketDescriptor) log) :
    Beside others (number (o.closeSocket log).1.getSocketDescriptor) (o.closeSocket log).2 := by
  cases o with
  | tcpSocket s => exact TcpSocket.closeLog_beside.mpr h
  | sslSocket s => exact SSLSocket.webFree_beside.mpr h
  | tcpListener s => exact TcpListener.closeSocket_beside.mpr h
  | sslListener s => exact SSLListener.closeSocket_beside.mpr h

theorem destroy_beside (h : Beside others (number o.getSocketDescriptor) log) : Beside others none (o.destroy log) := by
  cases o with
  | tcpSocket s => exact TcpSocket.destroyLog_beside.mpr h
  | sslSocket s => exact SSLSocket.webFree_beside.mpr h
  | tcpListener s => exact TcpListener.destroy_beside.mpr h
  | sslListener s =>
    rw [destroy, SSLListener.destroy_eq]
    exact netFree_beside.mpr h

theorem connect_beside {address port : Bytes} {addresses : Option (List Attempt)} {fcntl : Bool} {r : Negotiation}
    {st : Status} (h : Beside others (number o.getSocketDescriptor) log)
    (hr : o.connect log address port addresses fcntl r = some (st, o', log')) :
    Beside others (number o'.getSocketDescriptor) log' ↔ o.ConnectKeeps addresses := by
  cases o with
  | tcpSocket s =>
    obtain ⟨⟨st, s', log₁⟩, hconnect, heq⟩ := Option.map_eq_some_iff.mp hr
    cases heq
    exact TcpSocket.connectLog_beside h hconnect
  | sslSocket s =>
    obtain ⟨⟨st, s', log₁⟩, hconnect, heq⟩ := Option.map_eq_some_iff.mp hr
    cases heq
    exact SSLSocket.connect_beside h hconnect
  | tcpListener s => cases hr
  | sslListener s => cases hr

theorem listen_beside {info : Option (List Address)} {listens : Bool} {st : Status}
    (h : Beside others (number o.getSocketDescriptor) log) (hr : o.listen log info listens = some (st, o', log')) :
    Beside others (number o'.getSocketDescriptor) log' ↔ o.ListenKeeps info := by
  cases o with
  | tcpSocket s => cases hr
  | sslSocket s => cases hr
  | tcpListener s =>
    obtain ⟨⟨st, s', log₁⟩, hlisten, heq⟩ := Option.map_eq_some_iff.mp hr
    cases heq
    exact TcpListener.listen_beside h hlisten
  | sslListener s =>
    obtain ⟨⟨st, s', log₁⟩, hlisten, heq⟩ := Option.map_eq_some_iff.mp hr
    cases heq
    exact SSLListener.listen_beside h hlisten

theorem accept_beside {client client' : Endpoint} {r : Accepting} {st : Option Status}
    (h : Beside others (number client.getSocketDescriptor) log)
    (hr : accept log client r o = some (st, client', log')) :
    Beside others (number client'.getSocketDescriptor) log' ↔ AcceptKeeps client r o := by
  cases o with
  | tcpSocket s => cases hr
  | sslSocket s => cases hr
  | tcpListener s =>
    cases client with
    | tcpSocket c =>
      obtain ⟨⟨st, c'⟩, haccept, heq⟩ := Option.map_eq_some_iff.mp hr
      cases heq
      exact TcpListener.accept_beside h haccept
    | _ =>
      cases hr
      exact iff_of_true h trivial
  | sslListener s =>
    cases client with
    | sslSocket c =>
      obtain ⟨⟨st, c', log₁⟩, haccept, heq⟩ := Option.map_eq_some_iff.mp hr
      cases heq
      exact iff_of_true (SSLListener.accept_beside h haccept) trivial
    | _ =>
      cases hr
      exact iff_of_true h trivial

end Endpoint

/-- The objects of a process by their addresses, and what it has opened and closed. -/
structure Endpoints where
  objects : Nat → Option Endpoint
  log : TcpListener.Log

namespace Endpoints

inductive Call where
  | construct (key : Nat) (c : Endpoint.Class)
  | destroy (key : Nat)
  | closeSocket (key : Nat)
  | connect (key : Nat) (address port : Bytes) (addresses : Option (List Attempt)) (fcntl : Bool) (r : Negotiation)
  | listen (key : Nat) (info : Option (List Address)) (listens : Bool)
  | accept (key client : Nat) (r : Accepting)
  deriving DecidableEq, Repr

/-- No objects, and the standard input is open. -/
def new : Endpoints := ⟨fun _ => none, [.opens 0]⟩

def put (σ : Endpoints) (key : Nat) (o : Option Endpoint) (log : TcpListener.Log) : Endpoints :=
  ⟨Function.update σ.objects key o, log⟩

/-- What a call returns, `none` inside for void and after an exception, and the state
    after it. -/
def call (σ : Endpoints) : Call → Option (Option Status × Endpoints)
  | .construct key c =>
    match σ.objects key with
    | some _ => none
    | none => some (none, σ.put key (some (Endpoint.new c)) σ.log)
  | .destroy key => (σ.objects key).map fun o => (none, σ.put key none (o.destroy σ.log))
  | .closeSocket key => (σ.objects key).map fun o => (none, σ.put key (some (o.closeSocket σ.log).1) (o.closeSocket σ.log).2)
  | .connect key address port addresses fcntl r => do
    let o ← σ.objects key
    let (st, o, log) ← o.connect σ.log address port addresses fcntl r
    some (some st, σ.put key (some o) log)
  | .listen key info listens => do
    let o ← σ.objects key
    let (st, o, log) ← o.listen σ.log info listens
    some (some st, σ.put key (some o) log)
  | .accept key client r => do
    let o ← σ.objects key
    let c ← σ.objects client
    let (st, c, log) ← Endpoint.accept σ.log c r o
    some (st, σ.put client (some c) log)

/-- The descriptor an object has, and the standard input, which is none's. -/
def owner (σ : Endpoints) : Option Nat → Option Nat
  | none => some 0
  | some key => (σ.objects key).bind fun o => number o.getSocketDescriptor

/-- A call writes over no descriptor, and leaves none behind that is closed already. -/
def Call.Keeps (σ : Endpoints) : Call → Prop
  | .construct .. | .destroy _ | .closeSocket _ => True
  | .connect key _ _ addresses _ _ => ∀ o ∈ σ.objects key, o.ConnectKeeps addresses
  | .listen key info _ => ∀ o ∈ σ.objects key, o.ListenKeeps info
  | .accept key client r => ∀ o ∈ σ.objects key, ∀ c ∈ σ.objects client, Endpoint.AcceptKeeps c r o

instance (σ : Endpoints) (c : Call) : Decidable (c.Keeps σ) := by
  unfold Call.Keeps
  split <;> infer_instance

/-- The open descriptors are those of the objects, each that of one, and only what was
    open has been closed. -/
def Sole (σ : Endpoints) : Prop := Owned σ.owner σ.log

theorem put_sole {σ : Endpoints} (h : σ.Sole) (key : Nat) (o : Option Endpoint) (log : TcpListener.Log) :
    (σ.put key o log).Sole ↔
      Beside (others σ.owner σ.log (some key)) (o.bind fun o => number o.getSocketDescriptor) log := by
  have howner : (σ.put key o log).owner = Function.update σ.owner (some key) (o.bind fun o => number o.getSocketDescriptor) := by
    funext i
    cases i with
    | none => rfl
    | some i =>
      by_cases hi : i = key
      · subst hi
        simp [owner, put]
      · simp [owner, put, hi]
  rw [Sole, howner]
  exact h.update_iff (some key) _ log

theorem beside_of_sole {σ : Endpoints} (h : σ.Sole) {key : Nat} {o : Endpoint} (ho : σ.objects key = some o) :
    Beside (others σ.owner σ.log (some key)) (number o.getSocketDescriptor) σ.log := by
  have hbeside := h.beside (some key)
  rwa [show σ.owner (some key) = number o.getSocketDescriptor by rw [owner, ho]; rfl] at hbeside

/-- The step. -/
theorem call_sole {σ σ' : Endpoints} {c : Call} {st : Option Status} (h : σ.Sole) (hr : call σ c = some (st, σ')) :
    σ'.Sole ↔ c.Keeps σ := by
  cases c with
  | construct key c =>
    cases hkey : σ.objects key with
    | some o => simp [call, hkey] at hr
    | none =>
      simp only [call, hkey, Option.some.injEq, Prod.mk.injEq] at hr
      obtain ⟨-, rfl⟩ := hr
      have hbeside := h.beside (some key)
      rw [show σ.owner (some key) = none by rw [owner, hkey]; rfl] at hbeside
      exact iff_of_true ((put_sole h key _ _).mpr (Endpoint.new_beside.mpr hbeside)) trivial
  | destroy key =>
    obtain ⟨o, ho, heq⟩ := Option.map_eq_some_iff.mp hr
    cases heq
    exact iff_of_true ((put_sole h key _ _).mpr (Endpoint.destroy_beside (beside_of_sole h ho))) trivial
  | closeSocket key =>
    obtain ⟨o, ho, heq⟩ := Option.map_eq_some_iff.mp hr
    cases heq
    exact iff_of_true ((put_sole h key _ _).mpr (Endpoint.closeSocket_beside (beside_of_sole h ho))) trivial
  | connect key address port addresses fcntl r =>
    obtain ⟨o, ho, hr⟩ := Option.bind_eq_some_iff.mp hr
    obtain ⟨⟨st, o', log⟩, hconnect, hr⟩ := Option.bind_eq_some_iff.mp hr
    cases hr
    rw [put_sole h]
    refine (Endpoint.connect_beside (beside_of_sole h ho) hconnect).trans ?_
    simp [Call.Keeps, ho]
  | listen key info listens =>
    obtain ⟨o, ho, hr⟩ := Option.bind_eq_some_iff.mp hr
    obtain ⟨⟨st, o', log⟩, hlisten, hr⟩ := Option.bind_eq_some_iff.mp hr
    cases hr
    rw [put_sole h]
    refine (Endpoint.listen_beside (beside_of_sole h ho) hlisten).trans ?_
    simp [Call.Keeps, ho]
  | accept key client r =>
    obtain ⟨o, ho, hr⟩ := Option.bind_eq_some_iff.mp hr
    obtain ⟨c, hc, hr⟩ := Option.bind_eq_some_iff.mp hr
    obtain ⟨⟨st, c', log⟩, haccept, hr⟩ := Option.bind_eq_some_iff.mp hr
    cases hr
    rw [put_sole h]
    refine (Endpoint.accept_beside (beside_of_sole h hc) haccept).trans ?_
    simp [Call.Keeps, ho, hc]

theorem new_sole : new.Sole := by
  have honly : ∀ {i a}, new.owner i = some a → i = none := by
    rintro (_ | key) a h
    · rfl
    · cases h
  refine ⟨⟨Finset.notMem_empty 0, trivial⟩, trivial, fun hi hj => (honly hi).trans (honly hj).symm, fun a => ?_⟩
  have hheld : held new.log = {0} := rfl
  rw [hheld, Finset.mem_singleton]
  constructor
  · rintro rfl
    exact ⟨none, rfl⟩
  · rintro ⟨_ | key, hkey⟩
    · exact (Option.some.inj hkey).symm
    · cases hkey

/-- A listener that binds its second address, a client that is accepted and then connects
    elsewhere in vain, and both destroyed. -/
def sampleCalls : List Call :=
  [.construct 0 .sslListener, .construct 1 .sslSocket,
    .listen 0 (some [⟨some 5, true, true, false⟩, ⟨some 5, true, true, true⟩]) true,
    .accept 0 1 ⟨true, some 6, true, true, none⟩,
    .connect 1 [] [] (some [⟨some 7, true, .failed, false, none⟩]) true ⟨true, true, true, true, true⟩,
    .destroy 1, .destroy 0]

end Endpoints

end Frnetlib
