/-
  Frnetlib.Net.TcpListener — the descriptor of an `fr::TcpListener` (`TcpListener.cpp`).

  What the system calls of `listen` give for one of the resolved addresses is an
  `Address`. The log has the descriptors `::socket` returned to the listener and those the
  listener closed, in order; the numbers `::socket` and `::accept` return are any that are
  not open, and an outcome that names an open one is no run (`none`). The IPV6_V6ONLY
  option is set without looking at the result, and has no effect here. As in `connect`, a
  `::socket` that fails is passed over by the call on -1 behind it, here `setsockopt`, and
  a descriptor of number 0 is taken for one that failed.

  The loop of `listen` writes every descriptor over the one before it. It loses one that
  was open, it leaves one open when it is 0 or an option cannot be set, and after a `bind`
  that fails it keeps the number of the one it closed: the descriptors are owned exactly
  once along a run exactly when no `listen` of the run comes to this (`owned_once`).
-/

import Frnetlib.Base.Ledger
import Frnetlib.Base.Run
import Frnetlib.Net.Descriptor

namespace Frnetlib

open Base Ledger

structure TcpListener where
  socketDescriptor : Int
  deriving DecidableEq, Repr

/-- What the calls for one address give. -/
structure Address where
  /-- The number of the new descriptor, if `::socket` succeeds. -/
  socket : Option Nat
  reuseAddr : Bool
  reusePort : Bool
  bind : Bool
  deriving DecidableEq, Repr

/-- The address gets a descriptor that is not taken for none, and both options. -/
def Address.configured (c : Address) : Bool :=
  c.socket.any (fun d : Nat => (d : Int) ≠ invalidSocket) && c.reuseAddr && c.reusePort

namespace TcpListener

abbrev Log : Type := List (Event Nat)

def closesocket (log : Log) : Int → Log
  | .ofNat d => log ++ [.closes d]
  | .negSucc _ => log

/-- The constructor. -/
def new : TcpListener := ⟨-1⟩

def connected (s : TcpListener) : Bool := -1 < s.socketDescriptor

def closeSocket (s : TcpListener) (log : Log) : TcpListener × Log :=
  if -1 < s.socketDescriptor then (⟨-1⟩, closesocket log s.socketDescriptor) else (s, log)

/-- The destructor. -/
def destroy (s : TcpListener) (log : Log) : Log := (s.closeSocket log).2

/-- A round of the loop over the addresses: whether it breaks out, and
    `socket_descriptor`. -/
def tryAddress (c : Address) (log : Log) : Option (Bool × Int × Log) :=
  match c.socket with
  | none => some (false, -1, log)
  | some d =>
    if d ∈ held log then none
    else
      let log := log ++ [.opens d]
      if d = invalidSocket then some (false, d, log)
      else if !c.reuseAddr then some (false, d, log)
      else if !c.reusePort then some (false, d, log)
      else if !c.bind then some (false, d, closesocket log d)
      else some (true, d, log)

def listenLoop : List Address → Int → Log → Option (Bool × Int × Log)
  | [], socketDescriptor, log => some (false, socketDescriptor, log)
  | c :: rest, _, log =>
    match tryAddress c log with
    | none => none
    | some (bound, socketDescriptor, log) =>
      if bound then some (true, socketDescriptor, log) else listenLoop rest socketDescriptor log

/-- `listen`, where the lookup gives these addresses, `none` if it fails, and `::listen`
    succeeds or not. -/
def listen (s : TcpListener) (log : Log) (info : Option (List Address)) (listens : Bool) :
    Option (Status × TcpListener × Log) :=
  match info with
  | none => some (.addressLookupFailure, s, log)
  | some info =>
    match listenLoop info s.socketDescriptor log with
    | none => none
    | some (bound, socketDescriptor, log) =>
      if !bound then some (.bindFailed, ⟨socketDescriptor⟩, log)
      else if !listens then some (.listenFailed, ⟨socketDescriptor⟩, log)
      else some (.success, ⟨socketDescriptor⟩, log)

/-- `accept`, where `::accept` gives this descriptor, if it succeeds, and `getnameinfo`
    this address, if it does. -/
def accept (log : Log) (client : TcpSocket) (clientDescriptor : Option Nat) (clientPrintableAddr : Option Bytes) :
    Option (Status × TcpSocket) :=
  match clientDescriptor with
  | none => some (.acceptError, client)
  | some d =>
    if d ∈ held log then none
    else
      some (.success, { client.setDescriptor (some (d : Int)) with
        remoteAddress := clientPrintableAddr.getD (bytes "unknown") })

/-! ## The calls -/

inductive Call where
  | listen (info : Option (List Address)) (listens : Bool)
  | accept (client : TcpSocket) (clientDescriptor : Option Nat) (clientPrintableAddr : Option Bytes)
  | closeSocket
  deriving DecidableEq, Repr

/-- What a call returns, `none` inside for void, and the state after it. -/
def call (σ : TcpListener × Log) : Call → Option (Option Status × TcpListener × Log)
  | .listen info listens =>
    match σ.1.listen σ.2 info listens with
    | none => none
    | some (status, σ') => some (some status, σ')
  | .accept client clientDescriptor clientPrintableAddr =>
    match accept σ.2 client clientDescriptor clientPrintableAddr with
    | none => none
    | some (status, _) => some (some status, σ)
  | .closeSocket => some (none, σ.1.closeSocket σ.2)

/-- After a `listen` that did not succeed the listener is not connected. -/
def Reported (_ : TcpListener × Log) (c : Call) (status : Option Status) (σ' : TcpListener × Log) : Prop :=
  match c with
  | .listen .. => status ≠ some .success → σ'.1.connected = false
  | _ => True

instance (σ : TcpListener × Log) (c : Call) (status : Option Status) (σ' : TcpListener × Log) :
    Decidable (Reported σ c status σ') := by
  unfold Reported
  split <;> infer_instance

/-- The addresses the loop comes to that get a descriptor are configured, and the last
    one it comes to either gets no descriptor or is bound and `::listen` succeeds. -/
def Tried (listens : Bool) : List Address → Prop
  | [] => True
  | c :: rest =>
    match c.socket with
    | none => Tried listens rest
    | some _ => c.configured = true ∧ if c.bind then listens = true else rest ≠ [] ∧ Tried listens rest

instance Tried.decidable (listens : Bool) : (info : List Address) → Decidable (Tried listens info)
  | [] => isTrue trivial
  | c :: rest => by
    have : Decidable (Tried listens rest) := Tried.decidable listens rest
    unfold Tried
    split <;> infer_instance

/-- A `listen` is called while not connected, and its addresses end as they should. -/
def Call.Clean (s : TcpListener) : Call → Prop
  | .listen none _ => s.connected = false
  | .listen (some info) listens => s.connected = false ∧ Tried listens info
  | .accept .. | .closeSocket => True

instance (s : TcpListener) (c : Call) : Decidable (c.Clean s) := by
  unfold Call.Clean
  split <;> infer_instance

/-! ## What one address comes to -/

theorem tryAddress_none {c : Address} (h : c.socket = none) (log : Log) : tryAddress c log = some (false, -1, log) := by
  rw [tryAddress, h]

theorem tryAddress_some {c : Address} {n : Nat} (h : c.socket = some n) {log log' : Log} {bound : Bool} {d : Int}
    (hr : tryAddress c log = some (bound, d, log')) :
    n ∉ held log ∧ d = n ∧
      ((c.configured = false ∧ bound = false ∧ log' = log ++ [.opens n]) ∨
        (c.configured = true ∧ c.bind = false ∧ bound = false ∧ log' = log ++ [.opens n] ++ [.closes n]) ∨
        (c.configured = true ∧ c.bind = true ∧ bound = true ∧ log' = log ++ [.opens n])) := by
  rw [tryAddress, h] at hr
  simp only at hr
  by_cases hmem : n ∈ held log
  · rw [if_pos hmem] at hr
    cases hr
  · rw [if_neg hmem] at hr
    refine ⟨hmem, ?_⟩
    unfold Address.configured
    by_cases hinvalid : (n : Int) = invalidSocket
    · rw [if_pos hinvalid] at hr
      cases hr
      exact ⟨rfl, .inl ⟨by simp [h, hinvalid], rfl, rfl⟩⟩
    · rw [if_neg hinvalid] at hr
      by_cases haddr : c.reuseAddr = true
      · by_cases hport : c.reusePort = true
        · cases hbind : c.bind with
          | false =>
            simp [haddr, hport, hbind, closesocket] at hr
            obtain ⟨rfl, rfl, rfl⟩ := hr
            exact ⟨rfl, .inr (.inl ⟨by simp [h, hinvalid, haddr, hport], rfl, rfl, by simp⟩)⟩
          | true =>
            simp [haddr, hport, hbind] at hr
            obtain ⟨rfl, rfl, rfl⟩ := hr
            exact ⟨rfl, .inr (.inr ⟨by simp [h, hinvalid, haddr, hport], rfl, rfl, rfl⟩)⟩
        · simp [haddr, hport] at hr
          obtain ⟨rfl, rfl, rfl⟩ := hr
          exact ⟨rfl, .inl ⟨by simp [hport], rfl, rfl⟩⟩
      · simp [haddr] at hr
        obtain ⟨rfl, rfl, rfl⟩ := hr
        exact ⟨rfl, .inl ⟨by simp [haddr], rfl, rfl⟩⟩

/-- A descriptor that is open stays open, and is not the one the round leaves. -/
theorem tryAddress_held {c : Address} {log log' : Log} {bound : Bool} {d : Int}
    (hr : tryAddress c log = some (bound, d, log')) (hfresh : Fresh log) :
    Fresh log' ∧ ∀ a ∈ held log, a ∈ held log' ∧ d ≠ a := by
  cases hsocket : c.socket with
  | none =>
    rw [tryAddress_none hsocket] at hr
    cases hr
    exact ⟨hfresh, fun a ha => ⟨ha, by omega⟩⟩
  | some n =>
    obtain ⟨hn, rfl, hlog⟩ := tryAddress_some hsocket hr
    have hne : ∀ a ∈ held log, a ≠ n := fun a ha h => hn (h ▸ ha)
    have hfield : ∀ a ∈ held log, (n : Int) ≠ a := fun a ha h => hne a ha (Int.ofNat.inj h).symm
    have hopens : Fresh (log ++ [.opens n]) := (fresh_opens log n).mpr ⟨hfresh, hn⟩
    have hkept : ∀ a ∈ held log, a ∈ held (log ++ [.opens n]) := by
      intro a ha
      rw [held_opens]
      exact Finset.mem_insert_of_mem ha
    rcases hlog with ⟨-, -, rfl⟩ | ⟨-, -, -, rfl⟩ | ⟨-, -, -, rfl⟩
    · exact ⟨hopens, fun a ha => ⟨hkept a ha, hfield a ha⟩⟩
    · refine ⟨(fresh_closes _ n).mpr hopens, fun a ha => ⟨?_, hfield a ha⟩⟩
      rw [held_closes]
      exact Finset.mem_erase.mpr ⟨hne a ha, hkept a ha⟩
    · exact ⟨hopens, fun a ha => ⟨hkept a ha, hfield a ha⟩⟩

/-! ## What the loop comes to -/

/-- A descriptor that is open stays open, and once the loop has come to an address it is
    not the listener's any more. -/
theorem listenLoop_held {info : List Address} {d d' : Int} {log log' : Log} {bound : Bool}
    (hr : listenLoop info d log = some (bound, d', log')) (hfresh : Fresh log) :
    Fresh log' ∧ ∀ a ∈ held log, (info = [] → d ≠ a) → a ∈ held log' ∧ d' ≠ a := by
  induction info generalizing d log with
  | nil =>
    cases hr
    exact ⟨hfresh, fun a ha hd => ⟨ha, hd rfl⟩⟩
  | cons c rest ih =>
    rw [listenLoop] at hr
    cases htry : tryAddress c log with
    | none => simp [htry] at hr
    | some r =>
      obtain ⟨bound₁, d₁, log₁⟩ := r
      obtain ⟨hfresh₁, hheld⟩ := tryAddress_held htry hfresh
      simp only [htry] at hr
      cases bound₁ with
      | true =>
        cases hr
        exact ⟨hfresh₁, fun a ha _ => hheld a ha⟩
      | false =>
        obtain ⟨hfresh', hrest⟩ := ih hr hfresh₁
        refine ⟨hfresh', fun a ha _ => ?_⟩
        obtain ⟨ha₁, hne⟩ := hheld a ha
        exact hrest a ha₁ fun _ => hne

/-- The listener has the number of the one descriptor it holds, or it holds none. -/
structure Owner (d : Int) (log : Log) : Prop where
  fresh : Fresh log
  owns : Owns log
  held : (d < 0 ∧ held log = ∅) ∨ ∃ n : Nat, d = n ∧ held log = {n}

/-- A descriptor is open and the listener does not have its number. -/
structure Lost (d : Int) (log : Log) : Prop where
  fresh : Fresh log
  lost : ∃ a ∈ held log, d ≠ a

theorem Owner.opens {log : Log} (hfresh : Fresh log) (hown : Owns log) (hnone : Ledger.held log = ∅) (n : Nat) :
    Owner n (log ++ [.opens n]) :=
  ⟨(fresh_opens log n).mpr ⟨hfresh, by simp [hnone]⟩, (owns_opens log n).mpr hown,
    .inr ⟨n, rfl, by simp [hnone]⟩⟩

/-- Opened and closed again. -/
theorem reopened {log : Log} (hfresh : Fresh log) (hown : Owns log) (hnone : Ledger.held log = ∅) (n : Nat) :
    Fresh (log ++ [.opens n] ++ [.closes n]) ∧ Owns (log ++ [.opens n] ++ [.closes n]) ∧
      Ledger.held (log ++ [.opens n] ++ [.closes n]) = ∅ := by
  have hopen : Owner n (log ++ [.opens n]) := Owner.opens hfresh hown hnone n
  refine ⟨(fresh_closes _ n).mpr hopen.fresh, (owns_closes _ n).mpr ⟨hopen.owns, by simp⟩, ?_⟩
  rw [held_closes, held_opens, hnone]
  simp

theorem listenLoop_tried {info : List Address} {listens : Bool} (h : Tried listens info) {d d' : Int} {log log' : Log}
    {bound : Bool} (hr : listenLoop info d log = some (bound, d', log')) (hfresh : Fresh log) (hown : Owns log)
    (hnone : Ledger.held log = ∅) (hd : info = [] → d < 0) :
    Owner d' log' ∧ ((bound = true ∧ listens = true) ∨ (bound = false ∧ d' < 0)) := by
  induction info generalizing d log with
  | nil =>
    cases hr
    exact ⟨⟨hfresh, hown, .inl ⟨hd rfl, hnone⟩⟩, .inr ⟨rfl, hd rfl⟩⟩
  | cons c rest ih =>
    rw [listenLoop] at hr
    rw [Tried] at h
    cases hsocket : c.socket with
    | none =>
      rw [hsocket] at h
      rw [tryAddress_none hsocket] at hr
      exact ih h hr hfresh hown hnone fun _ => by omega
    | some n =>
      rw [hsocket] at h
      obtain ⟨hconfigured, hbound⟩ := h
      cases htry : tryAddress c log with
      | none => simp [htry] at hr
      | some r =>
        obtain ⟨bound₁, d₁, log₁⟩ := r
        obtain ⟨hn, rfl, hlog⟩ := tryAddress_some hsocket htry
        simp only [htry] at hr
        rcases hlog with ⟨hnot, -, -⟩ | ⟨-, hbind, rfl, rfl⟩ | ⟨-, hbind, rfl, rfl⟩
        · rw [hconfigured] at hnot
          cases hnot
        · rw [if_neg (by simp [hbind])] at hbound
          obtain ⟨hfresh₁, hown₁, hnone₁⟩ := reopened hfresh hown hnone n
          exact ih hbound.2 hr hfresh₁ hown₁ hnone₁ fun hnil => absurd hnil hbound.1
        · rw [if_pos hbind] at hbound
          cases hr
          exact ⟨Owner.opens hfresh hown hnone n, .inl ⟨rfl, hbound⟩⟩

/-- Otherwise a descriptor is lost, or the listener stays connected without listening. -/
theorem listenLoop_not_tried {info : List Address} {listens : Bool} (h : ¬ Tried listens info) {d d' : Int}
    {log log' : Log} {bound : Bool} (hr : listenLoop info d log = some (bound, d', log')) (hfresh : Fresh log)
    (hown : Owns log) (hnone : Ledger.held log = ∅) :
    Lost d' log' ∨ (0 ≤ d' ∧ (bound = false ∨ listens = false)) := by
  induction info generalizing d log with
  | nil => exact absurd trivial h
  | cons c rest ih =>
    rw [listenLoop] at hr
    rw [Tried] at h
    cases hsocket : c.socket with
    | none =>
      rw [hsocket] at h
      rw [tryAddress_none hsocket] at hr
      exact ih h hr hfresh hown hnone
    | some n =>
      rw [hsocket] at h
      cases htry : tryAddress c log with
      | none => simp [htry] at hr
      | some r =>
        obtain ⟨bound₁, d₁, log₁⟩ := r
        obtain ⟨hn, rfl, hlog⟩ := tryAddress_some hsocket htry
        simp only [htry] at hr
        rcases hlog with ⟨-, rfl, rfl⟩ | ⟨hconfigured, hbind, rfl, rfl⟩ | ⟨hconfigured, hbind, rfl, rfl⟩
        · -- the descriptor is left open: the next address writes over it
          by_cases hnil : rest = []
          · subst hnil
            cases hr
            exact .inr ⟨by omega, .inl rfl⟩
          · have hopen : Owner n (log ++ [.opens n]) := Owner.opens hfresh hown hnone n
            obtain ⟨hfresh', hheld⟩ := listenLoop_held hr hopen.fresh
            exact .inl ⟨hfresh', n, hheld n (by simp) fun h => absurd h hnil⟩
        · by_cases hnil : rest = []
          · subst hnil
            cases hr
            exact .inr ⟨by omega, .inl rfl⟩
          · obtain ⟨hfresh₁, hown₁, hnone₁⟩ := reopened hfresh hown hnone n
            refine ih (fun htried => h ⟨hconfigured, ?_⟩) hr hfresh₁ hown₁ hnone₁
            rw [if_neg (by simp [hbind])]
            exact ⟨hnil, htried⟩
        · cases hr
          refine .inr ⟨by omega, .inr ?_⟩
          by_contra hlistens
          refine h ⟨hconfigured, ?_⟩
          rw [if_pos hbind]
          simpa using hlistens

/-! ## What each call comes to -/

theorem connected_iff {s : TcpListener} : s.connected = true ↔ 0 ≤ s.socketDescriptor := by
  simp only [connected, decide_eq_true_eq]
  omega

theorem not_connected_iff {s : TcpListener} : s.connected = false ↔ s.socketDescriptor < 0 := by
  simp only [connected, decide_eq_false_iff_not]
  omega

theorem closeSocket_cases (s : TcpListener) (log : Log) :
    (s.socketDescriptor < 0 ∧ s.closeSocket log = (s, log)) ∨
      ∃ n : Nat, s.socketDescriptor = n ∧ s.closeSocket log = (⟨-1⟩, log ++ [.closes n]) := by
  obtain ⟨d⟩ := s
  cases d with
  | ofNat n => exact .inr ⟨n, rfl, if_pos (by show (-1 : Int) < (n : Int); omega)⟩
  | negSucc n => exact .inl ⟨by show Int.negSucc n < 0; omega, if_neg (by show ¬ (-1 : Int) < Int.negSucc n; omega)⟩

theorem closeSocket_owner {s : TcpListener} {log : Log} (h : Owner s.socketDescriptor log) :
    Owner (s.closeSocket log).1.socketDescriptor (s.closeSocket log).2 ∧ Ledger.held (s.closeSocket log).2 = ∅ := by
  rcases closeSocket_cases s log with ⟨hneg, hclose⟩ | ⟨n, hn, hclose⟩
  · rw [hclose]
    rcases h.held with ⟨-, hnone⟩ | ⟨m, hm, -⟩
    · exact ⟨h, hnone⟩
    · omega
  · rw [hclose]
    rcases h.held with ⟨hneg, -⟩ | ⟨m, hm, hheld⟩
    · omega
    · have hmn : m = n := by omega
      subst hmn
      have hnone : Ledger.held (log ++ [.closes m]) = ∅ := by
        rw [held_closes, hheld]
        simp
      have howns : Owns (log ++ [.closes m]) := (owns_closes log m).mpr ⟨h.owns, by simp [hheld]⟩
      exact ⟨⟨(fresh_closes log m).mpr h.fresh, howns, .inl ⟨by show (-1 : Int) < 0; omega, hnone⟩⟩, hnone⟩

theorem closeSocket_lost {s : TcpListener} {log : Log} (h : Lost s.socketDescriptor log) :
    Lost (s.closeSocket log).1.socketDescriptor (s.closeSocket log).2 := by
  rcases closeSocket_cases s log with ⟨hneg, hclose⟩ | ⟨n, hn, hclose⟩
  · rwa [hclose]
  · rw [hclose]
    obtain ⟨a, ha, hne⟩ := h.lost
    refine ⟨(fresh_closes log n).mpr h.fresh, a, ?_, by show (-1 : Int) ≠ a; omega⟩
    rw [held_closes]
    exact Finset.mem_erase.mpr ⟨by omega, ha⟩

theorem listen_some {s : TcpListener} {log : Log} {info : List Address} {listens : Bool} {status : Status}
    {σ' : TcpListener × Log} (hr : s.listen log (some info) listens = some (status, σ')) :
    ∃ bound, listenLoop info s.socketDescriptor log = some (bound, σ'.1.socketDescriptor, σ'.2) ∧
      (status = .success ↔ bound = true ∧ listens = true) := by
  rw [listen] at hr
  cases hloop : listenLoop info s.socketDescriptor log with
  | none => simp [hloop] at hr
  | some r =>
    obtain ⟨bound, d, log'⟩ := r
    simp only [hloop] at hr
    refine ⟨bound, ?_⟩
    cases bound <;> cases listens <;> cases hr <;> simp

/-- The step on `listen`, from what the listener holds. -/
theorem listen_owner {s s' : TcpListener} {log log' : Log} {info : List Address} {listens : Bool} {status : Status}
    (h : Owner s.socketDescriptor log) (hr : s.listen log (some info) listens = some (status, s', log')) :
    (s.connected = false ∧ Tried listens info →
        Owner s'.socketDescriptor log' ∧ (status ≠ .success → s'.connected = false)) ∧
      (¬ (s.connected = false ∧ Tried listens info) → (status ≠ .success → s'.connected = false) →
        Lost s'.socketDescriptor log') := by
  obtain ⟨bound, hloop, hstatus⟩ := listen_some hr
  rcases h.held with ⟨hneg, hnone⟩ | ⟨n, hn, hheld⟩
  · have hconn : s.connected = false := not_connected_iff.mpr hneg
    constructor
    · intro hclean
      obtain ⟨howner, hend⟩ := listenLoop_tried hclean.2 hloop h.fresh h.owns hnone fun _ => hneg
      refine ⟨howner, fun hfail => ?_⟩
      rcases hend with hgood | ⟨-, hneg'⟩
      · exact absurd (hstatus.mpr hgood) hfail
      · exact not_connected_iff.mpr hneg'
    · intro hnot hreported
      have htried : ¬ Tried listens info := fun htried => hnot ⟨hconn, htried⟩
      rcases listenLoop_not_tried htried hloop h.fresh h.owns hnone with hlost | ⟨hpos, hfail⟩
      · exact hlost
      · have hstill : s'.connected = true := connected_iff.mpr hpos
        have hno : status ≠ .success := by
          intro hsuccess
          obtain ⟨hb, hl⟩ := hstatus.mp hsuccess
          simp [hb, hl] at hfail
        rw [hreported hno] at hstill
        cases hstill
  · have hconn : s.connected = true := connected_iff.mpr (by omega)
    constructor
    · intro hclean
      rw [hconn] at hclean
      cases hclean.1
    · intro _ hreported
      by_cases hnil : info = []
      · subst hnil
        simp only [listenLoop, Option.some.injEq, Prod.mk.injEq] at hloop
        obtain ⟨hb, hd, -⟩ := hloop
        have hstill : s'.connected = true := connected_iff.mpr (by omega)
        have hno : status ≠ .success := by
          intro hsuccess
          rw [← hb] at hstatus
          cases (hstatus.mp hsuccess).1
        rw [hreported hno] at hstill
        cases hstill
      · obtain ⟨hfresh', hlost⟩ := listenLoop_held hloop h.fresh
        exact ⟨hfresh', n, hlost n (by simp [hheld]) fun hno => absurd hno hnil⟩

theorem call_owner {σ σ' : TcpListener × Log} {c : Call} {status : Option Status}
    (h : Owner σ.1.socketDescriptor σ.2) (hr : call σ c = some (status, σ')) :
    (c.Clean σ.1 → Owner σ'.1.socketDescriptor σ'.2 ∧ Reported σ c status σ') ∧
      (¬ c.Clean σ.1 → Reported σ c status σ' → Lost σ'.1.socketDescriptor σ'.2) := by
  obtain ⟨s, log⟩ := σ
  cases c with
  | listen info listens =>
    simp only [call] at hr
    cases hlisten : s.listen log info listens with
    | none => simp [hlisten] at hr
    | some r =>
      obtain ⟨st, σ₁⟩ := r
      simp only [hlisten] at hr
      cases hr
      cases info with
      | none =>
        cases hlisten
        refine ⟨fun hclean => ⟨h, fun _ => hclean⟩, fun hnot hreported => absurd (hreported ?_) hnot⟩
        intro hsuccess
        cases hsuccess
      | some info => simpa [Reported, Call.Clean] using listen_owner h hlisten
  | accept client clientDescriptor clientPrintableAddr =>
    simp only [call] at hr
    cases haccept : accept log client clientDescriptor clientPrintableAddr with
    | none => simp [haccept] at hr
    | some r =>
      simp only [haccept] at hr
      cases hr
      exact ⟨fun _ => ⟨h, trivial⟩, fun hnot => absurd trivial hnot⟩
  | closeSocket =>
    cases hr
    exact ⟨fun _ => ⟨(closeSocket_owner h).1, trivial⟩, fun hnot => absurd trivial hnot⟩

/-- A descriptor that is lost stays lost. -/
theorem call_lost {σ σ' : TcpListener × Log} {c : Call} {status : Option Status} (h : Lost σ.1.socketDescriptor σ.2)
    (hr : call σ c = some (status, σ')) : Lost σ'.1.socketDescriptor σ'.2 := by
  obtain ⟨s, log⟩ := σ
  cases c with
  | listen info listens =>
    simp only [call] at hr
    cases hlisten : s.listen log info listens with
    | none => simp [hlisten] at hr
    | some r =>
      obtain ⟨st, σ₁⟩ := r
      simp only [hlisten] at hr
      cases hr
      cases info with
      | none =>
        cases hlisten
        exact h
      | some info =>
        obtain ⟨bound, hloop, -⟩ := listen_some hlisten
        obtain ⟨hfresh, hheld⟩ := listenLoop_held hloop h.fresh
        obtain ⟨a, ha, hne⟩ := h.lost
        exact ⟨hfresh, a, hheld a ha fun _ => hne⟩
  | accept client clientDescriptor clientPrintableAddr =>
    simp only [call] at hr
    cases haccept : accept log client clientDescriptor clientPrintableAddr with
    | none => simp [haccept] at hr
    | some r =>
      simp only [haccept] at hr
      cases hr
      exact h
  | closeSocket =>
    cases hr
    exact closeSocket_lost h

/-! ## The runs -/

theorem destroy_owner {s : TcpListener} {log : Log} (h : Owner s.socketDescriptor log) :
    Settled (s.destroy log) := by
  obtain ⟨howner, hnone⟩ := closeSocket_owner h
  exact (settled_iff howner.fresh).mpr ⟨howner.owns, hnone⟩

theorem destroy_lost {s : TcpListener} {log : Log} (h : Lost s.socketDescriptor log) : ¬ Settled (s.destroy log) := by
  obtain ⟨hfresh, a, ha, -⟩ := closeSocket_lost h
  intro hsettled
  have hnone : Ledger.held (s.destroy log) = ∅ := ((settled_iff hfresh).mp hsettled).2
  rw [destroy] at hnone
  rw [hnone] at ha
  exact absurd ha (Finset.notMem_empty a)

/-- Of a run of a new listener up to its destructor: every descriptor of `::socket` is
    closed once, nothing else is closed, and a `listen` that fails leaves the listener not
    connected, exactly when every `listen` is clean. -/
theorem owned_once (calls : List Call) {σ : TcpListener × Log} (hrun : run call (new, []) calls = some σ) :
    (Always call Reported (new, []) calls ∧ Settled (σ.1.destroy σ.2)) ↔
      Always call (fun σ c _ _ => c.Clean σ.1) (new, []) calls := by
  have hnew : Owner new.socketDescriptor ([] : Log) := ⟨trivial, trivial, .inl ⟨by decide, rfl⟩⟩
  exact always_run_iff (fun _ _ _ _ h hr => (call_owner h hr).1) (fun _ _ _ _ h hr => (call_owner h hr).2)
    (fun _ _ _ _ h hr => call_lost h hr) (fun _ h => destroy_owner h) (fun _ h => destroy_lost h) hnew hrun

/-- The first address is taken, the second can be bound. -/
theorem owned_once_sample :
    Settled [.opens 5, .closes 5, .opens 5, .closes 5] := by
  have hrun : run call (new, [])
      [.listen (some [⟨some 5, true, true, false⟩, ⟨some 5, true, true, true⟩]) true,
        .accept TcpSocket.new (some 6) none] = some (⟨5⟩, [.opens 5, .closes 5, .opens 5]) := by decide +kernel
  exact ((owned_once _ hrun).mpr (by decide +kernel)).2

/-- No address can be bound: the number of the descriptor that was closed is closed again
    by the destructor. -/
theorem owned_once_not :
    ¬ ∀ (calls : List Call) (σ : TcpListener × Log), run call (new, []) calls = some σ →
      Always call Reported (new, []) calls ∧ Settled (σ.1.destroy σ.2) := by
  intro h
  have hrun : run call (new, []) [.listen (some [⟨some 5, true, true, false⟩]) true] =
      some (⟨5⟩, [.opens 5, .closes 5]) := by decide +kernel
  have hclosed : ¬ Settled (destroy ⟨5⟩ [.opens 5, .closes 5]) := by decide +kernel
  exact hclosed (h _ _ hrun).2

end TcpListener

end Frnetlib
