/-
  Frnetlib.Net.SocketSelector — `fr::SocketSelector` (`SocketSelector.cpp`), `add` and
  `remove`, over sockets that are opened and disconnected meanwhile.

  `added_sockets` is keyed by the address of the socket, and an entry keeps the descriptor
  the socket had when it was added. The set of the epoll instance is keyed by descriptor
  number: the kernel drops a descriptor from it when it is closed, and gives the number
  out again.

  `remove` of a socket that has been disconnected goes to the kernel with the number it
  kept, so it throws, or takes the registration of the socket that has the number now; and
  a member that is opened again has a descriptor that is not registered. The two tables
  agree along a run exactly when neither happens (`selector_agrees`).
-/

import Frnetlib.Base.Run
import Frnetlib.Net.Descriptor

namespace Frnetlib

open Base

/-! ## The set of an epoll instance -/

namespace Epoll

/-- For each descriptor registered, the key of the entry `event.data.ptr` points to. -/
abbrev Registered := Nat → Option Nat

def EBADF : Nat := 9
def EEXIST : Nat := 17
def ENOENT : Nat := 2

/-- EPOLL_CTL_ADD, where `fails` is the `errno` of a call that fails for want of memory or
    watches. -/
def ctlAdd (k : Kernel) (epoll : Registered) (descriptor : Int) (key : Nat) (fails : Option Nat) : Except Nat Registered :=
  match descriptor with
  | .negSucc _ => .error EBADF
  | .ofNat d =>
    if ¬ k.isOpen d then .error EBADF
    else if epoll d ≠ none then .error EEXIST
    else
      match fails with
      | some errno => .error errno
      | none => .ok (Function.update epoll d (some key))

/-- EPOLL_CTL_DEL -/
def ctlDel (k : Kernel) (epoll : Registered) (descriptor : Int) : Except Nat Registered :=
  match descriptor with
  | .negSucc _ => .error EBADF
  | .ofNat d =>
    if ¬ k.isOpen d then .error EBADF
    else if epoll d = none then .error ENOENT
    else .ok (Function.update epoll d none)

theorem ctlAdd_ok {k : Kernel} {epoll epoll' : Registered} {d key : Nat} {fails : Option Nat}
    (h : ctlAdd k epoll d key fails = .ok epoll') : epoll' = Function.update epoll d (some key) := by
  simp only [ctlAdd] at h
  split at h
  · cases h
  · split at h
    · cases h
    · cases fails with
      | some errno => cases h
      | none =>
        cases h
        rfl

theorem ctlDel_registered {k : Kernel} {epoll : Registered} {d key : Nat} (hopen : k.isOpen d) (h : epoll d = some key) :
    ctlDel k epoll d = .ok (Function.update epoll d none) := by
  simp [ctlDel, hopen, h]

theorem ctlDel_ok {k : Kernel} {epoll epoll' : Registered} {descriptor : Int} (h : ctlDel k epoll descriptor = .ok epoll') :
    ∃ (d key : Nat), descriptor = d ∧ epoll d = some key ∧ epoll' = Function.update epoll d none := by
  cases descriptor with
  | negSucc _ => cases h
  | ofNat d =>
    simp only [ctlDel] at h
    split at h
    · cases h
    · split at h
      · cases h
      · rename_i hd
        cases h
        obtain ⟨key, hkey⟩ := Option.ne_none_iff_exists'.mp hd
        exact ⟨d, key, rfl, hkey, rfl⟩

/-- What stays registered when descriptors have been closed. -/
def dropClosed (k : Kernel) (epoll : Registered) : Registered := fun d => if k.isOpen d then epoll d else none

end Epoll

open Epoll

/-! ## The selector -/

/-- `SocketSelector::Opaque`. Its socket is the one whose address is the key. -/
structure Opaque where
  /-- The pointer that was passed to `add`. -/
  data : Nat
  descriptor : Int
  deriving DecidableEq, Repr

structure SocketSelector where
  addedSockets : Nat → Option Opaque
  epoll : Registered

namespace SocketSelector

def new : SocketSelector := ⟨fun _ => none, fun _ => none⟩

def add (selector : SocketSelector) (k : Kernel) (key : Nat) (socket : TcpSocket) (data : Nat) (fails : Option Nat) :
    Except Bytes Unit × SocketSelector :=
  if ¬ socket.connected then (.error (bytes "Can't add disconnected socket"), selector)
  else
    match selector.addedSockets key with
    | some _ => (.error (bytes "Can't add duplicate socket"), selector)
    | none =>
      let added := Function.update selector.addedSockets key (some ⟨data, socket.socketDescriptor⟩)
      match ctlAdd k selector.epoll socket.socketDescriptor key fails with
      | .error errno =>
        (.error (bytes "Failed to add socket: " ++ toDec errno), ⟨Function.update added key none, selector.epoll⟩)
      | .ok epoll => (.ok (), ⟨added, epoll⟩)

/-- `std::to_string` of a descriptor. -/
def showDescriptor : Int → Bytes
  | .ofNat d => toDec d
  | .negSucc d => bytes "-" ++ toDec (d + 1)

/-- It returns the pointer, `0` for `nullptr`. -/
def remove (selector : SocketSelector) (k : Kernel) (key : Nat) : Except Bytes Nat × SocketSelector :=
  match selector.addedSockets key with
  | none => (.ok 0, selector)
  | some entry =>
    match ctlDel k selector.epoll entry.descriptor with
    | .error errno =>
      (.error (bytes "Failed to remove socket: " ++ showDescriptor entry.descriptor ++ bytes ". Errno: " ++ toDec errno),
        selector)
    | .ok epoll => (.ok entry.data, ⟨Function.update selector.addedSockets key none, epoll⟩)

end SocketSelector

/-! ## The process -/

/-- The sockets of a process by their addresses, the kernel, and one selector. -/
structure Process where
  sockets : Nat → TcpSocket
  kernel : Kernel
  selector : SocketSelector

namespace Process

inductive Call where
  | add (key data : Nat) (fails : Option Nat)
  | remove (key : Nat)
  /-- The socket gets a descriptor the kernel has just opened. -/
  | opened (key descriptor : Nat)
  | disconnected (key : Nat)
  deriving DecidableEq, Repr

/-- What a call returns, a pointer or `none` for void, or the text it throws. -/
def call (s : Process) : Call → Option (Except Bytes (Option Nat) × Process)
  | .add key data fails =>
    let r := s.selector.add s.kernel key (s.sockets key) data fails
    some (r.1.map fun _ => none, { s with selector := r.2 })
  | .remove key =>
    let r := s.selector.remove s.kernel key
    some (r.1.map some, { s with selector := r.2 })
  | .opened key descriptor =>
    if s.kernel.isOpen descriptor then none
    else
      some (.ok none, { s with
        sockets := Function.update s.sockets key ((s.sockets key).setDescriptor (some (descriptor : Int)))
        kernel := s.kernel.opened descriptor })
  | .disconnected key =>
    let r := (s.sockets key).closeSocket s.kernel
    some (.ok none, { s with
      sockets := Function.update s.sockets key r.1
      kernel := r.2
      selector := { s.selector with epoll := dropClosed r.2 s.selector.epoll } })

/-- (a) A member that is connected is registered under its descriptor, with its own
    entry. -/
def Registers (s : Process) : Prop :=
  ∀ key, s.selector.addedSockets key ≠ none → (s.sockets key).connected = true →
    ∃ d : Nat, (s.sockets key).socketDescriptor = d ∧ s.selector.epoll d = some key

/-- (b) `remove` of a member takes it out, returns its pointer and leaves the
    registrations of the others. -/
def Removes (s : Process) (key : Nat) (result : Except Bytes (Option Nat)) (s' : Process) : Prop :=
  ∀ entry, s.selector.addedSockets key = some entry →
    s'.selector.addedSockets = Function.update s.selector.addedSockets key none ∧ result = .ok (some entry.data) ∧
      ∀ d other, other ≠ key → (s'.selector.epoll d = some other ↔ s.selector.epoll d = some other)

/-- What a call is to do: (a) after it, (b) if it removes, and (c) an `add` that throws
    changes neither table. -/
def Keeps (s : Process) (c : Call) (result : Except Bytes (Option Nat)) (s' : Process) : Prop :=
  s'.Registers ∧ (∀ key, c = .remove key → s.Removes key result s') ∧
    ∀ key data fails, c = .add key data fails → (∃ what, result = .error what) → s'.selector = s.selector

/-- A member is removed before it is disconnected, and not opened while it is one. -/
def Call.Orderly (s : Process) : Call → Prop
  | .remove key => s.selector.addedSockets key ≠ none → (s.sockets key).connected = true
  | .opened key _ => s.selector.addedSockets key = none
  | .add .. | .disconnected _ => True

/-- Before any call, over any kernel. -/
def start (k : Kernel) : Process := ⟨fun _ => .new, k, .new⟩

/-! ## The invariant -/

structure Inv (s : Process) : Prop where
  owned : ∀ key (d : Nat), (s.sockets key).socketDescriptor = d → s.kernel.isOpen d
  distinct : ∀ key key' (d : Nat), (s.sockets key).socketDescriptor = d → (s.sockets key').socketDescriptor = d → key = key'
  member : ∀ key entry (d : Nat), s.selector.addedSockets key = some entry → (s.sockets key).socketDescriptor = d →
    entry.descriptor = d ∧ s.selector.epoll d = some key
  registered : ∀ d key, s.selector.epoll d = some key →
    (s.sockets key).socketDescriptor = d ∧ s.selector.addedSockets key ≠ none

theorem start_inv (k : Kernel) : Inv (start k) where
  owned := by
    intro key d h
    simp [start, TcpSocket.new] at h
  distinct := by
    intro key key' d h
    simp [start, TcpSocket.new] at h
  member := nofun
  registered := nofun

theorem Inv.registers {s : Process} (h : s.Inv) : s.Registers := by
  intro key hmember hconn
  obtain ⟨entry, hentry⟩ := Option.ne_none_iff_exists'.mp hmember
  obtain ⟨d, hd⟩ := TcpSocket.connected_iff.mp hconn
  exact ⟨d, hd, (h.member key entry d hentry hd).2⟩

theorem Inv.registered_open {s : Process} (h : s.Inv) {d key : Nat} (hd : s.selector.epoll d = some key) :
    s.kernel.isOpen d := h.owned key d (h.registered d key hd).1

end Process

namespace SocketSelector

/-- An `add` throws and changes nothing, or a connected socket that is no member is one. -/
theorem add_cases (selector : SocketSelector) (k : Kernel) (key : Nat) (socket : TcpSocket) (data : Nat)
    (fails : Option Nat) :
    (∃ what, selector.add k key socket data fails = (.error what, selector)) ∨
      ∃ d : Nat, socket.socketDescriptor = d ∧ selector.addedSockets key = none ∧
        selector.add k key socket data fails = (.ok (), ⟨Function.update selector.addedSockets key (some ⟨data, d⟩),
          Function.update selector.epoll d (some key)⟩) := by
  unfold add
  by_cases hconn : socket.connected = true
  · rw [if_neg (by simp [hconn])]
    cases hadded : selector.addedSockets key with
    | some entry => exact .inl ⟨_, rfl⟩
    | none =>
      obtain ⟨d, hd⟩ := TcpSocket.connected_iff.mp hconn
      have hadd : Function.update (Function.update selector.addedSockets key (some ⟨data, d⟩)) key none =
          selector.addedSockets := by
        rw [Function.update_idem, ← hadded, Function.update_eq_self]
      simp only [hd]
      cases hctl : ctlAdd k selector.epoll d key fails with
      | error errno => exact .inl ⟨_, by rw [hadd]⟩
      | ok epoll => exact .inr ⟨d, rfl, trivial, by rw [ctlAdd_ok hctl]⟩
  · rw [if_pos hconn]
    exact .inl ⟨_, rfl⟩

end SocketSelector

namespace Process

variable {s : Process} {key : Nat}

/-! ## The calls that keep it -/

theorem add_inv (h : s.Inv) (data : Nat) {d : Nat} (hd : (s.sockets key).socketDescriptor = d)
    (hadded : s.selector.addedSockets key = none) :
    Inv { s with selector := ⟨Function.update s.selector.addedSockets key (some ⟨data, d⟩),
      Function.update s.selector.epoll d (some key)⟩ } where
  owned := h.owned
  distinct := h.distinct
  member := by
    intro key' entry d' hentry hd'
    by_cases hkey : key' = key
    · subst hkey
      simp only [Function.update_self, Option.some.injEq] at hentry ⊢
      have hdd : d' = d := by
        simp only at hd'
        omega
      subst hentry hdd
      simp
    · have hne : d' ≠ d := by
        intro heq
        subst heq
        exact hkey (h.distinct key' key d' hd' hd)
      simp only [Function.update_of_ne hkey] at hentry
      simp only [Function.update_of_ne hne]
      exact h.member key' entry d' hentry hd'
  registered := by
    intro d' key' hd'
    by_cases hne : d' = d
    · subst hne
      simp only [Function.update_self, Option.some.injEq] at hd'
      subst hd'
      simp [hd]
    · simp only [Function.update_of_ne hne] at hd'
      obtain ⟨hsocket, hmember⟩ := h.registered d' key' hd'
      refine ⟨hsocket, ?_⟩
      have hkey : key' ≠ key := by
        intro heq
        subst heq
        exact hmember hadded
      simpa [Function.update_of_ne hkey] using hmember

theorem remove_inv (h : s.Inv) {d : Nat} (hd : (s.sockets key).socketDescriptor = d) :
    Inv { s with selector := ⟨Function.update s.selector.addedSockets key none,
      Function.update s.selector.epoll d none⟩ } where
  owned := h.owned
  distinct := h.distinct
  member := by
    intro key' entry d' hentry hd'
    have hkey : key' ≠ key := by
      intro heq
      subst heq
      simp at hentry
    have hne : d' ≠ d := by
      intro heq
      subst heq
      exact hkey (h.distinct key' key d' hd' hd)
    simp only [Function.update_of_ne hkey] at hentry
    simp only [Function.update_of_ne hne]
    exact h.member key' entry d' hentry hd'
  registered := by
    intro d' key' hd'
    have hne : d' ≠ d := by
      intro heq
      subst heq
      simp at hd'
    simp only [Function.update_of_ne hne] at hd'
    obtain ⟨hsocket, hmember⟩ := h.registered d' key' hd'
    have hkey : key' ≠ key := by
      intro heq
      subst heq
      rw [hd] at hsocket
      omega
    exact ⟨hsocket, by simpa [Function.update_of_ne hkey] using hmember⟩

theorem opened_inv {s' : Process} (h : s.Inv) (hadded : s.selector.addedSockets key = none) {d : Nat}
    (hd : ¬ s.kernel.isOpen d) (hselector : s'.selector = s.selector) (hself : (s'.sockets key).socketDescriptor = d)
    (hother : ∀ key', key' ≠ key → s'.sockets key' = s.sockets key')
    (hopen : ∀ e, s'.kernel.isOpen e ↔ e = d ∨ s.kernel.isOpen e) : s'.Inv := by
  have hnew : ∀ {key'} {e : Nat}, (s.sockets key').socketDescriptor = e → e ≠ d := by
    rintro key' e he rfl
    exact hd (h.owned key' e he)
  constructor
  · intro key' e he
    by_cases hkey : key' = key
    · subst hkey
      exact (hopen e).mpr (.inl (by omega))
    · rw [hother key' hkey] at he
      exact (hopen e).mpr (.inr (h.owned key' e he))
  · intro key₁ key₂ e h₁ h₂
    by_cases hkey₁ : key₁ = key <;> by_cases hkey₂ : key₂ = key
    · rw [hkey₁, hkey₂]
    · subst hkey₁
      rw [hother key₂ hkey₂] at h₂
      exact absurd (by omega) (hnew h₂)
    · subst hkey₂
      rw [hother key₁ hkey₁] at h₁
      exact absurd (by omega) (hnew h₁)
    · rw [hother key₁ hkey₁] at h₁
      rw [hother key₂ hkey₂] at h₂
      exact h.distinct key₁ key₂ e h₁ h₂
  · intro key' entry e hentry he
    rw [hselector] at hentry ⊢
    have hkey : key' ≠ key := by
      intro heq
      subst heq
      rw [hadded] at hentry
      cases hentry
    rw [hother key' hkey] at he
    exact h.member key' entry e hentry he
  · intro e key' he
    rw [hselector] at he ⊢
    obtain ⟨hsocket, hmember⟩ := h.registered e key' he
    have hkey : key' ≠ key := by
      intro heq
      subst heq
      exact hmember hadded
    rw [hother key' hkey]
    exact ⟨hsocket, hmember⟩

theorem disconnected_inv {s' : Process} (h : s.Inv) (key : Nat) (hadded : s'.selector.addedSockets = s.selector.addedSockets)
    (hepoll : s'.selector.epoll = dropClosed s'.kernel s.selector.epoll)
    (hself : ∀ e : Nat, (s'.sockets key).socketDescriptor ≠ e)
    (hother : ∀ key', key' ≠ key → s'.sockets key' = s.sockets key')
    (hopen : ∀ e : Nat, s'.kernel.isOpen e ↔ s.kernel.isOpen e ∧ (s.sockets key).socketDescriptor ≠ e) : s'.Inv := by
  have hne : ∀ {key'} {e : Nat}, (s'.sockets key').socketDescriptor = e →
      key' ≠ key ∧ (s.sockets key').socketDescriptor = e := by
    intro key' e he
    have hkey : key' ≠ key := by
      intro heq
      subst heq
      exact hself e he
    exact ⟨hkey, hother key' hkey ▸ he⟩
  have hstays : ∀ {key'} {e : Nat}, (s'.sockets key').socketDescriptor = e → s'.kernel.isOpen e := by
    intro key' e he
    obtain ⟨hkey, he⟩ := hne he
    exact (hopen e).mpr ⟨h.owned key' e he, fun hkeye => hkey (h.distinct key' key e he hkeye)⟩
  constructor
  · exact fun key' e he => hstays he
  · intro key₁ key₂ e h₁ h₂
    exact h.distinct key₁ key₂ e (hne h₁).2 (hne h₂).2
  · intro key' entry e hentry he
    rw [hadded] at hentry
    obtain ⟨hdescriptor, hregistered⟩ := h.member key' entry e hentry (hne he).2
    refine ⟨hdescriptor, ?_⟩
    rw [hepoll, dropClosed, if_pos (hstays he), hregistered]
  · intro e key' he
    rw [hepoll, dropClosed] at he
    split at he
    · rename_i hopened
      obtain ⟨hsocket, hmember⟩ := h.registered e key' he
      have hkey : key' ≠ key := by
        intro heq
        subst heq
        exact ((hopen e).mp hopened).2 hsocket
      rw [hother key' hkey, hadded]
      exact ⟨hsocket, hmember⟩
    · cases he

/-! ## The runs -/

variable {s' : Process} {c : Call} {result : Except Bytes (Option Nat)}

/-- A call that is no `remove` and no `add` that throws keeps all that the invariant gives. -/
theorem Inv.keeps (h : s'.Inv) (hremove : ∀ key, c ≠ .remove key)
    (hadd : ∀ key data fails, c = .add key data fails → (∃ what, result = .error what) → s'.selector = s.selector) :
    s.Keeps c result s' :=
  ⟨h.registers, fun key hc => absurd hc (hremove key), hadd⟩

theorem disconnect_inv (h : s.Inv) (key : Nat) (hr : call s (.disconnected key) = some (result, s')) : s'.Inv := by
  cases hr
  refine disconnected_inv h key rfl rfl (fun e he => ?_) (fun key' hkey => Function.update_of_ne hkey _ _) ?_
  · have hconn := (s.sockets key).closeSocket_connected s.kernel
    simp only [Function.update_self] at he
    rw [TcpSocket.connected_iff.mpr ⟨e, he⟩] at hconn
    cases hconn
  · exact (s.sockets key).closeSocket_isOpen s.kernel

theorem call_keeps (h : s.Inv) (hr : call s c = some (result, s')) (hc : c.Orderly s) :
    s'.Inv ∧ s.Keeps c result s' := by
  cases c with
  | add key data fails =>
    rcases s.selector.add_cases s.kernel key (s.sockets key) data fails with ⟨what, hadd⟩ | ⟨d, hd, hadded, hadd⟩
    · simp only [call, hadd] at hr
      cases hr
      exact ⟨h, h.keeps nofun fun _ _ _ _ _ => rfl⟩
    · simp only [call, hadd] at hr
      cases hr
      have hinv := add_inv h data hd hadded
      exact ⟨hinv, hinv.keeps nofun fun _ _ _ _ hthrew => by obtain ⟨what, hwhat⟩ := hthrew; cases hwhat⟩
  | remove key =>
    cases hmember : s.selector.addedSockets key with
    | none =>
      simp only [call, SocketSelector.remove, hmember] at hr
      cases hr
      refine ⟨h, h.registers, fun key' hkey entry hentry => ?_, nofun⟩
      cases hkey
      rw [hmember] at hentry
      cases hentry
    | some entry =>
      obtain ⟨d, hd⟩ := TcpSocket.connected_iff.mp (hc (by simp [hmember]))
      obtain ⟨hdescriptor, hregistered⟩ := h.member key entry d hmember hd
      have hdel := ctlDel_registered (h.registered_open hregistered) hregistered
      simp only [call, SocketSelector.remove, hmember, hdescriptor, hdel] at hr
      cases hr
      have hinv := remove_inv h hd
      refine ⟨hinv, hinv.registers, fun key' hkey entry' hentry => ?_, nofun⟩
      cases hkey
      rw [hmember] at hentry
      cases hentry
      refine ⟨rfl, rfl, fun e other hother => ?_⟩
      by_cases he : e = d
      · subst he
        simp [hregistered, Ne.symm hother]
      · simp [Function.update_of_ne he]
  | opened key d =>
    simp only [call] at hr
    by_cases hopen : s.kernel.isOpen d
    · rw [if_pos hopen] at hr
      cases hr
    · rw [if_neg hopen] at hr
      cases hr
      have hinv : Inv { s with
          sockets := Function.update s.sockets key ((s.sockets key).setDescriptor (some (d : Int)))
          kernel := s.kernel.opened d } := by
        exact opened_inv h hc hopen rfl (by simp [TcpSocket.setDescriptor])
          (fun key' hkey => Function.update_of_ne hkey _ _) (s.kernel.isOpen_opened d)
      exact ⟨hinv, hinv.keeps nofun nofun⟩
  | disconnected key =>
    have hinv := disconnect_inv h key hr
    exact ⟨hinv, hinv.keeps nofun nofun⟩

theorem call_not_keeps (h : s.Inv) (hr : call s c = some (result, s')) (hc : ¬ c.Orderly s) :
    ¬ s.Keeps c result s' := by
  intro ⟨hregisters, hremoves, _⟩
  cases c with
  | add key data fails => exact hc trivial
  | remove key =>
    obtain ⟨hmember, hconn⟩ := Classical.not_imp.mp hc
    obtain ⟨entry, hentry⟩ := Option.ne_none_iff_exists'.mp hmember
    obtain ⟨_, hresult, hothers⟩ := hremoves key rfl entry hentry
    cases hdel : ctlDel s.kernel s.selector.epoll entry.descriptor with
    | error errno =>
      simp only [call, SocketSelector.remove, hentry, hdel] at hr
      cases hr
      cases hresult
    | ok epoll =>
      -- the number belongs to another socket now, which loses its registration
      obtain ⟨d, other, _, hregistered, rfl⟩ := ctlDel_ok hdel
      simp only [call, SocketSelector.remove, hentry, hdel] at hr
      cases hr
      have hother : other ≠ key := by
        intro heq
        subst heq
        exact hconn (TcpSocket.connected_iff.mpr ⟨d, (h.registered d other hregistered).1⟩)
      have hlost := (hothers d other hother).mpr hregistered
      simp at hlost
  | opened key d =>
    simp only [call] at hr
    by_cases hopen : s.kernel.isOpen d
    · rw [if_pos hopen] at hr
      cases hr
    · rw [if_neg hopen] at hr
      cases hr
      have hself : (Function.update s.sockets key ((s.sockets key).setDescriptor (some (d : Int))) key).socketDescriptor = d := by
        simp [TcpSocket.setDescriptor]
      obtain ⟨e, he, hregistered⟩ := hregisters key hc (TcpSocket.connected_iff.mpr ⟨d, hself⟩)
      obtain rfl : d = e := Int.ofNat.inj (hself.symm.trans he)
      exact hopen (h.registered_open hregistered)
  | disconnected key => exact hc trivial

/-- Along any run of calls, over any kernel: the two tables agree, `remove` removes and an
    `add` that throws does nothing, exactly when members are removed before they are
    disconnected and not opened again. -/
theorem selector_agrees (k : Kernel) (calls : List Call) :
    Always call Keeps (start k) calls ↔ Always call (fun s c _ _ => c.Orderly s) (start k) calls := by
  have hgood : ∀ s c result s', Inv s → call s c = some (result, s') → c.Orderly s → Inv s' ∧ s.Keeps c result s' :=
    fun _ _ _ _ h hr hc => call_keeps h hr hc
  have hbad : ∀ s c result s', Inv s → call s c = some (result, s') → ¬ c.Orderly s → ¬ s.Keeps c result s' :=
    fun _ _ _ _ h hr hc => call_not_keeps h hr hc
  exact always_iff_of_step hgood hbad (start_inv k) calls

/-- A member is disconnected and its number goes to a second socket, which is added: to
    remove the first takes the registration of the second. -/
theorem selector_agrees_not :
    ¬ Always call Keeps (start ⟨fun _ => none⟩)
      [.opened 1 5, .add 1 0 none, .disconnected 1, .opened 2 5, .add 2 0 none, .remove 1] := by
  intro h
  have h₁ := ((always_cons rfl _).mp h).2
  have h₂ := ((always_cons rfl _).mp h₁).2
  have h₃ := ((always_cons rfl _).mp h₂).2
  have h₄ := ((always_cons rfl _).mp h₃).2
  have h₅ := ((always_cons rfl _).mp h₄).2
  obtain ⟨_, hremoves, _⟩ := ((always_cons rfl _).mp h₅).1
  obtain ⟨_, _, hothers⟩ := hremoves 1 rfl ⟨0, 5⟩ rfl
  have hlost := (hothers 5 2 (by decide)).mpr rfl
  cases hlost

end Process

end Frnetlib
