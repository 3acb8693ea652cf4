/-
  Frnetlib.Net.Wait — the pointers that `fr::SocketSelector` hands to the kernel, and
  `wait`, which reads through them (`SocketSelector.cpp`).

  `add` allocates a node for the entry and registers its address; `remove` frees the node,
  and the allocator may give the address out again. `wait` gets up to 100 addresses back
  and reads an entry through each. In any order of the calls, a registered address is that
  of a live node whose entry keeps the descriptor it is registered under (`Linked`). So
  nothing freed is read, and the calls are those of the two tables of
  `Frnetlib.Net.SocketSelector`, where `wait` returns for each event the member whose entry
  is registered for it (`selector_refines`). Where the calls are in order, these are the
  members that have the descriptors reported (`wait_finds`).
-/

import Frnetlib.Net.SocketSelector
import Mathlib.Data.List.Forall2
import Mathlib.Data.List.Nodup

namespace Frnetlib

open Base Epoll

/-- A node of `added_sockets`: the key, and the entry. -/
structure Node where
  key : Nat
  entry : Opaque
  deriving DecidableEq, Repr

structure PointerSelector where
  /-- The nodes allocated, by their addresses. -/
  heap : Nat → Option Node
  /-- The address of the node under a key. -/
  addedSockets : Nat → Option Nat
  /-- The address registered for a descriptor. -/
  epoll : Registered

namespace PointerSelector

def new : PointerSelector := ⟨fun _ => none, fun _ => none, fun _ => none⟩

/-- `address` is what the allocator gives, none that is in use. -/
def add (selector : PointerSelector) (k : Kernel) (key : Nat) (socket : TcpSocket) (data : Nat) (fails : Option Nat)
    (address : Nat) : Option (Except Bytes Unit × PointerSelector) :=
  if ¬ socket.connected then some (.error (bytes "Can't add disconnected socket"), selector)
  else
    match selector.addedSockets key with
    | some _ => some (.error (bytes "Can't add duplicate socket"), selector)
    | none =>
      if selector.heap address ≠ none then none
      else
        let heap := Function.update selector.heap address (some ⟨key, data, socket.socketDescriptor⟩)
        let added := Function.update selector.addedSockets key (some address)
        match ctlAdd k selector.epoll socket.socketDescriptor address fails with
        | .error errno =>
          some (.error (bytes "Failed to add socket: " ++ toDec errno),
            ⟨Function.update heap address none, Function.update added key none, selector.epoll⟩)
        | .ok epoll => some (.ok (), ⟨heap, added, epoll⟩)

/-- `none` where it reads a node that has been freed. -/
def remove (selector : PointerSelector) (k : Kernel) (key : Nat) : Option (Except Bytes Nat × PointerSelector) :=
  match selector.addedSockets key with
  | none => some (.ok 0, selector)
  | some address =>
    match selector.heap address with
    | none => none
    | some node =>
      match ctlDel k selector.epoll node.entry.descriptor with
      | .error errno =>
        some (.error (bytes "Failed to remove socket: " ++ SocketSelector.showDescriptor node.entry.descriptor ++
          bytes ". Errno: " ++ toDec errno), selector)
      | .ok epoll =>
        some (.ok node.entry.data,
          ⟨Function.update selector.heap address none, Function.update selector.addedSockets key none, epoll⟩)

def EINTR : Nat := 4

/-- The loop over the events, each the descriptor it is for; `none` where it reads a node
    that has been freed. -/
def collect (selector : PointerSelector) : List Nat → Option (List (Nat × Nat))
  | [] => some []
  | d :: events =>
    match (selector.epoll d).bind selector.heap with
    | none => none
    | some node => (selector.collect events).map ((node.key, node.entry.data) :: ·)

/-- The sockets and their pointers, where `epoll_wait` gives these events or an `errno`. -/
def wait (selector : PointerSelector) (events : Except Nat (List Nat)) : Option (Except Bytes (List (Nat × Nat))) :=
  match events with
  | .error errno =>
    if errno = EINTR then some (.ok []) else some (.error (bytes "epoll_wait returned: " ++ toDec errno))
  | .ok events => (selector.collect events).map .ok

/-- What `epoll_wait` may give: at most the 100 events asked for, each for a descriptor that
    is registered. -/
def Reports (selector : PointerSelector) : Except Nat (List Nat) → Prop
  | .error _ => True
  | .ok events => events.length ≤ 100 ∧ events.Nodup ∧ ∀ d ∈ events, selector.epoll d ≠ none

instance (selector : PointerSelector) : (events : Except Nat (List Nat)) → Decidable (selector.Reports events)
  | .error _ => isTrue trivial
  | .ok events => inferInstanceAs (Decidable (_ ∧ _ ∧ ∀ d ∈ events, selector.epoll d ≠ none))

/-- The tables as they are seen through the pointers. -/
def tables (selector : PointerSelector) : SocketSelector where
  addedSockets key := ((selector.addedSockets key).bind selector.heap).map Node.entry
  epoll d := ((selector.epoll d).bind selector.heap).map Node.key

end PointerSelector

/-! ## The process -/

structure PointerProcess where
  sockets : Nat → TcpSocket
  kernel : Kernel
  selector : PointerSelector

namespace PointerProcess

inductive Use where
  /-- A call, with the address that the allocator gives. -/
  | call (c : Process.Call) (address : Nat)
  | wait (events : Except Nat (List Nat))

inductive Result where
  | returned (pointer : Option Nat)
  | ready (sockets : List (Nat × Nat))
  | threw (what : Bytes)
  /-- It has read a node that has been freed. -/
  | undefined
  deriving DecidableEq, Repr

def Result.of : Except Bytes (Option Nat) → Result
  | .ok pointer => .returned pointer
  | .error what => .threw what

def call (s : PointerProcess) (address : Nat) : Process.Call → Option (Result × PointerProcess)
  | .add key data fails =>
    (s.selector.add s.kernel key (s.sockets key) data fails address).map fun r =>
      (.of (r.1.map fun _ => none), { s with selector := r.2 })
  | .remove key =>
    match s.selector.remove s.kernel key with
    | none => some (.undefined, s)
    | some (result, selector) => some (.of (result.map some), { s with selector := selector })
  | .opened key descriptor =>
    if s.kernel.isOpen descriptor then none
    else
      some (.returned none, { s with
        sockets := Function.update s.sockets key ((s.sockets key).setDescriptor (some (descriptor : Int)))
        kernel := s.kernel.opened descriptor })
  | .disconnected key =>
    let r := (s.sockets key).closeSocket s.kernel
    some (.returned none, { s with
      sockets := Function.update s.sockets key r.1
      kernel := r.2
      selector := { s.selector with epoll := dropClosed r.2 s.selector.epoll } })

def use (s : PointerProcess) : Use → Option (Result × PointerProcess)
  | .call c address => s.call address c
  | .wait events =>
    if ¬ s.selector.Reports events then none
    else
      match s.selector.wait events with
      | none => some (.undefined, s)
      | some (.ok sockets) => some (.ready sockets, s)
      | some (.error what) => some (.threw what, s)

def start (k : Kernel) : PointerProcess := ⟨fun _ => .new, k, .new⟩

/-- The process as it is seen through the pointers. -/
def seen (s : PointerProcess) : Process := ⟨s.sockets, s.kernel, s.selector.tables⟩

end PointerProcess

/-! ## The invariant -/

namespace PointerSelector

structure Linked (p : PointerSelector) : Prop where
  node : ∀ key address, p.addedSockets key = some address → ∃ entry, p.heap address = some ⟨key, entry⟩
  member : ∀ address node, p.heap address = some node → p.addedSockets node.key = some address
  pointer : ∀ d address, p.epoll d = some address → ∃ node, p.heap address = some node ∧ node.entry.descriptor = d

theorem new_linked : Linked new := ⟨nofun, nofun, nofun⟩

variable {p : PointerSelector}

theorem Linked.epoll_none (h : p.Linked) (d : Nat) : p.tables.epoll d = none ↔ p.epoll d = none := by
  cases hd : p.epoll d with
  | none => simp [tables, hd]
  | some address =>
    obtain ⟨node, hnode, -⟩ := h.pointer d address hd
    simp [tables, hd, hnode]

theorem Linked.added_none (h : p.Linked) (key : Nat) : p.tables.addedSockets key = none ↔ p.addedSockets key = none := by
  cases hkey : p.addedSockets key with
  | none => simp [tables, hkey]
  | some address =>
    obtain ⟨entry, hnode⟩ := h.node key address hkey
    simp [tables, hkey, hnode]

/-- A registered descriptor is the one its entry keeps. -/
theorem Linked.registered (h : p.Linked) {d address : Nat} (hd : p.epoll d = some address) :
    ∃ key data, p.heap address = some ⟨key, data, d⟩ ∧ p.tables.addedSockets key = some ⟨data, d⟩ ∧
      p.tables.epoll d = some key := by
  obtain ⟨⟨key, data, descriptor⟩, hnode, rfl⟩ := h.pointer d address hd
  have hkey := h.member address _ hnode
  exact ⟨key, data, hnode, by simp [tables, hkey, hnode], by simp [tables, hd, hnode]⟩

/-! ## What the calls do to the pointers -/

/-- A node is allocated, linked and registered. -/
theorem Linked.insert (h : p.Linked) {key data d address : Nat} (hkey : p.addedSockets key = none)
    (hfree : p.heap address = none) :
    Linked ⟨Function.update p.heap address (some ⟨key, data, d⟩), Function.update p.addedSockets key (some address),
      Function.update p.epoll d (some address)⟩ where
  node := by
    intro key' address' hkey'
    by_cases heq : key' = key
    · subst heq
      simp only [Function.update_self, Option.some.injEq] at hkey'
      subst hkey'
      exact ⟨_, Function.update_self ..⟩
    · simp only [Function.update_of_ne heq] at hkey'
      obtain ⟨entry, hnode⟩ := h.node key' address' hkey'
      have hne : address' ≠ address := by
        intro hsame
        rw [hsame, hfree] at hnode
        cases hnode
      exact ⟨entry, by simpa only [Function.update_of_ne hne] using hnode⟩
  member := by
    intro address' node hnode
    by_cases heq : address' = address
    · subst heq
      simp only [Function.update_self, Option.some.injEq] at hnode
      subst hnode
      exact Function.update_self ..
    · simp only [Function.update_of_ne heq] at hnode
      have hmember := h.member address' node hnode
      have hne : node.key ≠ key := by
        intro hsame
        rw [hsame, hkey] at hmember
        cases hmember
      simpa only [Function.update_of_ne hne] using hmember
  pointer := by
    intro d' address' hd'
    by_cases heq : d' = d
    · subst heq
      simp only [Function.update_self, Option.some.injEq] at hd'
      subst hd'
      exact ⟨_, Function.update_self .., rfl⟩
    · simp only [Function.update_of_ne heq] at hd'
      obtain ⟨node, hnode, hdescriptor⟩ := h.pointer d' address' hd'
      have hne : address' ≠ address := by
        intro hsame
        rw [hsame, hfree] at hnode
        cases hnode
      exact ⟨node, by simpa only [Function.update_of_ne hne] using hnode, hdescriptor⟩

/-- A node is freed with its key and the descriptor its entry keeps. -/
theorem Linked.erase (h : p.Linked) {key address d : Nat} {entry : Opaque} (hkey : p.addedSockets key = some address)
    (hnode : p.heap address = some ⟨key, entry⟩) (hd : entry.descriptor = d) :
    Linked ⟨Function.update p.heap address none, Function.update p.addedSockets key none,
      Function.update p.epoll d none⟩ where
  node := by
    intro key' address' hkey'
    have hother : key' ≠ key := by
      intro heq
      subst heq
      simp at hkey'
    simp only [Function.update_of_ne hother] at hkey'
    obtain ⟨entry', hnode'⟩ := h.node key' address' hkey'
    have hne : address' ≠ address := by
      intro heq
      rw [heq, hnode, Option.some.injEq, Node.mk.injEq] at hnode'
      exact hother hnode'.1.symm
    exact ⟨entry', by simpa only [Function.update_of_ne hne] using hnode'⟩
  member := by
    intro address' node hnode'
    have hother : address' ≠ address := by
      intro heq
      subst heq
      simp at hnode'
    simp only [Function.update_of_ne hother] at hnode'
    have hmember := h.member address' node hnode'
    have hne : node.key ≠ key := by
      intro heq
      rw [heq, hkey, Option.some.injEq] at hmember
      exact hother hmember.symm
    simpa only [Function.update_of_ne hne] using hmember
  pointer := by
    intro d' address' hd'
    have hother : d' ≠ d := by
      intro heq
      subst heq
      simp at hd'
    simp only [Function.update_of_ne hother] at hd'
    obtain ⟨node, hnode', hdescriptor⟩ := h.pointer d' address' hd'
    have hne : address' ≠ address := by
      intro heq
      rw [heq, hnode, Option.some.injEq] at hnode'
      subst hnode'
      exact hother (Int.ofNat.inj (hdescriptor.symm.trans hd))
    exact ⟨node, by simpa only [Function.update_of_ne hne] using hnode', hdescriptor⟩

/-- Registrations are dropped. -/
theorem Linked.drop (h : p.Linked) (k : Kernel) : Linked { p with epoll := dropClosed k p.epoll } where
  node := h.node
  member := h.member
  pointer := by
    intro d address hd
    simp only [dropClosed] at hd
    split at hd
    · exact h.pointer d address hd
    · cases hd

/-! ## What is seen of it through the pointers -/

theorem bind_update {o : Option Nat} {address : Nat} (h : o ≠ some address) (heap : Nat → Option Node) (node : Option Node) :
    o.bind (Function.update heap address node) = o.bind heap := by
  cases o with
  | none => rfl
  | some address' =>
    have hne : address' ≠ address := fun heq => h (congrArg some heq)
    exact Function.update_of_ne hne ..

theorem Linked.added_live (h : p.Linked) {address : Nat} (hfree : p.heap address = none) (key : Nat) :
    p.addedSockets key ≠ some address := by
  intro hkey
  obtain ⟨entry, hnode⟩ := h.node key address hkey
  rw [hfree] at hnode
  cases hnode

theorem Linked.epoll_live (h : p.Linked) {address : Nat} (hfree : p.heap address = none) (d : Nat) :
    p.epoll d ≠ some address := by
  intro hd
  obtain ⟨node, hnode, -⟩ := h.pointer d address hd
  rw [hfree] at hnode
  cases hnode

theorem Linked.tables_insert (h : p.Linked) {key address : Nat} (hfree : p.heap address = none) (entry : Opaque) (d : Nat) :
    tables ⟨Function.update p.heap address (some ⟨key, entry⟩), Function.update p.addedSockets key (some address),
        Function.update p.epoll d (some address)⟩ =
      ⟨Function.update p.tables.addedSockets key (some entry), Function.update p.tables.epoll d (some key)⟩ := by
  rw [tables, SocketSelector.mk.injEq]
  constructor
  · funext key'
    by_cases heq : key' = key
    · subst heq
      simp
    · simp only [Function.update_of_ne heq, bind_update (h.added_live hfree key'), tables]
  · funext d'
    by_cases heq : d' = d
    · subst heq
      simp
    · simp only [Function.update_of_ne heq, bind_update (h.epoll_live hfree d'), tables]

theorem Linked.tables_erase (h : p.Linked) {key address d : Nat} {entry : Opaque} (hkey : p.addedSockets key = some address)
    (hnode : p.heap address = some ⟨key, entry⟩) (hd : entry.descriptor = d) :
    tables ⟨Function.update p.heap address none, Function.update p.addedSockets key none, Function.update p.epoll d none⟩ =
      ⟨Function.update p.tables.addedSockets key none, Function.update p.tables.epoll d none⟩ := by
  rw [tables, SocketSelector.mk.injEq]
  constructor
  · funext key'
    by_cases heq : key' = key
    · subst heq
      simp
    · have hother : p.addedSockets key' ≠ some address := by
        intro hkey'
        obtain ⟨entry', hnode'⟩ := h.node key' address hkey'
        rw [hnode, Option.some.injEq, Node.mk.injEq] at hnode'
        exact heq hnode'.1.symm
      simp only [Function.update_of_ne heq, bind_update hother, tables]
  · funext d'
    by_cases heq : d' = d
    · subst heq
      simp
    · have hother : p.epoll d' ≠ some address := by
        intro hd'
        obtain ⟨node, hnode', hdescriptor⟩ := h.pointer d' address hd'
        rw [hnode, Option.some.injEq] at hnode'
        subst hnode'
        exact heq (Int.ofNat.inj (hdescriptor.symm.trans hd))
      simp only [Function.update_of_ne heq, bind_update hother, tables]

theorem tables_drop (p : PointerSelector) (k : Kernel) :
    tables { p with epoll := dropClosed k p.epoll } = { p.tables with epoll := dropClosed k p.tables.epoll } := by
  rw [tables, SocketSelector.mk.injEq]
  refine ⟨rfl, funext fun d => ?_⟩
  simp only [dropClosed]
  split
  · rfl
  · rfl

/-- The kernel answers alike for two sets of the same descriptors. -/
theorem ctlAdd_alike {epoll epoll' : Registered} (h : ∀ d, epoll d = none ↔ epoll' d = none) (k : Kernel) (descriptor : Int)
    (address key : Nat) (fails : Option Nat) :
    (∃ errno, ctlAdd k epoll descriptor address fails = .error errno ∧
      ctlAdd k epoll' descriptor key fails = .error errno) ∨
    ∃ d : Nat, descriptor = d ∧
      ctlAdd k epoll descriptor address fails = .ok (Function.update epoll d (some address)) ∧
      ctlAdd k epoll' descriptor key fails = .ok (Function.update epoll' d (some key)) := by
  cases descriptor with
  | negSucc n => exact .inl ⟨EBADF, rfl, rfl⟩
  | ofNat d =>
    unfold ctlAdd
    by_cases hopen : k.isOpen d
    · by_cases hd : epoll d = none
      · have hd' := (h d).mp hd
        cases fails with
        | some errno => exact .inl ⟨errno, by simp [hopen, hd], by simp [hopen, hd']⟩
        | none => exact .inr ⟨d, rfl, by simp [hopen, hd], by simp [hopen, hd']⟩
      · have hd' := mt (h d).mpr hd
        exact .inl ⟨EEXIST, by simp [hopen, hd], by simp [hopen, hd']⟩
    · exact .inl ⟨EBADF, by simp [hopen], by simp [hopen]⟩

theorem ctlDel_alike {epoll epoll' : Registered} (h : ∀ d, epoll d = none ↔ epoll' d = none) (k : Kernel)
    (descriptor : Int) :
    (∃ errno, ctlDel k epoll descriptor = .error errno ∧ ctlDel k epoll' descriptor = .error errno) ∨
    ∃ d : Nat, descriptor = d ∧ ctlDel k epoll descriptor = .ok (Function.update epoll d none) ∧
      ctlDel k epoll' descriptor = .ok (Function.update epoll' d none) := by
  cases descriptor with
  | negSucc n => exact .inl ⟨EBADF, rfl, rfl⟩
  | ofNat d =>
    unfold ctlDel
    by_cases hopen : k.isOpen d
    · by_cases hd : epoll d = none
      · have hd' := (h d).mp hd
        exact .inl ⟨ENOENT, by simp [hopen, hd], by simp [hopen, hd']⟩
      · have hd' := mt (h d).mpr hd
        exact .inr ⟨d, rfl, by simp [hopen, hd], by simp [hopen, hd']⟩
    · exact .inl ⟨EBADF, by simp [hopen], by simp [hopen]⟩

theorem Linked.add_refines (h : p.Linked) {k : Kernel} {key : Nat} {socket : TcpSocket} {data : Nat} {fails : Option Nat}
    {address : Nat} {result : Except Bytes Unit} {p' : PointerSelector}
    (hr : p.add k key socket data fails address = some (result, p')) :
    p'.Linked ∧ p.tables.add k key socket data fails = (result, p'.tables) := by
  unfold add at hr
  unfold SocketSelector.add
  by_cases hconn : socket.connected = true
  · rw [if_neg (by simp [hconn])] at hr ⊢
    cases hkey : p.addedSockets key with
    | some address' =>
      obtain ⟨entry, hnode⟩ := h.node key address' hkey
      have hentry : p.tables.addedSockets key = some entry := by simp [tables, hkey, hnode]
      simp only [hkey] at hr
      cases hr
      simp only [hentry]
      exact ⟨h, trivial⟩
    | none =>
      have hentry := (h.added_none key).mpr hkey
      simp only [hkey] at hr
      simp only [hentry]
      by_cases hfree : p.heap address = none
      · rw [if_neg (by simp [hfree])] at hr
        rcases ctlAdd_alike (fun d => (h.epoll_none d).symm) k socket.socketDescriptor address key fails with
          ⟨errno, hctl, hctl'⟩ | ⟨d, hd, hctl, hctl'⟩
        · rw [hctl] at hr
          cases hr
          have hheap : Function.update (Function.update p.heap address (some ⟨key, data, socket.socketDescriptor⟩)) address none =
              p.heap := by rw [Function.update_idem, ← hfree, Function.update_eq_self]
          have hadded : Function.update (Function.update p.addedSockets key (some address)) key none = p.addedSockets := by
            rw [Function.update_idem, ← hkey, Function.update_eq_self]
          have htable : Function.update (Function.update p.tables.addedSockets key
              (some (⟨data, socket.socketDescriptor⟩ : Opaque))) key none = p.tables.addedSockets := by
            rw [Function.update_idem, ← hentry, Function.update_eq_self]
          rw [hctl', hheap, hadded, htable]
          exact ⟨h, rfl⟩
        · rw [hctl, hd] at hr
          cases hr
          rw [hctl', hd]
          exact ⟨h.insert hkey hfree, by rw [h.tables_insert hfree]⟩
      · rw [if_pos hfree] at hr
        cases hr
  · rw [if_pos hconn] at hr ⊢
    cases hr
    exact ⟨h, rfl⟩

/-- `remove` reads a node that is there. -/
theorem Linked.remove_refines (h : p.Linked) (k : Kernel) (key : Nat) :
    ∃ result p', p.remove k key = some (result, p') ∧ p'.Linked ∧ p.tables.remove k key = (result, p'.tables) := by
  unfold remove SocketSelector.remove
  cases hkey : p.addedSockets key with
  | none =>
    simp only [(h.added_none key).mpr hkey]
    exact ⟨_, _, rfl, h, rfl⟩
  | some address =>
    obtain ⟨entry, hnode⟩ := h.node key address hkey
    have hentry : p.tables.addedSockets key = some entry := by simp [tables, hkey, hnode]
    simp only [hnode, hentry]
    rcases ctlDel_alike (fun d => (h.epoll_none d).symm) k entry.descriptor with ⟨errno, hctl, hctl'⟩ | ⟨d, hd, hctl, hctl'⟩
    · rw [hctl, hctl']
      exact ⟨_, _, rfl, h, rfl⟩
    · rw [hctl, hctl']
      exact ⟨_, _, rfl, h.erase hkey hnode hd, by rw [h.tables_erase hkey hnode hd]⟩

/-- `wait` reads nodes that are there. -/
theorem Linked.collect_members (h : p.Linked) {events : List Nat} (hevents : ∀ d ∈ events, p.epoll d ≠ none) :
    ∃ sockets, p.collect events = some sockets ∧
      List.Forall₂ (fun (d : Nat) socket => p.tables.addedSockets socket.1 = some ⟨socket.2, d⟩ ∧
        p.tables.epoll d = some socket.1) events sockets := by
  induction events with
  | nil => exact ⟨[], rfl, .nil⟩
  | cons d events ih =>
    obtain ⟨hd, hevents⟩ := List.forall_mem_cons.mp hevents
    obtain ⟨sockets, hcollect, hsockets⟩ := ih hevents
    obtain ⟨address, hd⟩ := Option.ne_none_iff_exists'.mp hd
    obtain ⟨key, data, hnode, hadded, hepoll⟩ := h.registered hd
    refine ⟨(key, data) :: sockets, ?_, .cons ⟨hadded, hepoll⟩ hsockets⟩
    simp [collect, hd, hnode, hcollect]

end PointerSelector

/-! ## The runs -/

namespace PointerProcess

variable {s s' : PointerProcess}

/-- A call that is no `wait` is the call of the process as it is seen. -/
theorem call_refines (h : s.selector.Linked) {address : Nat} {c : Process.Call} {o : Result}
    (hr : s.call address c = some (o, s')) :
    s'.selector.Linked ∧ ∃ result, s.seen.call c = some (result, s'.seen) ∧ o = .of result := by
  cases c with
  | add key data fails =>
    obtain ⟨⟨result, p'⟩, hadd, heq⟩ := Option.map_eq_some_iff.mp hr
    cases heq
    obtain ⟨hlinked, hseen⟩ := h.add_refines hadd
    refine ⟨hlinked, _, ?_, rfl⟩
    simp only [Process.call, seen, hseen]
  | remove key =>
    obtain ⟨result, p', hremove, hlinked, hseen⟩ := h.remove_refines s.kernel key
    simp only [call, hremove] at hr
    cases hr
    refine ⟨hlinked, _, ?_, rfl⟩
    simp only [Process.call, seen, hseen]
  | opened key d =>
    simp only [call] at hr
    by_cases hopen : s.kernel.isOpen d
    · rw [if_pos hopen] at hr
      cases hr
    · rw [if_neg hopen] at hr
      cases hr
      exact ⟨h, .ok none, if_neg hopen, rfl⟩
  | disconnected key =>
    cases hr
    refine ⟨h.drop _, .ok none, ?_, rfl⟩
    simp only [Process.call, seen, PointerSelector.tables_drop]

/-- What `wait` is to come to: an error of the kernel, or for each event the member whose
    entry is registered for it, none of them twice. -/
def Waits (s : Process) : Except Nat (List Nat) → Result → Prop
  | .error errno, o =>
    o = if errno = PointerSelector.EINTR then .ready [] else .threw (bytes "epoll_wait returned: " ++ toDec errno)
  | .ok events, o =>
    ∃ sockets, o = .ready sockets ∧ (sockets.map Prod.fst).Nodup ∧
      List.Forall₂ (fun (d : Nat) socket => s.selector.addedSockets socket.1 = some ⟨socket.2, d⟩ ∧
        s.selector.epoll d = some socket.1) events sockets

/-- A use of the selector is that of the two tables. -/
def Refines (s : PointerProcess) (u : Use) (o : Result) (s' : PointerProcess) : Prop :=
  match u with
  | .call c _ => ∃ result, s.seen.call c = some (result, s'.seen) ∧ o = .of result
  | .wait events => s' = s ∧ Waits s.seen events o

/-- Entries that keep different descriptors are under different keys. -/
theorem nodup_sockets {table : Nat → Option Opaque} {events : List Nat} {sockets : List (Nat × Nat)} (hnodup : events.Nodup)
    (h : List.Forall₂ (fun (d : Nat) socket => table socket.1 = some ⟨socket.2, d⟩) events sockets) :
    (sockets.map Prod.fst).Nodup := by
  have hsame : events.map (fun d : Nat => some (d : Int)) =
      (sockets.map Prod.fst).map fun key => (table key).map Opaque.descriptor := by
    rw [List.map_map, ← List.forall₂_eq_eq_eq, List.forall₂_map_left_iff, List.forall₂_map_right_iff]
    exact h.imp fun d socket hd => by simp [hd]
  refine List.Nodup.of_map (fun key => (table key).map Opaque.descriptor) ?_
  rw [← hsame]
  exact hnodup.map fun d e heq => Int.ofNat.inj (Option.some.inj heq)

theorem use_refines (h : s.selector.Linked) {u : Use} {o : Result} (hr : s.use u = some (o, s')) :
    s'.selector.Linked ∧ s.Refines u o s' := by
  cases u with
  | call c address => exact call_refines h hr
  | wait events =>
    simp only [use] at hr
    by_cases hreports : s.selector.Reports events
    · rw [if_neg (not_not_intro hreports)] at hr
      cases events with
      | error errno =>
        by_cases heintr : errno = PointerSelector.EINTR
        · simp only [PointerSelector.wait, if_pos heintr] at hr
          cases hr
          exact ⟨h, rfl, (if_pos heintr).symm⟩
        · simp only [PointerSelector.wait, if_neg heintr] at hr
          cases hr
          exact ⟨h, rfl, (if_neg heintr).symm⟩
      | ok events =>
        obtain ⟨-, hnodup, hevents⟩ := hreports
        obtain ⟨sockets, hcollect, hsockets⟩ := h.collect_members hevents
        simp only [PointerSelector.wait, hcollect, Option.map_some] at hr
        cases hr
        exact ⟨h, rfl, sockets, rfl, nodup_sockets hnodup (hsockets.imp fun _ _ h => h.1), hsockets⟩
    · rw [if_pos hreports] at hr
      cases hr

/-- Along any uses of the selector, in any order, over any kernel and any allocator: nothing
    that has been freed is read, and all is as if there were only the two tables. -/
theorem selector_refines (k : Kernel) (uses : List Use) : Always use Refines (start k) uses := by
  have hrefines : ∀ s u o s', s.selector.Linked → use s u = some (o, s') → s'.selector.Linked ∧ s.Refines u o s' :=
    fun _ _ _ _ h hr => use_refines h hr
  exact always_of_step hrefines PointerSelector.new_linked uses

/-! ## In order -/

def Use.Orderly (s : PointerProcess) : Use → Prop
  | .call c _ => c.Orderly s.seen
  | .wait _ => True

instance (s : PointerProcess) : (u : Use) → Decidable (u.Orderly s)
  | .call (.remove key) _ =>
    inferInstanceAs (Decidable (s.seen.selector.addedSockets key ≠ none → (s.sockets key).connected = true))
  | .call (.opened key _) _ => inferInstanceAs (Decidable (s.seen.selector.addedSockets key = none))
  | .call (.add ..) _ | .call (.disconnected _) _ | .wait _ => isTrue trivial

/-- What `wait` returns are the members that have the descriptors reported, each once. -/
def Finds (s : PointerProcess) (u : Use) (o : Result) : Prop :=
  ∀ events, u = .wait (.ok events) → ∃ sockets, o = .ready sockets ∧ (sockets.map Prod.fst).Nodup ∧
    ∀ key data, (key, data) ∈ sockets ↔
      ∃ d ∈ events, s.seen.selector.addedSockets key = some ⟨data, d⟩ ∧ (s.sockets key).socketDescriptor = d

theorem Waits.finds {s : Process} (h : s.Inv) {events : List Nat} {o : Result} (hw : Waits s (.ok events) o) :
    ∃ sockets, o = .ready sockets ∧ (sockets.map Prod.fst).Nodup ∧ ∀ key data, (key, data) ∈ sockets ↔
      ∃ d ∈ events, s.selector.addedSockets key = some ⟨data, d⟩ ∧ (s.sockets key).socketDescriptor = d := by
  obtain ⟨sockets, hready, hnodup, hsockets⟩ := hw
  refine ⟨sockets, hready, hnodup, fun key data => ?_⟩
  clear hready hnodup
  induction hsockets with
  | nil => simp
  | @cons d socket events sockets hd _ ih =>
    obtain ⟨hadded, hepoll⟩ := hd
    simp only [List.mem_cons, ih, or_and_right, exists_or, exists_eq_left]
    refine or_congr_left ⟨?_, ?_⟩
    · rintro rfl
      exact ⟨hadded, (h.registered d key hepoll).1⟩
    · rintro ⟨hmember, hdescriptor⟩
      have hregistered := (h.member key _ d hmember hdescriptor).2
      rw [hepoll, Option.some.injEq] at hregistered
      subst hregistered
      rw [hadded, Option.some.injEq, Opaque.mk.injEq] at hmember
      exact Prod.ext rfl hmember.1.symm

/-- The two tables agree, and the pointers with them. -/
structure Inv (s : PointerProcess) : Prop where
  linked : s.selector.Linked
  seen : s.seen.Inv

theorem start_inv (k : Kernel) : Inv (start k) := ⟨PointerSelector.new_linked, Process.start_inv k⟩

theorem use_finds {u : Use} {o : Result} (h : s.Inv) (hr : s.use u = some (o, s')) (hu : u.Orderly s) :
    s'.Inv ∧ s.Finds u o := by
  obtain ⟨hlinked, hrefines⟩ := use_refines h.linked hr
  cases u with
  | call c address =>
    obtain ⟨result, hcall, -⟩ := hrefines
    exact ⟨⟨hlinked, (Process.call_keeps h.seen hcall hu).1⟩, nofun⟩
  | wait events =>
    obtain ⟨rfl, hwaits⟩ := hrefines
    refine ⟨h, fun events' heq => ?_⟩
    cases heq
    exact hwaits.finds h.seen

/-- Where members are removed before they are disconnected and not opened again, `wait`
    finds the members that have the descriptors reported, each once, and nothing else. -/
theorem wait_finds (k : Kernel) (uses : List Use) (h : Always use (fun s u _ _ => u.Orderly s) (start k) uses) :
    Always use (fun s u o _ => s.Finds u o) (start k) uses := by
  have hfinds : ∀ s u o s', Inv s → use s u = some (o, s') → u.Orderly s → s'.Inv ∧ s.Finds u o :=
    fun _ _ _ _ h hr hu => use_finds h hr hu
  exact always_of_good hfinds (start_inv k) h

/-- Of two members one has a descriptor that is reported; then its number goes to a third. -/
theorem wait_finds_sample :
    Always use (fun s u o _ => s.Finds u o) (start ⟨fun _ => none⟩)
      [.call (.opened 1 5) 0, .call (.opened 2 6) 0, .call (.add 1 10 none) 100, .call (.add 2 20 none) 200, .wait (.ok [5]),
        .call (.remove 1) 0, .call (.disconnected 1) 0, .call (.opened 3 5) 0, .call (.add 3 30 none) 100, .wait (.ok [6, 5])] :=
  wait_finds _ _ (by decide +kernel)

end PointerProcess

end Frnetlib
