/-
  Frnetlib.Net.Blocking — the cached blocking flag of an `fr::TcpSocket`
  (`TcpSocket.cpp`, `NetworkEncoding.h`).

  The calls of one socket that has its descriptors from `connect` and from `accept`, all
  system calls succeeding. `connect` and `set_descriptor` leave `is_blocking` as it was,
  over a descriptor that blocks, and `set_unix_socket_blocking` toggles from there: the
  flag is true to the descriptor along a run exactly when every descriptor is taken while
  `is_blocking` is set (`blocking_flag`).
-/

import Frnetlib.Base.Run
import Frnetlib.Net.Descriptor

namespace Frnetlib

open Base

namespace TcpSocket

inductive Call where
  /-- The calls for the first address succeed. -/
  | connect (address port : Bytes) (first : Attempt) (rest : List Attempt)
  /-- As `accept` calls it, with the descriptor the kernel has just given; `none` for a
      null pointer. -/
  | setDescriptor (descriptor : Option Nat)
  | setBlocking (shouldBlock : Bool)
  | closeSocket
  deriving DecidableEq, Repr

/-- What a call returns, `none` inside for void, and the state after it. -/
def call (σ : TcpSocket × Kernel) : Call → Option (Option Status × TcpSocket × Kernel)
  | .connect address port first rest =>
    if first.succeeds then
      match σ.1.connect σ.2 address port (some (first :: rest)) true with
      | none => none
      | some (status, σ') => some (some status, σ')
    else none
  | .setDescriptor none => some (none, σ.1.setDescriptor none, σ.2)
  | .setDescriptor (some d) =>
    if σ.2.isOpen d then none else some (none, σ.1.setDescriptor (some (d : Int)), σ.2.opened d)
  | .setBlocking shouldBlock =>
    let (status, σ') := σ.1.setBlocking σ.2 shouldBlock true
    some (some status, σ')
  | .closeSocket => some (none, σ.1.closeSocket σ.2)

/-- While connected, `get_blocking` says that O_NONBLOCK is clear. -/
def Agrees (σ : TcpSocket × Kernel) : Prop :=
  σ.1.connected = true → σ.2.flag σ.1.socketDescriptor = some (!σ.1.isBlocking)

instance (σ : TcpSocket × Kernel) : Decidable (Agrees σ) := inferInstanceAs (Decidable (_ → _))

/-- The flag agrees after the call, and a `set_blocking` that succeeds has set the mode. -/
def Truthful (_ : TcpSocket × Kernel) (c : Call) (status : Option Status) (σ' : TcpSocket × Kernel) : Prop :=
  Agrees σ' ∧ ∀ b, c = .setBlocking b → status = some .success → σ'.1.connected = true →
    σ'.2.flag σ'.1.socketDescriptor = some (!b)

instance (σ : TcpSocket × Kernel) (c : Call) (status : Option Status) (σ' : TcpSocket × Kernel) :
    Decidable (Truthful σ c status σ') := inferInstanceAs (Decidable (_ ∧ ∀ _, _ → _ → _ → _))

/-- A descriptor is taken only while the flag says blocking. -/
def Call.Fits (s : TcpSocket) : Call → Prop
  | .connect .. | .setDescriptor (some _) => s.isBlocking = true
  | .setDescriptor none | .setBlocking _ | .closeSocket => True

/-! ## What each call does -/

/-- `connect` takes a new descriptor, and leaves it blocking. -/
theorem connect_first {s s' : TcpSocket} {k k' : Kernel} {address port : Bytes} {first : Attempt} {rest : List Attempt}
    {status : Status} (ha : first.succeeds = true)
    (hr : s.connect k address port (some (first :: rest)) true = some (status, s', k')) :
    ∃ n : Nat, status = .success ∧ s'.socketDescriptor = n ∧ s'.isBlocking = s.isBlocking ∧
      k' = k.set n (some false) := by
  obtain ⟨n, hn⟩ := first.socket_some ha
  cases hattempt : attempt first k with
  | none => simp [connect, connectLoop, hattempt] at hr
  | some r =>
    obtain ⟨found, d, k₁⟩ := r
    obtain ⟨-, hfound, hd, nonblock, hk, hblock⟩ := attempt_some hn hattempt
    have hfound' : found = true := hfound.trans ha
    subst hd hk hfound'
    have hset : setUnixSocketBlocking (k.set n (some nonblock)) n false true true = (true, k.set n (some false)) := by
      simp [setUnixSocketBlocking, Kernel.flag, Kernel.setFlag, hblock rfl]
    simp [connect, connectLoop, hattempt, hset] at hr
    obtain ⟨rfl, rfl, rfl⟩ := hr
    exact ⟨n, rfl, rfl, rfl, rfl⟩

/-- A descriptor that blocks, taken over either flag. -/
theorem taken_agrees {σ : TcpSocket × Kernel} {n : Nat} (hd : σ.1.socketDescriptor = n)
    (hk : σ.2.nonblock n = some false) : Agrees σ ↔ σ.1.isBlocking = true := by
  have hconnected : σ.1.connected = true := by
    simp only [connected, hd, decide_eq_true_eq]
    omega
  unfold Agrees
  rw [hd]
  simp [hconnected, Kernel.flag, hk]

theorem setBlocking_descriptor (s : TcpSocket) (k : Kernel) (shouldBlock fcntl : Bool) :
    (s.setBlocking k shouldBlock fcntl).2.1.socketDescriptor = s.socketDescriptor := by
  unfold setBlocking
  split <;> rfl

/-- From a flag that agrees the toggle goes the right way. -/
theorem setBlocking_connected {s : TcpSocket} {k : Kernel} (h : Agrees (s, k)) (hc : s.connected = true) (b : Bool) :
    (s.setBlocking k b true).2.1.isBlocking = b ∧
      (s.setBlocking k b true).2.2.flag s.socketDescriptor = some (!b) := by
  have hflag : k.flag s.socketDescriptor = some (!s.isBlocking) := h hc
  by_cases hsame : b = s.isBlocking
  · subst hsame
    simp [setBlocking, setUnixSocketBlocking, hflag]
  · have hb : s.isBlocking = !b := by
      cases b <;> simpa using hsame
    cases hd : s.socketDescriptor with
    | negSucc n => simp [hd, Kernel.flag] at hflag
    | ofNat n =>
      rw [hd] at hflag
      simp only [setBlocking, setUnixSocketBlocking, hd, hflag, if_neg hsame]
      simp [Kernel.flag, Kernel.setFlag, hb]

theorem setBlocking_truthful {s : TcpSocket} {k : Kernel} (h : Agrees (s, k)) (b : Bool) (status : Option Status) :
    Truthful (s, k) (.setBlocking b) status (s.setBlocking k b true).2 := by
  have hd : (s.setBlocking k b true).2.1.socketDescriptor = s.socketDescriptor := setBlocking_descriptor s k b true
  by_cases hc : s.connected = true
  · obtain ⟨hb, hflag⟩ := setBlocking_connected h hc b
    constructor
    · intro _
      rw [hd, hflag, hb]
    · intro b' hb' _ _
      cases hb'
      rw [hd, hflag]
  · have hno : (s.setBlocking k b true).2.1.connected ≠ true := by
      simpa [connected, hd] using hc
    exact ⟨fun h => absurd h hno, fun _ _ _ h => absurd h hno⟩

/-- A call other than `set_blocking` that leaves the flag agreeing. -/
theorem truthful_iff_agrees {σ σ' : TcpSocket × Kernel} {c : Call} {status : Option Status}
    (h : ∀ b, c ≠ .setBlocking b) : Truthful σ c status σ' ↔ Agrees σ' :=
  ⟨fun h => h.1, fun h' => ⟨h', fun b hb => absurd hb (h b)⟩⟩

theorem not_connected_agrees {σ : TcpSocket × Kernel} (h : σ.1.socketDescriptor = -1) : Agrees σ := by
  intro hc
  simp [connected, h] at hc

theorem closeSocket_descriptor {s : TcpSocket} {k : Kernel} (h : Agrees (s, k)) : Agrees (s.closeSocket k) := by
  unfold closeSocket
  split
  · exact not_connected_agrees rfl
  · exact h

/-! ## The runs -/

/-- A call that takes no descriptor keeps the agreement; one that takes a descriptor
    brings it about exactly when the flag is set. -/
theorem call_truthful {σ σ' : TcpSocket × Kernel} {c : Call} {status : Option Status} (h : Agrees σ)
    (hr : call σ c = some (status, σ')) : Truthful σ c status σ' ↔ c.Fits σ.1 := by
  obtain ⟨s, k⟩ := σ
  cases c with
  | connect address port first rest =>
    refine (truthful_iff_agrees fun b hb => by cases hb).trans ?_
    simp only [call] at hr
    by_cases ha : first.succeeds = true
    · rw [if_pos ha] at hr
      cases hconnect : s.connect k address port (some (first :: rest)) true with
      | none => simp [hconnect] at hr
      | some r =>
        obtain ⟨st, s', k'⟩ := r
        obtain ⟨n, -, hd, hb, rfl⟩ := connect_first ha hconnect
        simp only [hconnect] at hr
        cases hr
        rw [taken_agrees hd (Kernel.set_self ..), hb]
        rfl
    · rw [if_neg ha] at hr
      cases hr
  | setDescriptor descriptor =>
    refine (truthful_iff_agrees fun b hb => by cases hb).trans ?_
    cases descriptor with
    | none =>
      cases hr
      exact iff_of_true (not_connected_agrees rfl) trivial
    | some n =>
      simp only [call] at hr
      by_cases hopen : k.isOpen n
      · rw [if_pos hopen] at hr
        cases hr
      · rw [if_neg hopen] at hr
        cases hr
        rw [taken_agrees (n := n) rfl (Kernel.set_self ..)]
        rfl
  | setBlocking b =>
    cases hr
    exact iff_of_true (setBlocking_truthful h b _) trivial
  | closeSocket =>
    refine (truthful_iff_agrees fun b hb => by cases hb).trans ?_
    cases hr
    exact iff_of_true (closeSocket_descriptor h) trivial

/-- The flag is true to the descriptor all along a run of a new socket exactly when each
    of its descriptors is taken while the flag is set. -/
theorem blocking_flag (k : Kernel) (calls : List Call) :
    Always call Truthful (new, k) calls ↔ Always call (fun σ c _ _ => c.Fits σ.1) (new, k) calls := by
  have hnew : Agrees (new, k) := not_connected_agrees rfl
  have hgood : ∀ σ c status σ', Agrees σ → call σ c = some (status, σ') → c.Fits σ.1 →
      Agrees σ' ∧ Truthful σ c status σ' := by
    intro σ c status σ' h hr hfits
    have ht : Truthful σ c status σ' := (call_truthful h hr).mpr hfits
    exact ⟨ht.1, ht⟩
  have hbad : ∀ σ c status σ', Agrees σ → call σ c = some (status, σ') → ¬ c.Fits σ.1 → ¬ Truthful σ c status σ' := by
    intro σ c status σ' h hr hfits ht
    exact hfits ((call_truthful h hr).mp ht)
  exact always_iff_of_step hgood hbad hnew calls

/-- An address whose calls all succeed at once. -/
def atOnce (d : Nat) : Attempt := ⟨some d, true, .connected, true, some 0⟩

/-- A socket put into non-blocking mode, closed and connected again: `get_blocking` says
    non-blocking of a descriptor that blocks, and `set_blocking(true)` makes it
    non-blocking. -/
theorem blocking_flag_not :
    ¬ Always call Truthful (new, ⟨fun _ => none⟩)
      [.connect (bytes "h") (bytes "1") (atOnce 3) [], .setBlocking false, .closeSocket,
        .connect (bytes "h") (bytes "1") (atOnce 3) [], .setBlocking true] := by
  decide +kernel

end TcpSocket

end Frnetlib
