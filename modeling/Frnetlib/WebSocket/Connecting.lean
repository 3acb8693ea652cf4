/-
  Frnetlib.WebSocket.Connecting — what a `connect` that fails leaves behind
  (`TcpSocket.cpp`, `WebSocket.h`).

  The loop over the addresses goes on to the next one without closing the descriptor it
  has opened, and neither the error returns after it nor the handshake's, its two
  refusals apart, close anything. So `TcpSocket::connect` is clean exactly when the
  first address that gets a descriptor also gets through, and `WebSocket::connect`
  exactly when no error return is taken with a descriptor in hand
  (`connect_leaves_nothing`).
-/

import Frnetlib.Net.Descriptor
import Frnetlib.WebSocket.Handshake
import Frnetlib.WebSocket.Served

namespace Frnetlib

open Base Socket

/-- Opened since `k`, and still open. -/
def Kernel.LeftOpen (k k' : Kernel) (d : Nat) : Prop := ¬ k.isOpen d ∧ k'.isOpen d

namespace TcpSocket

/-! ## The loop over the addresses -/

variable {addresses : List Attempt} {k k' : Kernel} {socketDescriptor d : Int} {found : Bool}

theorem attempt_result {a : Attempt} (hr : attempt a k = some (found, d, k')) :
    found = a.succeeds ∧ d = a.socket.elim (-1) Nat.cast := by
  cases hsocket : a.socket with
  | none =>
    rw [attempt_none hsocket] at hr
    cases hr
    simp [Attempt.succeeds, hsocket]
  | some n =>
    obtain ⟨_, hfound, hd, _⟩ := attempt_some hsocket hr
    exact ⟨hfound, hd⟩

theorem connectLoop_cons {a : Attempt} {rest : List Attempt}
    (hr : connectLoop (a :: rest) socketDescriptor k = some (found, d, k')) :
    attempt a k = some (true, d, k') ∧ found = true ∨
      ∃ d₁ k₁, attempt a k = some (false, d₁, k₁) ∧ connectLoop rest d₁ k₁ = some (found, d, k') := by
  rw [connectLoop] at hr
  cases hattempt : attempt a k with
  | none =>
    rw [hattempt] at hr
    cases hr
  | some r =>
    obtain ⟨found₁, d₁, k₁⟩ := r
    rw [hattempt] at hr
    simp only at hr
    by_cases hfound : found₁ = true
    · subst hfound
      rw [if_pos rfl] at hr
      cases hr
      exact .inl ⟨rfl, rfl⟩
    · rw [if_neg hfound] at hr
      rw [Bool.not_eq_true] at hfound
      subst hfound
      exact .inr ⟨d₁, k₁, rfl, hr⟩

theorem attempt_isOpen {a : Attempt} (hr : attempt a k = some (found, d, k')) {e : Nat} (he : k.isOpen e) :
    k'.isOpen e := by
  cases hsocket : a.socket with
  | none =>
    rw [attempt_none hsocket] at hr
    cases hr
    exact he
  | some n =>
    obtain ⟨hnew, _, _, nonblock, rfl, _⟩ := attempt_some hsocket hr
    have hne : e ≠ n := by
      intro heq
      subst heq
      exact hnew he
    unfold Kernel.isOpen
    rwa [Kernel.set_ne _ _ hne]

/-- The loop closes nothing. -/
theorem connectLoop_isOpen (hr : connectLoop addresses socketDescriptor k = some (found, d, k')) {e : Nat}
    (he : k.isOpen e) : k'.isOpen e := by
  induction addresses generalizing socketDescriptor k with
  | nil =>
    cases hr
    exact he
  | cons a rest ih =>
    rcases connectLoop_cons hr with ⟨hattempt, _⟩ | ⟨d₁, k₁, hattempt, hr⟩
    · exact attempt_isOpen hattempt he
    · exact ih hr (attempt_isOpen hattempt he)

/-- The descriptor it breaks out with is new, and in non-blocking mode. -/
theorem connectLoop_found (hr : connectLoop addresses socketDescriptor k = some (true, d, k')) :
    ∃ n : Nat, d = n ∧ ¬ k.isOpen n ∧ k'.nonblock n = some true := by
  induction addresses generalizing socketDescriptor k with
  | nil => cases hr
  | cons a rest ih =>
    rcases connectLoop_cons hr with ⟨hattempt, _⟩ | ⟨d₁, k₁, hattempt, hr⟩
    · cases hsocket : a.socket with
      | none =>
        rw [attempt_none hsocket] at hattempt
        cases hattempt
      | some n =>
        obtain ⟨hnew, _, hd, nonblock, rfl, hblock⟩ := attempt_some hsocket hattempt
        refine ⟨n, hd, hnew, ?_⟩
        rw [Kernel.set_self, hblock rfl]
    · obtain ⟨n, hd, hnew, hflag⟩ := ih hr
      exact ⟨n, hd, fun hopen => hnew (attempt_isOpen hattempt hopen), hflag⟩

/-- It breaks out when the calls for one of the addresses all succeed. -/
theorem connectLoop_any (hr : connectLoop addresses socketDescriptor k = some (found, d, k')) :
    found = addresses.any Attempt.succeeds := by
  induction addresses generalizing socketDescriptor k with
  | nil =>
    cases hr
    rfl
  | cons a rest ih =>
    rw [List.any_cons]
    rcases connectLoop_cons hr with ⟨hattempt, hfound⟩ | ⟨d₁, k₁, hattempt, hr⟩
    · rw [hfound, ← (attempt_result hattempt).1, Bool.true_or]
    · rw [ih hr, ← (attempt_result hattempt).1, Bool.false_or]

/-- When none does, the descriptor is what the last `::socket` gave. -/
theorem connectLoop_last (hr : connectLoop addresses socketDescriptor k = some (false, d, k')) :
    d = match addresses.getLast? with
      | none => socketDescriptor
      | some a => a.socket.elim (-1) Nat.cast := by
  induction addresses generalizing socketDescriptor k with
  | nil =>
    cases hr
    rfl
  | cons a rest ih =>
    rcases connectLoop_cons hr with ⟨_, hfound⟩ | ⟨d₁, k₁, hattempt, hr⟩
    · cases hfound
    · rw [ih hr, List.getLast?_cons]
      cases rest.getLast? with
      | none => exact (attempt_result hattempt).2
      | some b => rfl

/-- Without a descriptor for any address the loop does nothing. -/
theorem connectLoop_no_socket (h : addresses.find? (fun a => a.socket.isSome) = none)
    (hd : socketDescriptor ≤ -1) (hr : connectLoop addresses socketDescriptor k = some (found, d, k')) :
    found = false ∧ d ≤ -1 ∧ k' = k := by
  induction addresses generalizing socketDescriptor with
  | nil =>
    cases hr
    exact ⟨rfl, hd, rfl⟩
  | cons a rest ih =>
    rw [List.find?_cons] at h
    cases hsocket : a.socket with
    | none =>
      have hnone := attempt_none hsocket k
      rw [hsocket] at h
      rcases connectLoop_cons hr with ⟨hattempt, _⟩ | ⟨d₁, k₁, hattempt, hr⟩
      · rw [hnone] at hattempt
        cases hattempt
      · rw [hnone] at hattempt
        cases hattempt
        exact ih h (Int.le_refl _) hr
    | some n =>
      rw [hsocket] at h
      cases h

/-- The first address that gets a descriptor gets through, or the descriptor is left open
    and is not the one of a later address. -/
theorem connectLoop_first {a : Attempt} (h : addresses.find? (fun a => a.socket.isSome) = some a)
    (hr : connectLoop addresses socketDescriptor k = some (found, d, k')) :
    ∃ n : Nat, ¬ k.isOpen n ∧
      (a.succeeds = true → found = true ∧ d = n ∧ k' = k.set n (some true)) ∧
      (a.succeeds = false → k'.isOpen n ∧ (found = true → d ≠ n)) := by
  induction addresses generalizing socketDescriptor with
  | nil => cases h
  | cons b rest ih =>
    rw [List.find?_cons] at h
    cases hsocket : b.socket with
    | none =>
      have hnone := attempt_none hsocket k
      rw [hsocket] at h
      rcases connectLoop_cons hr with ⟨hattempt, _⟩ | ⟨d₁, k₁, hattempt, hr⟩
      · rw [hnone] at hattempt
        cases hattempt
      · rw [hnone] at hattempt
        cases hattempt
        exact ih h hr
    | some n =>
      rw [hsocket] at h
      cases h
      rcases connectLoop_cons hr with ⟨hattempt, hfound⟩ | ⟨d₁, k₁, hattempt, hr⟩
      · obtain ⟨hnew, hsucceeds, hd, nonblock, hk, hblock⟩ := attempt_some hsocket hattempt
        refine ⟨n, hnew, fun _ => ⟨hfound, hd, by rw [hk, hblock rfl]⟩, fun hfails => ?_⟩
        rw [hfails] at hsucceeds
        cases hsucceeds
      · obtain ⟨hnew, hfails, _, nonblock, rfl, _⟩ := attempt_some hsocket hattempt
        have hopen : (k.set n (some nonblock)).isOpen n := by simp [Kernel.isOpen]
        refine ⟨n, hnew, fun hsucceeds => ?_, fun _ => ⟨connectLoop_isOpen hr hopen, ?_⟩⟩
        · rw [hsucceeds] at hfails
          cases hfails
        · intro heq
          subst heq
          obtain ⟨m, hd, hnew', _⟩ := connectLoop_found hr
          rw [hd]
          intro hm
          exact hnew' (by rwa [Int.natCast_inj.mp hm])

/-! ## `connect` -/

/-- After a failure nothing is connected and every descriptor opened is closed; after a
    success the only one left open is the current one. -/
def LeavesNothing (k : Kernel) (status : Status) (s' : TcpSocket) (k' : Kernel) : Prop :=
  (status ≠ .success → s'.connected = false ∧ ∀ e, ¬ k.LeftOpen k' e) ∧
    (status = .success → ∃ d : Nat, s'.socketDescriptor = d ∧ ∀ e, k.LeftOpen k' e ↔ e = d)

/-- The first address that gets a descriptor also connects, and the last `fcntl` succeeds
    on it. -/
def GetsThrough (addresses : Option (List Attempt)) (fcntl : Bool) : Prop :=
  ∀ l a, addresses = some l → l.find? (fun a => a.socket.isSome) = some a → a.succeeds = true ∧ fcntl = true

theorem leftOpen_set {n : Nat} (hn : ¬ k.isOpen n) (nonblock : Bool) (e : Nat) :
    k.LeftOpen (k.set n (some nonblock)) e ↔ e = n := by
  by_cases he : e = n
  · subst he
    simpa [Kernel.LeftOpen, Kernel.isOpen] using hn
  · simp [Kernel.LeftOpen, he, Kernel.isOpen]

theorem not_leftOpen_self (k : Kernel) (e : Nat) : ¬ k.LeftOpen k e := fun h => h.1 h.2

/-- What `connect` makes of the loop's result. -/
theorem connect_cases {s s' : TcpSocket} {address port : Bytes} {fcntl : Bool} {status : Status}
    (hr : s.connect k address port (some addresses) fcntl = some (status, s', k')) :
    ∃ found k₁, connectLoop addresses s.socketDescriptor k = some (found, s'.socketDescriptor, k₁) ∧
      (∀ e, k.LeftOpen k' e ↔ k.LeftOpen k₁ e) ∧ (status = .success ↔ found = true ∧ fcntl = true) ∧
      (status = .success → s'.remoteAddress = address ++ bytes ":" ++ port) := by
  simp only [connect] at hr
  cases hloop : connectLoop addresses s.socketDescriptor k with
  | none =>
    rw [hloop] at hr
    cases hr
  | some r =>
    obtain ⟨found, d, k₁⟩ := r
    simp only [hloop] at hr
    by_cases hfound : found = true
    · subst hfound
      obtain ⟨n, rfl, hnew, hflag⟩ := connectLoop_found hloop
      have hset : setUnixSocketBlocking k₁ n false true fcntl =
          if fcntl then (true, k₁.set n (some false)) else (false, k₁) := by
        simp [setUnixSocketBlocking, Kernel.flag, Kernel.setFlag, hflag]
      rw [if_neg (by decide), hset] at hr
      have hopen : ∀ e, (k₁.set n (some false)).isOpen e ↔ k₁.isOpen e := by
        intro e
        by_cases he : e = n
        · subst he
          simp [Kernel.isOpen, hflag]
        · simp [Kernel.isOpen, he]
      by_cases hfcntl : fcntl = true
      · rw [if_pos hfcntl] at hr
        cases hr
        exact ⟨true, k₁, rfl, fun e => and_congr_right fun _ => hopen e, by simp [hfcntl], fun _ => rfl⟩
      · rw [if_neg hfcntl] at hr
        cases hr
        exact ⟨true, _, rfl, fun e => Iff.rfl, by simp [hfcntl], fun h => by cases h⟩
    · rw [if_pos (by simpa using hfound)] at hr
      cases hr
      exact ⟨found, _, rfl, fun e => Iff.rfl, by simp [hfound], fun h => by cases h⟩

theorem connect_leaves {s s' : TcpSocket} (hs : s.connected = false) {address port : Bytes}
    {addresses : Option (List Attempt)} {fcntl : Bool} {status : Status}
    (hr : s.connect k address port addresses fcntl = some (status, s', k')) :
    LeavesNothing k status s' k' ↔ GetsThrough addresses fcntl := by
  have hs' : s.socketDescriptor ≤ -1 := by
    simp only [connected, decide_eq_false_iff_not] at hs
    omega
  cases addresses with
  | none =>
    cases hr
    refine iff_of_true ⟨fun _ => ⟨hs, not_leftOpen_self k⟩, fun h => ?_⟩ fun l a h => ?_
    · cases h
    · cases h
  | some l =>
    obtain ⟨found, k₁, hloop, hleft, hstatus, _⟩ := connect_cases hr
    cases hfind : l.find? (fun a => a.socket.isSome) with
    | none =>
      obtain ⟨rfl, hd, rfl⟩ := connectLoop_no_socket hfind hs' hloop
      refine iff_of_true ⟨fun _ => ⟨decide_eq_false (by omega), fun e he => ?_⟩, fun h => ?_⟩ ?_
      · exact not_leftOpen_self _ e ((hleft e).mp he)
      · cases (hstatus.mp h).1
      · intro l' a hl' ha
        cases hl'
        rw [hfind] at ha
        cases ha
    | some a =>
      obtain ⟨n, hnew, hdone, hlost⟩ := connectLoop_first hfind hloop
      have hthrough : GetsThrough (some l) fcntl ↔ a.succeeds = true ∧ fcntl = true := by
        constructor
        · exact fun h => h l a rfl hfind
        · intro h l' a' hl' ha'
          cases hl'
          rw [hfind] at ha'
          cases ha'
          exact h
      rw [hthrough]
      constructor
      · intro hkept
        obtain ⟨hfailed, hsuccess⟩ := hkept
        have hclosed : k.LeftOpen k' n → status = .success := fun hn =>
          Decidable.byContradiction fun hst => (hfailed hst).2 n hn
        by_cases hsucceeds : a.succeeds = true
        · obtain ⟨_, _, rfl⟩ := hdone hsucceeds
          have hn : k.LeftOpen k' n := (hleft n).mpr ((leftOpen_set hnew true n).mpr rfl)
          exact ⟨hsucceeds, (hstatus.mp (hclosed hn)).2⟩
        · obtain ⟨hopen, hother⟩ := hlost (by simpa using hsucceeds)
          have hn : k.LeftOpen k' n := (hleft n).mpr ⟨hnew, hopen⟩
          have hst : status = .success := hclosed hn
          obtain ⟨d, hd, hall⟩ := hsuccess hst
          have hdn : n = d := (hall n).mp hn
          exact absurd (hdn ▸ hd) (hother (hstatus.mp hst).1)
      · intro hthrough
        obtain ⟨hsucceeds, hfcntl⟩ := hthrough
        obtain ⟨rfl, hd, rfl⟩ := hdone hsucceeds
        refine ⟨fun h => absurd (hstatus.mpr ⟨rfl, hfcntl⟩) h, fun _ => ⟨n, hd, fun e => ?_⟩⟩
        exact (hleft e).trans (leftOpen_set hnew true e)

end TcpSocket

namespace WebSocket

variable {σ τ : Type}

/-! ## The handshake -/

/-- After any status but Success nothing is connected. -/
def Refuses (r : Outcome Status × WebSocket σ τ) : Prop :=
  ∀ status, r.1 = .returned status → status ≠ .success → r.2.connected = false

theorem closeSocket_connected (s : WebSocket σ τ) : s.closeSocket.connected = false := by
  unfold closeSocket
  by_cases hconn : s.connected = true
  · rw [if_pos hconn]
    rfl
  · rw [if_neg hconn]
    simpa using hconn

variable [Sender τ]

theorem handshakeFailed_refuses (s : WebSocket σ τ) : Refuses s.handshakeFailed := by
  have hdisconnect : s.disconnect.1 = .returned () → s.disconnect.2.connected = false := by
    unfold disconnect
    by_cases hconn : s.connected = true
    · rw [if_pos hconn]
      split
      · exact fun h => by cases h
      · exact fun _ => closeSocket_connected _
    · rw [if_neg hconn]
      exact fun _ => closeSocket_connected _
  unfold handshakeFailed
  split
  · rename_i h
    rw [h] at hdisconnect
    exact fun _ _ _ => hdisconnect rfl
  · exact fun _ h => by cases h

variable [Receiver σ]

/-- The whole of `connect`. -/
def connectOver (s : WebSocket σ τ) (isBlocking : Bool) (k : Kernel) (address port : Bytes)
    (addresses : Option (List Attempt)) (fcntl : Bool) (o : Order) (sha1Digest : Bytes → Digest) (time path : Bytes)
    (wsProtocols : List Bytes) : Option (Outcome Status × WebSocket σ τ) :=
  match TcpSocket.connect ⟨s.socketDescriptor, isBlocking, s.remoteAddress⟩ k address port addresses fcntl with
  | none => none
  | some (status, t, _) =>
    let s := { s with socketDescriptor := t.socketDescriptor, remoteAddress := t.remoteAddress }
    some (s.connect o sha1Digest status time path wsProtocols)

theorem receiveUpgrade_refuses {s : WebSocket σ τ} (hconn : s.connected = true) (sha1Digest : Bytes → Digest)
    (websocketKey : Bytes) : Refuses (s.receiveUpgrade sha1Digest websocketKey) ↔
      HttpResponse.Responds (Socket.reads s.rx) := by
  rw [← HttpResponse.receive_responds]
  unfold receiveUpgrade receiveHttp
  generalize Http.receive HttpResponse.parse .fresh s.rx = x
  obtain ⟨outcome, response, rx⟩ := x
  cases outcome with
  | returned status =>
    by_cases hst : status = .success
    · subst hst
      refine iff_of_true ?_ (fun st h => by cases h; rfl)
      simp only [ne_eq, not_true_eq_false, if_false]
      split
      · exact handshakeFailed_refuses _
      · split
        · exact fun _ h => by cases h
        · split
          · exact handshakeFailed_refuses _
          · intro st h hne
            cases h
            exact absurd rfl hne
    · refine iff_of_false (fun h => ?_) (fun h => hst (h status rfl))
      have hno := h status (by simp [hst]) hst
      simp only [ne_eq, hst, not_false_eq_true, if_true] at hno
      rw [show ({ s with rx := rx } : WebSocket σ τ).connected = s.connected from rfl, hconn] at hno
      cases hno
  | waits => exact iff_of_true (fun _ h => by cases h) fun _ h => by cases h
  | threw what => exact iff_of_true (fun _ h => by cases h) fun _ h => by cases h
  | undefined => exact iff_of_true (fun _ h => by cases h) fun _ h => by cases h

/-! ## Over a TcpSocket -/

/-- As far as the handshake gets, the network serves it: no `::send` fails before the request
    is accepted, and no read of the response is an error. -/
def Served (s : WebSocket σ TcpWriter) (o : Order) (time path : Bytes) (wsProtocols : List Bytes) : Prop :=
  ∀ websocketKey, Base64.encode time = some websocketKey →
    let request := (upgradeRequest websocketKey path wsProtocols).construct o s.remoteAddress
    TcpWriter.delivery s.tx.isBlocking s.tx.schedule request.length ≠ .refused ∧
      (TcpWriter.delivery s.tx.isBlocking s.tx.schedule request.length = .accepted →
        HttpResponse.Responds (Socket.reads s.rx))

/-- On the socket that `TcpSocket::connect` has connected. -/
theorem connect_refuses {s : WebSocket σ TcpWriter} (hconn : s.connected = true) (o : Order)
    (sha1Digest : Bytes → Digest) (time path : Bytes) (wsProtocols : List Bytes) :
    Refuses (s.connect o sha1Digest .success time path wsProtocols) ↔ s.Served o time path wsProtocols := by
  unfold connect Served
  simp only [ne_eq, not_true_eq_false, if_false]
  cases hkey : Base64.encode time with
  | none => exact iff_of_true (fun _ h => by cases h) fun _ h => by cases h
  | some websocketKey =>
    simp only [Option.some.injEq, forall_eq']
    generalize (upgradeRequest websocketKey path wsProtocols).construct o s.remoteAddress = request
    have hsend : s.sendHttp request = ((sendLoop request 0 s.tx).1, { s with tx := (sendLoop request 0 s.tx).2 }) := by
      rw [sendHttp, if_pos hconn]
    have hends := TcpWriter.sendLoop_delivery request 0 s.tx
    rw [Nat.sub_zero] at hends
    rw [hsend]
    generalize sendLoop request 0 s.tx = x at hends ⊢
    obtain ⟨sent, tx⟩ := x
    cases hdelivery : TcpWriter.delivery s.tx.isBlocking s.tx.schedule request.length with
    | accepted =>
      rw [hdelivery] at hends
      cases hends
      have hresponds : Refuses (({ s with tx := tx } : WebSocket σ TcpWriter).receiveUpgrade sha1Digest websocketKey) ↔
          HttpResponse.Responds (Socket.reads s.rx) := receiveUpgrade_refuses (s := { s with tx := tx }) hconn sha1Digest _
      simpa using hresponds
    | refused =>
      rw [hdelivery] at hends
      obtain ⟨status, hsent, hst⟩ := hends
      simp only at hsent
      subst hsent
      refine iff_of_false (fun h => ?_) fun h => h.1 rfl
      have hno := h status (by simp [hst]) hst
      simp only [hst, not_false_eq_true, if_true] at hno
      rw [show ({ s with tx := tx } : WebSocket σ TcpWriter).connected = s.connected from rfl, hconn] at hno
      cases hno
    | held =>
      rw [hdelivery] at hends
      cases hends
      exact iff_of_true (fun _ h => by cases h) ⟨by decide, fun h => by cases h⟩

/-- Whatever descriptor the loop has left is closed, or in use. -/
def HoldsOnlySuccess (addresses : Option (List Attempt)) (fcntl : Bool) (served : Prop) : Prop :=
  ∀ l, addresses = some l →
    (l.any Attempt.succeeds = false → ∀ a, l.getLast? = some a → a.socket = none) ∧
      (l.any Attempt.succeeds = true → fcntl = true ∧ served)

theorem connect_refuses_failed (s : WebSocket σ τ) {status : Status} (h : status ≠ .success) (o : Order)
    (sha1Digest : Bytes → Digest) (time path : Bytes) (wsProtocols : List Bytes) :
    Refuses (s.connect o sha1Digest status time path wsProtocols) ↔ s.connected = false := by
  rw [connect, if_pos h]
  constructor
  · exact fun hno => hno status rfl h
  · exact fun hconn _ _ _ => hconn

theorem connectOver_refuses {s : WebSocket σ TcpWriter} (hs : s.connected = false) {isBlocking : Bool} {k : Kernel}
    {address port : Bytes} {addresses : Option (List Attempt)} {fcntl : Bool} {o : Order} {sha1Digest : Bytes → Digest}
    {time path : Bytes} {wsProtocols : List Bytes} {r : Outcome Status × WebSocket σ TcpWriter}
    (hr : s.connectOver isBlocking k address port addresses fcntl o sha1Digest time path wsProtocols = some r) :
    Refuses r ↔ HoldsOnlySuccess addresses fcntl
      (Served { s with remoteAddress := address ++ bytes ":" ++ port } o time path wsProtocols) := by
  unfold connectOver at hr
  cases hconnect : TcpSocket.connect ⟨s.socketDescriptor, isBlocking, s.remoteAddress⟩ k address port addresses fcntl with
  | none =>
    rw [hconnect] at hr
    cases hr
  | some t =>
    obtain ⟨status, t, k'⟩ := t
    rw [hconnect] at hr
    cases hr
    cases addresses with
    | none =>
      cases hconnect
      rw [connect_refuses_failed _ (by decide)]
      exact iff_of_true hs fun _ h => by cases h
    | some l =>
      obtain ⟨found, k₁, hloop, _, hstatus, haddress⟩ := TcpSocket.connect_cases hconnect
      have hany : found = l.any Attempt.succeeds := TcpSocket.connectLoop_any hloop
      simp only [HoldsOnlySuccess, Option.some.injEq, forall_eq', ← hany]
      cases found with
      | true =>
        obtain ⟨n, hd, _⟩ := TcpSocket.connectLoop_found hloop
        have hconn : -1 < t.socketDescriptor := by omega
        by_cases hfcntl : fcntl = true
        · have hst : status = .success := hstatus.mpr ⟨rfl, hfcntl⟩
          rw [hst, haddress hst, connect_refuses (decide_eq_true hconn)]
          simp [hfcntl, Served]
        · have hst : status ≠ .success := fun h => hfcntl (hstatus.mp h).2
          rw [connect_refuses_failed _ hst]
          simp [hfcntl, connected, hconn]
      | false =>
        have hst : status ≠ .success := fun h => by cases (hstatus.mp h).1
        have hd := TcpSocket.connectLoop_last hloop
        rw [connect_refuses_failed _ hst]
        simp only [connected, decide_eq_false_iff_not] at hs ⊢
        rw [hd]
        cases l.getLast? with
        | none => simpa using hs
        | some a =>
          cases hsocket : a.socket with
          | none => simp [hsocket]
          | some n =>
            have hn : -1 < (n : Int) := by omega
            simp [hsocket, hn]

end WebSocket

/-- An address that refuses the connection. -/
def refused (d : Nat) : Attempt := ⟨some d, true, .failed, false, none⟩

/-- One that is ready in time, and connected. -/
def inTime (d : Nat) : Attempt := ⟨some d, true, .inProgress, true, some 0⟩

def noKernel : Kernel := ⟨fun _ => none⟩

end Frnetlib
