/-
  Frnetlib.Net.Retry — a receive that answers WouldBlock or Timeout, on any socket.

  `Packet::receive`, `WebFrame::receive` and `Http::receive` promise that such a call can
  be made again: it has taken no byte and left the object as it was. For the HTTP objects
  the second needs that the reads which succeeded brought bytes, as those of the library's
  sockets do, or that `parse` of no bytes does nothing; else an object whose body already
  holds a header has it parsed by a read of no bytes.

  `Script` is the socket whose reads have any outcomes one likes.
-/

import Frnetlib.Http.Receive
import Frnetlib.Net.Takes
import Frnetlib.Packet.Framing
import Frnetlib.WebSocket.Untrusted

namespace Frnetlib

open Base Socket Receiver

/-! ## Packets -/

theorem Packet.receive_takes {σ : Type} [Receiver σ] (maxReceiveSize : Nat) (p : Packet) :
    Takes (σ := σ) (p.receive maxReceiveSize) fun t st p' => Paused st → t = [] ∧ p' = p := by
  unfold receive
  refine (takes_receiveAll (σ := σ) 4).andThen ?_ ?_
  · intro t st b ⟨_, _, hpaused⟩ _ hst
    exact ⟨hpaused hst, rfl⟩
  · intro header b _
    by_cases hmax : maxReceiveSize ≠ 0 ∧ maxReceiveSize < ofBe b
    · simp only [if_pos hmax]
      exact Takes.pure fun hst => absurd hst (by decide)
    · simp only [if_neg hmax]
      refine (takes_receiveRest (σ := σ) (ofBe b)).map (fun b' => { p with buffer := store (makeRoom p.buffer (ofBe b)) b' }) ?_
      intro t st b' ⟨_, _, hpaused⟩ hst
      exact absurd hst hpaused

/-! ## Requests and responses -/

theorem HttpRequest.parseBody_status {r r' : HttpRequest} {st : Status} (h : r.parseBody = (some st, r')) :
    ¬ Paused st := by
  unfold parseBody at h
  split at h
  · cases h; decide
  · split at h
    · split at h
      · split at h
        · cases h; decide
        · cases h
      · cases h; decide
    · cases h; decide

theorem HttpRequest.parse_status {r r' : HttpRequest} {b : Bytes} {st : Status} (h : r.parse b = (some st, r')) :
    ¬ Paused st := by
  unfold parse parseBuffer at h
  split at h
  · exact parseBody_status h
  · split at h
    · cases h; decide
    · split at h
      · split at h
        · cases h; decide
        · cases h; decide
      · simp only at h
        split at h
        · cases h; decide
        · split at h
          · cases h; decide
          · exact parseBody_status h

theorem HttpResponse.chunks_status {body body' : Bytes} {chunkOffset chunkOffset' : Nat} {st : Status}
    (h : chunks body chunkOffset = (some st, body', chunkOffset')) : ¬ Paused st := by
  induction body, chunkOffset using chunks.induct with
  | case1 body chunkOffset hlt hround =>
    rw [chunks_more hround] at h
    cases h; decide
  | case2 body chunkOffset hlt hround =>
    rw [chunks_throws hlt hround] at h
    cases h
  | case3 body chunkOffset hlt body₁ hround =>
    rw [chunks_chunk hlt hround, if_pos rfl] at h
    cases h; decide
  | case4 body chunkOffset hlt chunkLen body₁ hround _ hne ih =>
    rw [chunks_chunk hlt hround, if_neg hne] at h
    exact ih h
  | case5 body chunkOffset hlt =>
    rw [chunks_end hlt] at h
    cases h; decide

theorem HttpResponse.parseBody_status {r r' : HttpResponse} {st : Status} (h : r.parseBody = (some st, r')) :
    ¬ Paused st := by
  unfold parseBody at h
  split at h
  · cases h; decide
  · split at h
    · rcases hchunks : chunks r.body r.chunkOffset with ⟨st', body, chunkOffset⟩
      rw [hchunks] at h
      cases h
      exact chunks_status hchunks
    · split at h
      · cases h; decide
      · split at h
        · cases h; decide
        · cases h; decide

theorem HttpResponse.parse_status {r r' : HttpResponse} {b : Bytes} {st : Status} (h : r.parse b = (some st, r')) :
    ¬ Paused st := by
  unfold parse parseBuffer at h
  split at h
  · exact parseBody_status h
  · split at h
    · cases h; decide
    · split at h
      · split at h
        · cases h; decide
        · cases h; decide
      · simp only at h
        split at h
        · cases h; decide
        · split at h
          · cases h; decide
          · exact parseBody_status h

namespace Http

variable {ρ σ : Type} [Receiver σ]

/-- What a call of `receive` that has come to `x` keeps of the promise. -/
structure Retries (parse : ρ → Bytes → Option Status × ρ) (r : ρ) (w : σ) (x : Outcome Status × ρ × σ) : Prop where
  /-- The loop never tests a status that no `parse` has assigned. -/
  assigned : x.1 ≠ .undefined
  /-- NotEnoughData is only ever the socket's. -/
  enough : x.1 = .returned .notEnoughData →
    pending x.2.2 = pending w ∧ ∃ w' : σ, receiveRaw recvChunkSize w' = some (.notEnoughData, [], x.2.2)
  taken : ∀ st, x.1 = .returned st → Paused st → pending x.2.2 = pending w
  object : ∀ st, x.1 = .returned st → Paused st → NeverEmpty σ ∨ (parse r []).2 = r → x.2.1 = r

/-- An outcome that is neither a call to be made again nor one to be explained. -/
def Settled : Outcome Status → Prop
  | .returned st => st ≠ .notEnoughData ∧ ¬ Paused st
  | .undefined => False
  | .waits => True
  | .threw _ => True

theorem Settled.retries {parse : ρ → Bytes → Option Status × ρ} {r : ρ} {w : σ} {x : Outcome Status × ρ × σ}
    (h : Settled x.1) : Retries parse r w x := by
  refine ⟨?_, ?_, ?_, ?_⟩
  · intro hx
    rw [hx] at h
    exact h
  · intro hx
    rw [hx] at h
    exact absurd rfl h.1
  · intro st hx hst
    rw [hx] at h
    exact absurd hst h.2
  · intro st hx hst
    rw [hx] at h
    exact absurd hst h.2

/-- The rounds from `w` on: as long as no byte has come they keep the promise, after that
    they settle. -/
theorem receiveFrom_retries {parse : ρ → Bytes → Option Status × ρ}
    (hparse : ∀ {r r' b st}, parse r b = (some st, r') → ¬ Paused st) {total : Nat} {state : Option Status} (r : ρ) (w : σ)
    (hstate : total ≠ 0 → state = some .notEnoughData) :
    (total = 0 → Retries parse r w (receiveFrom parse total state r w)) ∧
      (total ≠ 0 → Settled (receiveFrom parse total state r w).1) := by
  generalize hm : left w = m
  induction m using Nat.strongRecOn generalizing total state r w with
  | ind m ih =>
    have hsettled : Settled (receiveFrom parse total state r w).1 →
        (total = 0 → Retries parse r w (receiveFrom parse total state r w)) ∧
          (total ≠ 0 → Settled (receiveFrom parse total state r w).1) :=
      fun h => ⟨fun _ => h.retries, fun _ => h⟩
    rcases hraw : receiveRaw recvChunkSize w with _ | ⟨status, b, w₁⟩
    · apply hsettled
      rw [receiveFrom_waits hraw]
      exact trivial
    · have hleft := raw_left hraw (by decide)
      have hpend := raw_pending hraw
      by_cases hst : status = .success
      · subst hst
        rcases hp : parse r b with ⟨_ | st, r₁⟩
        · apply hsettled
          rw [receiveFrom_throws hraw hp]
          exact trivial
        · by_cases hmore : st = .notEnoughData
          · subst hmore
            have hnext : total + b.length ≠ 0 → some Status.notEnoughData = some .notEnoughData := fun _ => rfl
            obtain ⟨hzero, hpos⟩ := ih (left w₁) (by omega) r₁ w₁ hnext rfl
            rw [receiveFrom_more hraw hp]
            by_cases htotal : total + b.length = 0
            · -- a read of no bytes: `parse` is called for nothing
              have hb : b = [] := List.eq_nil_of_length_eq_zero (by omega)
              subst hb
              rw [List.nil_append] at hpend
              obtain ⟨hassigned, henough, htaken, hobject⟩ := hzero htotal
              rw [← hpend] at henough htaken
              refine ⟨fun _ => ⟨hassigned, henough, htaken, ?_⟩, fun h => absurd htotal (by omega)⟩
              intro st hret hst hsame
              rcases hsame with hnever | hidle
              · exact absurd rfl (hnever (by decide) hraw)
              · rw [hp] at hidle
                have hr : r₁ = r := hidle
                subst hr
                exact hobject st hret hst (.inr (by rw [hp]))
            · exact ⟨fun _ => (hpos htotal).retries, fun _ => hpos htotal⟩
          · apply hsettled
            rw [receiveFrom_done hraw hp hmore]
            exact ⟨hmore, hparse hp⟩
      · have hb : b = [] := raw_fails hraw hst
        subst hb
        rw [List.nil_append] at hpend
        by_cases htotal : total = 0
        · rw [receiveFrom_first hraw hst htotal]
          refine ⟨fun _ => ⟨by simp, ?_, fun _ _ _ => hpend.symm, fun _ _ _ _ => rfl⟩, fun h => absurd htotal h⟩
          intro h
          cases h
          exact ⟨hpend.symm, w, hraw⟩
        · by_cases hblock : status = .wouldBlock
          · subst hblock
            rw [receiveFrom_block hraw hstate, if_neg htotal]
            have hpos := (ih (left w₁) (by omega) r w₁ hstate rfl).2 htotal
            exact ⟨fun h => absurd h htotal, fun _ => hpos⟩
          · apply hsettled
            rw [receiveFrom_lost hraw hst htotal hblock]
            exact ⟨by decide, by decide⟩

theorem receive_retries {parse : ρ → Bytes → Option Status × ρ}
    (hparse : ∀ {r r' b st}, parse r b = (some st, r') → ¬ Paused st) (r : ρ) (w : σ) :
    Retries parse r w (receive parse r w) :=
  (receiveFrom_retries hparse r w fun h => absurd rfl h).1 rfl

end Http

/-! ## Sockets with any outcomes -/

/-- The outcomes of the reads to come; one that brings more than was asked for is split. -/
structure Script where
  outcomes : List (Status × Bytes)

namespace Script

def receiveRaw (n : Nat) : Script → Option (Status × Bytes × Script)
  | ⟨[]⟩ => none
  | ⟨(st, b) :: rest⟩ =>
    if st ≠ .success then some (st, [], ⟨rest⟩)
    else if b.length ≤ n then some (.success, b, ⟨rest⟩)
    else some (.success, b.take n, ⟨(.success, b.drop n) :: rest⟩)

def bytesOf (o : Status × Bytes) : Bytes := if o.1 = .success then o.2 else []

/-- What one read makes of the script. -/
theorem receiveRaw_spec {n : Nat} {w w' : Script} {st : Status} {b : Bytes} (h : receiveRaw n w = some (st, b, w')) :
    b.length ≤ n ∧ (st ≠ .success → b = []) ∧ w.outcomes.flatMap bytesOf = b ++ w'.outcomes.flatMap bytesOf ∧
      (0 < n → w'.outcomes.length + (w'.outcomes.flatMap bytesOf).length <
        w.outcomes.length + (w.outcomes.flatMap bytesOf).length) := by
  rcases w with ⟨_ | ⟨⟨st₁, b₁⟩, rest⟩⟩
  · cases h
  · rw [receiveRaw] at h
    by_cases hst : st₁ = .success
    · subst hst
      simp only [ne_eq, not_true_eq_false, if_false] at h
      by_cases hlen : b₁.length ≤ n
      · rw [if_pos hlen] at h
        cases h
        refine ⟨hlen, fun h => absurd rfl h, rfl, fun _ => ?_⟩
        simp [bytesOf]
        omega
      · rw [if_neg hlen] at h
        cases h
        refine ⟨List.length_take_le _ _, fun h => absurd rfl h, ?_, fun hn => ?_⟩
        · simp [bytesOf, ← List.append_assoc]
        · simp [bytesOf]
          omega
    · rw [if_pos hst] at h
      cases h
      refine ⟨Nat.zero_le _, fun _ => rfl, ?_, fun _ => ?_⟩
      · simp [bytesOf, hst]
      · simp [bytesOf, hst]

instance : Receiver Script where
  receiveRaw := receiveRaw
  pending := fun w => w.outcomes.flatMap bytesOf
  left := fun w => w.outcomes.length + (w.outcomes.flatMap bytesOf).length
  raw_left := fun h hn => (receiveRaw_spec h).2.2.2 hn
  raw_length := fun h => (receiveRaw_spec h).1
  raw_fails := fun h => (receiveRaw_spec h).2.1
  raw_pending := fun h => (receiveRaw_spec h).2.2.1

end Script

/-- `::recv` answers 0 for a closed connection only. -/
theorem TcpReader.neverEmpty : NeverEmpty TcpReader := by
  intro n w b w' hn h
  have hrecv : ∀ {count rest}, count ≠ 0 → w.recv n count rest = some (.success, b, w') → b ≠ [] := by
    intro count rest hcount hrecv
    rcases recv_spec hrecv with ⟨_, _, _, _, ⟨_, hb⟩ | ⟨hst, _⟩⟩
    · exact hb
    · cases hst
  have hfrom : ∀ s, w.receiveRawFrom n s = some (.success, b, w') → b ≠ [] := by
    intro s
    induction s with
    | nil => exact hrecv (by omega)
    | cons r rest ih =>
      intro hs
      cases r with
      | received k => exact hrecv (by omega) hs
      | eintr => exact ih hs
      | ewouldblock => cases hblock : w.isBlocking <;> simp [receiveRawFrom, hblock] at hs
      | _ => simp [receiveRawFrom] at hs
  exact hfrom _ h

/-- On a socket whose reads may have any outcomes: a call of one of the receive functions
    that answers WouldBlock or Timeout has taken no byte, and a packet is as it was before.
    So is a request or a response where the reads that succeed bring bytes, or where
    `parse` of no bytes does nothing to it, as to one that has received nothing yet.
    NotEnoughData is answered only where the socket itself has answered it, before any
    byte, and the loop's status is never tested unassigned. -/
theorem receive_retry {σ : Type} [Receiver σ] (maxReceiveSize : Nat) (p : Packet) (g : WebFrame) (request : HttpRequest)
    (response : HttpResponse) (w : σ) :
    (∀ st p' w', p.receive maxReceiveSize w = some (st, p', w') → Paused st → pending w' = pending w ∧ p' = p) ∧
    (∀ st g' w', g.receive maxReceiveSize w = some (st, g', w') → Paused st → pending w' = pending w) ∧
    Http.Retries HttpRequest.parse request w (Http.receive HttpRequest.parse request w) ∧
    Http.Retries HttpResponse.parse response w (Http.receive HttpResponse.parse response w) := by
  refine ⟨?_, ?_, Http.receive_retries HttpRequest.parse_status request w,
    Http.receive_retries HttpResponse.parse_status response w⟩
  · intro st p' w' h hst
    obtain ⟨t, ht, hkept⟩ := Packet.receive_takes maxReceiveSize p w st p' w' h
    obtain ⟨rfl, hp⟩ := hkept hst
    exact ⟨ht.symm, hp⟩
  · intro st g' w' h hst
    obtain ⟨t, ht, _, hkept⟩ := WebFrame.receive_takes maxReceiveSize g w st g' w' h
    rw [hkept hst] at ht
    exact ht.symm

/-- A non-blocking socket on which nothing has arrived. -/
theorem receive_retry_sample :
    let w : TcpReader := ⟨false, bytes "GET / HTTP/1.1\r\n\r\n", [.ewouldblock, .received 3]⟩
    let x := Http.receive HttpRequest.parse .fresh w
    x.1 = .returned .wouldBlock ∧ x.2.1 = .fresh ∧ pending x.2.2 = pending w := by
  intro w x
  have hx : x.1 = .returned .wouldBlock := by
    have hraw : receiveRaw recvChunkSize w = some (.wouldBlock, [], { w with schedule := [.received 3] }) := rfl
    exact congrArg Prod.fst (Http.receiveFrom_first hraw (by decide) rfl)
  obtain ⟨_, _, hrequest, _⟩ := receive_retry 0 .fresh (.new true .text) .fresh .fresh w
  exact ⟨hx, hrequest.object _ hx (.inl rfl) (.inl TcpReader.neverEmpty), hrequest.taken _ hx (.inl rfl)⟩

/-- A request that was given a body with a header in it, to be received on. -/
def headedRequest : HttpRequest :=
  { HttpRequest.fresh with body := bytes "POST / HTTP/1.1\r\nContent-Length: 9\r\n\r\n" }

/-- A read that brings no bytes, and a socket that answers NotEnoughData. -/
theorem receive_retry_not :
    let x := Http.receive HttpRequest.parse headedRequest (⟨[(.success, []), (.wouldBlock, [])]⟩ : Script)
    let y := Http.receive HttpRequest.parse .fresh (⟨[(.notEnoughData, [])]⟩ : Script)
    (x.1 = .returned .wouldBlock ∧ x.2.1 ≠ headedRequest) ∧ y.1 = .returned .notEnoughData := by
  intro x y
  constructor
  · rcases hparse : HttpRequest.parse headedRequest [] with ⟨st, r⟩
    have hst : (HttpRequest.parse headedRequest []).1 = some .notEnoughData := by decide +kernel
    have hended : (HttpRequest.parse headedRequest []).2.headerEnded = true := by decide +kernel
    rw [hparse] at hst hended
    obtain rfl : st = some .notEnoughData := hst
    have hfirst : receiveRaw recvChunkSize (⟨[(.success, []), (.wouldBlock, [])]⟩ : Script) =
      some (.success, [], ⟨[(.wouldBlock, [])]⟩) := rfl
    have hsecond : receiveRaw recvChunkSize (⟨[(.wouldBlock, [])]⟩ : Script) = some (.wouldBlock, [], ⟨[]⟩) := rfl
    have hx : x = (.returned .wouldBlock, r, ⟨[]⟩) :=
      (Http.receiveFrom_more hfirst hparse).trans (Http.receiveFrom_first hsecond (by decide) rfl)
    rw [hx]
    refine ⟨rfl, fun heq => ?_⟩
    have hr : r = headedRequest := heq
    rw [hr] at hended
    cases hended
  · have hraw : receiveRaw recvChunkSize (⟨[(.notEnoughData, [])]⟩ : Script) = some (.notEnoughData, [], ⟨[]⟩) := rfl
    exact congrArg Prod.fst (Http.receiveFrom_first hraw (by decide) rfl)

end Frnetlib
