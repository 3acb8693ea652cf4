/-
  Frnetlib.Net.Stream — messages over a reliable FIFO byte stream.

  What the loops of `Net.Socket` do when the socket's only failure is WouldBlock:
  `receive_all` takes all it was asked for or, before the first byte, answers
  WouldBlock (`receiveAll_fifo`); `receiveRest` takes all or waits (`receiveRest_fifo`);
  the send loop puts the whole message on the wire, or as far as it got
  (`sendEach_fifo`).

  A receiving function delivers messages with given texts (`Delivers`) when a call with
  a whole text pending either takes exactly that text and returns its message, or
  answers WouldBlock and takes nothing, and when a call with less pending either has
  not returned or answers WouldBlock and takes nothing. Then calling it over and over
  gives the messages of the stream, in order, each once, and takes exactly their texts
  and with all of them pending, enough calls give them all (`calls_deliver`).
-/

import Frnetlib.Net.Socket
import Mathlib.Data.List.Forall2
import Mathlib.Data.List.Infix

namespace Frnetlib.Socket

open Base Receiver FifoReceiver

/-! ## The loops -/

section Receive

variable {σ : Type} [FifoReceiver σ]

/-- The loop with `remaining` bytes missing: it takes them, or it waits for more; the
    WouldBlock is only answered before the first byte. -/
theorem receiveAllFrom_fifo {size : Nat} (remaining : Nat) (w : σ) (hle : remaining ≤ size) :
    (∃ w', receiveAllFrom size remaining w = some (.success, (pending w).take remaining, w') ∧
      remaining ≤ (pending w).length ∧ pending w' = (pending w).drop remaining ∧ left w' ≤ left w) ∨
    (∃ w', receiveAllFrom size remaining w = some (.wouldBlock, [], w') ∧ remaining = size ∧
      pending w' = pending w ∧ left w' < left w) ∨
    (receiveAllFrom size remaining w = none ∧ (pending w).length < remaining) := by
  generalize hm : left w = m
  induction m using Nat.strongRecOn generalizing remaining w with
  | ind m ih =>
    rw [receiveAllFrom]
    by_cases hr : remaining = 0
    · rw [dif_pos hr]
      exact .inl ⟨w, by simp [hr], by omega, by simp [hr], by omega⟩
    · rw [dif_neg hr]
      split
      · rename_i hnone
        have hempty : pending w = [] := by
          by_contra hne
          exact raw_returns (by omega) hne hnone
        exact .inr (.inr ⟨rfl, by rw [hempty]; exact Nat.pos_of_ne_zero hr⟩)
      · rename_i status b w₁ hraw
        have hlt := raw_left hraw (by omega)
        have hlen := raw_length hraw
        have hpend := raw_pending hraw
        -- The loop goes on with what is missing after `b`.
        have hagain :
            (∃ w', (receiveAllFrom size (remaining - b.length) w₁).map (prepend b) =
                some (.success, (pending w).take remaining, w') ∧
              remaining ≤ (pending w).length ∧ pending w' = (pending w).drop remaining ∧ left w' ≤ m) ∨
            (∃ w', (receiveAllFrom size (remaining - b.length) w₁).map (prepend b) =
                some (.wouldBlock, [], w') ∧ remaining = size ∧ pending w' = pending w ∧ left w' < m) ∨
            ((receiveAllFrom size (remaining - b.length) w₁).map (prepend b) = none ∧
              (pending w).length < remaining) := by
          obtain ⟨w', hw, hle', hp, hl⟩ | ⟨w', hw, hsize, hp, hl⟩ | ⟨hw, hlt'⟩ :=
            ih (left w₁) (by omega) (remaining - b.length) w₁ (by omega) rfl
          · refine .inl ⟨w', ?_, ?_, ?_, by omega⟩
            · rw [hw, hpend, List.take_append, List.take_of_length_le hlen]
              rfl
            · rw [hpend, List.length_append]; omega
            · rw [hp, hpend, List.drop_append, List.drop_of_length_le hlen, List.nil_append]
          · have hb : b = [] := List.eq_nil_of_length_eq_zero (by omega)
            subst hb
            exact .inr (.inl ⟨w', by rw [hw]; rfl, hsize, hp.trans hpend.symm, by omega⟩)
          · refine .inr (.inr ⟨by rw [hw]; rfl, ?_⟩)
            rw [hpend, List.length_append]; omega
        rcases raw_status hraw (by omega) with rfl | rfl
        · exact hagain
        · have hb : b = [] := raw_fails hraw (by decide)
          subst hb
          by_cases hsize : size = remaining
          · refine .inr (.inl ⟨w₁, ?_, hsize.symm, hpend.symm, by omega⟩)
            simp [hsize]
          · simpa [hsize] using hagain

theorem receiveAll_fifo (n : Nat) (w : σ) :
    (∃ w', receiveAll n w = some (.success, (pending w).take n, w') ∧ n ≤ (pending w).length ∧
      pending w' = (pending w).drop n ∧ left w' ≤ left w) ∨
    (∃ w', receiveAll n w = some (.wouldBlock, [], w') ∧ pending w' = pending w ∧ left w' < left w) ∨
    (receiveAll n w = none ∧ (pending w).length < n) := by
  rcases receiveAllFrom_fifo n w (Nat.le_refl n) with h | ⟨w', hw, _, hp, hl⟩ | h
  · exact .inl h
  · exact .inr (.inl ⟨w', hw, hp, hl⟩)
  · exact .inr (.inr h)

theorem receiveRest_again {n : Nat} {w w' : σ} {b : Bytes} (h : receiveAll n w = some (.wouldBlock, b, w')) :
    receiveRest n w = receiveRest n w' := by
  rw [receiveRest]
  split
  · rename_i h'; rw [h] at h'; cases h'
  · rename_i h'; rw [h] at h'; cases h'; exact dif_pos rfl

theorem receiveRest_done {n : Nat} {w w' : σ} {b : Bytes} (h : receiveAll n w = some (.success, b, w')) :
    receiveRest n w = some (.success, b, w') := by
  rw [receiveRest]
  split
  · rename_i h'; rw [h] at h'; cases h'
  · rename_i h'; rw [h] at h'; cases h'; rfl

theorem receiveRest_none {n : Nat} {w : σ} (h : receiveAll n w = none) : receiveRest n w = none := by
  rw [receiveRest]
  split
  · rfl
  · rename_i h'; rw [h] at h'; cases h'

/-- Once a message has begun, the loop takes all it was asked for, or it waits. -/
theorem receiveRest_fifo (n : Nat) (w : σ) :
    (∃ w', receiveRest n w = some (.success, (pending w).take n, w') ∧ n ≤ (pending w).length ∧
      pending w' = (pending w).drop n ∧ left w' ≤ left w) ∨
    (receiveRest n w = none ∧ (pending w).length < n) := by
  generalize hm : left w = m
  induction m using Nat.strongRecOn generalizing w with
  | ind m ih =>
    rcases receiveAll_fifo n w with ⟨w', hw, hle, hp, hl⟩ | ⟨w', hw, hp, hl⟩ | ⟨hw, hlt⟩
    · exact .inl ⟨w', receiveRest_done hw, hle, hp, by omega⟩
    · rw [receiveRest_again hw, ← hp]
      rcases ih (left w') (by omega) w' rfl with ⟨w₂, hw₂, hle, hp₂, hl₂⟩ | h
      · exact .inl ⟨w₂, hw₂, hle, hp₂, by omega⟩
      · exact .inr h
    · exact .inr ⟨receiveRest_none hw, hlt⟩

end Receive

section Send

/-- Whatever comes of it, the wire has a part of the buffer from `sent` on, all of it after Success. -/
theorem sendLoop_part {τ : Type} [Sender τ] (data : Bytes) {sent : Nat} (w : τ) (hle : sent ≤ data.length) :
    ∃ k, sent ≤ k ∧ k ≤ data.length ∧ Sender.out (sendLoop data sent w).2 = Sender.out w ++ (data.take k).drop sent ∧
      ((sendLoop data sent w).1 = some .success → k = data.length) := by
  generalize hm : Sender.left w = m
  induction m using Nat.strongRecOn generalizing sent w with
  | ind m ih =>
    rw [sendLoop]
    split
    · rename_i w' hraw
      obtain ⟨k, hk, hkd, hout, _⟩ := Sender.raw_out hraw hle
      exact ⟨k, hk, hkd, hout, fun h => by cases h⟩
    · rename_i st sent' w' hraw
      obtain ⟨k, hk, hkd, hout, hst⟩ := Sender.raw_out hraw hle
      obtain ⟨rfl, hdone⟩ := hst st sent' rfl
      by_cases hblock : st = .wouldBlock
      · subst hblock
        have hlt := Sender.raw_left hraw
        obtain ⟨k, hk', hkd', hout', hend⟩ := ih _ (by omega) w' hkd rfl
        refine ⟨k, by omega, hkd', ?_, hend⟩
        change Sender.out (sendLoop data sent' w').2 = _
        rw [hout', hout, List.append_assoc, slice_join hk hk' hkd]
      · rw [dif_neg hblock]
        exact ⟨sent', hk, hkd, hout, fun h => hdone (Option.some.inj h)⟩

variable {τ : Type} [FifoSender τ]

theorem sendLoop_status (data : Bytes) (sent : Nat) (w : τ) :
    (sendLoop data sent w).1 = none ∨ (sendLoop data sent w).1 = some .success := by
  generalize hm : Sender.left w = m
  induction m using Nat.strongRecOn generalizing sent w with
  | ind m ih =>
    rw [sendLoop]
    split
    · exact .inl rfl
    · rename_i st sent' w' hraw
      rcases FifoSender.raw_status hraw with rfl | rfl
      · exact .inr rfl
      · have hlt := Sender.raw_left hraw
        exact ih _ (by omega) sent' w' rfl

theorem sendLoop_fifo (data : Bytes) {sent : Nat} (w : τ) (hle : sent ≤ data.length) :
    ∃ k, sent ≤ k ∧ k ≤ data.length ∧ Sender.out (sendLoop data sent w).2 = Sender.out w ++ (data.take k).drop sent ∧
      ((sendLoop data sent w).1 = none ∨ ((sendLoop data sent w).1 = some .success ∧ k = data.length)) := by
  obtain ⟨k, hk, hkd, hout, hdone⟩ := sendLoop_part data w hle
  refine ⟨k, hk, hkd, hout, ?_⟩
  rcases sendLoop_status data sent w with hnone | hsuccess
  · exact .inl hnone
  · exact .inr ⟨hsuccess, hdone hsuccess⟩

/-- Messages sent one after the other: the wire has all those whose call has returned,
    every such call answered Success, and of the next one it has a first part. -/
theorem sendEach_fifo (texts : List Bytes) (w : τ) :
    ∃ s, s <+: texts.flatten ∧ Sender.out (sendEach texts w).2 = Sender.out w ++ s ∧
      (∀ st ∈ (sendEach texts w).1, st = .success) ∧ (sendEach texts w).1.length ≤ texts.length ∧
      (texts.take (sendEach texts w).1.length).flatten <+: s := by
  induction texts generalizing w with
  | nil => exact ⟨[], List.prefix_rfl, by simp [sendEach], by simp [sendEach], by simp [sendEach], by simp⟩
  | cons data rest ih =>
    obtain ⟨k, _, hkd, hout, hst⟩ := sendLoop_fifo data w (Nat.zero_le _)
    rw [List.drop_zero] at hout
    rw [sendEach]
    rcases hloop : sendLoop data 0 w with ⟨r, w'⟩
    rw [hloop] at hout hst
    rcases hst with hr | ⟨hr, hk⟩
    · subst hr
      refine ⟨data.take k, ?_, hout, by simp, by simp, by simp⟩
      exact (List.take_prefix _ _).trans (List.prefix_append _ _)
    · subst hr
      obtain ⟨s, hs, hout', hall, hlen, hdone⟩ := ih w'
      rw [hk, List.take_length] at hout
      refine ⟨data ++ s, (List.prefix_append_right_inj _).mpr hs, ?_, ?_, ?_, ?_⟩
      · change Sender.out (sendEach rest w').2 = _
        rw [hout', hout, List.append_assoc]
      · intro st hst
        rcases List.mem_cons.mp hst with rfl | hst
        · rfl
        · exact hall st hst
      · simpa using hlen
      · simpa using hdone

end Send

/-! ## Messages delivered -/

/-- A strict first part of a text that reaches beyond a header. -/
theorem cut_after {s header rest : Bytes} (h : s <+: header ++ rest) (hne : s ≠ header ++ rest)
    (hle : header.length ≤ s.length) : ∃ t, s = header ++ t ∧ t <+: rest ∧ t.length < rest.length := by
  obtain ⟨t, rfl⟩ := List.prefix_of_prefix_length_le (List.prefix_append header rest) h hle
  have ht : t <+: rest := (List.prefix_append_right_inj _).mp h
  refine ⟨t, rfl, ht, Nat.lt_of_le_of_ne ht.length_le fun hlen => hne ?_⟩
  rw [ht.eq_of_length hlen]

section Calls

variable {σ β : Type}

/-- `n` calls in a row; a call that does not return is the last. -/
def calls (receive : σ → Option (Status × β × σ)) : Nat → σ → List (Status × β) × σ
  | 0, w => ([], w)
  | n + 1, w =>
    match receive w with
    | none => ([], w)
    | some (st, b, w') =>
      let r := calls receive n w'
      ((st, b) :: r.1, r.2)

theorem forall₂_map {α : Type} {f : α → β} {as : List α} {bs : List β} (h : List.Forall₂ (fun a b => b = f a) as bs) :
    bs = as.map f := by
  induction h with
  | nil => rfl
  | cons hb _ ih => rw [hb, ih, List.map_cons]

/-- What the calls that answered Success received. -/
def received (rs : List (Status × β)) : List β := rs.filterMap fun r => if r.1 = .success then some r.2 else none

variable {receive : σ → Option (Status × β × σ)}

theorem calls_none {n : Nat} {w : σ} (h : receive w = none) : calls receive n w = ([], w) := by
  cases n with
  | zero => rfl
  | succ n => rw [calls, h]

theorem calls_succ {n : Nat} {w w' : σ} {st : Status} {b : β} (h : receive w = some (st, b, w')) :
    calls receive (n + 1) w = ((st, b) :: (calls receive n w').1, (calls receive n w').2) := by
  rw [calls, h]

end Calls

section Deliver

variable {σ α β : Type} [Receiver σ]

/-- A call of a receiving function that took nothing. -/
def Retried (r : Option (Status × β × σ)) (w : σ) : Prop :=
  ∃ b w', r = some (.wouldBlock, b, w') ∧ pending w' = pending w ∧ left w' < left w

structure Delivers (receive : σ → Option (Status × β × σ)) (Good : α → Prop) (text : α → Bytes)
    (Is : α → β → Prop) : Prop where
  whole : ∀ {a rest} {w : σ}, Good a → pending w = text a ++ rest → Retried (receive w) w ∨
    ∃ b w', receive w = some (.success, b, w') ∧ Is a b ∧ pending w' = rest ∧ left w' ≤ left w
  starved : ∀ {w : σ}, (pending w = [] ∨ ∃ a, Good a ∧ pending w <+: text a ∧ pending w ≠ text a) →
    receive w = none ∨ Retried (receive w) w

/-- Calls that led from `w` to `w'` received the first `k` messages and took their
    texts. -/
structure Taken (text : α → Bytes) (Is : α → β → Prop) (as : List α) (k : Nat) (w : σ)
    (rs : List (Status × β)) (w' : σ) : Prop where
  le : k ≤ as.length
  messages : List.Forall₂ Is (as.take k) (received rs)
  status : ∀ r ∈ rs, r.1 = .success ∨ r.1 = .wouldBlock
  took : pending w = (as.take k).flatMap text ++ pending w'

variable {receive : σ → Option (Status × β × σ)} {Good : α → Prop} {text : α → Bytes} {Is : α → β → Prop}
  {as : List α}

/-- Messages of another kind, each sent as one of these. -/
theorem Delivers.comap {γ : Type} (h : Delivers receive Good text Is) (f : γ → α) {Good' : γ → Prop} {Is' : γ → β → Prop}
    (hgood : ∀ c, Good' c → Good (f c)) (his : ∀ c b, Good' c → Is (f c) b → Is' c b) :
    Delivers receive Good' (fun c => text (f c)) Is' := by
  refine ⟨fun {c rest w} hc hw => ?_, fun {w} hw => ?_⟩
  · rcases h.whole (hgood c hc) hw with hr | ⟨b, w', hr, hb, hrest⟩
    · exact .inl hr
    · exact .inr ⟨b, w', hr, his c b hc hb, hrest⟩
  · rcases hw with hempty | ⟨c, hc, hpre, hne⟩
    · exact h.starved (.inl hempty)
    · exact h.starved (.inr ⟨f c, hgood c hc, hpre, hne⟩)

theorem Taken.nothing (w : σ) : Taken text Is as 0 w [] w :=
  ⟨Nat.zero_le _, by simp [received], by simp, by simp⟩

theorem Taken.retry {k : Nat} {w w₁ w' : σ} {b : β} {rs : List (Status × β)} (hp : pending w₁ = pending w)
    (h : Taken text Is as k w₁ rs w') : Taken text Is as k w ((.wouldBlock, b) :: rs) w' := by
  refine ⟨h.le, h.messages, ?_, hp ▸ h.took⟩
  intro r hr
  rcases List.mem_cons.mp hr with rfl | hr
  · exact .inr rfl
  · exact h.status r hr

theorem Taken.next {k : Nat} {a : α} {w w₁ w' : σ} {b : β} {rs : List (Status × β)} (hb : Is a b)
    (hp : pending w = text a ++ pending w₁) (h : Taken text Is as k w₁ rs w') :
    Taken text Is (a :: as) (k + 1) w ((.success, b) :: rs) w' := by
  refine ⟨Nat.succ_le_succ h.le, .cons hb h.messages, ?_, ?_⟩
  · intro r hr
    rcases List.mem_cons.mp hr with rfl | hr
    · exact .inl rfl
    · exact h.status r hr
  · rw [hp, h.took, List.take_succ_cons, List.flatMap_cons, List.append_assoc]

/-! ## Reading on

  Past its first bytes a receiving function waits for the rest: it takes all of a text
  that is there and has not returned while some of it is missing. -/

structure Awaits (x : σ → Option (Status × β × σ)) (s : Bytes) (b : β) : Prop where
  whole : ∀ {w rest}, pending w = s ++ rest →
    ∃ w', x w = some (.success, b, w') ∧ pending w' = rest ∧ left w' ≤ left w
  cut : ∀ {w}, pending w <+: s → pending w ≠ s → x w = none

theorem Awaits.pure (b : β) : Awaits (fun w : σ => some (.success, b, w)) [] b := by
  refine ⟨fun {w rest} hw => ⟨w, rfl, hw, Nat.le_refl _⟩, fun {w} hw hne => ?_⟩
  exact absurd (List.prefix_nil.mp hw) hne

theorem Awaits.map {γ : Type} {x : σ → Option (Status × γ × σ)} {s : Bytes} {a : γ} (h : Awaits x s a) (f : γ → β) :
    Awaits (fun w => (x w).map fun r => (r.1, f r.2.1, r.2.2)) s (f a) := by
  refine ⟨fun {w rest} hw => ?_, fun {w} hw hne => ?_⟩
  · obtain ⟨w', hw', hp, hl⟩ := h.whole hw
    exact ⟨w', by rw [hw']; rfl, hp, hl⟩
  · rw [h.cut hw hne]; rfl

theorem Awaits.andThen {γ : Type} {x : σ → Option (Status × γ × σ)} {fail : γ → β}
    {f : γ → σ → Option (Status × β × σ)} {s t : Bytes} {a : γ} {b : β} (hx : Awaits x s a) (hf : Awaits (f a) t b) :
    Awaits (Socket.andThen x fail f) (s ++ t) b := by
  refine ⟨fun {w rest} hw => ?_, fun {w} hw hne => ?_⟩
  · rw [List.append_assoc] at hw
    obtain ⟨w₁, hw₁, hp₁, hl₁⟩ := hx.whole hw
    obtain ⟨w₂, hw₂, hp₂, hl₂⟩ := hf.whole hp₁
    refine ⟨w₂, ?_, hp₂, Nat.le_trans hl₂ hl₁⟩
    rw [Socket.andThen, hw₁]
    exact hw₂
  · by_cases hle : s.length ≤ (pending w).length
    · obtain ⟨d, hd, hdt, hlt⟩ := cut_after hw hne hle
      obtain ⟨w₁, hw₁, hp₁, _⟩ := hx.whole hd
      rw [Socket.andThen, hw₁]
      refine hf.cut (hp₁ ▸ hdt) fun heq => ?_
      rw [← hp₁, heq] at hlt
      exact Nat.lt_irrefl _ hlt
    · have hs : pending w <+: s :=
        List.prefix_of_prefix_length_le hw (List.prefix_append s t) (by omega)
      rw [Socket.andThen, hx.cut hs fun heq => hle (by rw [heq])]

/-- Whatever is pending of the stream of the messages `as`, the calls receive the first
    ones, in order, and take exactly their texts; if all of the stream is pending,
    enough calls receive them all. -/
theorem calls_deliver (h : Delivers receive Good text Is) (as : List α) (has : ∀ a ∈ as, Good a) (n : Nat) (w : σ)
    (hw : pending w <+: as.flatMap text) :
    ∃ k, Taken text Is as k w (calls receive n w).1 (calls receive n w).2 ∧
      (pending w = as.flatMap text → left w + as.length ≤ n → k = as.length) := by
  induction n generalizing as w with
  | zero => exact ⟨0, Taken.nothing w, fun _ hn => by omega⟩
  | succ n ih =>
    have hretry : Retried (receive w) w →
        ∃ k, Taken text Is as k w (calls receive (n + 1) w).1 (calls receive (n + 1) w).2 ∧
          (pending w = as.flatMap text → left w + as.length ≤ n + 1 → k = as.length) := by
      intro hretried
      obtain ⟨b, w', hr, hp, hl⟩ := hretried
      obtain ⟨k, hk, hall⟩ := ih as has w' (hp ▸ hw)
      rw [calls_succ hr]
      exact ⟨k, hk.retry hp, fun hpw hn => hall (hp.trans hpw) (by omega)⟩
    cases as with
    | nil =>
      have hempty : pending w = [] := List.prefix_nil.mp hw
      rcases h.starved (.inl hempty) with hr | hr
      · rw [calls_none hr]
        exact ⟨0, Taken.nothing w, fun _ _ => rfl⟩
      · exact hretry hr
    | cons a as =>
      rw [List.flatMap_cons] at hw
      have ha := has a List.mem_cons_self
      by_cases hwhole : text a <+: pending w
      · obtain ⟨rest, hrest⟩ := hwhole
        rcases h.whole ha hrest.symm with hr | ⟨b, w', hr, hb, hp, hl⟩
        · exact hretry hr
        · have hrest' : rest <+: as.flatMap text := by
            rw [← hrest] at hw
            exact (List.prefix_append_right_inj _).mp hw
          obtain ⟨k, hk, hall⟩ := ih as (fun x hx => has x (List.mem_cons_of_mem _ hx)) w' (hp ▸ hrest')
          rw [calls_succ hr]
          refine ⟨k + 1, hk.next hb (hp ▸ hrest.symm), fun hpw hn => ?_⟩
          rw [← hrest, List.flatMap_cons, List.append_cancel_left_eq] at hpw
          rw [List.length_cons] at hn ⊢
          rw [hall (hp.trans hpw) (by omega)]
      · have hshort : pending w <+: text a := by
          rcases List.prefix_or_prefix_of_prefix hw (List.prefix_append (text a) _) with hs | hs
          · exact hs
          · exact absurd hs hwhole
        have hne : pending w ≠ text a := fun heq => hwhole (heq ▸ List.prefix_rfl)
        rcases h.starved (.inr ⟨a, ha, hshort, hne⟩) with hr | hr
        · rw [calls_none hr]
          refine ⟨0, Taken.nothing w, fun hpw _ => absurd ?_ hwhole⟩
          rw [hpw, List.flatMap_cons]
          exact List.prefix_append _ _
        · exact hretry hr

end Deliver

/-! ## Messages with a header -/

section Header

variable {σ α β : Type} [FifoReceiver σ]

theorem Awaits.rest (s : Bytes) {n : Nat} (hn : s.length = n) : Awaits (σ := σ) (receiveRest n) s s := by
  subst hn
  refine ⟨fun {w rest} hw => ?_, fun {w} hw hne => ?_⟩
  · rcases receiveRest_fifo s.length w with ⟨w', hw', _, hp, hl⟩ | ⟨_, hlt⟩
    · rw [hw, List.take_left' rfl] at hw'
      rw [hw, List.drop_left' rfl] at hp
      exact ⟨w', hw', hp, hl⟩
    · rw [hw, List.length_append] at hlt; omega
  · rcases receiveRest_fifo s.length w with ⟨_, _, hle, _⟩ | ⟨hnone, _⟩
    · exact absurd (hw.eq_of_length (Nat.le_antisymm hw.length_le hle)) hne
    · exact hnone

theorem andThen_header {n : Nat} {fail : Bytes → β} {body : Bytes → σ → Option (Status × β × σ)} {w w' : σ}
    {header rest : Bytes} (hn : header.length = n) (hw : pending w = header ++ rest)
    (hw' : receiveAll n w = some (.success, (pending w).take n, w')) :
    Socket.andThen (receiveAll n) fail body w = body header w' := by
  rw [Socket.andThen, hw', hw, List.take_left' hn]
  rfl

/-- A function that reads a header of `n` bytes, retried from the start as long as none
    of it is there, and then reads on, delivers its messages. -/
theorem Delivers.of_awaits {n : Nat} (hn : 0 < n) {fail : Bytes → β} {body : Bytes → σ → Option (Status × β × σ)}
    {Good : α → Prop} {text : α → Bytes} {Is : α → β → Prop}
    (h : ∀ a, Good a → ∃ header rest b, text a = header ++ rest ∧ header.length = n ∧ Is a b ∧
      Awaits (body header) rest b) : Delivers (Socket.andThen (receiveAll n) fail body) Good text Is := by
  have hretry : ∀ {w w' : σ}, receiveAll n w = some (.wouldBlock, [], w') → pending w' = pending w →
      left w' < left w → Retried (Socket.andThen (receiveAll n) fail body w) w := by
    intro w w' hw hp hl
    refine ⟨fail [], w', ?_, hp, hl⟩
    rw [Socket.andThen, hw]
    rfl
  refine ⟨fun {a rest w} ha hw => ?_, fun {w} hw => ?_⟩
  · obtain ⟨header, body', b, htext, hlen, hb, hawait⟩ := h a ha
    rw [htext, List.append_assoc] at hw
    rcases receiveAll_fifo n w with ⟨w₁, hw₁, _, hp₁, hl₁⟩ | ⟨w₁, hw₁, hp₁, hl₁⟩ | ⟨_, hlt⟩
    · rw [hw, List.drop_left' hlen] at hp₁
      obtain ⟨w₂, hw₂, hp₂, hl₂⟩ := hawait.whole hp₁
      refine .inr ⟨b, w₂, ?_, hb, hp₂, by omega⟩
      rw [andThen_header hlen hw hw₁, hw₂]
    · exact .inl (hretry hw₁ hp₁ hl₁)
    · rw [hw, List.length_append] at hlt; omega
  · rcases receiveAll_fifo n w with ⟨w₁, hw₁, hle, hp₁, _⟩ | ⟨w₁, hw₁, hp₁, hl₁⟩ | ⟨hnone, _⟩
    · rcases hw with hempty | ⟨a, ha, hpre, hne⟩
      · rw [hempty, List.length_nil] at hle; omega
      · obtain ⟨header, body', b, htext, hlen, _, hawait⟩ := h a ha
        rw [htext] at hpre hne
        obtain ⟨t, ht, hpre', hlt⟩ := cut_after hpre hne (by omega)
        rw [ht, List.drop_left' hlen] at hp₁
        refine .inl ?_
        rw [andThen_header hlen ht hw₁]
        refine hawait.cut (hp₁ ▸ hpre') fun heq => ?_
        rw [← hp₁, heq] at hlt
        exact Nat.lt_irrefl _ hlt
    · exact .inr (hretry hw₁ hp₁ hl₁)
    · refine .inl ?_
      rw [Socket.andThen, hnone]

end Header

/-! ## Between two ends -/

/-- What the receiving end `rx` will be given is, as far as it goes, what the sending end
    put on the wire between `tx` and `tx'`. -/
def Connected {σ τ : Type} [Receiver σ] [Sender τ] (tx tx' : τ) (rx : σ) : Prop :=
  ∃ s, Sender.out tx' = Sender.out tx ++ s ∧ pending rx <+: s

/-- Messages sent, as far as the sends have come, and received, as far as the bytes have
    come. -/
theorem stream_faithful {σ τ α β : Type} [Receiver σ] [FifoSender τ] {receive : σ → Option (Status × β × σ)}
    {Good : α → Prop} {text : α → Bytes} {Is : α → β → Prop} (h : Delivers receive Good text Is) {as : List α}
    (has : ∀ a ∈ as, Good a) {tx : τ} {rx : σ} (hconn : Connected tx (sendEach (as.map text) tx).2 rx) (n : Nat) :
    (∀ st ∈ (sendEach (as.map text) tx).1, st = .success) ∧
    ∃ k, Taken text Is as k rx (calls receive n rx).1 (calls receive n rx).2 ∧
      ((sendEach (as.map text) tx).1.length = as.length →
        Sender.out (sendEach (as.map text) tx).2 = Sender.out tx ++ pending rx →
        left rx + as.length ≤ n → k = as.length) := by
  obtain ⟨s, hs, hout, hsucc, _, hdone⟩ := sendEach_fifo (as.map text) tx
  obtain ⟨s', hout', hpre⟩ := hconn
  obtain rfl : s' = s := List.append_cancel_left (hout'.symm.trans hout)
  rw [← List.flatMap_def] at hs
  obtain ⟨k, htaken, hall⟩ := calls_deliver h as has n rx (hpre.trans hs)
  refine ⟨hsucc, k, htaken, fun hlen hwire hn => ?_⟩
  rw [hlen, List.take_of_length_le (by simp), ← List.flatMap_def] at hdone
  have hstream : pending rx = s' := List.append_cancel_left (hwire.symm.trans hout)
  exact hall (hstream.trans (hs.eq_of_length (Nat.le_antisymm hs.length_le hdone.length_le))) hn

end Frnetlib.Socket
