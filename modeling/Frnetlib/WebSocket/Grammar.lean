/-
  Frnetlib.WebSocket.Grammar — what `WebFrame::receive` (`WebFrame.cpp`) makes of any bytes.

  A frame has more than one spelling: the reserved bits may be anything, its length may be
  in any of the three forms that hold it, and the key of a masked one is any. The bytes that
  are accepted are exactly the spellings of the frame returned, of the other side's masking
  and within the limit; the two ways to be refused are told by the header, and so is the
  length that no string can have (`frame_grammar`). So it is for every stream and every way in which it arrives
  (`frames_any_schedule`).
-/

import Frnetlib.Net.Prompt
import Frnetlib.WebSocket.FrameStream
import Frnetlib.WebSocket.Untrusted

namespace Frnetlib

open Base Socket Prompt

/-! ## On bytes that are all there -/

namespace WebFrame

theorem receiveLength_iff {bits n : Nat} {w w' : Prompt} {st : Status} :
    receiveLength bits w = some (st, n, w') ↔
      st = .success ∧ ∃ l, w.stream = l ++ w'.stream ∧ Announces bits l n := by
  have hnumber : ∀ k, (receiveRest k w).map (fun r => (r.1, ofBe r.2.1, r.2.2)) = some (st, n, w') ↔
      st = .success ∧ ∃ l, w.stream = l ++ w'.stream ∧ l.length = k ∧ n = ofBe l := by
    intro k
    rw [Option.map_eq_some_iff]
    constructor
    · intro hgiven
      obtain ⟨⟨st', l, w₁⟩, hrest, heq⟩ := hgiven
      cases heq
      obtain ⟨rfl, hlen, hw⟩ := receiveRest_iff.mp hrest
      exact ⟨rfl, l, hw, hlen, rfl⟩
    · intro hgiven
      obtain ⟨rfl, l, hw, hlen, rfl⟩ := hgiven
      exact ⟨(.success, l, w'), receiveRest_iff.mpr ⟨rfl, hlen, hw⟩, rfl⟩
  unfold receiveLength Announces
  by_cases h126 : bits = 126
  · simp only [if_pos h126]
    exact hnumber 2
  · simp only [if_neg h126]
    by_cases h127 : bits = 127
    · simp only [if_pos h127]
      exact hnumber 8
    · simp only [if_neg h127]
      constructor
      · intro h
        cases h
        exact ⟨rfl, [], rfl, rfl, rfl⟩
      · intro hgiven
        obtain ⟨rfl, l, hw, rfl, rfl⟩ := hgiven
        exact congrArg (fun w => some (_, _, w)) (congrArg Prompt.mk hw)

/-- The key of a masked frame, and that of a frame that is not. -/
def Keyed (mask : Bool) (key maskKey : Bytes) : Prop :=
  if mask then key.length = 4 ∧ maskKey = key else key = [] ∧ maskKey = [0, 0, 0, 0]

theorem receiveMask_iff {mask : Bool} {w w' : Prompt} {st : Status} {maskKey : Bytes} :
    receiveMask mask w = some (st, maskKey, w') ↔
      st = .success ∧ ∃ key, w.stream = key ++ w'.stream ∧ Keyed mask key maskKey := by
  unfold receiveMask Keyed
  cases mask with
  | true =>
    simp only [if_true]
    rw [receiveRest_iff]
    constructor
    · intro hgiven
      obtain ⟨rfl, hlen, hw⟩ := hgiven
      exact ⟨rfl, maskKey, hw, hlen, rfl⟩
    · intro hgiven
      obtain ⟨rfl, key, hw, hlen, rfl⟩ := hgiven
      exact ⟨rfl, hlen, hw⟩
  | false =>
    simp only [Bool.false_eq_true, if_false]
    constructor
    · intro h
      cases h
      exact ⟨rfl, [], rfl, rfl, rfl⟩
    · intro hgiven
      obtain ⟨rfl, key, hw, rfl, rfl⟩ := hgiven
      exact congrArg (fun w => some (_, _, w)) (congrArg Prompt.mk hw)

/-! ### The first two bytes -/

theorem ofBe_two (a b : UInt8) : ofBe [a, b] = a.toNat * 256 + b.toNat := by
  simp [ofBe]

theorem header_final (a b : UInt8) : decide (ofBe [a, b] >>> 15 &&& 1 ≠ 0) = decide (128 ≤ a.toNat) := by
  have ha := a.toNat_lt
  have hb := b.toNat_lt
  rw [ofBe_two, Nat.shiftRight_eq_div_pow, Nat.and_one_is_mod, decide_eq_decide]
  omega

theorem header_opcode (a b : UInt8) : ofBe [a, b] >>> 8 &&& 0xF = a.toNat % 16 := by
  have hb := b.toNat_lt
  rw [ofBe_two, Nat.shiftRight_eq_div_pow, show (0xF : Nat) = 2 ^ 4 - 1 from rfl, Nat.and_two_pow_sub_one_eq_mod]
  omega

theorem header_mask (a b : UInt8) : decide (ofBe [a, b] >>> 7 &&& 1 ≠ 0) = decide (128 ≤ b.toNat) := by
  have hb := b.toNat_lt
  rw [ofBe_two, Nat.shiftRight_eq_div_pow, Nat.and_one_is_mod, decide_eq_decide]
  omega

theorem header_length (a b : UInt8) : ofBe [a, b] &&& 0x7F = b.toNat % 128 := by
  rw [ofBe_two, show (0x7F : Nat) = 2 ^ 7 - 1 from rfl, Nat.and_two_pow_sub_one_eq_mod]
  omega

/-! ## The grammar -/

/-- The header of a frame of these two bytes, in an object of this class. -/
def headed (isClient : Bool) (b0 : UInt8) : WebFrame :=
  ⟨isClient, [], Opcode.ofNat (b0.toNat % 16), 128 ≤ b0.toNat⟩

/-- What a receive that returns comes to on two bytes and more: the frame is masked as this
    side's own are; or it is announced as longer than the limit; or it is all there. -/
inductive Reads (maxReceiveSize : Nat) (isClient : Bool) (b0 b1 : UInt8) (s : Bytes) :
    Status → WebFrame → Bytes → Prop where
  | unmasked (h : decide (128 ≤ b1.toNat) = isClient) :
      Reads maxReceiveSize isClient b0 b1 s .error (headed isClient b0) s
  | exceeded (h : decide (128 ≤ b1.toNat) ≠ isClient) (l rest : Bytes) (n : Nat) (hs : s = l ++ rest)
      (hl : Announces (b1.toNat % 128) l n) (hn : maxReceiveSize ≠ 0 ∧ maxReceiveSize < n) :
      Reads maxReceiveSize isClient b0 b1 s .maxPacketSizeExceeded (headed isClient b0) rest
  | whole (h : decide (128 ≤ b1.toNat) ≠ isClient) (l key maskKey p rest : Bytes)
      (hs : s = l ++ (key ++ (p ++ rest))) (hl : Announces (b1.toNat % 128) l p.length)
      (hn : ¬ (maxReceiveSize ≠ 0 ∧ maxReceiveSize < p.length)) (hfits : p.length ≤ maxSize)
      (hkey : Keyed (128 ≤ b1.toNat) key maskKey) :
      Reads maxReceiveSize isClient b0 b1 s .success
        { headed isClient b0 with payload := applyMask (128 ≤ b1.toNat) maskKey p } rest

theorem receive_reads {maxReceiveSize : Nat} {g f : WebFrame} {w w' : Prompt} {st : Status} :
    receive maxReceiveSize g w = some (st, f, w') ↔
      ∃ b0 b1 s, w.stream = b0 :: b1 :: s ∧ Reads maxReceiveSize g.isClient b0 b1 s st f w'.stream := by
  have hall : ∀ {n w st b w'}, receiveAll n w = some (st, b, w') → st = .success := fun h => (receiveAll_iff.mp h).1
  have hrest : ∀ {n w st b w'}, receiveRest n w = some (st, b, w') → st = .success := fun h => (receiveRest_iff.mp h).1
  have hlength : ∀ {n w st b w'}, receiveLength n w = some (st, b, w') → st = .success := fun h => (receiveLength_iff.mp h).1
  have hmask : ∀ {n w st b w'}, receiveMask n w = some (st, b, w') → st = .success := fun h => (receiveMask_iff.mp h).1
  have hself : ∀ p, resized (List.length p) p = p := resized_self
  unfold receive
  rw [andThen_iff hall]
  constructor
  · intro hgiven
    obtain ⟨b, w₁, hb, hr⟩ := hgiven
    obtain ⟨-, hlen, hw⟩ := receiveAll_iff.mp hb
    obtain ⟨b0, b1, rfl⟩ := List.length_eq_two.mp hlen
    refine ⟨b0, b1, w₁.stream, hw, ?_⟩
    simp only [header_final, header_opcode, header_mask, header_length] at hr
    by_cases hown : decide (128 ≤ b1.toNat) = g.isClient
    · rw [if_pos hown] at hr
      cases hr
      exact .unmasked hown
    · rw [if_neg hown, andThen_iff hlength] at hr
      obtain ⟨n, w₂, hn, hr⟩ := hr
      obtain ⟨-, l, hl, hann⟩ := receiveLength_iff.mp hn
      by_cases hmax : maxReceiveSize ≠ 0 ∧ maxReceiveSize < n
      · rw [if_pos hmax] at hr
        cases hr
        exact .exceeded hown l _ n hl hann hmax
      · rw [if_neg hmax, andThen_iff hmask] at hr
        obtain ⟨maskKey, w₃, hk, hr⟩ := hr
        obtain ⟨-, key, hkey, hkeyed⟩ := receiveMask_iff.mp hk
        by_cases hbig : maxSize < n
        · rw [if_pos hbig] at hr
          cases hr
        · rw [if_neg hbig, andThen_iff hrest] at hr
          obtain ⟨p, w₄, hp, hr⟩ := hr
          obtain ⟨-, rfl, hpayload⟩ := receiveRest_iff.mp hp
          rw [hself] at hr
          cases hr
          exact .whole hown l key maskKey p _ (by rw [hl, hkey, hpayload]) hann hmax (Nat.not_lt.mp hbig) hkeyed
  · intro hgiven
    obtain ⟨b0, b1, s, hw, hreads⟩ := hgiven
    refine ⟨[b0, b1], ⟨s⟩, receiveAll_iff.mpr ⟨rfl, rfl, hw⟩, ?_⟩
    simp only [header_final, header_opcode, header_mask, header_length]
    cases hreads with
    | unmasked h =>
      rw [if_pos h]
      rfl
    | exceeded h l rest n hs hl hn =>
      rw [if_neg h, andThen_iff hlength]
      refine ⟨n, w', receiveLength_iff.mpr ⟨rfl, l, hs, hl⟩, ?_⟩
      rw [if_pos hn]
      rfl
    | whole h l key maskKey p rest hs hl hn hfits hkey =>
      rw [if_neg h, andThen_iff hlength]
      refine ⟨p.length, ⟨key ++ (p ++ w'.stream)⟩, receiveLength_iff.mpr ⟨rfl, l, hs, hl⟩, ?_⟩
      rw [if_neg hn, andThen_iff hmask]
      refine ⟨maskKey, ⟨p ++ w'.stream⟩, receiveMask_iff.mpr ⟨rfl, key, rfl, hkey⟩, ?_⟩
      rw [if_neg (Nat.not_lt.mpr hfits), andThen_iff hrest]
      refine ⟨p, w', receiveRest_iff.mpr ⟨rfl, rfl, rfl⟩, ?_⟩
      rw [hself]
      rfl

/-- The bytes are a spelling of the frame, which was received, by the other side. -/
def Spells (f : WebFrame) (t : Bytes) : Prop :=
  ∃ (b0 b1 : UInt8) (l key : Bytes), t = b0 :: b1 :: (l ++ (key ++ applyMask (!f.isClient) key f.payload)) ∧
    f.final = decide (128 ≤ b0.toNat) ∧ f.opcode = Opcode.ofNat (b0.toNat % 16) ∧
    decide (128 ≤ b1.toNat) = !f.isClient ∧ Announces (b1.toNat % 128) l f.payload.length ∧
    key.length = if f.isClient then 0 else 4

theorem applyMask_applyMask (mask : Bool) (key p : Bytes) : applyMask mask key (applyMask mask key p) = p := by
  cases mask with
  | true => exact maskFrom_maskFrom key 0 p
  | false => rfl

theorem keyed_cases {mask : Bool} {key maskKey : Bytes} (h : Keyed mask key maskKey) (p : Bytes) :
    key.length = (if mask then 4 else 0) ∧ applyMask mask maskKey p = applyMask mask key p := by
  unfold Keyed at h
  cases mask with
  | true =>
    obtain ⟨hlen, rfl⟩ := h
    exact ⟨hlen, rfl⟩
  | false =>
    obtain ⟨rfl, -⟩ := h
    exact ⟨rfl, rfl⟩

theorem bool_ne_iff {a b : Bool} : a ≠ b ↔ a = !b := by cases a <;> cases b <;> decide

theorem receive_success_iff {maxReceiveSize : Nat} {g f : WebFrame} {s rest : Bytes} :
    receive maxReceiveSize g (⟨s⟩ : Prompt) = some (.success, f, ⟨rest⟩) ↔
      f.isClient = g.isClient ∧ (maxReceiveSize = 0 ∨ f.payload.length ≤ maxReceiveSize) ∧
        f.payload.length ≤ maxSize ∧ ∃ t, s = t ++ rest ∧ f.Spells t := by
  rw [receive_reads]
  constructor
  · intro hgiven
    obtain ⟨b0, b1, s', hs, hreads⟩ := hgiven
    cases hreads with
    | whole h l key maskKey p _ hs' hl hn hfits hkey =>
      obtain ⟨hklen, hmask⟩ := keyed_cases hkey p
      have hown : decide (128 ≤ b1.toNat) = !g.isClient := bool_ne_iff.mp h
      have hplen : (applyMask (decide (128 ≤ b1.toNat)) maskKey p).length = p.length := applyMask_length _ _ _
      refine ⟨rfl, ?_, ?_, b0 :: b1 :: (l ++ (key ++ p)), ?_, b0, b1, l, key, ?_, rfl, rfl, hown, ?_, ?_⟩
      · rw [hplen]
        omega
      · rw [hplen]
        exact hfits
      · have hs : s = b0 :: b1 :: s' := hs
        rw [hs, hs']
        simp
      · have hp : applyMask (!g.isClient) key (applyMask (decide (128 ≤ b1.toNat)) maskKey p) = p := by
          rw [hmask, ← hown, applyMask_applyMask]
        exact congrArg (fun p => b0 :: b1 :: (l ++ (key ++ p))) hp.symm
      · rw [hplen]
        exact hl
      · rw [hklen, hown]
        show _ = if g.isClient = true then 0 else 4
        cases g.isClient <;> rfl
  · intro hgiven
    obtain ⟨hclass, hmax, hfits, t, rfl, b0, b1, l, key, rfl, hfinal, hopcode, hown, hl, hklen⟩ := hgiven
    obtain ⟨isClient, payload, opcode, final⟩ := f
    simp only at hclass hmax hfits hfinal hopcode hown hl hklen
    subst hclass hfinal hopcode
    refine ⟨b0, b1, _, rfl, ?_⟩
    have hplen : (applyMask (!g.isClient) key payload).length = payload.length := applyMask_length _ _ _
    have hkey : ∃ maskKey, Keyed (decide (128 ≤ b1.toNat)) key maskKey := by
      rw [hown]
      unfold Keyed
      cases hg : g.isClient with
      | true =>
        rw [hg] at hklen
        exact ⟨_, List.eq_nil_of_length_eq_zero hklen, rfl⟩
      | false =>
        rw [hg] at hklen
        exact ⟨_, hklen, rfl⟩
    obtain ⟨maskKey, hkey⟩ := hkey
    have hreads : Reads maxReceiveSize g.isClient b0 b1 _ .success _ rest :=
      .whole (bool_ne_iff.mpr hown) l key maskKey (applyMask (!g.isClient) key payload) rest rfl (by rw [hplen]; exact hl)
        (by rw [hplen]; omega) (by rw [hplen]; exact hfits) hkey
    rw [(keyed_cases hkey _).2, hown, applyMask_applyMask] at hreads
    simpa [headed] using hreads

/-- The frame is announced as longer than a string can be, and the limit allows it. -/
def Oversized (maxReceiveSize : Nat) (isClient : Bool) (s : Bytes) : Prop :=
  ∃ b0 b1 l key rest n, s = b0 :: b1 :: (l ++ (key ++ rest)) ∧ decide (128 ≤ b1.toNat) ≠ isClient ∧
    Announces (b1.toNat % 128) l n ∧ ¬ (maxReceiveSize ≠ 0 ∧ maxReceiveSize < n) ∧
    key.length = (if isClient then 0 else 4) ∧ maxSize < n

theorem announces_cancel {bits m n : Nat} {l l' rest rest' : Bytes} (h : Announces bits l m) (h' : Announces bits l' n)
    (heq : l ++ rest = l' ++ rest') : l = l' ∧ m = n := by
  unfold Announces at h h'
  by_cases h126 : bits = 126
  · rw [if_pos h126] at h h'
    obtain rfl := (List.append_inj heq (h.1.trans h'.1.symm)).1
    exact ⟨rfl, h.2.trans h'.2.symm⟩
  · rw [if_neg h126] at h h'
    by_cases h127 : bits = 127
    · rw [if_pos h127] at h h'
      obtain rfl := (List.append_inj heq (h.1.trans h'.1.symm)).1
      exact ⟨rfl, h.2.trans h'.2.symm⟩
    · rw [if_neg h127] at h h'
      exact ⟨h.1.trans h'.1.symm, h.2.trans h'.2.symm⟩

/-- `resize` throws on it, and no bytes behind it bring a status. -/
theorem receive_oversized {maxReceiveSize : Nat} {g : WebFrame} {s : Bytes} (h : Oversized maxReceiveSize g.isClient s) :
    receive maxReceiveSize g (⟨s⟩ : Prompt) = none := by
  obtain ⟨b0, b1, l, key, rest, n, rfl, hown, hl, hlimit, -, hbig⟩ := h
  rw [Option.eq_none_iff_forall_ne_some]
  intro r hr
  obtain ⟨st, f, w'⟩ := r
  obtain ⟨c0, c1, s', hs, hreads⟩ := receive_reads.mp hr
  obtain ⟨rfl, rfl, htail⟩ : b0 = c0 ∧ b1 = c1 ∧ l ++ (key ++ rest) = s' := by simpa using hs
  cases hreads with
  | unmasked h => exact hown h
  | exceeded h l' rest' m hs' hl' hm =>
    obtain ⟨-, rfl⟩ := announces_cancel hl hl' (htail.trans hs')
    exact hlimit hm
  | whole h l' key' maskKey p _ hs' hl' hm hfits hkey =>
    obtain ⟨-, rfl⟩ := announces_cancel hl hl' (htail.trans hs')
    omega

/-- On any bytes: a frame is accepted, and what follows it left, exactly where the bytes
    before that are one of its spellings by the other side and it is within the limit and
    no longer than a string can be; it is refused where it is masked as this side's own
    are, or announced as longer than the limit. Announced as longer than a string can be,
    and not refused, it has no status. -/
theorem frame_grammar (maxReceiveSize : Nat) (g : WebFrame) (s : Bytes) :
    (∀ f rest, receive maxReceiveSize g (⟨s⟩ : Prompt) = some (.success, f, ⟨rest⟩) ↔
      f.isClient = g.isClient ∧ (maxReceiveSize = 0 ∨ f.payload.length ≤ maxReceiveSize) ∧
        f.payload.length ≤ maxSize ∧ ∃ t, s = t ++ rest ∧ f.Spells t) ∧
    ((∃ f w', receive maxReceiveSize g (⟨s⟩ : Prompt) = some (.error, f, w')) ↔
      ∃ b0 b1 s', s = b0 :: b1 :: s' ∧ decide (128 ≤ b1.toNat) = g.isClient) ∧
    ((∃ f w', receive maxReceiveSize g (⟨s⟩ : Prompt) = some (.maxPacketSizeExceeded, f, w')) ↔
      ∃ b0 b1 l n rest, s = b0 :: b1 :: (l ++ rest) ∧ decide (128 ≤ b1.toNat) ≠ g.isClient ∧
        Announces (b1.toNat % 128) l n ∧ maxReceiveSize ≠ 0 ∧ maxReceiveSize < n) ∧
    (Oversized maxReceiveSize g.isClient s → receive maxReceiveSize g (⟨s⟩ : Prompt) = none) ∧
    ∀ st f w', receive maxReceiveSize g (⟨s⟩ : Prompt) = some (st, f, w') →
      st = .success ∨ st = .error ∨ st = .maxPacketSizeExceeded := by
  refine ⟨fun f rest => receive_success_iff, ⟨?_, ?_⟩, ⟨?_, ?_⟩, receive_oversized, ?_⟩
  · intro hgiven
    obtain ⟨f, w', hr⟩ := hgiven
    obtain ⟨b0, b1, s', hs, hreads⟩ := receive_reads.mp hr
    cases hreads with
    | unmasked h => exact ⟨b0, b1, _, hs, h⟩
  · intro hgiven
    obtain ⟨b0, b1, s', rfl, h⟩ := hgiven
    exact ⟨_, ⟨s'⟩, receive_reads.mpr ⟨b0, b1, s', rfl, .unmasked h⟩⟩
  · intro hgiven
    obtain ⟨f, w', hr⟩ := hgiven
    obtain ⟨b0, b1, s', hs, hreads⟩ := receive_reads.mp hr
    cases hreads with
    | exceeded h l rest n hs' hl hn => exact ⟨b0, b1, l, n, _, hs' ▸ hs, h, hl, hn⟩
  · intro hgiven
    obtain ⟨b0, b1, l, n, rest, rfl, h, hl, hn⟩ := hgiven
    exact ⟨_, ⟨rest⟩, receive_reads.mpr ⟨b0, b1, _, rfl, .exceeded h l rest n rfl hl hn⟩⟩
  · intro st f w' hr
    obtain ⟨b0, b1, s', -, hreads⟩ := receive_reads.mp hr
    cases hreads with
    | unmasked h => exact .inr (.inl rfl)
    | exceeded h l rest n hs' hl hn => exact .inr (.inr rfl)
    | whole h l key maskKey p _ hs' hl hn hfits hkey => exact .inl rfl

/-! ## Over any schedule -/

section

variable {σ : Type} [FifoReceiver σ]

theorem receiveLength_follows (bits : Nat) : Follows (σ := σ) (receiveLength bits) (receiveLength bits) := by
  unfold receiveLength
  by_cases h126 : bits = 126
  · simp only [if_pos h126]
    exact (follows_receiveRest 2).map ofBe
  · simp only [if_neg h126]
    by_cases h127 : bits = 127
    · simp only [if_pos h127]
      exact (follows_receiveRest 8).map ofBe
    · simp only [if_neg h127]
      exact Follows.pure bits (by decide)

theorem receiveMask_follows (mask : Bool) : Follows (σ := σ) (receiveMask mask) (receiveMask mask) := by
  unfold receiveMask
  cases mask with
  | true => exact follows_receiveRest 4
  | false => exact Follows.pure [0, 0, 0, 0] (by decide)

theorem receive_answers (maxReceiveSize : Nat) (g : WebFrame) :
    Answers (σ := σ) (receive maxReceiveSize g) (receive maxReceiveSize g) := by
  unfold receive
  refine (answers_receiveAll 2).andThen fun b => ?_
  simp only
  split
  · exact Follows.pure _ (by decide)
  · refine (receiveLength_follows _).andThen fun n => ?_
    split
    · exact Follows.pure _ (by decide)
    · refine (receiveMask_follows _).andThen fun maskKey => ?_
      split
      · exact Follows.none
      · exact (follows_receiveRest n).andThen fun p => Follows.pure _ (by decide)

theorem receive_consumes (maxReceiveSize : Nat) (g : WebFrame) : Consumes (receive maxReceiveSize g) := by
  intro w st f w' hr
  obtain ⟨b0, b1, s, hs, hreads⟩ := receive_reads.mp hr
  rw [hs]
  cases hreads with
  | unmasked h =>
    simp only [List.length_cons]
    omega
  | exceeded h l rest n hs' hl hn =>
    rw [hs']
    simp only [List.length_cons, List.length_append]
    omega
  | whole h l key maskKey p _ hs' hl hn hfits hkey =>
    rw [hs']
    simp only [List.length_cons, List.length_append]
    omega

/-- Whatever the peer sent, and however it arrives: the receives that are not told that it
    would block have the results of receives that find all of it there, in order, and take
    the same bytes, up to the first that returns no status; and enough of them leave only
    what the next one returns no status on. -/
theorem frames_any_schedule (maxReceiveSize : Nat) (g : WebFrame) (n : Nat) (w : σ) :
    let run := calls (receive maxReceiveSize g) n w
    ∃ k, let ideal := calls (receive maxReceiveSize g) k (⟨Receiver.pending w⟩ : Prompt)
      run.1.filter (fun r => r.1 ≠ .wouldBlock) = ideal.1 ∧ Receiver.pending run.2 = ideal.2.stream ∧
        (Receiver.left w + (Receiver.pending w).length ≤ n →
          receive maxReceiveSize g (⟨Receiver.pending run.2⟩ : Prompt) = none) :=
  calls_answer (receive_answers maxReceiveSize g) (receive_consumes maxReceiveSize g) n w

end

end WebFrame

end Frnetlib
