/-
  Frnetlib.Packet.Untrusted — extraction from a buffer an attacker chose.

  For the types without `bool` and without maps (`Ty.flat`): extraction never leaves
  the buffer, and either gives a value whose text is what it consumed, or throws
  `std::out_of_range` (`unpack_yields`). With `unpack_reads`, it throws only where no
  packable value's text begins, so also at every strict prefix of a text
  (`untrusted_extraction`).

  Packable matters there: a count is 32 bits, and packing a string or a vector of 2^32
  elements or more cuts its count. Such a value's text is not read back, and extraction
  may throw where it begins (`truncated_count_throws`).
-/

import Frnetlib.Packet.Wire

namespace Frnetlib

open Base

/-- No `bool` and no map inside. -/
def Ty.flat : Ty → Bool
  | .bool => false
  | .pair a b => a.flat && b.flat
  | .vec t => t.flat
  | .map _ _ => false
  | .umap _ _ => false
  | _ => true

theorem Ty.flat_plain {t : Ty} (h : t.flat = true) : t.plain = true := by
  induction t with
  | pair a b iha ihb =>
    simp only [Ty.flat, Bool.and_eq_true] at h
    simp only [Ty.plain, Bool.and_eq_true]
    exact ⟨iha h.1, ihb h.2⟩
  | vec t ih => exact ih h
  | map k v => simp [Ty.flat] at h
  | umap k v => simp [Ty.flat] at h
  | _ => rfl

namespace Packet

open View

/-- The extractions from a buffer of fewer than 2^62 bytes. -/
def smallView : View Packet UInt8 where
  unread := unread
  ok := fun p => p.readIndex ≤ p.buffer.length ∧ p.buffer.length < 2 ^ 62
  moved := Moved
  moved_refl := Moved.refl
  moved_trans := Moved.trans
  moved_ok := fun h hp => by rw [h.buffer]; exact ⟨h.inside hp.1, hp.2⟩

abbrev Throws (e : Fault) : Prop := e = .notEnough

theorem assert_throws {n : Nat} {p : Packet} (hn : n < 2 ^ 62) (hp : p.buffer.length < 2 ^ 62)
    (hin : p.readIndex ≤ p.buffer.length) (h : p.buffer.length < p.readIndex + n) :
    assertBytesRemaining n p = .error .notEnough p := by
  have hmod : (p.readIndex + n) % 2 ^ 64 = p.readIndex + n := Nat.mod_eq_of_lt (by omega)
  exact if_pos (by omega)

theorem extractRaw_yields {n : Nat} (hn : n < 2 ^ 62) :
    smallView.Yields (extractRaw n) (fun s a => s = a ∧ a.length = n) Throws := by
  intro p hok
  obtain ⟨hin, hp⟩ := hok
  by_cases h : p.readIndex + n ≤ p.buffer.length
  · refine .inl ⟨_, _, _, extractRaw_ok h, ?_, ⟨rfl, ?_⟩, moved_advance h⟩
    · change p.unread = _ ++ (p.advance n).unread
      rw [unread_advance, List.take_append_drop]
    · rw [List.length_take, unread, List.length_drop]; omega
  · exact .inr ⟨_, p, bind_error (assert_throws hn hp hin (by omega)), rfl, Moved.refl p⟩

/-! ## What is read is a value's text -/

theorem number_yields (f : Nat → α) (enc : α → Bytes) {w : Nat} (hw : w < 2 ^ 62)
    (henc : ∀ n, enc (f n) = be w n) :
    smallView.Yields (do let b ← extractRaw w; pure (f (ofBe b))) (fun s a => s = enc a ∧ True) Throws := by
  refine (extractRaw_yields hw).bind_pure ?_
  intro s b h
  obtain ⟨hs, hlen⟩ := h
  rw [henc, be_ofBe_of_length hlen]
  exact ⟨hs, trivial⟩

theorem unpackUInt32_yields :
    smallView.Yields unpackUInt32 (fun s n => s = be 4 n.toNat ∧ True) Throws :=
  number_yields UInt32.ofNat (fun n => be 4 n.toNat) (by decide) be_uint32

theorem unpack_yields (hash : Hashing) (t : Ty) (ht : t.flat = true) (dst : Val t) :
    smallView.Yields (unpack hash t dst) (fun s a => s = encode t a ∧ Packable t a) Throws := by
  induction t with
  | bool => simp [Ty.flat] at ht
  | map k v => simp [Ty.flat] at ht
  | umap k v => simp [Ty.flat] at ht
  | u8 =>
    exact number_yields UInt8.ofNat (encode .u8) (by decide) fun n => by simp [encode, be]
  | u16 => exact number_yields UInt16.ofNat (encode .u16) (by decide) be_uint16
  | u32 => exact unpackUInt32_yields
  | u64 => exact number_yields UInt64.ofNat (encode .u64) (by decide) be_uint64
  | i16 =>
    exact number_yields (fun n => (UInt16.ofNat n).toInt16) (encode .i16) (by decide) fun n => by
      rw [encode, UInt16.toUInt16_toInt16, be_uint16]
  | i32 =>
    exact number_yields (fun n => (UInt32.ofNat n).toInt32) (encode .i32) (by decide) fun n => by
      rw [encode, UInt32.toUInt32_toInt32, be_uint32]
  | i64 =>
    exact number_yields (fun n => (UInt64.ofNat n).toInt64) (encode .i64) (by decide) fun n => by
      rw [encode, UInt64.toUInt64_toInt64, be_uint64]
  | str =>
    refine unpackUInt32_yields.bind ?_
    intro s length h
    obtain ⟨hs, _⟩ := h
    have hl : length.toNat < 2 ^ 32 := length.toNat_lt
    refine (extractRaw_yields (by omega)).mono ?_
    intro r a h
    obtain ⟨hr, ha⟩ := h
    rw [hs, hr, encode, prefixed, ha]
    exact ⟨rfl, ha.trans_lt hl⟩
  | pair a b iha ihb =>
    simp only [Ty.flat, Bool.and_eq_true] at ht
    refine (iha ht.1 dst.1).bind ?_
    intro s x h
    obtain ⟨hs, hx⟩ := h
    refine (ihb ht.2 dst.2).bind_pure ?_
    intro r y h
    obtain ⟨hr, hy⟩ := h
    exact ⟨by rw [hs, hr, encode], hx, hy⟩
  | vec t ih =>
    refine unpackUInt32_yields.bind ?_
    intro s length h
    obtain ⟨hs, _⟩ := h
    refine (Yields.mapM fun x _ => ih ht x).mono ?_
    intro r as h
    obtain ⟨hr, hlen, has⟩ := h
    have hl : as.length = length.toNat := by
      rw [hlen, resize, List.length_append, List.length_take, List.length_replicate]; omega
    rw [hs, hr, encode, prefixed, hl]
    exact ⟨rfl, hl.trans_lt length.toNat_lt, has⟩

/-! ## Where a text begins it is read -/

/-- On flat types the object extracted into plays no part. -/
theorem unpack_dst (hash : Hashing) {t : Ty} (ht : t.flat = true) (dst dst' : Val t) :
    unpack hash t dst = unpack hash t dst' := by
  induction t with
  | pair a b iha ihb =>
    simp only [Ty.flat, Bool.and_eq_true] at ht
    rw [unpack, unpack, iha ht.1 dst.1 dst'.1, ihb ht.2 dst.2 dst'.2]
  | vec t ih =>
    have hconst : ∀ xs : List (Val t), xs.mapM (unpack hash t) =
        (List.replicate xs.length (Val.default t)).mapM (unpack hash t) := by
      intro xs
      induction xs with
      | nil => rfl
      | cons x xs ihxs =>
        rw [List.length_cons, List.replicate_succ, List.mapM_cons, List.mapM_cons, ihxs, ih ht x (Val.default t)]
    have hlen : ∀ (n : Nat) (xs : List (Val t)), (resize t n xs).length = n := by
      intro n xs; simp [resize]; omega
    simp only [unpack]
    refine congrArg (unpackUInt32 >>= ·) (funext fun length => ?_)
    rw [hconst (resize t length.toNat dst), hconst (resize t length.toNat dst'), hlen, hlen]
  | map k v => simp [Ty.flat] at ht
  | umap k v => simp [Ty.flat] at ht
  | _ => rfl

theorem unpack_text (hash : Hashing) {t : Ty} (ht : t.flat = true) (dst : Val t) {v : Val t} (hv : Packable t v)
    {p : Packet} (hin : p.readIndex ≤ p.buffer.length) {rest : Bytes} (hu : p.unread = encode t v ++ rest) :
    ∃ p', unpack hash t dst p = .ok v p' ∧ p'.unread = rest := by
  rw [unpack_dst hash ht dst (Val.default t)]
  obtain ⟨w, p', hw, heq, hrest, _⟩ := unpack_reads hash t v hv p rest hin hu
  rw [Val.eq_plain (Ty.flat_plain ht)] at heq
  exact ⟨p', heq ▸ hw, hrest⟩

/-- No text of a packable value is a strict prefix of another's. -/
theorem encode_prefix_free {t : Ty} (ht : t.flat = true) {v w : Val t} (hv : Packable t v) (hw : Packable t w)
    (h : encode t v <+: encode t w) : v = w := by
  obtain ⟨rest, hrest⟩ := h
  let p : Packet := ⟨encode t w, 0, []⟩
  obtain ⟨p₁, h₁, _⟩ := unpack_text Hashing.front ht (Val.default t) hv (p := p) (Nat.zero_le _) hrest.symm
  obtain ⟨p₂, h₂, _⟩ := unpack_text Hashing.front ht (Val.default t) hw (p := p) (Nat.zero_le _)
    (List.append_nil _).symm
  rw [h₁] at h₂
  cases h₂
  rfl

end Packet

/-! ## Extraction from untrusted bytes -/

/-- From any cursor of any buffer of fewer than 2^62 bytes, into any object: the bytes
    read lie between the cursor and the end of the buffer, and either extraction gives a
    value whose text is what the cursor moved over, or it throws and no packable value's
    text begins at the cursor. At a strict prefix of such a text it throws. -/
theorem untrusted_extraction (hash : Hashing) {t : Ty} (ht : t.flat = true) (dst : Val t) (buffer : Bytes)
    (c : Nat) (hc : c ≤ buffer.length) (hn : buffer.length < 2 ^ 62) :
    (∃ p' : Packet, (∀ r ∈ p'.reads, c ≤ r.1 ∧ r.1 + r.2 ≤ buffer.length) ∧
      ((∃ v, Packet.unpack hash t dst ⟨buffer, c, []⟩ = .ok v p' ∧ Packable t v ∧ p'.buffer = buffer ∧
          c ≤ p'.readIndex ∧ p'.readIndex ≤ buffer.length ∧
          (buffer.drop c).take (p'.readIndex - c) = Packet.written t v) ∨
        (Packet.unpack hash t dst ⟨buffer, c, []⟩ = .error .notEnough p' ∧
          ∀ v, Packable t v → ¬ Packet.written t v <+: buffer.drop c))) ∧
    (∀ v, Packable t v → buffer.drop c <+: Packet.written t v → buffer.drop c ≠ Packet.written t v →
      ∃ p', Packet.unpack hash t dst ⟨buffer, c, []⟩ = .error .notEnough p') := by
  have hinside : ∀ {p'}, Packet.Moved ⟨buffer, c, []⟩ p' →
      ∀ r ∈ p'.reads, c ≤ r.1 ∧ r.1 + r.2 ≤ buffer.length := by
    intro p' hm r hr
    obtain ⟨new, hnew, hin⟩ := hm.reads
    rw [hnew, List.append_nil] at hr
    exact hin r hr
  simp only [Packet.written_eq]
  obtain ⟨v, p', s, hv, hs, ⟨henc, hpack⟩, hm⟩ | ⟨e, p', he, hthrow, hm⟩ :=
    Packet.unpack_yields hash t ht dst ⟨buffer, c, []⟩ ⟨hc, hn⟩
  · have hu : buffer.drop c = encode t v ++ p'.unread := henc ▸ hs
    refine ⟨⟨p', hinside hm, .inl ⟨v, hv, hpack, hm.buffer, hm.le, hm.inside hc, ?_⟩⟩, ?_⟩
    · have hlen := congrArg List.length hu
      have hle : p'.readIndex ≤ buffer.length := hm.inside hc
      rw [Packet.unread, hm.buffer, List.length_append, List.length_drop, List.length_drop] at hlen
      have hle' : c ≤ p'.readIndex := hm.le
      exact hu ▸ List.take_left' (by simp only at hlen; omega)
    · intro w hw hpre hne
      have hvw : encode t v <+: encode t w := (hu ▸ List.prefix_append _ _ : encode t v <+: buffer.drop c).trans hpre
      obtain rfl := Packet.encode_prefix_free ht hpack hw hvw
      refine absurd (List.IsPrefix.eq_of_length hpre ?_) hne
      exact Nat.le_antisymm hpre.length_le (by rw [hu, List.length_append]; omega)
  · obtain rfl : e = .notEnough := hthrow
    refine ⟨⟨p', hinside hm, .inr ⟨he, ?_⟩⟩, fun _ _ _ _ => ⟨p', he⟩⟩
    intro v hv hpre
    obtain ⟨rest, hrest⟩ := hpre
    obtain ⟨q, hq, _⟩ := Packet.unpack_text hash ht dst hv (p := ⟨buffer, c, []⟩) hc hrest.symm
    rw [hq] at he
    cases he

theorem untrusted_extraction_cut :
    ∃ p', Packet.unpack Hashing.front (.vec (.pair .u8 .str)) [] ⟨bytes "0000" ++ [0, 0, 0, 1, 7, 0, 0, 0, 2, 98], 4, []⟩ =
      .error .notEnough p' :=
  (untrusted_extraction Hashing.front (t := .vec (.pair .u8 .str)) rfl [] _ 4 (by decide) (by decide)).2
    [(7, bytes "bo")] (by simp [Packable, bytes]) (by decide) (by decide)

/-! ## A count that does not fit -/

/-- A string of 2^32 bytes, and an empty vector. -/
def oversized : Val (.pair .str (.vec .u16)) := (List.replicate (2 ^ 32) 255, [])

theorem written_oversized : Packet.written (.pair .str (.vec .u16)) oversized =
    be 4 0 ++ (be 4 (2 ^ 32 - 1) ++ (List.replicate (2 ^ 32 - 4) 255 ++ be 4 0)) := by
  have hsplit : List.replicate (2 ^ 32) (255 : UInt8) = be 4 (2 ^ 32 - 1) ++ List.replicate (2 ^ 32 - 4) 255 := by
    rw [show be 4 (2 ^ 32 - 1) = List.replicate 4 (255 : UInt8) from rfl, List.replicate_append_replicate]
    rfl
  rw [Packet.written_eq, oversized]
  simp only [encode, prefixed, List.length_replicate, List.flatMap_nil, List.length_nil, List.append_nil,
    List.append_assoc]
  rw [hsplit, List.append_assoc]
  rfl

/-- The oversized value's text begins at the cursor, and extraction throws. -/
theorem truncated_count_throws :
    ∃ buffer p', buffer.length < 2 ^ 62 ∧
      Packet.written (.pair .str (.vec .u16)) oversized <+: buffer.drop 4 ∧
      Packet.unpack Hashing.front (.pair .str (.vec .u16)) (Val.default _) ⟨buffer, 4, []⟩ = .error .notEnough p' := by
  have hlen : (Packet.written (.pair .str (.vec .u16)) oversized).length = 2 ^ 32 + 8 := by
    rw [written_oversized]
    simp only [List.length_append, be_length, List.length_replicate]
    rfl
  have hnumbers : ∀ nums : List UInt16, (nums.flatMap fun n => be 2 n.toNat).length = 2 * nums.length := by
    intro nums
    induction nums with
    | nil => rfl
    | cons n nums ih => rw [List.flatMap_cons, List.length_append, ih, be_length, List.length_cons]; omega
  let buffer := bytes "0000" ++ Packet.written (.pair .str (.vec .u16)) oversized
  have hblen : buffer.length = 2 ^ 32 + 12 := by
    rw [List.length_append, hlen]; rfl
  have hdrop : buffer.drop 4 = Packet.written (.pair .str (.vec .u16)) oversized := List.drop_left' rfl
  obtain ⟨v, p', s, hv, hs, ⟨henc, hpack⟩, hm⟩ | ⟨e, p', he, hthrow, _⟩ :=
    Packet.unpack_yields Hashing.front (.pair .str (.vec .u16)) rfl (Val.default _) ⟨buffer, 4, []⟩
      ⟨by rw [hblen]; decide, by rw [hblen]; decide⟩
  · -- The count of an empty string, then the first four bytes 255 as the count of numbers.
    obtain ⟨str, nums⟩ := v
    obtain ⟨hstr, hnums, _⟩ := hpack
    have hu : buffer.drop 4 = encode (.pair .str (.vec .u16)) (str, nums) ++ p'.unread := henc ▸ hs
    rw [hdrop, written_oversized] at hu
    simp only [encode, prefixed, List.append_assoc] at hu
    obtain ⟨h0, hu⟩ := List.append_inj hu (by simp)
    have hstr0 : str = [] := List.length_eq_zero_iff.mp (be_injective (by decide) hstr h0).symm
    rw [hstr0, List.nil_append] at hu
    obtain ⟨h1, hu⟩ := List.append_inj hu (by simp)
    have hcount := be_injective (by decide) hnums h1
    have hshort := congrArg List.length hu
    rw [List.length_append, List.length_append, List.length_replicate, be_length, hnumbers, ← hcount] at hshort
    omega
  · obtain rfl : e = .notEnough := hthrow
    exact ⟨buffer, p', by omega, hdrop ▸ List.prefix_rfl, he⟩

end Frnetlib
