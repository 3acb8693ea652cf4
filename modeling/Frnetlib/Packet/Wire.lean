/-
  Frnetlib.Packet.Wire — the wire format of packed values, and what `pack` and
  `unpack` do with it.

  `encode t v` is the text of a value. Packing appends it and nothing else
  (`pack_eq`). Extracting, seen as reading off the unread part of the buffer
  (`Packet.view`): a packable value's text is read back as that value, up to
  `operator==` (`unpack_reads`).

  `Packable t v` is what an object of the type satisfies anyway, the order of a map
  and the distinct keys of an unordered map, and the sizes a count of 32 bits can
  announce. `Plain` types have no `unordered_map` in them: on those `operator==` is
  equality and `std::less` is asymmetric, so they can be the keys of maps.
-/

import Frnetlib.Packet.Packet

namespace Frnetlib

open Base

/-! ## Values that can be packed -/

/-- No `unordered_map` inside. -/
def Ty.plain : Ty → Bool
  | .pair a b => a.plain && b.plain
  | .vec t => t.plain
  | .map k v => k.plain && v.plain
  | .umap _ _ => false
  | _ => true

def Packable : (t : Ty) → Val t → Prop
  | .str, s => s.length < 2 ^ 32
  | .pair a b, x => Packable a x.1 ∧ Packable b x.2
  | .vec t, xs => xs.length < 2 ^ 32 ∧ ∀ x ∈ xs, Packable t x
  | .map k v, m => k.plain ∧ m.length < 2 ^ 32 ∧ (∀ e ∈ m, Packable k e.1 ∧ Packable v e.2) ∧
      m.Pairwise fun e f => Val.less k e.1 f.1 = true
  | .umap k v, m => k.plain ∧ m.length < 2 ^ 32 ∧ (∀ e ∈ m, Packable k e.1 ∧ Packable v e.2) ∧
      m.Pairwise fun e f => e.1 ≠ f.1
  | _, _ => True

namespace Val

theorem isEqv_iff {r : α → α → Bool} {xs ys : List α} :
    xs.isEqv ys r = true ↔ List.Forall₂ (fun x y => r x y = true) xs ys := by
  induction xs generalizing ys with
  | nil => cases ys <;> simp [List.isEqv]
  | cons x xs ih => cases ys <;> simp [List.isEqv, ih]

theorem forall₂_eq_iff {r : α → α → Prop} (h : ∀ x y, r x y ↔ x = y) (xs ys : List α) :
    List.Forall₂ r xs ys ↔ xs = ys := by
  have : r = Eq := funext fun x => funext fun y => propext (h x y)
  rw [this, List.forall₂_eq_eq_eq]

theorem eq_plain {t : Ty} (ht : t.plain = true) (x y : Val t) : eq t x y = true ↔ x = y := by
  induction t with
  | pair a b iha ihb =>
    simp only [Ty.plain, Bool.and_eq_true] at ht
    rw [eq, Bool.and_eq_true, iha ht.1, ihb ht.2, Prod.ext_iff]
  | vec t ih =>
    rw [eq, isEqv_iff]
    exact forall₂_eq_iff (fun x y => ih ht x y) x y
  | map k v ihk ihv =>
    simp only [Ty.plain, Bool.and_eq_true] at ht
    rw [eq, isEqv_iff]
    refine forall₂_eq_iff (fun e f => ?_) x y
    rw [Bool.and_eq_true, ihk ht.1, ihv ht.2, Prod.ext_iff]
  | umap k v => simp [Ty.plain] at ht
  | _ => exact beq_iff_eq

/-! ## Maps are refilled in order -/

theorem lexLess_asymm {r : α → α → Bool} (h : ∀ x y, r x y = true → r y x = false) (xs ys : List α)
    (hl : lexLess r xs ys = true) : lexLess r ys xs = false := by
  induction xs generalizing ys with
  | nil => cases ys <;> simp [lexLess] at *
  | cons x xs ih =>
    cases ys with
    | nil => simp [lexLess] at hl
    | cons y ys =>
      simp only [lexLess, Bool.or_eq_true, Bool.and_eq_true, Bool.not_eq_true'] at hl
      rcases hl with hxy | ⟨hyx, hl⟩
      · simp [lexLess, hxy, h x y hxy]
      · simp [lexLess, hyx, ih ys hl]

theorem pairLess_asymm {r₁ : α → α → Bool} {r₂ : β → β → Bool} (h₁ : ∀ x y, r₁ x y = true → r₁ y x = false)
    (h₂ : ∀ x y, r₂ x y = true → r₂ y x = false) (x y : α × β) (hl : pairLess r₁ r₂ x y = true) :
    pairLess r₁ r₂ y x = false := by
  simp only [pairLess, Bool.or_eq_true, Bool.and_eq_true, Bool.not_eq_true'] at hl
  rcases hl with h | ⟨h, hl⟩
  · simp [pairLess, h, h₁ _ _ h]
  · simp [pairLess, h, h₂ _ _ hl]

theorem less_asymm {t : Ty} (x y : Val t) (h : less t x y = true) : less t y x = false := by
  induction t with
  | bool => revert x y; decide
  | str =>
    refine lexLess_asymm (fun a b hab => ?_) x y h
    simp only [decide_eq_true_eq, decide_eq_false_iff_not] at hab ⊢
    exact UInt8.lt_asymm hab
  | pair a b iha ihb => exact pairLess_asymm iha ihb x y h
  | vec t ih => exact lexLess_asymm ih x y h
  | map k v ihk ihv => exact lexLess_asymm (pairLess_asymm ihk ihv) x y h
  | umap k v => simp [less] at h
  | _ =>
    simp only [less, decide_eq_true_eq, decide_eq_false_iff_not] at h ⊢
    grind

/-- An entry whose key is above all others goes to the end. -/
theorem emplaceOrdered_last {k : Ty} {e : Val k × α} {m : List (Val k × α)}
    (h : ∀ f ∈ m, less k f.1 e.1 = true) : emplaceOrdered k e m = m ++ [e] := by
  induction m with
  | nil => rfl
  | cons f m ih =>
    have hf := h f List.mem_cons_self
    rw [emplaceOrdered, less_asymm _ _ hf, hf, ih fun g hg => h g (List.mem_cons_of_mem _ hg)]
    simp

end Val

/-! ## The format -/

/-- The count in front of a string or a container. -/
def prefixed (n : Nat) (s : Bytes) : Bytes := be 4 n ++ s

def encode : (t : Ty) → Val t → Bytes
  | .bool, b => [if b then 1 else 0]
  | .u8, n => [n]
  | .u16, n => be 2 n.toNat
  | .u32, n => be 4 n.toNat
  | .u64, n => be 8 n.toNat
  | .i16, n => be 2 n.toUInt16.toNat
  | .i32, n => be 4 n.toUInt32.toNat
  | .i64, n => be 8 n.toUInt64.toNat
  | .str, s => prefixed s.length s
  | .pair a b, x => encode a x.1 ++ encode b x.2
  | .vec t, xs => prefixed xs.length (xs.flatMap (encode t))
  | .map k v, m => prefixed m.length (m.flatMap fun e => encode k e.1 ++ encode v e.2)
  | .umap k v, m => prefixed m.length (m.flatMap fun e => encode k e.1 ++ encode v e.2)

namespace Packet

open View

@[simp] theorem addRaw_nil (p : Packet) : p.addRaw [] = p := by simp [addRaw]

@[simp] theorem addRaw_addRaw (a b : Bytes) (p : Packet) : (p.addRaw a).addRaw b = p.addRaw (a ++ b) := by
  simp [addRaw]

theorem foldl_addRaw (f : α → Bytes) (xs : List α) (p : Packet) :
    xs.foldl (fun p x => p.addRaw (f x)) p = p.addRaw (xs.flatMap f) := by
  induction xs generalizing p with
  | nil => simp
  | cons x xs ih => simp [ih]

/-- The count is cut to 32 bits. -/
theorem packUInt32_length (n : Nat) (p : Packet) : packUInt32 (UInt32.ofNat n) p = p.addRaw (be 4 n) :=
  congrArg p.addRaw (be_uint32 n)

theorem pack_eq (t : Ty) (v : Val t) (p : Packet) : pack t v p = p.addRaw (encode t v) := by
  induction t generalizing p with
  | str => rw [pack, packUInt32_length, addRaw_addRaw, encode, prefixed]
  | pair a b iha ihb => rw [pack, iha, ihb, addRaw_addRaw, encode]
  | vec t ih =>
    simp only [pack, ih, packUInt32_length, encode, prefixed]
    rw [foldl_addRaw, addRaw_addRaw]
  | map k v ihk ihv =>
    simp only [pack, ihk, ihv, packUInt32_length, encode, prefixed, addRaw_addRaw]
    rw [foldl_addRaw, addRaw_addRaw]
  | umap k v ihk ihv =>
    simp only [pack, ihk, ihv, packUInt32_length, encode, prefixed, addRaw_addRaw]
    rw [foldl_addRaw, addRaw_addRaw]
  | _ => rfl

/-- The bytes `operator<<` writes for a value. -/
def written (t : Ty) (v : Val t) : Bytes := (pack t v fresh).buffer.drop packetHeaderLength

theorem written_eq (t : Ty) (v : Val t) : written t v = encode t v := by
  rw [written, pack_eq]
  exact List.drop_left' rfl

/-- A range is written as the vector of its elements. -/
theorem addRange_eq (t : Ty) (xs : List (Val t)) (p : Packet) :
    addRange t xs p = p.addRaw (encode (.vec t) xs) := pack_eq (.vec t) xs p

/-! ## Extraction as reading from the unread part -/

def unread (p : Packet) : Bytes := p.buffer.drop p.readIndex

/-- The reads between two states lie between the first cursor and the buffer's end. -/
structure Moved (p p' : Packet) : Prop where
  buffer : p'.buffer = p.buffer
  le : p.readIndex ≤ p'.readIndex
  inside : p.readIndex ≤ p.buffer.length → p'.readIndex ≤ p.buffer.length
  reads : ∃ new, p'.reads = new ++ p.reads ∧
    ∀ r ∈ new, p.readIndex ≤ r.1 ∧ r.1 + r.2 ≤ p.buffer.length

theorem Moved.refl (p : Packet) : Moved p p := ⟨rfl, Nat.le_refl _, id, [], rfl, by simp⟩

theorem Moved.trans {p q r : Packet} (h₁ : Moved p q) (h₂ : Moved q r) : Moved p r := by
  obtain ⟨new₁, hr₁, hin₁⟩ := h₁.reads
  obtain ⟨new₂, hr₂, hin₂⟩ := h₂.reads
  have hle := h₁.le
  rw [h₁.buffer] at hin₂
  refine ⟨h₂.buffer.trans h₁.buffer, Nat.le_trans h₁.le h₂.le, fun h => ?_, new₂ ++ new₁, ?_, ?_⟩
  · have := h₂.inside
    rw [h₁.buffer] at this
    exact this (h₁.inside h)
  · rw [hr₂, hr₁, List.append_assoc]
  · intro x hx
    rcases List.mem_append.mp hx with hx | hx
    · exact ⟨Nat.le_trans hle (hin₂ x hx).1, (hin₂ x hx).2⟩
    · exact hin₁ x hx

def view : View Packet UInt8 where
  unread := unread
  ok := fun p => p.readIndex ≤ p.buffer.length
  moved := Moved
  moved_refl := Moved.refl
  moved_trans := Moved.trans
  moved_ok := fun h hp => by rw [h.buffer]; exact h.inside hp

theorem assert_ok {n : Nat} {p : Packet} (h : p.readIndex + n ≤ p.buffer.length) :
    assertBytesRemaining n p = .ok () p := by
  have : (p.readIndex + n) % 2 ^ 64 ≤ p.readIndex + n := Nat.mod_le _ _
  exact if_neg (by omega)

theorem copyOut_ok {n : Nat} {p : Packet} (h : p.readIndex + n ≤ p.buffer.length) :
    copyOut n p = .ok (p.unread.take n) (p.advance n) := if_pos h

theorem moved_advance {n : Nat} {p : Packet} (h : p.readIndex + n ≤ p.buffer.length) : Moved p (p.advance n) := by
  refine ⟨rfl, by simp [advance], fun _ => h, [(p.readIndex, n)], rfl, ?_⟩
  intro r hr
  rw [List.mem_singleton.mp hr]
  exact ⟨Nat.le_refl _, h⟩

@[simp] theorem unread_advance (n : Nat) (p : Packet) : (p.advance n).unread = p.unread.drop n := by
  simp [unread, advance, Nat.add_comm]

theorem extractRaw_ok {n : Nat} {p : Packet} (h : p.readIndex + n ≤ p.buffer.length) :
    extractRaw n p = .ok (p.unread.take n) (p.advance n) := (bind_ok (assert_ok h)).trans (copyOut_ok h)

theorem extractRaw_reads (s : Bytes) : view.Reads (extractRaw s.length) s (· = s) := by
  intro p rest hp hs
  have hlen := congrArg List.length hs
  change p.readIndex ≤ p.buffer.length at hp
  simp only [view, unread, List.length_drop, List.length_append] at hlen
  have hle : p.readIndex + s.length ≤ p.buffer.length := by omega
  change p.unread = s ++ rest at hs
  refine ⟨_, _, extractRaw_ok hle, ?_, ?_, moved_advance hle⟩
  · rw [hs, List.take_left']; rfl
  · change unread _ = rest
    rw [unread_advance, hs, List.drop_left' rfl]

/-! ## What was packed is read back -/

theorem number_reads {f : Nat → α} {w n : Nat} {s : Bytes} (hs : s = be w n) (hn : n < 256 ^ w) :
    view.Reads (do let b ← extractRaw w; pure (f (ofBe b))) s (· = f n) := by
  subst hs
  have h := extractRaw_reads (be w n)
  rw [be_length] at h
  refine h.bind_pure fun b hb => ?_
  rw [hb, ofBe_be hn]

theorem unpackUInt32_reads {n : Nat} (hn : n < 2 ^ 32) :
    view.Reads unpackUInt32 (be 4 n) (· = UInt32.ofNat n) :=
  number_reads (f := UInt32.ofNat) rfl hn

/-- What a count announces is read after it. -/
theorem prefixed_reads {n : Nat} {s : Bytes} {Q : α → Prop} {f : Nat → Extract α} (hn : n < 2 ^ 32)
    (h : view.Reads (f n) s Q) :
    view.Reads (do let length ← unpackUInt32; f length.toNat) (prefixed n s) Q := by
  refine (unpackUInt32_reads hn).bind fun length hl => ?_
  rwa [hl, UInt32.toNat_ofNat', Nat.mod_eq_of_lt hn]

theorem bool_reads (b : Bool) :
    view.Reads (do let c ← extractRaw 1; toBool c) [if b then 1 else 0] (· = b) := by
  have h := (extractRaw_reads [if b then 1 else 0]).bind (t := []) (f := toBool) (Q := (· = b)) fun c hc => by
    rw [hc]
    cases b <;> exact Reads.pure rfl
  rwa [List.append_nil] at h

theorem forall₂_replicate {r : α → β → Prop} {x : α} {ys : List β} (h : ∀ y ∈ ys, r x y) :
    List.Forall₂ r (List.replicate ys.length x) ys := by
  induction ys with
  | nil => exact .nil
  | cons y ys ih => exact .cons (h y List.mem_cons_self) (ih fun z hz => h z (List.mem_cons_of_mem _ hz))

/-- Two entries of maps that `operator==` does not tell apart, the keys being plain. -/
def SameEntry (k v : Ty) (e f : Val k × Val v) : Prop := e.1 = f.1 ∧ Val.eq v e.2 f.2 = true

theorem sameEntry_eq {k v : Ty} (hk : k.plain = true) {e f : Val k × Val v} (h : SameEntry k v e f) :
    (Val.eq k e.1 f.1 && Val.eq v e.2 f.2) = true := by
  rw [Bool.and_eq_true]
  exact ⟨(Val.eq_plain hk _ _).mpr h.1, h.2⟩

theorem forall₂_mem {r : α → β → Prop} {xs : List α} {ys : List β} (h : List.Forall₂ r xs ys) {y : β}
    (hy : y ∈ ys) : ∃ x ∈ xs, r x y := by
  induction h with
  | nil => simp at hy
  | cons hr _ ih =>
    rcases List.mem_cons.mp hy with rfl | hy
    · exact ⟨_, List.mem_cons_self, hr⟩
    · obtain ⟨x, hx, hr⟩ := ih hy
      exact ⟨x, List.mem_cons_of_mem _ hx, hr⟩

/-- The entries read so far, in the order read: what the map holds are the same. -/
def Refilled (k v : Ty) (us m : List (Val k × Val v)) : Prop := List.Forall₂ (SameEntry k v) us m

/-- The same entries in any order. -/
def Scattered (k v : Ty) (us m : List (Val k × Val v)) : Prop := ∃ m', m'.Perm m ∧ Refilled k v us m'

theorem Refilled.emplace {k v : Ty} {us m : List (Val k × Val v)} {w e : Val k × Val v}
    (h : Refilled k v us m) (hlt : ∀ u ∈ us, Val.less k u.1 w.1 = true) (he : SameEntry k v w e) :
    Refilled k v (us ++ [w]) (Val.emplaceOrdered k e m) := by
  rw [Val.emplaceOrdered_last]
  · exact List.rel_append h (.cons he .nil)
  · intro f hf
    obtain ⟨u, hu, huf⟩ := forall₂_mem h hf
    rw [← huf.1, ← he.1]
    exact hlt u hu

theorem Scattered.emplace {hash : Hashing} {k v : Ty} (hk : k.plain = true) {us m : List (Val k × Val v)}
    {w e : Val k × Val v} (h : Scattered k v us m) (hne : ∀ u ∈ us, u.1 ≠ w.1) (he : SameEntry k v w e) :
    Scattered k v (us ++ [w]) (hash.emplace e m) := by
  obtain ⟨m', hperm, hm'⟩ := h
  have hnew : (m.any fun f => Val.eq k f.1 e.1) = false := by
    rw [List.any_eq_false]
    intro f hf heq
    rw [Val.eq_plain hk] at heq
    obtain ⟨u, hu, huf⟩ := forall₂_mem hm' (hperm.mem_iff.mpr hf)
    exact hne u hu (by rw [huf.1, heq, he.1])
  refine ⟨m' ++ [e], ?_, List.rel_append hm' (.cons he .nil)⟩
  rw [Hashing.emplace, hnew]
  exact (List.perm_append_singleton e m').trans ((hperm.cons e).trans (hash.place_perm e m).symm)

theorem Scattered.eq {k v : Ty} (hk : k.plain = true) {us m : List (Val k × Val v)} (h : Scattered k v us m) :
    Val.eq (.umap k v) us m = true := by
  obtain ⟨m', hperm, hm'⟩ := h
  simp only [Val.eq, Bool.and_eq_true, beq_iff_eq, List.all_eq_true, List.any_eq_true]
  refine ⟨hm'.length_eq.trans hperm.length_eq, fun u hu => ?_⟩
  obtain ⟨f, hf, huf⟩ := forall₂_mem hm'.flip hu
  exact ⟨f, hperm.mem_iff.mp hf, by simpa using sameEntry_eq hk huf⟩

/-- The text of a list of distinct or ascending entries, read back entry by entry into
    a map: `I` holds of the entries read and of the map. -/
theorem entries_reads {hash : Hashing} {k v : Ty} (hk : k.plain = true) {m : List (Val k × Val v)}
    (ihk : ∀ x, Packable k x → view.Reads (unpack hash k (Val.default k)) (encode k x) (Val.eq k x · = true))
    (ihv : ∀ x, Packable v x → view.Reads (unpack hash v (Val.default v)) (encode v x) (Val.eq v x · = true))
    (hm : ∀ e ∈ m, Packable k e.1 ∧ Packable v e.2)
    (put : Val k × Val v → List (Val k × Val v) → List (Val k × Val v))
    {I : List (Val k × Val v) → List (Val k × Val v) → Prop} (h0 : I [] [])
    (hput : ∀ us w, us ++ [w] <+: m → ∀ acc e, I us acc → SameEntry k v w e → I (us ++ [w]) (put e acc)) :
    view.Reads
      (iterate (fun acc => do
        let x ← unpack hash k (Val.default k)
        let y ← unpack hash v (Val.default v)
        pure (put (x, y) acc)) m.length [])
      (m.flatMap fun e => encode k e.1 ++ encode v e.2) (I m) := by
  refine Reads.iterate (I := I) m [] h0 fun us w hw _ acc hacc => ?_
  have hwm : w ∈ m := hw.subset (by simp)
  refine (ihk w.1 (hm w hwm).1).bind fun x hx => ?_
  refine (ihv w.2 (hm w hwm).2).bind_pure fun y hy => ?_
  exact hput us w hw acc (x, y) hacc ⟨(Val.eq_plain hk _ _).mp hx, hy⟩

theorem pairwise_last {r : α → α → Prop} {us xs : List α} {w : α} (h : xs.Pairwise r) (hw : us ++ [w] <+: xs) :
    ∀ u ∈ us, r u w := by
  obtain ⟨rest, rfl⟩ := hw
  have h := (List.pairwise_append.mp h).1
  exact fun u hu => (List.pairwise_append.mp h).2.2 u hu w (by simp)

/-- Wherever the unread part starts with the text of a packable value, extraction into a
    default-constructed object takes exactly that text and gives that value back. -/
theorem unpack_reads (hash : Hashing) (t : Ty) (v : Val t) (hv : Packable t v) :
    view.Reads (unpack hash t (Val.default t)) (encode t v) (Val.eq t v · = true) := by
  induction t with
  | bool => exact (bool_reads v).mono fun w hw => by rw [hw]; exact beq_self_eq_true v
  | u8 =>
    have hs : encode .u8 v = be 1 v.toNat := by simp [encode, be]
    refine (number_reads (f := UInt8.ofNat) hs v.toNat_lt).mono fun w hw => ?_
    rw [hw, UInt8.ofNat_toNat]; exact beq_self_eq_true v
  | u16 =>
    refine (number_reads (f := UInt16.ofNat) rfl v.toNat_lt).mono fun w hw => ?_
    rw [hw, UInt16.ofNat_toNat]; exact beq_self_eq_true v
  | u32 =>
    refine (unpackUInt32_reads v.toNat_lt).mono fun w hw => ?_
    rw [hw, UInt32.ofNat_toNat]; exact beq_self_eq_true v
  | u64 =>
    refine (number_reads (f := UInt64.ofNat) rfl v.toNat_lt).mono fun w hw => ?_
    rw [hw, UInt64.ofNat_toNat]; exact beq_self_eq_true v
  | i16 =>
    refine (number_reads (f := fun n => (UInt16.ofNat n).toInt16) rfl v.toUInt16.toNat_lt).mono fun w hw => ?_
    rw [hw, UInt16.ofNat_toNat, Int16.toInt16_toUInt16]; exact beq_self_eq_true v
  | i32 =>
    refine (number_reads (f := fun n => (UInt32.ofNat n).toInt32) rfl v.toUInt32.toNat_lt).mono fun w hw => ?_
    rw [hw, UInt32.ofNat_toNat, Int32.toInt32_toUInt32]; exact beq_self_eq_true v
  | i64 =>
    refine (number_reads (f := fun n => (UInt64.ofNat n).toInt64) rfl v.toUInt64.toNat_lt).mono fun w hw => ?_
    rw [hw, UInt64.ofNat_toNat, Int64.toInt64_toUInt64]; exact beq_self_eq_true v
  | str =>
    refine (prefixed_reads hv (extractRaw_reads v)).mono fun w hw => ?_
    rw [hw]; exact beq_self_eq_true v
  | pair a b iha ihb =>
    refine (iha v.1 hv.1).bind fun x hx => ?_
    refine (ihb v.2 hv.2).bind_pure fun y hy => ?_
    rw [Val.eq, Bool.and_eq_true]
    exact ⟨hx, hy⟩
  | vec t ih =>
    obtain ⟨hlen, hall⟩ := hv
    refine (prefixed_reads (f := fun n => (resize t n []).mapM (unpack hash t)) hlen ?_).mono
      fun w hw => Val.isEqv_iff.mpr hw
    have hresize : resize t v.length [] = List.replicate v.length (Val.default t) := by simp [resize]
    rw [hresize]
    exact Reads.mapM (forall₂_replicate fun x hx => ih x (hall x hx))
  | map k b ihk ihb =>
    obtain ⟨hk, hlen, hall, hord⟩ := hv
    have h := entries_reads (I := Refilled k b) hk ihk ihb hall (Val.emplaceOrdered k) .nil
      fun us w hw acc e hacc he => hacc.emplace (pairwise_last hord hw) he
    refine (prefixed_reads (f := fun n => iterate _ n []) hlen h).mono fun w hw => ?_
    exact Val.isEqv_iff.mpr (hw.imp fun _ _ he => sameEntry_eq hk he)
  | umap k b ihk ihb =>
    obtain ⟨hk, hlen, hall, hdist⟩ := hv
    have h := entries_reads (I := Scattered k b) hk ihk ihb hall hash.emplace ⟨[], .nil, .nil⟩
      fun us w hw acc e hacc he => hacc.emplace hk (pairwise_last hdist hw) he
    refine (prefixed_reads (f := fun n => iterate _ n []) hlen h).mono fun w hw => ?_
    exact hw.eq hk

end Packet

end Frnetlib
