/-
  Frnetlib.Packet.Overwrite — extraction into a variable that was used before (`Packet.h`).

  A number or a string is assigned, a vector is resized and its cells extracted into in
  place; into a map or an unordered map the entries read are emplaced, which drops one
  whose key is there, and nothing is taken out of it first. So what was in the variable
  shows through exactly where it has an entry of a map that is not, as it stands, one of
  the map read over it: where it does not `fits` (`unpack_over`, `extraction_overwrites`).

  On the types that can be keys `std::less` is a strict total order (`orders_less`); an
  emplacement keeps a map sorted and is an insertion into a table (`Base.Inserted`).
-/

import Frnetlib.Base.Merge
import Frnetlib.Packet.Wire

namespace Frnetlib

open Base

namespace Val

/-! ## Keys in order -/

/-- A strict total order. -/
structure Orders (r : α → α → Bool) : Prop where
  asymm : ∀ x y, r x y = true → r y x = false
  trans : ∀ x y z, r x y = true → r y z = true → r x z = true
  total : ∀ x y, r x y = false → r y x = false → x = y

theorem Orders.irrefl {r : α → α → Bool} (h : Orders r) (x : α) : r x x = false := by
  by_contra hx
  rw [Bool.not_eq_false] at hx
  rw [h.asymm x x hx] at hx
  cases hx

theorem Orders.eq_of_not {r : α → α → Bool} (h : Orders r) {x y : α} (hxy : ¬ r x y = true) (hyx : ¬ r y x = true) :
    x = y := by
  rw [Bool.not_eq_true] at hxy hyx
  exact h.total x y hxy hyx

/-- How the comparison of two lists and of two pairs goes on behind the first component. -/
theorem Orders.first_or {r : α → α → Bool} (h : Orders r) {x y : α} {b : Bool} :
    (r x y || (!r y x && b)) = true ↔ r x y = true ∨ (x = y ∧ b = true) := by
  simp only [Bool.or_eq_true, Bool.and_eq_true, Bool.not_eq_true']
  constructor
  · intro hl
    by_cases hxy : r x y = true
    · exact .inl hxy
    · obtain ⟨hyx, hrest⟩ := hl.resolve_left hxy
      exact .inr ⟨h.eq_of_not hxy (Bool.not_eq_true _ ▸ hyx), hrest⟩
  · intro hl
    rcases hl with hxy | ⟨rfl, hrest⟩
    · exact .inl hxy
    · exact .inr ⟨h.irrefl x, hrest⟩

theorem lexLess_cons {r : α → α → Bool} (h : Orders r) {x y : α} {xs ys : List α} :
    lexLess r (x :: xs) (y :: ys) = true ↔ r x y = true ∨ (x = y ∧ lexLess r xs ys = true) := h.first_or

theorem Orders.lexLess {r : α → α → Bool} (h : Orders r) : Orders (lexLess r) := by
  refine ⟨fun xs ys => lexLess_asymm h.asymm xs ys, fun xs => ?_, fun xs => ?_⟩
  · induction xs with
    | nil =>
      intro ys zs hxy hyz
      cases ys with
      | nil => cases hxy
      | cons y ys =>
        cases zs with
        | nil => cases hyz
        | cons z zs => rfl
    | cons x xs ih =>
      intro ys zs hxy hyz
      cases ys with
      | nil => cases hxy
      | cons y ys =>
        cases zs with
        | nil => cases hyz
        | cons z zs =>
          rw [lexLess_cons h] at hxy hyz ⊢
          rcases hxy with hxy | ⟨rfl, hxs⟩
          · rcases hyz with hyz | ⟨rfl, _⟩
            · exact .inl (h.trans x y z hxy hyz)
            · exact .inl hxy
          · rcases hyz with hyz | ⟨rfl, hys⟩
            · exact .inl hyz
            · exact .inr ⟨rfl, ih ys zs hxs hys⟩
  · induction xs with
    | nil =>
      intro ys hxy hyx
      cases ys with
      | nil => rfl
      | cons y ys => cases hxy
    | cons x xs ih =>
      intro ys hxy hyx
      cases ys with
      | nil => cases hyx
      | cons y ys =>
        rw [← Bool.not_eq_true, lexLess_cons h, not_or] at hxy hyx
        obtain rfl : x = y := h.eq_of_not hxy.1 hyx.1
        have htail : xs = ys := by
          refine ih ys ?_ ?_
          · rw [← Bool.not_eq_true]
            exact fun hlt => hxy.2 ⟨rfl, hlt⟩
          · rw [← Bool.not_eq_true]
            exact fun hlt => hyx.2 ⟨rfl, hlt⟩
        rw [htail]

theorem pairLess_iff {r₁ : α → α → Bool} {r₂ : β → β → Bool} (h : Orders r₁) {x y : α × β} :
    pairLess r₁ r₂ x y = true ↔ r₁ x.1 y.1 = true ∨ (x.1 = y.1 ∧ r₂ x.2 y.2 = true) := h.first_or

theorem Orders.pairLess {r₁ : α → α → Bool} {r₂ : β → β → Bool} (h₁ : Orders r₁) (h₂ : Orders r₂) :
    Orders (pairLess r₁ r₂) := by
  refine ⟨pairLess_asymm h₁.asymm h₂.asymm, fun x y z hxy hyz => ?_, fun x y hxy hyx => ?_⟩
  · rw [pairLess_iff h₁] at hxy hyz ⊢
    rcases hxy with hxy | ⟨hxy, hsecond⟩
    · rcases hyz with hyz | ⟨hyz, _⟩
      · exact .inl (h₁.trans _ _ _ hxy hyz)
      · exact .inl (hyz ▸ hxy)
    · rcases hyz with hyz | ⟨hyz, hsecond'⟩
      · exact .inl (hxy ▸ hyz)
      · exact .inr ⟨hxy.trans hyz, h₂.trans _ _ _ hsecond hsecond'⟩
  · rw [← Bool.not_eq_true, pairLess_iff h₁, not_or] at hxy hyx
    have hfirst : x.1 = y.1 := h₁.eq_of_not hxy.1 hyx.1
    refine Prod.ext hfirst (h₂.total _ _ ?_ ?_)
    · rw [← Bool.not_eq_true]
      exact fun hlt => hxy.2 ⟨hfirst, hlt⟩
    · rw [← Bool.not_eq_true]
      exact fun hlt => hyx.2 ⟨hfirst.symm, hlt⟩

theorem orders_less {t : Ty} (ht : t.plain = true) : Orders (less t) := by
  induction t with
  | bool => exact ⟨by decide, by decide, by decide⟩
  | str =>
    refine Orders.lexLess ⟨?_, ?_, ?_⟩
    all_goals simp only [decide_eq_true_eq, decide_eq_false_iff_not]
    all_goals grind
  | pair a b iha ihb =>
    simp only [Ty.plain, Bool.and_eq_true] at ht
    exact (iha ht.1).pairLess (ihb ht.2)
  | vec t ih => exact (ih ht).lexLess
  | map k v ihk ihv =>
    simp only [Ty.plain, Bool.and_eq_true] at ht
    exact ((ihk ht.1).pairLess (ihv ht.2)).lexLess
  | umap k v => cases ht
  | _ =>
    refine ⟨?_, ?_, ?_⟩
    all_goals simp only [less, decide_eq_true_eq, decide_eq_false_iff_not]
    all_goals grind

/-! ## Emplacing -/

abbrev Ascending (k : Ty) (m : List (Val k × α)) : Prop := (keys m).Pairwise fun a b => less k a b = true

theorem Ascending.nodup {k : Ty} {m : List (Val k × α)} (h : Ascending k m) : (keys m).Nodup := by
  refine h.imp fun {a b} hlt heq => ?_
  subst heq
  rw [less_asymm a a hlt] at hlt
  cases hlt

theorem emplaceOrdered_inserted {k : Ty} (hk : k.plain = true) {m : List (Val k × α)} (h : Ascending k m)
    (e : Val k × α) : Inserted e m (emplaceOrdered k e m) := by
  have hord := orders_less hk
  induction m with
  | nil => exact .inr ⟨List.not_mem_nil, .refl _⟩
  | cons f m ih =>
    obtain ⟨hf, hm⟩ := List.pairwise_cons.mp h
    rw [emplaceOrdered]
    by_cases hbefore : less k e.1 f.1 = true
    · -- below the first key, and so below all
      rw [if_pos hbefore]
      refine .inr ⟨fun hmem => ?_, .refl _⟩
      rcases List.mem_cons.mp hmem with heq | hmem
      · rw [heq, hord.irrefl] at hbefore
        cases hbefore
      · have hafter := hord.asymm _ _ hbefore
        rw [hf _ hmem] at hafter
        cases hafter
    · rw [if_neg hbefore]
      by_cases hafter : less k f.1 e.1 = true
      · rw [if_pos hafter]
        rcases ih hm with ⟨hmem, heq⟩ | ⟨hmem, hperm⟩
        · rw [heq]
          exact .inl ⟨List.mem_cons_of_mem _ hmem, rfl⟩
        · refine .inr ⟨fun hmem' => ?_, (hperm.cons f).trans (.swap e f m)⟩
          rcases List.mem_cons.mp hmem' with heq | hmem'
          · rw [heq, hord.irrefl] at hafter
            cases hafter
          · exact hmem hmem'
      · rw [if_neg hafter]
        have hkey : e.1 = f.1 := hord.eq_of_not hbefore hafter
        exact .inl ⟨by simp [hkey], rfl⟩

theorem emplaceOrdered_ascending {k : Ty} (hk : k.plain = true) {m : List (Val k × α)} (h : Ascending k m)
    (e : Val k × α) : Ascending k (emplaceOrdered k e m) := by
  have hord := orders_less hk
  induction m with
  | nil => simp [Ascending, emplaceOrdered]
  | cons f m ih =>
    obtain ⟨hf, hm⟩ := List.pairwise_cons.mp h
    rw [emplaceOrdered]
    by_cases hbefore : less k e.1 f.1 = true
    · rw [if_pos hbefore]
      refine List.pairwise_cons.mpr ⟨fun a ha => ?_, h⟩
      rcases List.mem_cons.mp ha with rfl | ha
      · exact hbefore
      · exact hord.trans _ _ _ hbefore (hf a ha)
    · rw [if_neg hbefore]
      by_cases hafter : less k f.1 e.1 = true
      · rw [if_pos hafter]
        refine List.pairwise_cons.mpr ⟨fun a ha => ?_, ih hm⟩
        obtain ⟨g, hg, rfl⟩ := List.mem_map.mp ha
        rcases (emplaceOrdered_inserted hk hm e).origin hg with hg | rfl
        · exact hf g.1 (mem_keys hg)
        · exact hafter
      · rw [if_neg hafter]
        exact h

end Val

theorem Hashing.emplace_inserted (hash : Hashing) {k v : Ty} (hk : k.plain = true) (e : Val k × Val v)
    (m : List (Val k × Val v)) : Inserted e m (hash.emplace e m) := by
  have hmem : (m.any fun f => Val.eq k f.1 e.1) = true ↔ e.1 ∈ keys m := by
    simp only [List.any_eq_true, Val.eq_plain hk, List.mem_map]
  rw [emplace]
  by_cases hkey : e.1 ∈ keys m
  · rw [if_pos (hmem.mpr hkey)]
    exact .inl ⟨hkey, rfl⟩
  · rw [if_neg (mt hmem.mp hkey)]
    exact .inr ⟨hkey, hash.place_perm e m⟩

/-! ## What a variable may hold, and what may stay in it -/

/-- What an object of the type satisfies: the keys of a map ascend, those of an
    unordered map are distinct. -/
def Object : (t : Ty) → Val t → Prop
  | .pair a b, x => Object a x.1 ∧ Object b x.2
  | .vec t, xs => ∀ x ∈ xs, Object t x
  | .map k v, m => (∀ e ∈ m, Object k e.1 ∧ Object v e.2) ∧ Val.Ascending k m
  | .umap k v, m => (∀ e ∈ m, Object k e.1 ∧ Object v e.2) ∧ (keys m).Nodup
  | _, _ => True

/-- Every entry of a map in `dst` equals an entry of the map in `x` that is read over it. -/
def fits : (t : Ty) → Val t → Val t → Bool
  | .pair a b, dst, x => fits a dst.1 x.1 && fits b dst.2 x.2
  | .vec t, dst, xs => (dst.zip xs).all fun p => fits t p.1 p.2
  | .map k v, dst, m => dst.all fun f => m.any fun e => Val.eq k e.1 f.1 && Val.eq v e.2 f.2
  | .umap k v, dst, m => dst.all fun f => m.any fun e => Val.eq k e.1 f.1 && Val.eq v e.2 f.2
  | _, _, _ => true

theorem object_default (t : Ty) : Object t (Val.default t) := by
  induction t with
  | pair a b iha ihb => exact ⟨iha, ihb⟩
  | vec t => exact fun x hx => absurd hx List.not_mem_nil
  | map k v => exact ⟨fun e he => absurd he List.not_mem_nil, .nil⟩
  | umap k v => exact ⟨fun e he => absurd he List.not_mem_nil, .nil⟩
  | _ => trivial

theorem fits_default (t : Ty) (x : Val t) : fits t (Val.default t) x = true := by
  induction t with
  | pair a b iha ihb =>
    rw [fits, Bool.and_eq_true]
    exact ⟨iha x.1, ihb x.2⟩
  | _ => rfl

namespace Packet

open View

/-- Two values that `operator==` does not tell apart. -/
abbrev Equal (t : Ty) (x y : Val t) : Prop := Val.eq t x y = true

theorem fits_entries {k v : Ty} (hk : k.plain = true) (dst m : List (Val k × Val v)) :
    (dst.all fun f => m.any fun e => Val.eq k e.1 f.1 && Val.eq v e.2 f.2) = true ↔
      ∀ f ∈ dst, ∃ u ∈ m, Same (Equal v) u f := by
  simp only [List.all_eq_true, List.any_eq_true, Bool.and_eq_true, Val.eq_plain hk, Same]

/-- The text of a list of entries, read back entry by entry into a table that holds `dst`. -/
theorem entries_merged (hash : Hashing) {k v : Ty} (hk : k.plain = true) {dst m : List (Val k × Val v)}
    (hm : ∀ e ∈ m, Packable k e.1 ∧ Packable v e.2) (put : Val k × Val v → List (Val k × Val v) → List (Val k × Val v))
    {P : List (Val k × Val v) → Prop} (hdst : P dst) (hput : ∀ e acc, P acc → Inserted e acc (put e acc) ∧ P (put e acc)) :
    view.Reads
      (iterate (fun acc => do
        let x ← unpack hash k (Val.default k)
        let y ← unpack hash v (Val.default v)
        pure (put (x, y) acc)) m.length dst)
      (m.flatMap fun e => encode k e.1 ++ encode v e.2) (fun w => Merged (Equal v) dst m w ∧ P w) := by
  refine Reads.iterate (I := fun us acc => Merged (Equal v) dst us acc ∧ P acc) m [] ⟨Merged.start dst, hdst⟩ ?_
  intro us u hu _ acc hacc
  have hum : u ∈ m := hu.subset (by simp)
  refine (unpack_reads hash k u.1 (hm u hum).1).bind fun x hx => ?_
  refine (unpack_reads hash v u.2 (hm u hum).2).bind_pure fun y hy => ?_
  obtain ⟨hinserted, hP⟩ := hput (x, y) acc hacc.2
  exact ⟨hacc.1.insert ⟨(Val.eq_plain hk _ _).mp hx, hy⟩ hinserted, hP⟩

theorem map_eq_iff {k v : Ty} (hk : k.plain = true) {m w : List (Val k × Val v)} (hm : Val.Ascending k m)
    (hw : Val.Ascending k w) : Val.eq (.map k v) m w = true ↔ Agree (Equal v) m w := by
  have hforall : Val.eq (.map k v) m w = true ↔ List.Forall₂ (Same (Equal v)) m w := by
    rw [Val.eq, Val.isEqv_iff]
    simp only [Bool.and_eq_true, Val.eq_plain hk]
    rfl
  rw [hforall]
  refine ⟨agree_of_forall₂, fun h => h.forall₂ (fun a b hab => ?_) hm hw⟩
  rw [Bool.not_eq_true]
  exact Val.less_asymm a b hab

theorem umap_eq_iff {k v : Ty} (hk : k.plain = true) {m w : List (Val k × Val v)} (hm : (keys m).Nodup)
    (hw : (keys w).Nodup) : Val.eq (.umap k v) m w = true ↔ Agree (Equal v) m w := by
  have hall : Val.eq (.umap k v) m w = true ↔ m.length = w.length ∧ ∀ u ∈ m, ∃ f ∈ w, Same (Equal v) u f := by
    simp only [Val.eq, Bool.and_eq_true, beq_iff_eq, List.all_eq_true, List.any_eq_true, Val.eq_plain hk, Same]
  rw [hall]
  exact ⟨fun h => agree_of_length hm hw h.1 h.2, fun h => ⟨h.length_eq hm hw, h.there⟩⟩

/-! ### The cells of a vector -/

theorem resize_cons (t : Ty) (n : Nat) (x : Val t) (xs : List (Val t)) :
    resize t (n + 1) (x :: xs) = x :: resize t n xs := by
  simp [resize]

theorem resize_nil (t : Ty) (n : Nat) : resize t (n + 1) [] = Val.default t :: resize t n [] := by
  simp [resize, List.replicate_succ]

theorem resize_length (t : Ty) (n : Nat) (xs : List (Val t)) : (resize t n xs).length = n := by
  simp only [resize, List.length_append, List.length_take, List.length_replicate]
  omega

theorem object_resize {t : Ty} {n : Nat} {dst : List (Val t)} (h : ∀ x ∈ dst, Object t x) :
    ∀ x ∈ resize t n dst, Object t x := by
  intro x hx
  rcases List.mem_append.mp hx with hx | hx
  · exact h x (List.mem_of_mem_take hx)
  · rw [List.eq_of_mem_replicate hx]
    exact object_default t

/-- The cells added are fresh; those cut off do not matter. -/
theorem fits_resize (t : Ty) (dst xs : List (Val t)) :
    fits (.vec t) dst xs = true ↔ ∀ c ∈ (resize t xs.length dst).zip xs, fits t c.1 c.2 = true := by
  rw [fits, List.all_eq_true]
  induction xs generalizing dst with
  | nil => simp
  | cons x xs ih =>
    cases dst with
    | nil =>
      have hrest := ih []
      rw [List.length_cons, resize_nil]
      simp only [List.zip_cons_cons, List.forall_mem_cons, fits_default, true_and, ← hrest]
      simp
    | cons d dst =>
      rw [List.length_cons, resize_cons]
      simp only [List.zip_cons_cons, List.forall_mem_cons, ih dst]

theorem forall₂_second {E : α → β → Prop} {F : γ × α → Prop} {cs : List (γ × α)} {ws : List β}
    (h : List.Forall₂ (fun c w => E c.2 w ↔ F c) cs ws) : List.Forall₂ E (cs.map Prod.snd) ws ↔ ∀ c ∈ cs, F c := by
  induction h with
  | nil => simp
  | cons hcell _ ih => rw [List.map_cons, List.forall₂_cons, hcell, ih, List.forall_mem_cons]

theorem forall₂_zip {p : α → α × γ → Prop} {cs : List α} {xs : List γ} (hlength : cs.length = xs.length)
    (h : ∀ c ∈ cs.zip xs, p c.1 c) : List.Forall₂ p cs (cs.zip xs) := by
  induction cs generalizing xs with
  | nil => exact .nil
  | cons c cs ih =>
    cases xs with
    | nil => cases hlength
    | cons x xs =>
      rw [List.zip_cons_cons, List.forall_mem_cons] at h
      exact .cons h.1 (ih (Nat.succ.inj hlength) h.2)

/-! ## Extraction into any object -/

/-- Wherever the unread part starts with the text of a packable value, extraction takes
    exactly that text, and leaves that value exactly when what was there before fits. -/
theorem unpack_over (hash : Hashing) (t : Ty) (x dst : Val t) (hx : Packable t x) (hdst : Object t dst) :
    view.Reads (unpack hash t dst) (encode t x) fun w => Equal t x w ↔ fits t dst x = true := by
  induction t with
  | pair a b iha ihb =>
    refine (iha x.1 dst.1 hx.1 hdst.1).bind fun y hy => ?_
    refine (ihb x.2 dst.2 hx.2 hdst.2).bind_pure fun z hz => ?_
    simp only [Equal, Val.eq, fits, Bool.and_eq_true]
    exact and_congr hy hz
  | vec t ih =>
    obtain ⟨hlen, hall⟩ := hx
    let cells := resize t x.length dst
    have hlength : cells.length = x.length := resize_length t x.length dst
    have hread : List.Forall₂ (fun cell c => view.Reads (unpack hash t cell) (encode t c.2) fun w =>
        Equal t c.2 w ↔ fits t c.1 c.2 = true) cells (cells.zip x) := by
      refine forall₂_zip hlength fun c hc => ?_
      obtain ⟨hcell, helement⟩ := List.of_mem_zip hc
      exact ih c.2 c.1 (hall c.2 helement) (object_resize hdst c.1 hcell)
    have hsecond : (cells.zip x).map Prod.snd = x := List.map_snd_zip (Nat.le_of_eq hlength.symm)
    have hcells : view.Reads (cells.mapM (unpack hash t)) ((cells.zip x).flatMap fun c => encode t c.2)
        (List.Forall₂ (fun c w => Equal t c.2 w ↔ fits t c.1 c.2 = true) (cells.zip x)) := Reads.mapM hread
    have htext : (cells.zip x).flatMap (fun c => encode t c.2) = x.flatMap (encode t) := by
      conv_rhs => rw [← hsecond, List.flatMap_map]
    rw [htext] at hcells
    refine (prefixed_reads (f := fun n => (resize t n dst).mapM (unpack hash t)) hlen hcells).mono fun w hw => ?_
    have hall := forall₂_second hw
    rw [hsecond] at hall
    rw [Equal, Val.eq, Val.isEqv_iff, fits_resize]
    exact hall
  | map k v ihk ihv =>
    obtain ⟨hk, hlen, hall, hord⟩ := hx
    have hm : Val.Ascending k x := List.pairwise_map.mpr hord
    have h := entries_merged (P := Val.Ascending k) hash hk hall (Val.emplaceOrdered k) hdst.2
      fun e acc hacc => ⟨Val.emplaceOrdered_inserted hk hacc e, Val.emplaceOrdered_ascending hk hacc e⟩
    refine (prefixed_reads (f := fun n => iterate _ n dst) hlen h).mono fun w hw => ?_
    rw [Equal, map_eq_iff hk hm hw.2, hw.1.agree_iff hm.nodup, fits, fits_entries hk]
  | umap k v ihk ihv =>
    obtain ⟨hk, hlen, hall, hdist⟩ := hx
    have hm : (keys x).Nodup := List.pairwise_map.mpr hdist
    have h := entries_merged (P := fun m => (keys m).Nodup) hash hk hall hash.emplace hdst.2
      fun e acc hacc => ⟨hash.emplace_inserted hk e acc, (hash.emplace_inserted hk e acc).nodup hacc⟩
    refine (prefixed_reads (f := fun n => iterate _ n dst) hlen h).mono fun w hw => ?_
    rw [Equal, umap_eq_iff hk hm hw.2, hw.1.agree_iff hm, fits, fits_entries hk]
  | _ => exact (unpack_reads hash _ x hx).mono fun w hw => ⟨fun _ => rfl, fun _ => hw⟩

end Packet

open Packet

/-- Of any two variables, with an encoded value at the cursor: extraction succeeds, takes
    exactly the value's bytes, and leaves that value in both exactly when what each held
    before fits it. -/
theorem extraction_overwrites (hash : Hashing) {t : Ty} {x : Val t} (hx : Packable t x) {p : Packet} {rest : Bytes}
    (hp : p.readIndex ≤ p.buffer.length) (hunread : p.unread = written t x ++ rest) {dst₁ dst₂ : Val t}
    (h₁ : Object t dst₁) (h₂ : Object t dst₂) :
    ∃ w₁ w₂ p₁ p₂, unpack hash t dst₁ p = .ok w₁ p₁ ∧ unpack hash t dst₂ p = .ok w₂ p₂ ∧
      p₁.unread = rest ∧ p₂.unread = rest ∧
      ((Equal t x w₁ ∧ Equal t x w₂) ↔ fits t dst₁ x = true ∧ fits t dst₂ x = true) := by
  rw [written_eq] at hunread
  obtain ⟨w₁, p₁, hw₁, heq₁, hrest₁, -⟩ := unpack_over hash t x dst₁ hx h₁ p rest hp hunread
  obtain ⟨w₂, p₂, hw₂, heq₂, hrest₂, -⟩ := unpack_over hash t x dst₂ hx h₂ p rest hp hunread
  exact ⟨w₁, w₂, p₁, p₂, hw₁, hw₂, hrest₁, hrest₂, and_congr heq₁ heq₂⟩

/-- A longer vector, and a map that has the entry read. -/
theorem extraction_overwrites_sample :
    let t : Ty := .pair (.vec .str) (.map .u8 .u16)
    let x : Val t := ([bytes "hi"], [(1, 258), (2, 7)])
    ∃ w₁ w₂ : Val t, Equal t x w₁ ∧ Equal t x w₂ := by
  intro t x
  have hx : Packable t x := by simp [t, x, Packable, Ty.plain, Val.less, bytes]
  have hold : Object t ([bytes "hello", bytes "old"], [(2, 7)]) := by simp [t, Object, Val.Ascending]
  have hunread : (pack t x fresh).unread = written t x ++ [] := by decide +kernel
  obtain ⟨w₁, w₂, -, -, -, -, -, -, hiff⟩ :=
    extraction_overwrites .front hx (by decide +kernel) hunread hold (object_default t)
  obtain ⟨heq₁, heq₂⟩ := hiff.mpr ⟨by decide +kernel, by decide +kernel⟩
  exact ⟨w₁, w₂, heq₁, heq₂⟩

/-- A map that has another value for the key. -/
theorem extraction_overwrites_not :
    ¬ ∀ (hash : Hashing) (t : Ty) (x dst₁ dst₂ : Val t) (p : Packet) (rest : Bytes), Packable t x → Object t dst₁ →
      Object t dst₂ → p.readIndex ≤ p.buffer.length → p.unread = written t x ++ rest →
        ∃ w₁ w₂ p₁ p₂, unpack hash t dst₁ p = .ok w₁ p₁ ∧ unpack hash t dst₂ p = .ok w₂ p₂ ∧
          Equal t x w₁ ∧ Equal t x w₂ := by
  intro h
  let t : Ty := .map .u8 .u8
  let x : Val t := [(1, 7)]
  have hx : Packable t x := by simp [t, x, Packable, Ty.plain]
  have hold : Object t [(1, 9)] := by simp [t, Object, Val.Ascending]
  have hcursor : (pack t x fresh).readIndex ≤ (pack t x fresh).buffer.length := by decide +kernel
  have hunread : (pack t x fresh).unread = written t x ++ [] := by decide +kernel
  obtain ⟨w, -, q, -, hw, -, heq, -⟩ := h .front t x [(1, 9)] [] (pack t x fresh) [] hx hold (object_default t) hcursor hunread
  rw [written_eq] at hunread
  obtain ⟨w', q', hw', hfits, -⟩ := unpack_over .front t x [(1, 9)] hx hold _ [] hcursor hunread
  obtain rfl : w = w' := (EStateM.Result.ok.inj (hw.symm.trans hw')).1
  exact absurd (hfits.mp heq) (by decide)

end Frnetlib
