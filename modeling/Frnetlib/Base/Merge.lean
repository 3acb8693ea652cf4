/-
  Frnetlib.Base.Merge — a table filled entry by entry, an entry whose key is there already
  being dropped.

  A table is the list of its entries, `Same R` two entries with one key and values that
  `R` relates. `Inserted e m m'` is one insertion; `Merged R old us m` what a table that
  held `old` holds after the entries `us` were offered to it, each with a value related
  to that of `us`. Then it agrees with `us`, each entry of the one being in the other,
  exactly when every old entry is one of `us` (`Merged.agree_iff`). Two tables that agree
  have as many entries, and are equal entry by entry if both are sorted by the key.
-/

import Mathlib.Data.List.Forall2
import Mathlib.Data.List.Nodup
import Mathlib.Data.List.Perm.Subperm
import Mathlib.Tactic.Common

namespace Frnetlib.Base

variable {κ β : Type} {R : β → β → Prop} {old us vs m m' : List (κ × β)}

def Same (R : β → β → Prop) (e f : κ × β) : Prop := e.1 = f.1 ∧ R e.2 f.2

abbrev keys (m : List (κ × β)) : List κ := m.map Prod.fst

theorem mem_keys {e : κ × β} (h : e ∈ m) : e.1 ∈ keys m := List.mem_map_of_mem h

/-- Where no key occurs twice, it tells the entries apart. -/
theorem entry_unique (h : (keys m).Nodup) {e f : κ × β} (he : e ∈ m) (hf : f ∈ m) (hkey : e.1 = f.1) : e = f :=
  List.inj_on_of_nodup_map h he hf hkey

/-! ## Filling -/

def Inserted (e : κ × β) (m m' : List (κ × β)) : Prop := (e.1 ∈ keys m ∧ m' = m) ∨ (e.1 ∉ keys m ∧ m'.Perm (e :: m))

theorem Inserted.kept {e f : κ × β} (h : Inserted e m m') (hf : f ∈ m) : f ∈ m' := by
  rcases h with ⟨_, rfl⟩ | ⟨_, hperm⟩
  · exact hf
  · exact hperm.mem_iff.mpr (List.mem_cons_of_mem _ hf)

theorem Inserted.origin {e f : κ × β} (h : Inserted e m m') (hf : f ∈ m') : f ∈ m ∨ f = e := by
  rcases h with ⟨_, rfl⟩ | ⟨_, hperm⟩
  · exact .inl hf
  · exact (List.mem_cons.mp (hperm.mem_iff.mp hf)).symm

theorem Inserted.key {e : κ × β} (h : Inserted e m m') : e.1 ∈ keys m' := by
  rcases h with ⟨hkey, rfl⟩ | ⟨_, hperm⟩
  · exact hkey
  · exact mem_keys (hperm.mem_iff.mpr List.mem_cons_self)

theorem Inserted.nodup {e : κ × β} (h : Inserted e m m') (hm : (keys m).Nodup) : (keys m').Nodup := by
  rcases h with ⟨_, rfl⟩ | ⟨hkey, hperm⟩
  · exact hm
  · exact ((hperm.map Prod.fst).nodup_iff).mpr (List.nodup_cons.mpr ⟨hkey, hm⟩)

structure Merged (R : β → β → Prop) (old us m : List (κ × β)) : Prop where
  kept : ∀ f ∈ old, f ∈ m
  origin : ∀ f ∈ m, f ∈ old ∨ ∃ u ∈ us, Same R u f
  covered : ∀ u ∈ us, u.1 ∈ keys m

theorem Merged.start (old : List (κ × β)) : Merged R old [] old :=
  ⟨fun _ hf => hf, fun _ hf => .inl hf, fun _ hu => absurd hu List.not_mem_nil⟩

theorem Merged.insert (h : Merged R old us m) {u e : κ × β} (he : Same R u e) (hm : Inserted e m m') :
    Merged R old (us ++ [u]) m' := by
  refine ⟨fun f hf => hm.kept (h.kept f hf), fun f hf => ?_, fun v hv => ?_⟩
  · rcases hm.origin hf with hf | rfl
    · rcases h.origin f hf with hold | ⟨v, hv, hvf⟩
      · exact .inl hold
      · exact .inr ⟨v, List.mem_append_left _ hv, hvf⟩
    · exact .inr ⟨u, by simp, he⟩
  · rcases List.mem_append.mp hv with hv | hv
    · obtain ⟨f, hf, hkey⟩ := List.mem_map.mp (h.covered v hv)
      rw [← hkey]
      exact mem_keys (hm.kept hf)
    · rw [List.mem_singleton.mp hv, he.1]
      exact hm.key

/-! ## What comes of it -/

/-- Each entry of the one is in the other. -/
structure Agree (R : β → β → Prop) (us m : List (κ × β)) : Prop where
  there : ∀ u ∈ us, ∃ f ∈ m, Same R u f
  back : ∀ f ∈ m, ∃ u ∈ us, Same R u f

theorem Merged.agree_iff (h : Merged R old us m) (hus : (keys us).Nodup) :
    Agree R us m ↔ ∀ f ∈ old, ∃ u ∈ us, Same R u f := by
  constructor
  · intro hagree f hf
    exact hagree.back f (h.kept f hf)
  · intro hold
    have hback : ∀ f ∈ m, ∃ u ∈ us, Same R u f := by
      intro f hf
      rcases h.origin f hf with hf | hf
      · exact hold f hf
      · exact hf
    refine ⟨fun u hu => ?_, hback⟩
    -- the entry with the key of `u` is one of `us`, and there `u` is the only one with it
    obtain ⟨f, hf, hkey⟩ := List.mem_map.mp (h.covered u hu)
    obtain ⟨v, hv, hvf⟩ := hback f hf
    obtain rfl : v = u := entry_unique hus hv hu (hvf.1.trans hkey)
    exact ⟨f, hf, hvf⟩

theorem Agree.keys_subset (h : Agree R us m) : keys us ⊆ keys m ∧ keys m ⊆ keys us := by
  constructor
  · intro a ha
    obtain ⟨u, hu, rfl⟩ := List.mem_map.mp ha
    obtain ⟨f, hf, huf⟩ := h.there u hu
    rw [huf.1]
    exact mem_keys hf
  · intro a ha
    obtain ⟨f, hf, rfl⟩ := List.mem_map.mp ha
    obtain ⟨u, hu, huf⟩ := h.back f hf
    rw [← huf.1]
    exact mem_keys hu

theorem Agree.keys_perm (h : Agree R us m) (hus : (keys us).Nodup) (hm : (keys m).Nodup) : (keys us).Perm (keys m) :=
  (List.perm_ext_iff_of_nodup hus hm).mpr fun _ => ⟨fun ha => h.keys_subset.1 ha, fun ha => h.keys_subset.2 ha⟩

theorem Agree.length_eq (h : Agree R us m) (hus : (keys us).Nodup) (hm : (keys m).Nodup) : us.length = m.length := by
  simpa using (h.keys_perm hus hm).length_eq

/-- With as many entries, it is enough to look from one side. -/
theorem agree_of_length (hus : (keys us).Nodup) (hm : (keys m).Nodup) (hlength : us.length = m.length)
    (h : ∀ u ∈ us, ∃ f ∈ m, Same R u f) : Agree R us m := by
  refine ⟨h, fun f hf => ?_⟩
  have hsub : keys us ⊆ keys m := by
    intro a ha
    obtain ⟨u, hu, rfl⟩ := List.mem_map.mp ha
    obtain ⟨g, hg, hug⟩ := h u hu
    rw [hug.1]
    exact mem_keys hg
  have hperm : (keys us).Perm (keys m) := (hus.subperm hsub).perm_of_length_le (by simp [hlength])
  obtain ⟨u, hu, hkey⟩ := List.mem_map.mp (hperm.mem_iff.mpr (mem_keys hf))
  obtain ⟨g, hg, hug⟩ := h u hu
  obtain rfl : g = f := entry_unique hm hg hf (hug.1.symm.trans hkey)
  exact ⟨u, hu, hug⟩

/-- Sorted by a relation under which no two keys can stand both ways. -/
theorem Agree.forall₂ {r : κ → κ → Prop} (h : Agree R us m) (hasymm : ∀ a b, r a b → ¬ r b a)
    (hus : (keys us).Pairwise r) (hm : (keys m).Pairwise r) : List.Forall₂ (Same R) us m := by
  have hne : ∀ {a b}, r a b → a ≠ b := by
    intro a b hab heq
    subst heq
    exact hasymm a a hab hab
  have hus' : (keys us).Nodup := hus.imp hne
  have hm' : (keys m).Nodup := hm.imp hne
  have hkeys : keys us = keys m :=
    List.Perm.eq_of_pairwise (fun a b _ _ hab hba => absurd hba (hasymm a b hab)) hus hm (h.keys_perm hus' hm')
  rw [List.forall₂_iff_get]
  refine ⟨h.length_eq hus' hm', fun i hi hi' => ?_⟩
  obtain ⟨f, hf, hsame⟩ := h.there (us.get ⟨i, hi⟩) (List.get_mem _ _)
  have hkey : (us.get ⟨i, hi⟩).1 = (m.get ⟨i, hi'⟩).1 := by
    have hget := congrArg (fun l : List κ => l[i]?) hkeys
    simpa [hi, hi'] using hget
  obtain rfl : f = m.get ⟨i, hi'⟩ := entry_unique hm' hf (List.get_mem _ _) (hsame.1.symm.trans hkey)
  exact hsame

theorem agree_of_forall₂ (h : List.Forall₂ (Same R) us m) : Agree R us m := by
  induction h with
  | nil => exact ⟨fun _ hu => absurd hu List.not_mem_nil, fun _ hf => absurd hf List.not_mem_nil⟩
  | @cons u f us m hsame _ ih =>
    constructor
    · intro v hv
      rcases List.mem_cons.mp hv with rfl | hv
      · exact ⟨f, List.mem_cons_self, hsame⟩
      · obtain ⟨g, hg, hvg⟩ := ih.there v hv
        exact ⟨g, List.mem_cons_of_mem _ hg, hvg⟩
    · intro g hg
      rcases List.mem_cons.mp hg with rfl | hg
      · exact ⟨u, List.mem_cons_self, hsame⟩
      · obtain ⟨v, hv, hvg⟩ := ih.back g hg
        exact ⟨v, List.mem_cons_of_mem _ hv, hvg⟩

end Frnetlib.Base
