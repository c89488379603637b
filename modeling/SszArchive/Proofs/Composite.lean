import Mathlib.Data.List.Perm.Subperm
import SszArchive.Proofs.Lookup
import SszArchive.Proofs.Scope
import SszArchive.Schema.Composite

/-!
When a composite of schemas reproduces its target: exactly when at each level every node is picked
by one part. A node that is missed or picked twice never goes unnoticed.
-/

namespace SszArchive

/-! ## Outcomes under a condition -/

/-- The outcome is `a` when `p` holds and a fault otherwise. -/
def OkIff (p : Prop) (outcome : Except ε α) (a : α) : Prop :=
  (p → outcome = .ok a) ∧ (¬ p → ∃ e, outcome = .error e)

namespace OkIff

variable {p q : Prop} {x : Except ε α} {f : α → Except ε β} {a : α} {b : β}

theorem bind (hx : OkIff p x a) (hf : OkIff q (f a) b) : OkIff (p ∧ q) (x.bind f) b := by
  constructor
  · rintro ⟨hp, hq⟩
    rw [hx.1 hp]
    exact hf.1 hq
  · intro hn
    by_cases hp : p
    · rw [hx.1 hp]
      exact hf.2 fun hq => hn ⟨hp, hq⟩
    · obtain ⟨e, he⟩ := hx.2 hp
      rw [he]
      exact ⟨e, rfl⟩

theorem map (hx : OkIff p x a) (g : α → β) : OkIff p (x.map g) (g a) := by
  constructor
  · intro hp
    rw [hx.1 hp]
    rfl
  · intro hp
    obtain ⟨e, he⟩ := hx.2 hp
    rw [he]
    exact ⟨e, rfl⟩

theorem ok_iff (hx : OkIff p x a) : x = .ok a ↔ p := by
  refine ⟨fun h => ?_, hx.1⟩
  by_contra hp
  obtain ⟨e, he⟩ := hx.2 hp
  rw [h] at he
  cases he

end OkIff

namespace Composite

/-! ## Sorting by offset -/

theorem insertByOffset_perm (s : Slice) (slices : List Slice) :
    (insertByOffset s slices).Perm (s :: slices) := by
  induction slices with
  | nil => exact .refl _
  | cons t rest ih =>
    rw [insertByOffset]
    split
    · exact .refl _
    · exact (ih.cons t).trans (.swap s t rest)

theorem sortByOffset_perm (slices : List Slice) : (sortByOffset slices).Perm slices := by
  induction slices with
  | nil => exact .nil
  | cons s rest ih => exact (insertByOffset_perm s (sortByOffset rest)).trans (ih.cons s)

private theorem pairwise_insertByOffset (s : Slice) {slices : List Slice}
    (h : slices.Pairwise fun a b => a.offset ≤ b.offset) :
    (insertByOffset s slices).Pairwise fun a b => a.offset ≤ b.offset := by
  induction slices with
  | nil => exact List.pairwise_singleton _ s
  | cons t rest ih =>
    obtain ⟨hfirst, hrest⟩ := List.pairwise_cons.1 h
    rw [insertByOffset]
    split
    · next hst =>
      refine h.cons fun u hu => ?_
      rcases List.mem_cons.1 hu with rfl | hu
      · exact hst
      · exact UInt64.le_trans hst (hfirst u hu)
    · next hst =>
      refine (ih hrest).cons fun u hu => ?_
      rcases List.mem_cons.1 ((insertByOffset_perm s rest).subset hu) with rfl | hu
      · exact UInt64.le_of_lt (UInt64.not_le.1 hst)
      · exact hfirst u hu

theorem pairwise_sortByOffset (slices : List Slice) :
    (sortByOffset slices).Pairwise fun a b => a.offset ≤ b.offset := by
  induction slices with
  | nil => exact .nil
  | cons s rest ih => exact pairwise_insertByOffset s ih

/-- The slices of a version, in any order, are sorted back into that version. -/
theorem sortByOffset_of_perm {slices : List Slice} {v : Version} (h : slices.Perm v.slices) :
    sortByOffset slices = v.slices := by
  have hsorted : v.slices.Pairwise fun a b => a.offset ≤ b.offset :=
    v.offsets_lt.imp fun hab => UInt64.le_of_lt (UInt64.lt_iff_toNat_lt.2 hab)
  have hperm := (sortByOffset_perm slices).trans h
  exact List.Perm.eq_of_pairwise (fun a b ha hb hab hba =>
      v.eq_of_offset (hperm.subset ha) hb (UInt64.le_antisymm hab hba))
    (pairwise_sortByOffset slices) hsorted hperm

/-! ## Merging -/

theorem merge_of_perm {slices : List Slice} {target : Version} (h : slices.Perm target.slices) :
    merge slices target.start (UInt64.ofNat target.totalLength) = .ok target := by
  have hslices : Version.ofSlices (sortByOffset slices) = .ok target :=
    Version.ofSlices_eq_ok_iff.2 (sortByOffset_of_perm h).symm
  simp only [merge, hslices, target.toNat_totalLength, and_self, if_true]

/-- Slices of the target that make a version as long as the target are all of them. -/
theorem perm_of_merge {slices : List Slice} {target v : Version} {start : UInt64}
    (hslices : slices ⊆ target.slices)
    (h : merge slices start (UInt64.ofNat target.totalLength) = .ok v) :
    slices.Perm target.slices := by
  rw [merge] at h
  cases hmerged : Version.ofSlices (sortByOffset slices) with
  | error e =>
    rw [hmerged] at h
    cases h
  | ok merged =>
    rw [hmerged, target.toNat_totalLength] at h
    have hsorted : merged.slices.Perm slices :=
      Version.ofSlices_eq_ok_iff.1 hmerged ▸ sortByOffset_perm slices
    have hlength : merged.totalLength = target.totalLength := by
      by_contra hne
      simp [hne] at h
    have hnodup : slices.Nodup :=
      hsorted.nodup_iff.1 (List.Nodup.of_map _ merged.wellFormed.distinct)
    obtain ⟨picked, hpicked, hsub⟩ := List.subperm_of_subset hnodup hslices
    have hsize : totalSize (picked.map Slice.length) = totalSize (target.slices.map Slice.length) := by
      rw [totalSize_perm ((hpicked.trans hsorted.symm).map Slice.length)]
      exact hlength
    rw [← eq_of_sublist_of_totalSize hsub target.wellFormed.nonempty hsize]
    exact hpicked.symm

/-! ## Counting -/

/-- Every node of the version is picked by exactly one of the selectors. -/
def PickedOnce (selectors : List Selector) (v : Version) : Prop :=
  ∀ s ∈ v.slices, selectors.countP (·.selects s.node) = 1

/-- What the selectors pick, one after another. -/
def pickedBy (selectors : List Selector) (v : Version) : List Slice := selectors.flatMap v.picked

theorem pickedBy_subset (selectors : List Selector) (v : Version) :
    pickedBy selectors v ⊆ v.slices := by
  intro s hs
  obtain ⟨selector, -, hs⟩ := List.mem_flatMap.1 hs
  exact List.mem_of_mem_filter hs

theorem count_pickedBy (selectors : List Selector) (v : Version) (s : Slice) :
    (pickedBy selectors v).count s =
      selectors.countP (·.selects s.node) * v.slices.count s := by
  induction selectors with
  | nil => simp [pickedBy]
  | cons selector selectors ih =>
    have hpicked : (v.picked selector).count s =
        if selector.selects s.node then v.slices.count s else 0 := by
      by_cases hs : selector.selects s.node = true
      · rw [if_pos hs]
        exact List.count_filter hs
      · rw [if_neg hs, List.count_eq_zero]
        exact fun hmem => hs (List.mem_filter.1 hmem).2
    have hcons : pickedBy (selector :: selectors) v =
        v.picked selector ++ pickedBy selectors v := rfl
    rw [hcons, List.count_append, hpicked, ih, List.countP_cons, Nat.add_mul, Nat.add_comm]
    split <;> simp

theorem pickedBy_perm_iff (selectors : List Selector) (v : Version) :
    (pickedBy selectors v).Perm v.slices ↔ PickedOnce selectors v := by
  have hnodup : v.slices.Nodup := List.Nodup.of_map _ v.wellFormed.distinct
  rw [List.perm_iff_count]
  constructor
  · intro h s hs
    have hcount := h s
    rw [count_pickedBy, List.count_eq_one_of_mem hnodup hs, Nat.mul_one] at hcount
    exact hcount
  · intro h s
    rw [count_pickedBy]
    by_cases hs : s ∈ v.slices
    · rw [h s hs, Nat.one_mul]
    · rw [List.count_eq_zero_of_not_mem hs, Nat.mul_zero]

/-- **Merging what the selectors pick** gives the version back when each node is picked once, and
fails otherwise. -/
theorem merge_pickedBy (selectors : List Selector) (target : Version) :
    OkIff (PickedOnce selectors target)
      (merge (pickedBy selectors target) target.start (UInt64.ofNat target.totalLength))
      target := by
  constructor
  · intro h
    exact merge_of_perm ((pickedBy_perm_iff selectors target).2 h)
  · intro h
    cases hmerge : merge (pickedBy selectors target) target.start
      (UInt64.ofNat target.totalLength) with
    | error e => exact ⟨e, rfl⟩
    | ok v =>
      have hperm := perm_of_merge (pickedBy_subset selectors target) hmerge
      exact absurd ((pickedBy_perm_iff selectors target).1 hperm) h

end Composite

end SszArchive
