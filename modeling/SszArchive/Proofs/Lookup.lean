import Mathlib.Data.List.Nodup
import SszArchive.Proofs.Version
import SszArchive.Version.Lookup

/-!
What the look-ups of a version find. By node there is one slice or none. By offset there is the
slice with the greatest start that is not above it, which covers the offset unless this lies
behind the end; and what it covers is what stands there in the full encoding.
-/

namespace SszArchive.Version

variable {v : Version} {s : Slice} {g : GIndex} {offset : UInt64}

/-! ## By node -/

theorem eq_of_node (v : Version) {s t : Slice} (hs : s ∈ v.slices) (ht : t ∈ v.slices)
    (h : s.node = t.node) : s = t :=
  List.inj_on_of_nodup_map v.wellFormed.distinct hs ht h

/-- The position of a node is where its slice stands. -/
theorem position?_eq_some_iff {i : Nat} :
    v.position? g = some i ↔ ∃ s, v.slices[i]? = some s ∧ s.node = g := by
  rw [position?, List.findIdx?_eq_some_iff_getElem]
  constructor
  · rintro ⟨h, hnode, -⟩
    exact ⟨v.slices[i], List.getElem?_eq_getElem h, by simpa using hnode⟩
  · rintro ⟨s, hs, rfl⟩
    obtain ⟨h, rfl⟩ := List.getElem?_eq_some_iff.1 hs
    refine ⟨h, by simp, fun j hj he => ?_⟩
    have hnodes : (v.slices.map Slice.node)[j]? = (v.slices.map Slice.node)[i]? := by
      rw [List.getElem?_map, List.getElem?_map, List.getElem?_eq_getElem (Nat.lt_trans hj h),
        List.getElem?_eq_getElem h]
      exact congrArg some (by simpa using he)
    have hlt : j < (v.slices.map Slice.node).length := by
      rw [List.length_map]
      exact Nat.lt_trans hj h
    exact Nat.ne_of_lt hj ((List.getElem?_inj hlt v.wellFormed.distinct).1 hnodes)

theorem has_eq_isSome (v : Version) (g : GIndex) : v.has g = (v.position? g).isSome := by
  rw [position?, List.findIdx?_isSome, has]

theorem find?_node_eq_some_iff :
    v.slices.find? (·.node == g) = some s ↔ s ∈ v.slices ∧ s.node = g := by
  constructor
  · intro h
    exact ⟨List.mem_of_find?_eq_some h, by simpa using List.find?_some h⟩
  · rintro ⟨hs, rfl⟩
    cases h : v.slices.find? (·.node == s.node) with
    | some t =>
      have hnode : t.node = s.node := by simpa using List.find?_some h
      rw [v.eq_of_node (List.mem_of_find?_eq_some h) hs hnode]
    | none => exact absurd (List.find?_eq_none.1 h s hs) (by simp)

theorem sliceAt_eq_ok_iff : v.sliceAt g = .ok s ↔ s ∈ v.slices ∧ s.node = g := by
  rw [← find?_node_eq_some_iff, sliceAt]
  cases v.slices.find? (·.node == g) <;> simp

theorem sliceAt_eq_error_iff {e : LookupFault} :
    v.sliceAt g = .error e ↔ e = .atNode g ∧ ∀ s ∈ v.slices, s.node ≠ g := by
  have hnone : v.slices.find? (·.node == g) = none ↔ ∀ s ∈ v.slices, s.node ≠ g := by
    simp [List.find?_eq_none]
  rw [← hnone, sliceAt]
  cases v.slices.find? (·.node == g) <;> simp [eq_comm]

/-! ## By offset -/

theorem offsets_lt (v : Version) :
    v.slices.Pairwise fun a b => a.offset.toNat < b.offset.toNat :=
  v.wellFormed.contiguous.offsets_lt v.wellFormed.nonempty

theorem eq_of_offset (v : Version) {s t : Slice} (hs : s ∈ v.slices) (ht : t ∈ v.slices)
    (h : s.offset = t.offset) : s = t := by
  refine List.inj_on_of_nodup_map (f := fun s : Slice => s.offset.toNat) ?_ hs ht (by rw [h])
  exact List.pairwise_map.2 (v.offsets_lt.imp Nat.ne_of_lt)

/-- `s` has the greatest start that is not above `offset`. -/
def Precedes (v : Version) (offset : UInt64) (s : Slice) : Prop :=
  s ∈ v.slices ∧ s.offset ≤ offset ∧ ∀ t ∈ v.slices, t.offset ≤ offset → t.offset ≤ s.offset

theorem precedes_of_offset_eq (hs : s ∈ v.slices) (h : s.offset = offset) :
    v.Precedes offset s := by
  subst h
  exact ⟨hs, UInt64.le_refl _, fun _ _ hle => hle⟩

theorem Precedes.unique {t : Slice} (hs : v.Precedes offset s) (ht : v.Precedes offset t) :
    s = t := by
  obtain ⟨hsv, hsle, hsgreatest⟩ := hs
  obtain ⟨htv, htle, htgreatest⟩ := ht
  exact v.eq_of_offset hsv htv
    (UInt64.le_antisymm (htgreatest s hsv hsle) (hsgreatest t htv htle))

/-- The slices come in the order of their offsets, so the last of those that start low enough has
the greatest offset of them. -/
theorem precedes_of_getLast? (h : (v.slices.filter (·.offset ≤ offset)).getLast? = some s) :
    v.Precedes offset s := by
  have hmem : ∀ t, t ∈ v.slices.filter (·.offset ≤ offset) ↔ t ∈ v.slices ∧ t.offset ≤ offset :=
    fun t => by simp
  obtain ⟨hs, hle⟩ := (hmem s).1 (List.mem_of_getLast? h)
  refine ⟨hs, hle, fun t ht htle => ?_⟩
  obtain ⟨front, hfront⟩ := List.getLast?_eq_some_iff.1 h
  have hlt := v.offsets_lt.sublist (List.filter_sublist (p := (·.offset ≤ offset)))
  have ht := (hmem t).2 ⟨ht, htle⟩
  rw [hfront] at hlt ht
  rcases List.mem_append.1 ht with ht | ht
  · exact UInt64.le_of_lt (UInt64.lt_iff_toNat_lt.2
      ((List.pairwise_append.1 hlt).2.2 t ht s (List.mem_singleton_self s)))
  · obtain rfl := List.mem_singleton.1 ht
    exact UInt64.le_refl _

theorem slicePreceding_eq_ok_iff : v.slicePreceding offset = .ok s ↔ v.Precedes offset s := by
  rw [slicePreceding]
  constructor
  · intro h
    split at h
    · next hlast =>
      cases h
      exact precedes_of_getLast? hlast
    · cases h
  · intro hs
    split
    · next t hlast => rw [hs.unique (precedes_of_getLast? hlast)]
    · next hnone =>
      have hmem : s ∈ v.slices.filter (·.offset ≤ offset) :=
        List.mem_filter.2 ⟨hs.1, decide_eq_true hs.2.1⟩
      rw [List.getLast?_eq_none_iff.1 hnone] at hmem
      cases hmem

/-- Every slice starts behind the offset when the first one does. -/
theorem forall_offset_lt_iff :
    (∀ s ∈ v.slices, offset < s.offset) ↔ v.slices = [] ∨ offset < v.start := by
  constructor
  · intro hall
    cases hfirst : v.slices.head? with
    | none => exact .inl (List.head?_eq_none_iff.1 hfirst)
    | some s =>
      have hs := hall s (List.mem_of_head? hfirst)
      rw [UInt64.lt_iff_toNat_lt, offset_of_head? hfirst] at hs
      exact .inr (UInt64.lt_iff_toNat_lt.2 hs)
  · rintro (hempty | hlt) s hs
    · rw [hempty] at hs
      cases hs
    · rw [UInt64.lt_iff_toNat_lt] at hlt ⊢
      exact Nat.lt_of_lt_of_le hlt (start_le hs)

theorem slicePreceding_eq_error_iff {e : LookupFault} :
    v.slicePreceding offset = .error e ↔
      e = .atOffset offset ∧ (v.slices = [] ∨ offset < v.start) := by
  have hnone : (v.slices.filter (·.offset ≤ offset)).getLast? = none ↔
      v.slices = [] ∨ offset < v.start := by
    rw [List.getLast?_eq_none_iff, List.filter_eq_nil_iff, ← forall_offset_lt_iff]
    simp only [decide_eq_true_iff, UInt64.not_le]
  rw [slicePreceding, ← hnone]
  cases (v.slices.filter (·.offset ≤ offset)).getLast? <;> simp [eq_comm]

theorem contains_iff :
    s.contains offset = true ↔ s.offset.toNat ≤ offset.toNat ∧ offset.toNat < s.stop :=
  decide_eq_true_iff

/-- The slice that covers an offset is the one that precedes it. -/
theorem precedes_of_contains (hs : s ∈ v.slices) (h : s.contains offset = true) :
    v.Precedes offset s := by
  obtain ⟨hlow, hhigh⟩ := contains_iff.1 h
  refine ⟨hs, UInt64.le_iff_toNat_le.2 hlow, fun t ht hle => ?_⟩
  rw [UInt64.le_iff_toNat_le] at hle ⊢
  obtain ⟨front, back, hsplit⟩ := List.append_of_mem hs
  have hstops := v.wellFormed.contiguous.stops_le
  rw [hsplit] at ht hstops
  obtain ⟨-, hback, hfront⟩ := List.pairwise_append.1 hstops
  rcases List.mem_append.1 ht with ht | ht
  · have hts := hfront t ht s (List.mem_cons_self ..)
    rw [Slice.stop] at hts
    omega
  · rcases List.mem_cons.1 ht with rfl | ht
    · exact Nat.le_refl _
    · have hst := (List.pairwise_cons.1 hback).1 t ht
      omega

theorem sliceCovering_eq_ok_iff :
    v.sliceCovering offset = .ok s ↔ s ∈ v.slices ∧ s.contains offset = true := by
  rw [sliceCovering]
  constructor
  · intro h
    split at h
    · next t ht =>
      split at h
      · next hcontains =>
        cases h
        exact ⟨(slicePreceding_eq_ok_iff.1 ht).1, hcontains⟩
      · cases h
    · cases h
  · rintro ⟨hs, hcontains⟩
    rw [slicePreceding_eq_ok_iff.2 (precedes_of_contains hs hcontains)]
    exact if_pos hcontains

theorem exists_sliceCovering_iff :
    (∃ s, v.sliceCovering offset = .ok s) ↔
      v.start.toNat ≤ offset.toNat ∧ offset.toNat < v.stop := by
  simp only [sliceCovering_eq_ok_iff, contains_iff]
  constructor
  · rintro ⟨s, hs, hlow, hhigh⟩
    have hstart := start_le hs
    have hstop := stop_le hs
    omega
  · rintro ⟨hlow, hhigh⟩
    exact v.wellFormed.contiguous.exists_covering (fun _ => offset_of_head?) hlow hhigh

/-! ## Bytes -/

/-- In the full encoding the bytes of a slice stand at its offset. -/
theorem getElem?_bytes {n : Nat} (hs : s ∈ v.slices) (hlow : s.offset.toNat ≤ n)
    (hhigh : n < s.stop) : v.bytes[n - v.start.toNat]? = s.bytes[n - s.offset.toNat]? := by
  obtain ⟨front, back, hsplit⟩ := List.append_of_mem hs
  have hfront := length_flatMap_bytes front
  have hoffset := offset_eq hsplit
  rw [Slice.stop, Slice.length] at hhigh
  have hplace : n - v.start.toNat =
      (front.flatMap Slice.bytes).length + (n - s.offset.toNat) := by omega
  rw [bytes, hsplit, List.flatMap_append, List.flatMap_cons, hplace,
    List.getElem?_append_right (Nat.le_add_right ..), Nat.add_sub_cancel_left,
    List.getElem?_append_left (by omega)]

end SszArchive.Version
