import SszArchive.Selector
import SszArchive.Version

/-!
The projection of a version to the nodes that a selector picks: the same parts in the same order,
back to back from offset 0. Dropping slices never breaks an invariant.
-/

namespace SszArchive

private theorem contiguous_layOut (start : UInt64) (parts : List Part)
    (fits : start.toNat + totalSize (parts.map (·.bytes.length)) < offsetBound) :
    Contiguous (layOut start parts) ∧ ∀ s ∈ layOut start parts, s.stop < offsetBound := by
  induction parts generalizing start with
  | nil => simp [layOut, Contiguous]
  | cons p rest ih =>
    simp only [List.map_cons, totalSize] at fits
    have step := @addOffset_toNat start p.bytes.length (by omega)
    obtain ⟨joined, bounded⟩ := ih (addOffset start p.bytes.length) (by omega)
    constructor
    · cases rest with
      | nil => simp [layOut, Contiguous]
      | cons q rest => exact ⟨step, joined⟩
    · intro s hs
      rcases List.mem_cons.1 hs with rfl | hs
      · simp only [Slice.stop, Slice.length]; omega
      · exact bounded s hs

theorem wellFormed_layOut {start : UInt64} {parts : List Part}
    (nodeNonzero : ∀ p ∈ parts, p.node ≠ 0) (nonempty : ∀ p ∈ parts, p.bytes ≠ [])
    (distinct : (parts.map Part.node).Nodup)
    (fits : start.toNat + totalSize (parts.map (·.bytes.length)) < offsetBound) :
    WellFormed (layOut start parts) := by
  obtain ⟨contiguous, bounded⟩ := contiguous_layOut start parts fits
  have mem : ∀ s ∈ layOut start parts, s.part ∈ parts := fun s hs => by
    rw [← map_part_layOut start parts]; exact List.mem_map_of_mem hs
  exact ⟨fun s hs => nodeNonzero _ (mem s hs), fun s hs => nonempty _ (mem s hs), bounded,
    by rwa [map_node_layOut], contiguous⟩

private theorem offset_add_lengths_lt (s : Slice) (rest : List Slice)
    (contiguous : Contiguous (s :: rest)) (bounded : ∀ t ∈ s :: rest, t.stop < offsetBound) :
    s.offset.toNat + totalSize ((s :: rest).map Slice.length) < offsetBound := by
  induction rest generalizing s with
  | nil => simpa [totalSize, Slice.stop] using bounded s (by simp)
  | cons t rest ih =>
    have := ih t contiguous.2 (fun u hu => bounded u (List.mem_cons_of_mem s hu))
    rw [contiguous.1, Slice.stop] at this
    simp only [List.map_cons, totalSize] at this ⊢
    omega

namespace Version

theorem stop_lt (v : Version) : v.stop < offsetBound := by
  obtain ⟨slices, wf⟩ := v
  cases slices with
  | nil => simp [stop, start, totalLength, totalSize, offsetBound, UInt64.size]
  | cons s rest => exact offset_add_lengths_lt s rest wf.contiguous wf.bounded

private theorem totalSize_filter_le (p : Slice → Bool) (slices : List Slice) :
    totalSize ((slices.filter p).map Slice.length) ≤ totalSize (slices.map Slice.length) := by
  induction slices with
  | nil => simp
  | cons s rest ih => by_cases h : p s <;> simp [totalSize, h] <;> omega

/-- The slices that `s` picks. -/
def picked (v : Version) (s : Selector) : List Slice := v.slices.filter (s.selects ·.node)

private theorem select_wellFormed (v : Version) (s : Selector) :
    WellFormed (layOut 0 ((v.picked s).map Slice.part)) := by
  have mem : ∀ p ∈ (v.picked s).map Slice.part, ∃ t ∈ v.slices, t.part = p := fun p hp => by
    obtain ⟨t, ht, rfl⟩ := List.mem_map.1 hp
    exact ⟨t, (List.mem_filter.1 ht).1, rfl⟩
  apply wellFormed_layOut
  · intro p hp
    obtain ⟨t, ht, rfl⟩ := mem p hp
    exact v.wellFormed.nodeNonzero t ht
  · intro p hp
    obtain ⟨t, ht, rfl⟩ := mem p hp
    exact v.wellFormed.nonempty t ht
  · have : ((v.picked s).map Slice.part).map Part.node = (v.picked s).map Slice.node := by
      simp [Slice.part, Function.comp_def]
    rw [this]
    exact List.Nodup.sublist (List.filter_sublist.map _) v.wellFormed.distinct
  · have total := v.stop_lt
    have le := totalSize_filter_le (s.selects ·.node) v.slices
    have : ((v.picked s).map Slice.part).map (·.bytes.length) = (v.picked s).map Slice.length := by
      simp [Slice.part, Slice.length, Function.comp_def]
    rw [this]
    simp only [stop, totalLength, picked] at total ⊢
    simp only [UInt64.toNat_zero]
    omega

def select (v : Version) (s : Selector) : Version :=
  ⟨layOut 0 ((v.picked s).map Slice.part), select_wellFormed v s⟩

end Version

end SszArchive
