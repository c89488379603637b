import SszArchive.Diff.Between
import SszArchive.Proofs.Alignment

/-!
What the diff of two versions says: which slices of the base it keeps, which bytes it sends, and
where it puts each added node.
-/

namespace SszArchive

/-- Where a node stands, its predecessor is the last node of what comes before. -/
theorem Version.predecessor?_of_split {v : Version} {front back : List Slice} {s : Slice}
    (h : v.slices = front ++ s :: back) :
    v.predecessor? s.node = front.getLast?.map Slice.node := by
  have hfresh : ∀ t ∈ front, t.node ≠ s.node := by
    have hnodup := v.wellFormed.distinct
    rw [h, List.map_append, List.nodup_append] at hnodup
    intro t ht
    exact hnodup.2.2 t.node (List.mem_map_of_mem ht) s.node (by simp)
  have hposition : v.position? s.node = some front.length := by
    have hnone : front.findIdx? (·.node == s.node) = none := by
      simpa [List.findIdx?_eq_none_iff] using hfresh
    rw [position?, h, List.findIdx?_append, hnone, List.findIdx?_cons]
    simp
  rw [predecessor?, hposition]
  cases hfront : front.length with
  | zero =>
    rw [List.length_eq_zero_iff.1 hfront]
    rfl
  | succ n =>
    have hlast : front.getLast? = front[n]? := by
      rw [List.getLast?_eq_getElem?, hfront, Nat.add_sub_cancel]
    have hget : v.slices[n]? = front[n]? := by
      rw [h, List.getElem?_append_left (by omega)]
    rw [hlast, ← hget]

namespace Alignment

/-- The slice of the base that a step keeps. -/
def Step.kept? : Step → Option Slice
  | paired old _ => some old
  | _ => none

/-- The additions of an alignment's end, when the slice before it has the node `before`. -/
def anchored : Option GIndex → List Step → List Addition
  | _, [] => []
  | before, .removed _ :: steps => anchored before steps
  | _, .paired _ n :: steps => anchored (some n.node) steps
  | before, .added n :: steps => ⟨n.node, before⟩ :: anchored (some n.node) steps

theorem filterMap_addition? (target : Version) (front : List Slice) (steps : List Step)
    (h : target.slices = front ++ steps.filterMap Step.new?) :
    steps.filterMap (Step.addition? target) = anchored (front.getLast?.map Slice.node) steps := by
  induction steps generalizing front with
  | nil => rfl
  | cons step steps ih =>
    cases step with
    | removed o => simpa [List.filterMap_cons, Step.addition?, anchored] using ih front h
    | paired o n =>
      have h' : target.slices = (front ++ [n]) ++ steps.filterMap Step.new? := by
        simpa [Step.new?] using h
      simpa [List.filterMap_cons, Step.addition?, anchored] using ih (front ++ [n]) h'
    | added n =>
      have hsplit : target.slices = front ++ n :: steps.filterMap Step.new? := h
      have hbefore := Version.predecessor?_of_split hsplit
      have h' : target.slices = (front ++ [n]) ++ steps.filterMap Step.new? := by
        simpa using hsplit
      simpa [Step.addition?, anchored, hbefore] using ih (front ++ [n]) h'

/-- Every addition stands behind the node before it, and no two behind the same one. -/
theorem anchors_sublist (before : Option GIndex) (steps : List Step) :
    ((anchored before steps).map Addition.after).Sublist
      (before :: (steps.filterMap Step.new?).map fun n => some n.node) := by
  induction steps generalizing before with
  | nil => exact List.nil_sublist _
  | cons step steps ih =>
    cases step with
    | removed o => simpa [List.filterMap_cons, Step.new?, anchored] using ih before
    | paired o n =>
      simpa [Step.new?, anchored] using (ih (some n.node)).cons before
    | added n =>
      simpa [Step.new?, anchored] using (ih (some n.node)).cons_cons before

namespace Merged

variable {old new : List Slice} {steps : List Step}

theorem removed_sublist (h : Merged old new steps) :
    (steps.filterMap Step.removal?).Sublist (old.map Slice.node) := by
  induction h with
  | nil => exact List.Sublist.slnil
  | removed o _ ih => simpa [Step.removal?] using ih.cons_cons o.node
  | added n _ ih => simpa [List.filterMap_cons, Step.removal?] using ih
  | paired o n _ _ ih => simpa [List.filterMap_cons, Step.removal?] using ih.cons o.node

/-- The slices of the base that are not removed are the ones in a pair. -/
theorem filter_kept (h : Merged old new steps) (hnodup : (old.map Slice.node).Nodup)
    (removed : List GIndex)
    (hremoved : ∀ g ∈ old.map Slice.node, g ∈ removed ↔ g ∈ steps.filterMap Step.removal?) :
    old.filter (fun o => !removed.contains o.node) = steps.filterMap Step.kept? := by
  induction h with
  | nil => rfl
  | @removed o old new steps h ih =>
    rw [List.map_cons, List.nodup_cons] at hnodup
    have ho : o.node ∈ removed := by
      rw [hremoved o.node (List.mem_cons_self ..)]
      exact List.mem_cons_self ..
    rw [List.filter_cons_of_neg (by simpa using ho), ih hnodup.2]
    · rfl
    · intro g hg
      have hne : g ≠ o.node := fun he => hnodup.1 (he ▸ hg)
      rw [hremoved g (List.mem_cons_of_mem _ hg)]
      exact ⟨fun hm => (List.mem_cons.1 hm).resolve_left hne, List.mem_cons_of_mem _⟩
  | added n h ih => exact ih hnodup hremoved
  | @paired o n old new steps hn h ih =>
    rw [List.map_cons, List.nodup_cons] at hnodup
    have ho : o.node ∉ removed := by
      rw [hremoved o.node (List.mem_cons_self ..)]
      exact fun hm => hnodup.1 (h.removed_sublist.subset hm)
    rw [List.filter_cons_of_pos (by simpa using ho), ih hnodup.2]
    · rfl
    · exact fun g hg => hremoved g (List.mem_cons_of_mem _ hg)

/-- The kept nodes and the added ones are, together, the nodes of the target. -/
theorem nodes_perm (h : Merged old new steps) (before : Option GIndex) :
    ((steps.filterMap Step.kept?).map Slice.node ++
      (anchored before steps).map Addition.node).Perm (new.map Slice.node) := by
  induction h generalizing before with
  | nil => exact List.Perm.nil
  | removed o _ ih => exact ih before
  | added n _ ih => exact List.perm_middle.trans ((ih (some n.node)).cons n.node)
  | paired o n hn _ ih =>
    have h := (ih (some n.node)).cons n.node
    simpa [Step.kept?, anchored, hn] using h

/-- What is sent are parts of the target. -/
theorem changes_sublist (h : Merged old new steps) :
    (steps.filterMap Step.change?).Sublist (new.map Slice.part) := by
  induction h with
  | nil => exact List.Sublist.slnil
  | removed o _ ih => simpa [List.filterMap_cons, Step.change?] using ih
  | added n _ ih => simpa [Step.change?] using ih.cons_cons n.part
  | paired o n _ _ ih =>
    by_cases hb : o.bytes = n.bytes
    · simpa [List.filterMap_cons, Step.change?, hb] using ih.cons n.part
    · simpa [Step.change?, hb] using ih.cons_cons n.part

theorem change_nodes_sublist (h : Merged old new steps) :
    ((steps.filterMap Step.change?).map Part.node).Sublist (new.map Slice.node) := by
  have hsub := h.changes_sublist.map Part.node
  rwa [List.map_map] at hsub

end Merged

end Alignment

end SszArchive
