import SszArchive.Alignment

/-!
What an alignment lists: the slices of the base and the slices of the target, each in its own
order, and pairs of one node.
-/

namespace SszArchive.Alignment

/-- `steps` lists `old` and `new` completely and in order. -/
inductive Merged : List Slice → List Slice → List Step → Prop
  | nil : Merged [] [] []
  | removed (o : Slice) {old new steps} :
      Merged old new steps → Merged (o :: old) new (.removed o :: steps)
  | added (n : Slice) {old new steps} :
      Merged old new steps → Merged old (n :: new) (.added n :: steps)
  | paired (o n : Slice) {old new steps} :
      o.node = n.node → Merged old new steps →
        Merged (o :: old) (n :: new) (.paired o n :: steps)

namespace Merged

theorem append_removed {old new : List Slice} {steps : List Step} (h : Merged old new steps)
    (front : List Slice) : Merged (front ++ old) new (front.map .removed ++ steps) := by
  induction front with
  | nil => exact h
  | cons o front ih => exact .removed o ih

theorem append_added {old new : List Slice} {steps : List Step} (h : Merged old new steps)
    (front : List Slice) : Merged old (front ++ new) (front.map .added ++ steps) := by
  induction front with
  | nil => exact h
  | cons n front ih => exact .added n ih

theorem filterMap_old? {old new : List Slice} {steps : List Step} (h : Merged old new steps) :
    steps.filterMap Step.old? = old := by
  induction h with
  | nil => rfl
  | removed o _ ih => simp [Step.old?, ih]
  | added n _ ih => simp [List.filterMap_cons, Step.old?, ih]
  | paired o n _ _ ih => simp [Step.old?, ih]

theorem filterMap_new? {old new : List Slice} {steps : List Step} (h : Merged old new steps) :
    steps.filterMap Step.new? = new := by
  induction h with
  | nil => rfl
  | removed o _ ih => simp [List.filterMap_cons, Step.new?, ih]
  | added n _ ih => simp [Step.new?, ih]
  | paired o n _ _ ih => simp [Step.new?, ih]

theorem mem_old {old new : List Slice} {steps : List Step} (h : Merged old new steps)
    {step : Step} {o : Slice} (hstep : step ∈ steps) (ho : step.old? = some o) : o ∈ old := by
  rw [← h.filterMap_old?]
  exact List.mem_filterMap.2 ⟨step, hstep, ho⟩

theorem mem_new {old new : List Slice} {steps : List Step} (h : Merged old new steps)
    {step : Step} {n : Slice} (hstep : step ∈ steps) (hn : step.new? = some n) : n ∈ new := by
  rw [← h.filterMap_new?]
  exact List.mem_filterMap.2 ⟨step, hstep, hn⟩

/-- A pair is of one node. -/
theorem node_eq {old new : List Slice} {steps : List Step} (h : Merged old new steps) {o n : Slice}
    (hpair : .paired o n ∈ steps) : o.node = n.node := by
  induction h with
  | nil => cases hpair
  | removed _ _ ih | added _ _ ih => exact ih ((List.mem_cons.1 hpair).resolve_left nofun)
  | paired _ _ hnode _ ih =>
    rcases List.mem_cons.1 hpair with he | hpair
    · cases he
      exact hnode
    · exact ih hpair

end Merged

/-! ## The stable nodes -/

theorem stable_sublist_target (rest target : List Slice) :
    (stable rest target).Sublist (target.map Slice.node) := by
  induction target generalizing rest with
  | nil => exact List.Sublist.slnil
  | cons t target ih =>
    rw [stable]
    split
    · exact (ih _).cons_cons t.node
    · exact (ih _).cons t.node

/-- What is left from a node on starts with the slice of that node. -/
theorem split_of_dropWhile {slices after : List Slice} {o : Slice} {g : GIndex}
    (h : slices.dropWhile (·.node != g) = o :: after) :
    ∃ front, slices = front ++ o :: after ∧ o.node = g := by
  refine ⟨slices.takeWhile (·.node != g), ?_, ?_⟩
  · rw [← h, List.takeWhile_append_dropWhile]
  · have hhead := List.head?_dropWhile_not (fun s : Slice => s.node != g) slices
    rw [h] at hhead
    simpa using hhead

theorem stable_sublist_base (rest target : List Slice) :
    (stable rest target).Sublist (rest.map Slice.node) := by
  induction target generalizing rest with
  | nil => exact List.nil_sublist _
  | cons t target ih =>
    rw [stable]
    split
    · next o after hdrop =>
      obtain ⟨front, rfl, hnode⟩ := split_of_dropWhile hdrop
      have htail : (t.node :: stable after target).Sublist ((o :: after).map Slice.node) := by
        rw [List.map_cons, hnode]
        exact (ih after).cons_cons t.node
      exact htail.trans ((List.sublist_append_right front _).map Slice.node)
    · exact ih rest

/-! ## Merging around the stable nodes -/

/-- Taking slices from a list stops at the first that is not wanted. -/
theorem span_split {front after : List Slice} {s : Slice} {p : Slice → Bool}
    (hfront : ∀ t ∈ front, p t = true) (hs : p s = false) :
    (front ++ s :: after).takeWhile p = front ∧
      (front ++ s :: after).dropWhile p = s :: after := by
  simp [List.takeWhile_append_of_pos hfront, List.dropWhile_append_of_pos hfront, hs]

/-- The first slice with the node that comes next in a list of stable nodes. -/
theorem exists_split_of_sublist {g : GIndex} {nodes : List GIndex} {slices : List Slice}
    (h : (g :: nodes).Sublist (slices.map Slice.node)) :
    ∃ front s after, slices = front ++ s :: after ∧ s.node = g ∧ (∀ t ∈ front, t.node ≠ g) ∧
      nodes.Sublist (after.map Slice.node) := by
  induction slices with
  | nil => cases h
  | cons t slices ih =>
    by_cases hg : t.node = g
    · rw [List.map_cons, hg] at h
      exact ⟨[], t, slices, rfl, hg, by simp, List.cons_sublist_cons.1 h⟩
    · have hrest : (g :: nodes).Sublist (slices.map Slice.node) := by
        cases h with
        | cons _ h => exact h
        | cons_cons _ _ => exact absurd rfl hg
      obtain ⟨front, s, after, rfl, hs, hfront, hafter⟩ := ih hrest
      exact ⟨t :: front, s, after, rfl, hs, List.forall_mem_cons.2 ⟨hg, hfront⟩, hafter⟩

theorem merge_pair {front front' after after' : List Slice} {o n : Slice} {nodes : List GIndex}
    (hfront : ∀ t ∈ front, t.node ≠ o.node) (hfront' : ∀ t ∈ front', t.node ≠ o.node)
    (hnode : n.node = o.node) :
    merge (front ++ o :: after) (front' ++ n :: after') (o.node :: nodes) =
      front.map .removed ++ front'.map .added ++ .paired o n :: merge after after' nodes := by
  have ho : (o.node != o.node) = false := bne_self_eq_false o.node
  have hn : (n.node != o.node) = false := by rw [hnode, bne_self_eq_false]
  obtain ⟨htake, hdrop⟩ : _ ∧ (front ++ o :: after).dropWhile (·.node != o.node) = _ :=
    span_split (fun t ht => bne_iff_ne.2 (hfront t ht)) ho
  obtain ⟨htake', hdrop'⟩ : _ ∧ (front' ++ n :: after').dropWhile (·.node != o.node) = _ :=
    span_split (fun t ht => bne_iff_ne.2 (hfront' t ht)) hn
  rw [merge, htake, htake', hdrop, hdrop']

theorem merged_merge {old new : List Slice} {nodes : List GIndex}
    (hold : nodes.Sublist (old.map Slice.node)) (hnew : nodes.Sublist (new.map Slice.node)) :
    Merged old new (merge old new nodes) := by
  induction nodes generalizing old new with
  | nil =>
    have h := (Merged.nil.append_added new).append_removed old
    simpa [merge] using h
  | cons g nodes ih =>
    obtain ⟨front, o, old', rfl, rfl, hfront, hold'⟩ := exists_split_of_sublist hold
    obtain ⟨front', n, new', rfl, hnode, hfront', hnew'⟩ := exists_split_of_sublist hnew
    rw [merge_pair hfront hfront' hnode, List.append_assoc]
    exact ((Merged.paired o n hnode.symm (ih hold' hnew')).append_added front').append_removed front

/-- **An alignment loses nothing.** -/
theorem merged_align (base target : Version) :
    Merged base.slices target.slices (align base target) :=
  merged_merge (stable_sublist_base _ _) (stable_sublist_target _ _)

end SszArchive.Alignment
