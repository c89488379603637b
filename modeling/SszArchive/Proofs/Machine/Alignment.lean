import Mathlib.Data.List.TakeWhile
import SszArchive.Proofs.Alignment
import SszArchive.Proofs.Machine.Indexed

/-!
Aligning two versions in memory. The stable nodes are found by their positions and kept in a set,
which has no order; then both lists are walked side by side, and at each stop the two slices met
are taken for a pair. That they are of one node is asserted there. It rests on the positions, which
increase along the target, so that the stable nodes come in one order in both lists. Main
statement: the walk passes every assertion and lists both versions completely.
-/

namespace SszArchive.Machine

open SszArchive.Alignment

/-! ## Stable nodes -/

/-- A node of the target stays when the base has it behind `last`, the position of the last one
that stayed. -/
def stableFrom (base : Indexed) (last : Option Nat) (stable : Std.HashSet GIndex) :
    List Slice → Std.HashSet GIndex
  | [] => stable
  | t :: target =>
    match base.positions[t.node]? with
    | some i =>
      if last.all (· < i) then stableFrom base (some i) (stable.insert t.node) target
      else stableFrom base last stable target
    | none => stableFrom base last stable target

/-- The first position behind the last one that stayed. -/
def resume (last : Option Nat) : Nat := last.elim 0 (· + 1)

theorem all_lt_iff {last : Option Nat} {i : Nat} : last.all (· < i) = true ↔ resume last ≤ i := by
  cases last with
  | none => simp [resume]
  | some l => exact decide_eq_true_iff.trans Nat.lt_iff_add_one_le

/-- From a place on, the base has a node of a later position there and then goes on behind it. -/
theorem dropWhile_of_position {v : Version} {g : GIndex} {i k : Nat}
    (hi : v.position? g = some i) (hk : k ≤ i) :
    ∃ s, (v.slices.drop k).dropWhile (·.node != g) = s :: v.slices.drop (i + 1) := by
  obtain ⟨s, hs, rfl⟩ := Version.position?_eq_some_iff.1 hi
  have hrest : (v.slices.drop k).drop (i - k) = s :: v.slices.drop (i + 1) := by
    obtain ⟨hlt, rfl⟩ := List.getElem?_eq_some_iff.1 hs
    rw [List.drop_drop, Nat.add_sub_cancel' hk, List.drop_eq_getElem_cons hlt]
  have hfront : ∀ t ∈ (v.slices.drop k).take (i - k), (t.node != s.node) = true := by
    intro t ht
    obtain ⟨j, hj⟩ := List.mem_iff_getElem?.1 ht
    obtain ⟨hlt, hj⟩ : j < i - k ∧ v.slices[k + j]? = some t := by
      rw [List.getElem?_take] at hj
      split at hj
      · next hlt => exact ⟨hlt, by rwa [List.getElem?_drop] at hj⟩
      · cases hj
    rw [bne_iff_ne]
    intro hnode
    obtain rfl : i = k + j :=
      Option.some.inj (hi.symm.trans (Version.position?_eq_some_iff.2 ⟨t, hj, hnode⟩))
    omega
  refine ⟨s, ?_⟩
  rw [← List.take_append_drop (i - k) (v.slices.drop k), hrest]
  exact (span_split hfront (by simp)).2

theorem dropWhile_of_no_position {v : Version} {g : GIndex} {k : Nat}
    (h : ∀ i, v.position? g = some i → i < k) :
    (v.slices.drop k).dropWhile (·.node != g) = [] := by
  rw [List.dropWhile_eq_nil_iff]
  intro s hs
  obtain ⟨i, hi⟩ := List.mem_iff_getElem?.1 hs
  rw [List.getElem?_drop] at hi
  rw [bne_iff_ne]
  rintro rfl
  have := h (k + i) (Version.position?_eq_some_iff.2 ⟨s, hi, rfl⟩)
  omega

/-- The set holds the nodes that the greedy choice takes, one after another, from the base. -/
theorem contains_stableFrom {x : Indexed} {v : Version} (h : x.Represents v) (last : Option Nat)
    (found : Std.HashSet GIndex) (target : List Slice) (g : GIndex) :
    (stableFrom x last found target).contains g = true ↔
      found.contains g = true ∨ g ∈ stable (v.slices.drop (resume last)) target := by
  induction target generalizing last found with
  | nil => simp [stableFrom, stable]
  | cons t target ih =>
    rw [stableFrom, stable, h.positions]
    cases hposition : v.position? t.node with
    | none =>
      rw [dropWhile_of_no_position (by simp [hposition])]
      exact ih last found
    | some i =>
      by_cases hlast : last.all (· < i) = true
      · obtain ⟨s, hdrop⟩ := dropWhile_of_position hposition (all_lt_iff.1 hlast)
        simp only [hlast, if_true, hdrop]
        rw [ih, Std.HashSet.contains_insert]
        simp only [Bool.or_eq_true, beq_iff_eq, List.mem_cons, resume, Option.elim_some]
        tauto
      · have hbefore : i < resume last := Nat.not_le.1 (mt all_lt_iff.2 hlast)
        rw [dropWhile_of_no_position (by simpa [hposition] using hbefore)]
        simp only [hlast, if_false, Bool.false_eq_true]
        exact ih last found

/-! ## The walk -/

/-- The two slices met are not of one node. -/
structure Mispaired where
  old : GIndex
  new : GIndex

/-- Between two stops the slices that do not stay are listed, those of the base first. The walk
ends when one side runs out. -/
def walk (stable : Std.HashSet GIndex) (old new : List Slice) : Exec Mispaired (List Step) :=
  let moved : Slice → Bool := fun s => !stable.contains s.node
  let steps := (old.takeWhile moved).map .removed ++ (new.takeWhile moved).map .added
  match _ : old.dropWhile moved, new.dropWhile moved with
  | o :: rest, n :: more =>
    if o.node = n.node then do
      let tail ← walk stable rest more
      return steps ++ .paired o n :: tail
    else report ⟨o.node, n.node⟩
  | _, _ => return steps
termination_by old.length
decreasing_by
  have hle := (List.dropWhile_sublist (l := old) moved).length_le
  rw [‹old.dropWhile moved = _›, List.length_cons] at hle
  omega

/-- A stop where the slices met are of one node. -/
theorem walk_pair {stable : Std.HashSet GIndex} {front front' after after' : List Slice}
    {o n : Slice} (hfront : ∀ t ∈ front, (!stable.contains t.node) = true)
    (hfront' : ∀ t ∈ front', (!stable.contains t.node) = true)
    (ho : (!stable.contains o.node) = false) (hn : (!stable.contains n.node) = false)
    (hnode : o.node = n.node) :
    walk stable (front ++ o :: after) (front' ++ n :: after') = do
      let tail ← walk stable after after'
      return front.map .removed ++ front'.map .added ++ .paired o n :: tail := by
  obtain ⟨htake, hdrop⟩ : _ ∧ (front ++ o :: after).dropWhile (!stable.contains ·.node) = _ :=
    span_split hfront ho
  obtain ⟨htake', hdrop'⟩ : _ ∧ (front' ++ n :: after').dropWhile (!stable.contains ·.node) = _ :=
    span_split hfront' hn
  rw [walk]
  split
  · next hold hnew =>
    obtain ⟨rfl, rfl⟩ := List.cons.inj (hdrop.symm.trans hold)
    obtain ⟨rfl, rfl⟩ := List.cons.inj (hdrop'.symm.trans hnew)
    rw [if_pos hnode, htake, htake']
  · next hend => exact absurd hdrop' (hend _ _ _ _ hdrop)

/-- The end, when no slice of either side stays. -/
theorem walk_end {stable : Std.HashSet GIndex} {old new : List Slice}
    (hold : ∀ t ∈ old, (!stable.contains t.node) = true)
    (hnew : ∀ t ∈ new, (!stable.contains t.node) = true) :
    walk stable old new = .ok (old.map .removed ++ new.map .added) := by
  rw [walk]
  split
  · next hnext _ =>
    rw [List.dropWhile_eq_nil_iff.2 hold] at hnext
    cases hnext
  · rw [List.takeWhile_eq_self_iff.2 hold, List.takeWhile_eq_self_iff.2 hnew]
    rfl

/-- **The walk** over two lists that both have the stable nodes in one order ends well, with the
merge around these nodes. -/
theorem walk_eq {stable : Std.HashSet GIndex} {nodes : List GIndex} {old new : List Slice}
    (hold : nodes.Sublist (old.map Slice.node)) (hnew : nodes.Sublist (new.map Slice.node))
    (hdistinct : (old.map Slice.node).Nodup) (hdistinct' : (new.map Slice.node).Nodup)
    (hstable : ∀ s ∈ old ++ new, stable.contains s.node = true ↔ s.node ∈ nodes) :
    walk stable old new = .ok (merge old new nodes) := by
  induction nodes generalizing old new with
  | nil =>
    have hmoved : ∀ s ∈ old ++ new, (!stable.contains s.node) = true := fun s hs => by
      simpa using mt (hstable s hs).1 (List.not_mem_nil)
    rw [merge]
    exact walk_end (fun s hs => hmoved s (List.mem_append_left _ hs))
      fun s hs => hmoved s (List.mem_append_right _ hs)
  | cons g nodes ih =>
    obtain ⟨front, o, after, rfl, rfl, hfront, hafter⟩ := exists_split_of_sublist hold
    obtain ⟨front', n, after', rfl, hnode, hfront', hafter'⟩ := exists_split_of_sublist hnew
    rw [List.map_append, List.map_cons] at hdistinct hdistinct'
    obtain ⟨-, hrest, hbefore⟩ := List.nodup_append.1 hdistinct
    obtain ⟨-, hrest', hbefore'⟩ := List.nodup_append.1 hdistinct'
    obtain ⟨ho, hdistinct⟩ := List.nodup_cons.1 hrest
    obtain ⟨hn, hdistinct'⟩ := List.nodup_cons.1 hrest'
    have hwalk : walk stable after after' = .ok (merge after after' nodes) := by
      refine ih hafter hafter' hdistinct hdistinct' fun s hs => ?_
      have hne : s.node ≠ o.node := by
        rintro hs'
        rcases List.mem_append.1 hs with hmem | hmem
        · exact ho (hs' ▸ List.mem_map_of_mem hmem)
        · exact hn (hnode ▸ hs' ▸ List.mem_map_of_mem hmem)
      rw [hstable s (by grind), List.mem_cons, or_iff_right hne]
    -- What comes before the pair is not stable: the nodes that are left come behind it.
    have hmoved : ∀ t ∈ front, (!stable.contains t.node) = true := fun t ht => by
      have hnot : t.node ∉ nodes := fun hmem => hbefore _ (List.mem_map_of_mem ht) _
        (List.mem_cons_of_mem _ (hafter.subset hmem)) rfl
      simpa [hnot, hfront t ht] using hstable t (by simp [ht])
    have hmoved' : ∀ t ∈ front', (!stable.contains t.node) = true := fun t ht => by
      have hnot : t.node ∉ nodes := fun hmem => hbefore' _ (List.mem_map_of_mem ht) _
        (List.mem_cons_of_mem _ (hafter'.subset hmem)) rfl
      simpa [hnot, hfront' t ht] using hstable t (by simp [ht])
    have hstays : (!stable.contains o.node) = false := by
      simpa using hstable o (by simp)
    rw [walk_pair hmoved hmoved' hstays (hnode ▸ hstays) hnode.symm, hwalk,
      merge_pair hfront hfront' hnode]
    rfl

/-! ## Alignments -/

def align (base target : Indexed) : Exec Mispaired (List Step) :=
  walk (stableFrom base none ∅ target.slices) base.slices target.slices

theorem align_eq {x y : Indexed} {base target : Version} (hx : x.Represents base)
    (hy : y.Represents target) : align x y = .ok (SszArchive.align base target) := by
  rw [align, SszArchive.align, hx.slices, hy.slices]
  refine walk_eq (stable_sublist_base ..) (stable_sublist_target ..) base.wellFormed.distinct
    target.wellFormed.distinct fun s _ => ?_
  rw [contains_stableFrom hx]
  simp [resume]

/-- **An alignment loses nothing and passes its assertions**: the walk ends with the steps of the
alignment, these list the slices of both versions completely and in order, and a pair is of one
node. -/
theorem align_complete {x y : Indexed} {base target : Version} (hx : x.Represents base)
    (hy : y.Represents target) :
    align x y = .ok (SszArchive.align base target) ∧
      (SszArchive.align base target).filterMap Step.old? = base.slices ∧
      (SszArchive.align base target).filterMap Step.new? = target.slices ∧
      ∀ old new, Step.paired old new ∈ SszArchive.align base target → old.node = new.node := by
  have h := merged_align base target
  exact ⟨align_eq hx hy, h.filterMap_old?, h.filterMap_new?, fun old new => h.node_eq⟩

def beforeMove : Version :=
  ⟨[⟨2, 0, [1]⟩, ⟨3, 1, [2]⟩, ⟨4, 2, [3]⟩], firstFault_eq_none_iff.1 rfl⟩

/-- Node 4 has moved to the front, node 3 is gone and node 5 is new. -/
def afterMove : Version :=
  ⟨[⟨4, 0, [3]⟩, ⟨2, 1, [1]⟩, ⟨5, 2, [4]⟩], firstFault_eq_none_iff.1 rfl⟩

/-- Node 4 is met first and stays, so that node 2, which has not moved, counts as moved. -/
theorem align_complete_moved :
    SszArchive.align beforeMove afterMove =
        [.removed ⟨2, 0, [1]⟩, .removed ⟨3, 1, [2]⟩, .paired ⟨4, 2, [3]⟩ ⟨4, 0, [3]⟩,
          .added ⟨2, 1, [1]⟩, .added ⟨5, 2, [4]⟩] ∧
      align ⟨beforeMove.slices, indexOf [2, 3, 4]⟩ ⟨afterMove.slices, indexOf [4, 2, 5]⟩ =
        .ok (SszArchive.align beforeMove afterMove) ∧
      (SszArchive.align beforeMove afterMove).filterMap Step.old? = beforeMove.slices ∧
      (SszArchive.align beforeMove afterMove).filterMap Step.new? = afterMove.slices ∧
      ∀ old new, Step.paired old new ∈ SszArchive.align beforeMove afterMove →
        old.node = new.node :=
  ⟨by decide, align_complete (Indexed.represents_indexOf beforeMove)
    (Indexed.represents_indexOf afterMove)⟩

end SszArchive.Machine
