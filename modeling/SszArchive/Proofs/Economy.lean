import Mathlib.Data.List.TakeWhile
import SszArchive.Proofs.Description
import SszArchive.Proofs.Lookup
import SszArchive.Proofs.RoundTrip

/-!
What the diff of two versions leaves out. A common node is sent again as removed and added only if
it has changed sides with a common node that is not, and otherwise only if its bytes differ. The
stable nodes of an alignment carry this: a node that is passed over stands before the last stable
one in the base and behind it in the target.
-/

namespace SszArchive

/-- The nodes in the order of their slices. -/
abbrev Version.nodes (v : Version) : List GIndex := v.slices.map Slice.node

/-! ## Order -/

theorem pair_sublist_or {nodes : List GIndex} {g s : GIndex} (hg : g ∈ nodes) (hs : s ∈ nodes)
    (hne : g ≠ s) : [g, s].Sublist nodes ∨ [s, g].Sublist nodes := by
  obtain ⟨front, back, rfl⟩ := List.append_of_mem hg
  rcases List.mem_append.1 hs with hfront | hback
  · have hs := List.singleton_sublist.2 hfront
    have hg := List.singleton_sublist.2 (List.mem_cons_self (a := g) (l := back))
    exact .inr (hs.append hg)
  · have hs := List.singleton_sublist.2 ((List.mem_cons.1 hback).resolve_left (Ne.symm hne))
    exact .inl ((hs.cons_cons g).trans (List.sublist_append_right front _))

/-- Distinct nodes stand in one order only. -/
theorem pair_sublist_asymm {nodes : List GIndex} (hnodup : nodes.Nodup) {g s : GIndex}
    (h : [g, s].Sublist nodes) : ¬ [s, g].Sublist nodes := by
  induction nodes with
  | nil => cases h
  | cons q nodes ih =>
    obtain ⟨hq, hnodup⟩ := List.nodup_cons.1 hnodup
    intro hswap
    cases h with
    | cons _ h =>
      cases hswap with
      | cons _ hswap => exact ih hnodup h hswap
      | cons_cons _ _ => exact hq (h.subset (by simp))
    | cons_cons _ h =>
      cases hswap with
      | cons _ hswap => exact hq (hswap.subset (by simp))
      | cons_cons _ _ => exact hq (h.subset (by simp))

/-- Distinct nodes of which no two change sides are the same list. -/
theorem eq_of_pair_sublist {nodes others : List GIndex} (hnodup : nodes.Nodup)
    (hnodup' : others.Nodup) (hmem : ∀ g, g ∈ nodes ↔ g ∈ others)
    (hpairs : ∀ {g s}, [g, s].Sublist others → ¬ [s, g].Sublist nodes) : nodes = others := by
  have hantisymm : ∀ g s, g ∈ nodes → s ∈ others → [g, s].Sublist nodes → [s, g].Sublist nodes →
      g = s := fun g s _ _ h h' => absurd h' (pair_sublist_asymm hnodup h)
  have hordered : others.Pairwise fun g s => [g, s].Sublist nodes := by
    refine List.pairwise_iff_forall_sublist.2 fun {g s} h => ?_
    have hne : g ≠ s := by
      rintro rfl
      exact List.nodup_iff_sublist.1 hnodup' g h
    have hg := (hmem g).2 (h.subset (by simp))
    have hs := (hmem s).2 (h.subset (by simp))
    exact (pair_sublist_or hg hs hne).resolve_right (hpairs h)
  exact List.Perm.eq_of_pairwise hantisymm (List.pairwise_iff_forall_sublist.2 id) hordered
    ((List.perm_ext_iff_of_nodup hnodup hnodup').2 hmem)

namespace Alignment

/-! ## The stable nodes -/

/-- A node of the target that is passed over is not in the rest of the base, or it stands there
before a node that is stable and stands before it in the target. -/
theorem stable_maximal {rest target : List Slice} {g : GIndex} (hg : g ∈ target.map Slice.node)
    (hnot : g ∉ stable rest target) :
    g ∉ rest.map Slice.node ∨ ∃ s ∈ stable rest target,
      [g, s].Sublist (rest.map Slice.node) ∧ [s, g].Sublist (target.map Slice.node) := by
  induction target generalizing rest with
  | nil => cases hg
  | cons t target ih =>
    rw [stable] at hnot ⊢
    cases hdrop : rest.dropWhile (·.node != t.node) with
    | nil =>
      rw [hdrop] at hnot
      rcases List.mem_cons.1 hg with rfl | hg
      · left
        intro hmem
        obtain ⟨o, ho, hnode⟩ := List.mem_map.1 hmem
        simpa [hnode] using List.dropWhile_eq_nil_iff.1 hdrop o ho
      · rcases ih hg hnot with hrest | ⟨s, hs, hold, hnew⟩
        · exact .inl hrest
        · exact .inr ⟨s, hs, hold, hnew.cons t.node⟩
    | cons o after =>
      rw [hdrop] at hnot
      obtain ⟨front, rfl, hnode⟩ := split_of_dropWhile hdrop
      obtain ⟨hne, hnot⟩ := not_or.1 (mt List.mem_cons.2 hnot)
      have hg := (List.mem_cons.1 hg).resolve_left hne
      have hafter : (after.map Slice.node).Sublist ((front ++ o :: after).map Slice.node) :=
        ((List.sublist_cons_self o after).trans (List.sublist_append_right front _)).map Slice.node
      by_cases hfront : g ∈ front.map Slice.node
      · -- The node was passed over to reach `t`, which is stable.
        refine .inr ⟨t.node, List.mem_cons_self .., ?_, ?_⟩
        · rw [List.map_append, List.map_cons, hnode]
          exact (List.singleton_sublist.2 hfront).append
            (List.singleton_sublist.2 (List.mem_cons_self ..))
        · exact (List.singleton_sublist.2 hg).cons_cons t.node
      · rcases ih hg hnot with hrest | ⟨s, hs, hold, hnew⟩
        · left
          simp only [List.map_append, List.map_cons, List.mem_append, List.mem_cons, hnode]
          tauto
        · exact .inr ⟨s, List.mem_cons_of_mem _ hs, hold.trans hafter, hnew.cons t.node⟩

/-- Two stable nodes stand in the same order in the base and in the target. -/
theorem stable_ordered {base target : Version} {g s : GIndex}
    (hg : g ∈ stable base.slices target.slices) (hs : s ∈ stable base.slices target.slices)
    (h : [g, s].Sublist base.nodes) : ¬ [s, g].Sublist target.nodes := by
  intro hswap
  have hne : g ≠ s := by
    rintro rfl
    exact List.nodup_iff_sublist.1 base.wellFormed.distinct g h
  rcases pair_sublist_or hg hs hne with hpair | hpair
  · exact pair_sublist_asymm target.wellFormed.distinct hswap
      (hpair.trans (stable_sublist_target ..))
  · exact pair_sublist_asymm base.wellFormed.distinct h (hpair.trans (stable_sublist_base ..))

/-- The nodes that an alignment keeps are the stable ones. -/
theorem map_node_kept_merge {old new : List Slice} {nodes : List GIndex}
    (hold : nodes.Sublist (old.map Slice.node)) (hnew : nodes.Sublist (new.map Slice.node)) :
    ((merge old new nodes).filterMap Step.kept?).map Slice.node = nodes := by
  induction nodes generalizing old new with
  | nil => simp [merge, Step.kept?, Function.comp_def]
  | cons g nodes ih =>
    obtain ⟨front, o, old', rfl, rfl, hfront, hold'⟩ := exists_split_of_sublist hold
    obtain ⟨front', n, new', rfl, hnode, hfront', hnew'⟩ := exists_split_of_sublist hnew
    rw [merge_pair hfront hfront' hnode]
    simp [Step.kept?, Function.comp_def, ih hold' hnew']

theorem Merged.added_sublist {old new : List Slice} {steps : List Step} (h : Merged old new steps)
    (before : Option GIndex) :
    ((anchored before steps).map Addition.node).Sublist (new.map Slice.node) := by
  induction h generalizing before with
  | nil => exact List.Sublist.slnil
  | removed o _ ih => exact ih before
  | added n _ ih => exact (ih (some n.node)).cons_cons n.node
  | paired o n _ _ ih => exact (ih (some n.node)).cons n.node

end Alignment

namespace Diff

open SszArchive.Alignment

/-! ## The sections -/

theorem keptNodes_between (base target : Version) :
    (between base target).keptNodes base = stable base.slices target.slices := by
  rw [keptNodes, kept_between, align, map_node_kept_merge (stable_sublist_base ..)
    (stable_sublist_target ..)]

theorem mem_removed_between_iff {base target : Version} {g : GIndex} (hg : g ∈ base.nodes) :
    g ∈ (between base target).removed ↔ g ∉ stable base.slices target.slices := by
  rw [← keptNodes_between, mem_keptNodes_iff, not_and_not_right]
  exact ⟨fun h _ => h, fun h => h hg⟩

theorem mem_added_between_iff {base target : Version} {g : GIndex} (hg : g ∈ target.nodes) :
    g ∈ (between base target).added.map Addition.node ↔
      g ∉ stable base.slices target.slices := by
  have hperm := (merged_align base target).nodes_perm none
  rw [← kept_between, ← added_between] at hperm
  have hdisjoint := (List.nodup_append.1 (hperm.nodup_iff.2 target.wellFormed.distinct)).2.2
  rw [← keptNodes_between]
  constructor
  · exact fun hadded hkept => hdisjoint g hkept g hadded rfl
  · exact (List.mem_append.1 (hperm.mem_iff.2 hg)).resolve_left

/-- The pair of a node that is in no other section. -/
theorem paired_of_mem_stable {base target : Version} {o n : Slice} (ho : o ∈ base.slices)
    (hn : n ∈ target.slices) (hnode : o.node = n.node)
    (hstable : n.node ∈ stable base.slices target.slices) :
    .paired o n ∈ align base target := by
  have hmerged := merged_align base target
  rw [← keptNodes_between, keptNodes, kept_between] at hstable
  obtain ⟨o', ho', hnode'⟩ := List.mem_map.1 hstable
  obtain ⟨step, hstep, hkept⟩ := List.mem_filterMap.1 ho'
  cases step with
  | removed _ => cases hkept
  | added _ => cases hkept
  | paired old new =>
    cases hkept
    have hold : o.node = o'.node := by rw [hnode, hnode']
    have hnew : n.node = new.node := by rw [← hmerged.node_eq hstep, hnode']
    rw [base.eq_of_node ho (hmerged.mem_old hstep rfl) hold,
      target.eq_of_node hn (hmerged.mem_new hstep rfl) hnew]
    exact hstep

/-- A kept node is sent exactly when its bytes differ. -/
theorem mem_changes_between_iff {base target : Version} {o n : Slice} (ho : o ∈ base.slices)
    (hn : n ∈ target.slices) (hnode : o.node = n.node)
    (hstable : n.node ∈ stable base.slices target.slices) :
    n.node ∈ (between base target).changes.map Part.node ↔ o.bytes ≠ n.bytes := by
  have hmerged := merged_align base target
  constructor
  · intro hmem
    obtain ⟨c, hc, hpart⟩ := List.mem_map.1 hmem
    obtain ⟨step, hstep, hchange⟩ := List.mem_filterMap.1 hc
    have hsame : ∀ new, step.new? = some new → new.part = c → new = n := by
      rintro new hnew rfl
      exact target.eq_of_node (hmerged.mem_new hstep hnew) hn hpart
    cases step with
    | removed _ => cases hchange
    | added new =>
      obtain rfl := hsame new rfl (Option.some.inj hchange)
      have hadded : new.node ∈ (between base target).added.map Addition.node :=
        List.mem_map.2 ⟨_, List.mem_filterMap.2 ⟨_, hstep, rfl⟩, rfl⟩
      exact absurd hstable ((mem_added_between_iff (List.mem_map_of_mem hn)).1 hadded)
    | paired old new =>
      rw [Step.change?] at hchange
      split at hchange
      · cases hchange
      · next hbytes =>
        obtain rfl := hsame new rfl (Option.some.inj hchange)
        have hold : o.node = old.node := hnode.trans (hmerged.node_eq hstep).symm
        rwa [base.eq_of_node ho (hmerged.mem_old hstep rfl) hold]
  · intro hbytes
    have hpaired := paired_of_mem_stable ho hn hnode hstable
    exact List.mem_map.2 ⟨n.part, List.mem_filterMap.2 ⟨_, hpaired, if_neg hbytes⟩, rfl⟩

/-! ## What is left out -/

/-- The nodes stand in one order in the base and in the other one in the target. -/
def Crosses (base target : Version) (g s : GIndex) : Prop :=
  ([g, s].Sublist base.nodes ∧ [s, g].Sublist target.nodes) ∨
    ([s, g].Sublist base.nodes ∧ [g, s].Sublist target.nodes)

/-- The diff lists nothing that the base already has in its place. -/
structure Economical (d : Diff) (base target : Version) : Prop where
  removedOrder : d.removed.Sublist base.nodes
  addedOrder : (d.added.map Addition.node).Sublist target.nodes
  changesOrder : (d.changes.map Part.node).Sublist target.nodes
  once : d.removed.Nodup ∧ (d.added.map Addition.node).Nodup ∧ (d.changes.map Part.node).Nodup
  gone : ∀ g ∈ base.nodes, g ∉ target.nodes → g ∈ d.removed
  fresh : ∀ g ∈ target.nodes, g ∉ base.nodes → g ∈ d.added.map Addition.node
  moved : ∀ g ∈ base.nodes, g ∈ target.nodes →
    (g ∈ d.removed ↔ g ∈ d.added.map Addition.node)
  /-- A common node moves only when it has changed sides with one that does not move. -/
  crossed : ∀ g ∈ base.nodes, g ∈ target.nodes →
    (g ∈ d.removed ↔ ∃ s ∈ base.nodes, s ∈ target.nodes ∧ s ∉ d.removed ∧
      s ∉ d.added.map Addition.node ∧ Crosses base target g s)
  /-- A common node that does not move is sent only when its bytes differ. -/
  sent : ∀ o ∈ base.slices, ∀ n ∈ target.slices, o.node = n.node → n.node ∉ d.removed →
    n.node ∉ d.added.map Addition.node → (n.node ∈ d.changes.map Part.node ↔ o.bytes ≠ n.bytes)

theorem economical_between (base target : Version) :
    (between base target).Economical base target := by
  have hmerged := merged_align base target
  have hremoved : (between base target).removed.Sublist base.nodes := hmerged.removed_sublist
  have hadded : ((between base target).added.map Addition.node).Sublist target.nodes := by
    rw [added_between]
    exact hmerged.added_sublist none
  have hchanges : ((between base target).changes.map Part.node).Sublist target.nodes :=
    hmerged.change_nodes_sublist
  have hbase : ∀ {g}, g ∈ stable base.slices target.slices → g ∈ base.nodes :=
    fun hg => (stable_sublist_base ..).subset hg
  have htarget : ∀ {g}, g ∈ stable base.slices target.slices → g ∈ target.nodes :=
    fun hg => (stable_sublist_target ..).subset hg
  constructor
  case removedOrder => exact hremoved
  case addedOrder => exact hadded
  case changesOrder => exact hchanges
  case once =>
    exact ⟨base.wellFormed.distinct.sublist hremoved, target.wellFormed.distinct.sublist hadded,
      target.wellFormed.distinct.sublist hchanges⟩
  case gone => exact fun g hg hnot => (mem_removed_between_iff hg).2 fun hs => hnot (htarget hs)
  case fresh => exact fun g hg hnot => (mem_added_between_iff hg).2 fun hs => hnot (hbase hs)
  case moved =>
    exact fun g hold hnew => (mem_removed_between_iff hold).trans (mem_added_between_iff hnew).symm
  case crossed =>
    intro g hold hnew
    rw [mem_removed_between_iff hold]
    constructor
    · intro hnot
      obtain ⟨s, hs, hcrossed⟩ := (stable_maximal hnew hnot).resolve_left fun h => h hold
      exact ⟨s, hbase hs, htarget hs, mt (mem_removed_between_iff (hbase hs)).1 (not_not_intro hs),
        mt (mem_added_between_iff (htarget hs)).1 (not_not_intro hs), .inl hcrossed⟩
    · rintro ⟨s, hsold, -, hkept, -, hcrossed⟩ hg
      have hs := not_not.1 (mt (mem_removed_between_iff hsold).2 hkept)
      rcases hcrossed with ⟨hgs, hsg⟩ | ⟨hsg, hgs⟩
      · exact stable_ordered hg hs hgs hsg
      · exact stable_ordered hs hg hsg hgs
  case sent =>
    intro o ho n hn hnode _ hnot
    have hstable := not_not.1 (mt (mem_added_between_iff (List.mem_map_of_mem hn)).2 hnot)
    exact mem_changes_between_iff ho hn hnode hstable

/-- A list of nodes of a version, in its order, is given by its members. -/
theorem eq_filter_of_sublist {v : Version} {nodes : List GIndex} {p : GIndex → Bool}
    (h : nodes.Sublist v.nodes) (hmem : ∀ g ∈ v.nodes, g ∈ nodes ↔ p g = true) :
    nodes = v.nodes.filter p := by
  have hdistinct := v.wellFormed.distinct
  refine eq_of_pair_sublist (hdistinct.sublist h) (hdistinct.filter p) (fun g => ?_) ?_
  · rw [List.mem_filter]
    exact ⟨fun hg => ⟨h.subset hg, (hmem g (h.subset hg)).1 hg⟩, fun hg => (hmem g hg.1).2 hg.2⟩
  · intro g s hpair hswap
    exact pair_sublist_asymm hdistinct (hpair.trans List.filter_sublist) (hswap.trans h)

/-- No two of the common nodes change sides when these keep their order. -/
theorem not_crosses_of_ordered {base target : Version}
    (hordered : base.nodes.filter (· ∈ target.nodes) = target.nodes.filter (· ∈ base.nodes))
    {g s : GIndex} (hg : g ∈ target.nodes) (hs : s ∈ target.nodes) :
    ¬ Crosses base target g s := by
  have hsame : ∀ {g s}, g ∈ target.nodes → s ∈ target.nodes → [g, s].Sublist base.nodes →
      [g, s].Sublist target.nodes := by
    intro g s hg hs h
    have hfilter := h.filter (· ∈ target.nodes)
    have hboth : [g, s].filter (· ∈ target.nodes) = [g, s] := by
      simp only [List.filter_cons, decide_eq_true hg, decide_eq_true hs, if_true, List.filter_nil]
    rw [hordered, hboth] at hfilter
    exact hfilter.trans List.filter_sublist
  have hdistinct := target.wellFormed.distinct
  rintro (⟨hold, hnew⟩ | ⟨hold, hnew⟩)
  · exact pair_sublist_asymm hdistinct (hsame hg hs hold) hnew
  · exact pair_sublist_asymm hdistinct (hsame hs hg hold) hnew

theorem map_part_eq {olds news : List Slice} (hnodes : olds.map Slice.node = news.map Slice.node)
    (hbytes : ∀ o ∈ olds, ∀ n ∈ news, o.node = n.node → o.bytes = n.bytes) :
    olds.map Slice.part = news.map Slice.part := by
  induction olds generalizing news with
  | nil =>
    rw [List.map_eq_nil_iff.1 hnodes.symm]
  | cons o olds ih =>
    cases news with
    | nil => cases hnodes
    | cons n news =>
      obtain ⟨hnode, hnodes⟩ := List.cons.inj hnodes
      have hpart : o.part = n.part := by
        rw [Slice.part, Slice.part, hnode,
          hbytes o (List.mem_cons_self ..) n (List.mem_cons_self ..) hnode]
      rw [List.map_cons, List.map_cons, hpart, ih hnodes fun o ho n hn =>
        hbytes o (List.mem_cons_of_mem _ ho) n (List.mem_cons_of_mem _ hn)]

namespace Economical

variable {d : Diff} {base target : Version}

theorem not_removed_of_ordered (h : d.Economical base target)
    (hordered : base.nodes.filter (· ∈ target.nodes) = target.nodes.filter (· ∈ base.nodes))
    {g : GIndex} (hold : g ∈ base.nodes) (hnew : g ∈ target.nodes) : g ∉ d.removed := by
  intro hg
  obtain ⟨s, -, hs, -, -, hcrossed⟩ := (h.crossed g hold hnew).1 hg
  exact not_crosses_of_ordered hordered hnew hs hcrossed

theorem removed_eq (h : d.Economical base target)
    (hordered : base.nodes.filter (· ∈ target.nodes) = target.nodes.filter (· ∈ base.nodes)) :
    d.removed = base.nodes.filter (· ∉ target.nodes) := by
  refine eq_filter_of_sublist h.removedOrder fun g hold => ?_
  rw [decide_eq_true_iff]
  exact ⟨fun hg hnew => h.not_removed_of_ordered hordered hold hnew hg, h.gone g hold⟩

theorem added_eq (h : d.Economical base target)
    (hordered : base.nodes.filter (· ∈ target.nodes) = target.nodes.filter (· ∈ base.nodes)) :
    d.added.map Addition.node = target.nodes.filter (· ∉ base.nodes) := by
  refine eq_filter_of_sublist h.addedOrder fun g hnew => ?_
  rw [decide_eq_true_iff]
  exact ⟨fun hg hold => h.not_removed_of_ordered hordered hold hnew
    ((h.moved g hold hnew).2 hg), h.fresh g hnew⟩

theorem isEmpty_iff (h : d.Economical base target) :
    d.isEmpty = true ↔ base.parts = target.parts := by
  simp only [isEmpty, Bool.and_eq_true, List.isEmpty_iff]
  constructor
  · rintro ⟨⟨hchanges, hremoved⟩, hadded⟩
    have hnone : ∀ g, g ∉ d.removed ∧ g ∉ d.added.map Addition.node := by
      simp [hremoved, hadded]
    have hmem : ∀ g, g ∈ base.nodes ↔ g ∈ target.nodes := fun g =>
      ⟨fun hg => by_contra fun hnot => (hnone g).1 (h.gone g hg hnot),
        fun hg => by_contra fun hnot => (hnone g).2 (h.fresh g hg hnot)⟩
    have hnodes : base.nodes = target.nodes := by
      refine eq_of_pair_sublist base.wellFormed.distinct target.wellFormed.distinct hmem ?_
      intro g s hnew hold
      have hg : g ∈ target.nodes := hnew.subset (by simp)
      have hs : s ∈ target.nodes := hnew.subset (by simp)
      exact (hnone g).1 ((h.crossed g ((hmem g).2 hg) hg).2
        ⟨s, (hmem s).2 hs, hs, (hnone s).1, (hnone s).2, .inr ⟨hold, hnew⟩⟩)
    refine map_part_eq hnodes fun o ho n hn hnode => ?_
    have hsent := h.sent o ho n hn hnode (hnone _).1 (hnone _).2
    exact not_not.1 (mt hsent.2 (by simp [hchanges]))
  · intro hparts
    have hnodes : base.nodes = target.nodes := by
      have hmap := congrArg (List.map Part.node) hparts
      rwa [Version.parts, Version.parts, List.map_map, List.map_map] at hmap
    have hordered : base.nodes.filter (· ∈ target.nodes) =
        target.nodes.filter (· ∈ base.nodes) := by rw [hnodes]
    have hremoved : d.removed = [] := by
      rw [h.removed_eq hordered, hnodes]
      simp
    have hadded : d.added.map Addition.node = [] := by
      rw [h.added_eq hordered, hnodes]
      simp
    refine ⟨⟨List.eq_nil_iff_forall_not_mem.2 fun c hc => ?_, hremoved⟩,
      List.map_eq_nil_iff.1 hadded⟩
    have hchange := List.mem_map_of_mem (f := Part.node) hc
    obtain ⟨n, hn, hnode⟩ := List.mem_map.1 (h.changesOrder.subset hchange)
    have hmem : n.part ∈ base.parts := hparts ▸ List.mem_map_of_mem hn
    obtain ⟨o, ho, hpart⟩ := List.mem_map.1 hmem
    have hsent := h.sent o ho n hn (congrArg Part.node hpart) (by simp [hremoved])
      (by simp [hadded])
    exact hsent.1 (hnode ▸ hchange) (congrArg Part.bytes hpart)

end Economical

/-- **The diff of two versions is economical.** A common node is removed and added again exactly
when it has changed sides with a common node that stays, any other is sent exactly when its bytes
differ, and all sections are in order and without repetitions. When the common nodes keep their
order, only the nodes of the base alone are removed and only those of the target alone added; and
nothing at all is listed exactly when the versions have the same nodes with the same bytes in the
same order. -/
theorem between_economical (base target : Version) :
    (between base target).Economical base target ∧
      (base.nodes.filter (· ∈ target.nodes) = target.nodes.filter (· ∈ base.nodes) →
        (between base target).removed = base.nodes.filter (· ∉ target.nodes) ∧
          (between base target).added.map Addition.node =
            target.nodes.filter (· ∉ base.nodes)) ∧
      ((between base target).isEmpty = true ↔ base.parts = target.parts) := by
  have h := economical_between base target
  exact ⟨h, fun hordered => ⟨h.removed_eq hordered, h.added_eq hordered⟩, h.isEmpty_iff⟩

/-- The nodes of `threeNodes` without node 3, in their order, and a new one in front. -/
def renewed : Version :=
  ⟨[⟨9, 0, [9]⟩, ⟨4, 1, [1, 1]⟩, ⟨5, 3, [2, 3]⟩], firstFault_eq_none_iff.1 rfl⟩

theorem between_economical_renewed :
    threeNodes.nodes.filter (· ∈ renewed.nodes) = renewed.nodes.filter (· ∈ threeNodes.nodes) ∧
      (between threeNodes renewed).removed = [3] ∧
      (between threeNodes renewed).added.map Addition.node = [9] ∧
      5 ∉ (between threeNodes renewed).changes.map Part.node ∧
      (between threeNodes renewed).isEmpty = false := by
  have hordered : threeNodes.nodes.filter (· ∈ renewed.nodes) =
    renewed.nodes.filter (· ∈ threeNodes.nodes) := by decide
  obtain ⟨h, hkept, hempty⟩ := between_economical threeNodes renewed
  obtain ⟨hremoved, hadded⟩ := hkept hordered
  have hremoved : (between threeNodes renewed).removed = [3] := hremoved
  have hadded : (between threeNodes renewed).added.map Addition.node = [9] := hadded
  have hsame := h.sent ⟨5, 1, [2, 3]⟩ (by decide) ⟨5, 3, [2, 3]⟩ (by decide) rfl
    (by simp [hremoved]) (by simp [hadded])
  refine ⟨hordered, hremoved, hadded, fun hsent => hsame.1 hsent rfl, ?_⟩
  exact Bool.eq_false_iff.2 (mt hempty.1 (by decide))

end Diff

end SszArchive
