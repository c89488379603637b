import SszArchive.Proofs.Payload
import SszArchive.Proofs.Replay
import SszArchive.Proofs.Version
import SszArchive.Schema

/-!
The diff of two versions leads from the first to the second. Main statement: replaying the
payload of the diff on the base gives the target, whatever moved, came, went or changed its size.
-/

namespace SszArchive

open SszArchive.Alignment

namespace Diff

/-! ## What an alignment sends -/

theorem sends_changes {old new : List Slice} {steps : List Step} (h : Merged old new steps)
    (hnodup : (new.map Slice.node).Nodup) : Sends (steps.filterMap Step.change?) steps := by
  have hnodes := List.Nodup.sublist h.change_nodes_sublist hnodup
  constructor
  · intro n hn
    have hsent : n.part ∈ steps.filterMap Step.change? := List.mem_filterMap.2 ⟨_, hn, rfl⟩
    exact bytesFor?_of_mem hnodes hsent
  · intro o n hn
    by_cases hb : o.bytes = n.bytes
    · cases hfound : bytesFor? (steps.filterMap Step.change?) n.node with
      | none => exact hb
      | some b =>
        -- Nothing is sent for this pair, but what is sent under its node is the target's.
        obtain ⟨t, ht, hpart⟩ := List.mem_map.1 (h.changes_sublist.subset (mem_of_bytesFor? hfound))
        have hnode : t.node = n.node := congrArg Part.node hpart
        have heq : t = n := List.inj_on_of_nodup_map hnodup ht (h.mem_new hn rfl) hnode
        exact (heq ▸ congrArg Part.bytes hpart).symm
    · have hsent : n.part ∈ steps.filterMap Step.change? :=
        List.mem_filterMap.2 ⟨_, hn, if_neg hb⟩
      rw [show n.node = n.part.node from rfl, bytesFor?_of_mem hnodes hsent]
      rfl

/-- Every change is one of an added or of a kept node. -/
theorem node_of_change {old new : List Slice} {steps : List Step} (h : Merged old new steps)
    (before : Option GIndex) {c : Part} (hc : c ∈ steps.filterMap Step.change?) :
    c.node ∈ (anchored before steps).map Addition.node ∨
      c.node ∈ (steps.filterMap Step.kept?).map Slice.node := by
  obtain ⟨n, hn, hpart⟩ := List.mem_map.1 (h.changes_sublist.subset hc)
  have hmem : c.node ∈ new.map Slice.node := List.mem_map.2 ⟨n, hn, congrArg Part.node hpart⟩
  exact (List.mem_append.1 ((h.nodes_perm before).mem_iff.2 hmem)).symm

/-! ## The diff of two versions -/

theorem added_between (base target : Version) :
    (between base target).added = anchored none (align base target) :=
  filterMap_addition? target [] (align base target) (by
    rw [(merged_align base target).filterMap_new?]
    rfl)

theorem kept_between (base target : Version) :
    (between base target).kept base = (align base target).filterMap Step.kept? :=
  (merged_align base target).filter_kept base.wellFormed.distinct _ fun _ _ => Iff.rfl

theorem checkRemoved_between (base target : Version) :
    checkRemoved base [] (between base target).removed = .ok () := by
  have hsub := (merged_align base target).removed_sublist
  refine (checkRemoved_eq_ok_iff ..).2 ⟨fun g hg => ?_, ?_, by simp⟩
  · obtain ⟨o, ho, rfl⟩ := List.mem_map.1 (hsub.subset hg)
    exact List.any_eq_true.2 ⟨o, ho, by simp⟩
  · exact List.Nodup.sublist hsub base.wellFormed.distinct

theorem checkAdded_between (base target : Version) :
    checkAdded (((between base target).kept base).map Slice.node) [] (between base target).added =
      .ok () := by
  have h := merged_align base target
  have hnodup := target.wellFormed.distinct
  obtain ⟨-, hadded, hdisjoint⟩ := List.nodup_append.1 ((h.nodes_perm none).nodup_iff.2 hnodup)
  have hanchors : ((anchored none (align base target)).map Addition.after).Nodup := by
    refine List.Nodup.sublist (anchors_sublist none _) ?_
    rw [h.filterMap_new?, List.nodup_cons]
    refine ⟨by simp, ?_⟩
    rw [← Function.comp_def, ← List.map_map]
    exact hnodup.map fun _ _ => Option.some.inj
  rw [kept_between, added_between]
  refine (checkAdded_eq_ok_iff ..).2 ⟨fun a ha hk => ?_, ⟨hadded, by simp⟩, hanchors, by simp⟩
  exact hdisjoint _ hk _ (List.mem_map_of_mem ha) rfl

theorem checkChanges_between (base target : Version) :
    checkChanges (((between base target).kept base).map Slice.node)
      ((between base target).added.map Addition.node) [] (between base target).changes =
        .ok () := by
  have h := merged_align base target
  rw [kept_between, added_between]
  refine (checkChanges_eq_ok_iff ..).2 ⟨fun c hc => node_of_change h none hc, ?_, by simp⟩
  exact List.Nodup.sublist (List.filter_sublist.trans h.change_nodes_sublist)
    target.wellFormed.distinct

theorem place_between (base target : Version) :
    (between base target).place base = .ok target.parts := by
  have h := merged_align base target
  have hnodup := target.wellFormed.distinct
  obtain ⟨front, body, left, hchain, hplace, hparts⟩ := place_merged h
    (sends_changes h hnodup) hnodup none (by simp) _ (Nat.le_refl _)
  rw [← added_between] at hchain
  rw [← kept_between] at hplace
  exact place_eq_ok_iff.2 ⟨checkRemoved_between base target, checkAdded_between base target,
    checkChanges_between base target, front, left, body, hchain, hplace, hparts⟩

theorem replay_between (base target : Version) :
    (between base target).replay base = .ok target := by
  have hstart : (between base target).start = target.start := rfl
  have htotal : (between base target).total.toNat = target.totalLength := target.toNat_totalLength
  simp only [replay, place_between, hstart, target.assemble_parts, htotal, if_true]

/-- The bounds of a version are those that a payload can express. -/
theorem writable_between (base target : Version) : (between base target).Writable := by
  have h := merged_align base target
  have hlength : ∀ {n}, n ≤ target.slices.length → n < UInt64.size :=
    fun hn => Nat.lt_of_le_of_lt hn target.size_lt
  constructor
  · have hle := h.changes_sublist.length_le
    rw [List.length_map] at hle
    exact hlength hle
  · intro c hc
    obtain ⟨n, hn, rfl⟩ := List.mem_map.1 (h.changes_sublist.subset hc)
    exact Version.length_lt hn
  · have hle := h.removed_sublist.length_le
    rw [List.length_map] at hle
    exact Nat.lt_of_le_of_lt hle base.size_lt
  · have hle := (h.nodes_perm none).length_eq
    rw [List.length_append, List.length_map, List.length_map, List.length_map] at hle
    rw [added_between]
    exact hlength (by omega)
  · intro a ha hzero
    rw [added_between] at ha
    have hmem := (anchors_sublist none _).subset (List.mem_map_of_mem ha)
    rw [h.filterMap_new?, hzero] at hmem
    obtain ⟨n, hn, hnode⟩ := List.mem_map.1 ((List.mem_cons.1 hmem).resolve_left (by simp))
    exact target.wellFormed.nodeNonzero n hn (Option.some.inj hnode)

theorem replayPayload_encode {d : Diff} (h : d.Writable) (base : Version) :
    replayPayload base d.encode = d.replay base := by
  rw [replayPayload, decode_encode h]

/-- **Round trip.** The payload of the diff between two versions turns the first into the second:
the same nodes, offsets and bytes in the same order. -/
theorem replayPayload_between (base target : Version) :
    replayPayload base (between base target).encode = .ok target := by
  rw [replayPayload_encode (writable_between base target), replay_between]

end Diff

/-! ## Schemas -/

/-- Every target can be written, and what was written is read back as the target. -/
def Schema.RoundTrips (s : Schema) : Prop :=
  ∀ base target, ∃ payload, s.compute base target = .ok payload ∧ s.apply base payload = .ok target

theorem Schema.slices_roundTrips : Schema.slices.RoundTrips := by
  intro base target
  refine ⟨_, rfl, ?_⟩
  show Diff.replayPayload base (Diff.between base target).encode = _
  rw [Diff.replayPayload_encode (Diff.writable_between base target), Diff.replay_between]

end SszArchive
