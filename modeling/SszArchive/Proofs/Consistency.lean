import SszArchive.Proofs.Placement
import SszArchive.Proofs.Version

/-!
Which diffs can be replayed on a version, and what is reported of the others. A diff is consistent
with its base when its sections agree with the base and with each other and every addition hangs,
over its anchors, off the front or off a kept node; then all of it has a place. Main statement: a
replay succeeds exactly for the consistent diffs whose result is a version of the declared length,
and which of the three fails decides what is reported.
-/

namespace SszArchive

theorem Version.has_eq_true_iff {v : Version} {g : GIndex} :
    v.has g = true ↔ g ∈ v.slices.map Slice.node := by
  simp [has]

namespace Diff

/-! ## What the diff asks for -/

/-- The base nodes that the diff does not remove. -/
def keptNodes (d : Diff) (base : Version) : List GIndex := (d.kept base).map Slice.node

/-- Following anchors from here ends after finitely many steps at the front or at a kept node. -/
inductive Grounded (kept : List GIndex) (added : List Addition) : Option GIndex → Prop
  | front : Grounded kept added none
  | kept {g : GIndex} : g ∈ kept → Grounded kept added (some g)
  | behind {a : Addition} :
      a ∈ added → Grounded kept added a.after → Grounded kept added (some a.node)

/-- The sections of the diff agree with the base and with each other. -/
structure Consistent (d : Diff) (base : Version) : Prop where
  removedOnce : d.removed.Nodup
  removedPresent : ∀ g ∈ d.removed, g ∈ base.slices.map Slice.node
  addedOnce : (d.added.map Addition.node).Nodup
  addedNew : ∀ a ∈ d.added, a.node ∉ d.keptNodes base
  anchorsOnce : (d.added.map Addition.after).Nodup
  changesKnown : ∀ c ∈ d.changes, c.node ∈ d.keptNodes base ∨ c.node ∈ d.added.map Addition.node
  addedSentOnce : ∀ a ∈ d.added, (d.changes.map Part.node).count a.node = 1
  grounded : ∀ a ∈ d.added, Grounded (d.keptNodes base) d.added a.after

/-- The parts of the result, the kept ones before the added ones. -/
def contents (d : Diff) (base : Version) : List Part :=
  ((d.kept base).map Entry.kept ++ d.added.map Entry.added).map (Entry.part d.changes)

/-- The length of the result. -/
def resultLength (d : Diff) (base : Version) : Nat :=
  totalSize ((d.contents base).map (·.bytes.length))

/-- The parts of the result can be the slices of a version. -/
structure Fits (d : Diff) (base : Version) : Prop where
  nodes : ∀ a ∈ d.added, a.node ≠ 0
  bytes : ∀ p ∈ d.contents base, p.bytes ≠ []
  stop : d.start.toNat + d.resultLength base ≤ offsetBound - 1

/-! ## Checks -/

theorem nodup_filter_mem_iff {nodes chosen : List GIndex} :
    (nodes.filter (· ∈ chosen)).Nodup ↔ ∀ g ∈ chosen, nodes.count g ≤ 1 := by
  rw [List.nodup_iff_count_le_one]
  constructor
  · intro h g hg
    have hcount := h g
    rwa [List.count_filter (by simpa using hg)] at hcount
  · intro h g
    by_cases hg : g ∈ chosen
    · rw [List.count_filter (by simpa using hg)]
      exact h g hg
    · have hnot : g ∉ nodes.filter (· ∈ chosen) := fun hmem =>
        hg (by simpa using (List.mem_filter.1 hmem).2)
      rw [List.count_eq_zero_of_not_mem hnot]
      exact Nat.zero_le 1

/-! ## Placing -/

/-- The additions that were placed are grounded, each by the entries before it. -/
theorem Linked.grounded {kept : List GIndex} {added : List Addition} {before : Option GIndex}
    {entries : List Entry} (h : Linked before entries) (hbefore : Grounded kept added before)
    (hkept : ∀ s ∈ entries.filterMap Entry.kept?, s.node ∈ kept)
    (hadded : ∀ a ∈ entries.filterMap Entry.added?, a ∈ added) :
    ∀ a ∈ entries.filterMap Entry.added?, Grounded kept added a.after := by
  induction entries generalizing before with
  | nil => simp
  | cons e entries ih =>
    cases e with
    | kept s =>
      have hs := hkept s (List.mem_cons_self ..)
      exact @ih (some s.node) h (.kept hs) (fun t ht => hkept t (List.mem_cons_of_mem _ ht)) hadded
    | added a =>
      obtain ⟨hafter, h⟩ := h
      have ha : Grounded kept added a.after := hafter ▸ hbefore
      have hnode := Grounded.behind (hadded a (List.mem_cons_self ..)) ha
      have hrest := ih h hnode hkept fun b hb => hadded b (List.mem_cons_of_mem _ hb)
      exact List.forall_mem_cons.2 ⟨ha, hrest⟩

/-- Nothing grounded is left over. -/
theorem Places.left_eq_nil {changes : List Part} {added left : List Addition}
    {entries : List Entry} {kept : List GIndex} (h : Places changes added entries left)
    (hfront : none ∉ left.map Addition.after)
    (hkept : ∀ g ∈ kept, ∃ e ∈ entries, e.node = g)
    (hgrounded : ∀ a ∈ added, Grounded kept added a.after) : left = [] := by
  -- By induction along the anchors: nothing is left behind a place that is grounded.
  have hanchor : ∀ anchor, Grounded kept added anchor → anchor ∉ left.map Addition.after := by
    intro anchor hanchor
    induction hanchor with
    | front => exact hfront
    | kept hg =>
      obtain ⟨e, he, rfl⟩ := hkept _ hg
      exact h.done e he
    | @behind a ha _ ih =>
      rcases List.mem_append.1 (h.perm.mem_iff.1 ha) with hplaced | hleft
      · exact h.done _ (Entry.mem_filterMap_added?.1 hplaced)
      · exact absurd (List.mem_map_of_mem hleft) ih
  refine List.eq_nil_iff_forall_not_mem.2 fun a ha => ?_
  exact hanchor a.after (hgrounded a (h.left_subset ha)) (List.mem_map_of_mem ha)

theorem consistent_of_place {d : Diff} {base : Version} {parts : List Part}
    (h : d.place base = .ok parts) : d.Consistent base := by
  obtain ⟨hremoved, hadded, hchanges, -⟩ := place_eq_ok_iff.1 h
  obtain ⟨hpresent, hremovedOnce, -⟩ := (checkRemoved_eq_ok_iff ..).1 hremoved
  obtain ⟨hnew, ⟨haddedOnce, -⟩, hanchors, -⟩ := (checkAdded_eq_ok_iff ..).1 hadded
  obtain ⟨hknown, honce, -⟩ := (checkChanges_eq_ok_iff ..).1 hchanges
  obtain ⟨entries, -, hlinked, hkept, hplaces⟩ := arrangement_of_place h
  have hperm := hplaces.perm_placed
  refine ⟨hremovedOnce, fun g hg => Version.has_eq_true_iff.1 (hpresent g hg), haddedOnce, hnew,
    hanchors, fun c hc => (hknown c hc).symm, fun a ha => ?_, fun a ha => ?_⟩
  · have hle := nodup_filter_mem_iff.1 honce a.node (List.mem_map_of_mem ha)
    have hsent := bytesFor?_isSome_iff.1 (hplaces.sent a (hperm.mem_iff.1 ha))
    have hpos := List.count_pos_iff.2 hsent
    omega
  · refine hlinked.grounded .front (fun s hs => ?_) (fun b hb => hperm.mem_iff.2 hb) a
      (hperm.mem_iff.1 ha)
    exact List.mem_map_of_mem (hkept ▸ hs)

theorem Consistent.sent {d : Diff} {base : Version} (h : d.Consistent base) {a : Addition}
    (ha : a ∈ d.added) : bytesFor? d.changes a.node ≠ none := by
  have hcount := h.addedSentOnce a ha
  have hmem : a.node ∈ d.changes.map Part.node := List.count_pos_iff.1 (by omega)
  exact Option.isSome_iff_ne_none.1 (bytesFor?_isSome_iff.2 hmem)

theorem Consistent.exists_place {d : Diff} {base : Version} (h : d.Consistent base) :
    ∃ parts, d.place base = .ok parts := by
  have hremoved : checkRemoved base [] d.removed = .ok () :=
    (checkRemoved_eq_ok_iff ..).2
      ⟨fun g hg => Version.has_eq_true_iff.2 (h.removedPresent g hg), h.removedOnce, by simp⟩
  have hadded : checkAdded ((d.kept base).map Slice.node) [] d.added = .ok () :=
    (checkAdded_eq_ok_iff ..).2 ⟨h.addedNew, ⟨h.addedOnce, by simp⟩, h.anchorsOnce, by simp⟩
  have hchanges : checkChanges ((d.kept base).map Slice.node) (d.added.map Addition.node) []
      d.changes = .ok () := by
    refine (checkChanges_eq_ok_iff ..).2 ⟨fun c hc => (h.changesKnown c hc).symm, ?_, by simp⟩
    refine nodup_filter_mem_iff.2 fun g hg => ?_
    obtain ⟨a, ha, rfl⟩ := List.mem_map.1 hg
    exact Nat.le_of_eq (h.addedSentOnce a ha)
  rcases chain_cases d.changes none h.anchorsOnce with
    ⟨run, left, hrun, -, hnone, hfirst, hfront⟩ | ⟨a, ha, hbytes, -⟩
  · rcases placeKept_cases d.changes (d.kept base) (hfirst.anchors_nodup h.anchorsOnce) with
      ⟨entries, rest, hentries, -, hkept, hsecond⟩ | ⟨a, ha, hbytes, -⟩
    · have hplaces := hfirst.append hsecond
      have hrest : rest = [] := by
        refine hplaces.left_eq_nil (fun hmem => hfront ?_) (fun g hg => ?_) h.grounded
        · exact List.map_subset _ hsecond.left_subset hmem
        · obtain ⟨s, hs, rfl⟩ := List.mem_map.1 hg
          rw [← hkept] at hs
          exact ⟨_, List.mem_append_right _ (Entry.mem_filterMap_kept?.1 hs), rfl⟩
      exact ⟨_, place_eq_ok_iff.2 ⟨hremoved, hadded, hchanges, _, _, _, hrun, hrest ▸ hentries,
        rfl⟩⟩
    · exact absurd hbytes (h.sent (hfirst.left_subset ha))
  · exact absurd hbytes (h.sent ha)

/-- **Every node has a place** exactly when the diff is consistent with the base. -/
theorem exists_place_iff {d : Diff} {base : Version} :
    (∃ parts, d.place base = .ok parts) ↔ d.Consistent base :=
  ⟨fun ⟨_, h⟩ => consistent_of_place h, Consistent.exists_place⟩

/-! ## The result -/

theorem perm_contents_of_place {d : Diff} {base : Version} {parts : List Part}
    (h : d.place base = .ok parts) : parts.Perm (d.contents base) := by
  obtain ⟨entries, rfl, -, hkept, hplaces⟩ := arrangement_of_place h
  have hentries := Entry.perm_kept_added entries
  rw [hkept] at hentries
  exact (hentries.trans ((hplaces.perm_placed.map Entry.added).symm.append_left _)).map _

theorem map_node_contents (d : Diff) (base : Version) :
    (d.contents base).map Part.node = d.keptNodes base ++ d.added.map Addition.node := by
  simp [contents, keptNodes, Entry.part, Function.comp_def]

theorem perm_nodes_of_place {d : Diff} {base : Version} {parts : List Part}
    (h : d.place base = .ok parts) :
    (parts.map Part.node).Perm (d.keptNodes base ++ d.added.map Addition.node) := by
  rw [← map_node_contents]
  exact (perm_contents_of_place h).map Part.node

theorem Consistent.nodup_nodes {d : Diff} {base : Version} (h : d.Consistent base) :
    (d.keptNodes base ++ d.added.map Addition.node).Nodup := by
  refine List.nodup_append.2 ⟨?_, h.addedOnce, fun g hg q hq he => ?_⟩
  · exact base.wellFormed.distinct.sublist (List.filter_sublist.map _)
  · obtain ⟨a, ha, rfl⟩ := List.mem_map.1 hq
    exact h.addedNew a ha (he ▸ hg)

theorem resultLength_of_place {d : Diff} {base : Version} {parts : List Part}
    (h : d.place base = .ok parts) :
    totalSize (parts.map (·.bytes.length)) = d.resultLength base :=
  totalSize_perm ((perm_contents_of_place h).map _)

theorem node_ne_zero_of_mem_keptNodes {d : Diff} {base : Version} {g : GIndex}
    (h : g ∈ d.keptNodes base) : g ≠ 0 := by
  obtain ⟨s, hs, rfl⟩ := List.mem_map.1 h
  exact base.wellFormed.nodeNonzero s (List.mem_filter.1 hs).1

theorem wellFormed_iff_fits {d : Diff} {base : Version} {parts : List Part}
    (h : d.place base = .ok parts) : WellFormed (layOut d.start parts) ↔ d.Fits base := by
  have hdistinct : (parts.map Part.node).Nodup :=
    (perm_nodes_of_place h).nodup_iff.2 (consistent_of_place h).nodup_nodes
  have hnode : ∀ g, g ∈ parts.map Part.node ↔
      g ∈ d.keptNodes base ++ d.added.map Addition.node := fun _ => (perm_nodes_of_place h).mem_iff
  have hnodes : (∀ p ∈ parts, p.node ≠ 0) ↔ ∀ a ∈ d.added, a.node ≠ 0 := by
    constructor
    · intro hparts a ha
      obtain ⟨p, hp, hpart⟩ := List.mem_map.1
        ((hnode a.node).2 (List.mem_append_right _ (List.mem_map_of_mem ha)))
      exact hpart ▸ hparts p hp
    · intro hadded p hp
      rcases List.mem_append.1 ((hnode p.node).1 (List.mem_map_of_mem hp)) with hg | hg
      · exact node_ne_zero_of_mem_keptNodes hg
      · obtain ⟨a, ha, hpart⟩ := List.mem_map.1 hg
        exact hpart ▸ hadded a ha
  have hbytes : (∀ p ∈ parts, p.bytes ≠ []) ↔ ∀ p ∈ d.contents base, p.bytes ≠ [] :=
    forall_congr' fun _ => imp_congr_left (perm_contents_of_place h).mem_iff
  rw [wellFormed_layOut_iff, hnodes, hbytes, resultLength_of_place h]
  constructor
  · rintro ⟨hadded, hcontents, -, hstop⟩
    exact ⟨hadded, hcontents, by omega⟩
  · rintro ⟨hadded, hcontents, hstop⟩
    have hpos : 0 < offsetBound := by decide
    exact ⟨hadded, hcontents, hdistinct, by omega⟩

/-! ## Outcomes -/

/-- **What a replay reports.** A replay succeeds exactly when the diff is consistent with the base,
its result fits into a version and has the declared length. An inconsistent diff is a mismatch,
a result that does not fit an invalid version, and another length again a mismatch. -/
theorem replay_outcome (d : Diff) (base : Version) :
    ((∃ target, d.replay base = .ok target) ↔
        d.Consistent base ∧ d.Fits base ∧ d.resultLength base = d.total.toNat) ∧
      ((∃ cause, d.replay base = .error (.invariant cause)) ↔
        d.Consistent base ∧ ¬ d.Fits base) ∧
      ((∃ cause, d.replay base = .error (.baseMismatch cause)) ↔
        ¬ d.Consistent base ∨
          d.Consistent base ∧ d.Fits base ∧ d.resultLength base ≠ d.total.toNat) := by
  cases hplace : d.place base with
  | error e =>
    have hreplay : d.replay base = .error (.baseMismatch e) := by simp only [replay, hplace]
    have hnot : ¬ d.Consistent base := fun h => by
      obtain ⟨parts, hparts⟩ := h.exists_place
      cases hplace.symm.trans hparts
    simp [hreplay, hnot]
  | ok parts =>
    have hconsistent := consistent_of_place hplace
    have hfits := wellFormed_iff_fits hplace
    cases hassemble : Version.assemble d.start parts with
    | error e =>
      have hreplay : d.replay base = .error (.invariant e) := by
        simp only [replay, hplace, hassemble]
      have hnot : ¬ d.Fits base := fun h => by
        obtain ⟨target, htarget⟩ := Version.exists_assemble_eq_ok_iff.2 (hfits.2 h)
        cases hassemble.symm.trans htarget
      simp [hreplay, hconsistent, hnot]
    | ok target =>
      have hfit := hfits.1 (Version.exists_assemble_eq_ok_iff.1 ⟨target, hassemble⟩)
      have hlength : target.totalLength = d.resultLength base := by
        rw [Version.totalLength, Version.assemble_eq_ok_iff.1 hassemble, map_length_layOut,
          resultLength_of_place hplace]
      have hreplay : d.replay base =
          if d.resultLength base = d.total.toNat then .ok target
          else .error (.baseMismatch (.totalDiffers (d.resultLength base) d.total.toNat)) := by
        simp only [replay, hplace, hassemble, hlength]
      by_cases htotal : d.resultLength base = d.total.toNat
      · simp [hreplay, hconsistent, hfit, htotal]
      · simp [hreplay, hconsistent, hfit, htotal]

/-- Additions that are anchored at each other hang off nothing. -/
example : ∃ node anchor,
    replay ⟨[⟨6, [1]⟩, ⟨7, [2]⟩], [], [⟨6, some 7⟩, ⟨7, some 6⟩], 0, 2⟩ .empty =
      .error (.baseMismatch (.danglingAnchor node anchor)) :=
  ⟨_, _, rfl⟩

end Diff

end SszArchive
