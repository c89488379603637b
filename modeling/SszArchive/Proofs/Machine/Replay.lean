import SszArchive.Proofs.Machine.Indexed
import SszArchive.Proofs.Machine.Reading
import SszArchive.Proofs.Replay

/-!
Replaying a diff on a version in memory. Membership is looked up in the position map, and changed
bytes are written over the kept ones by position.
-/

namespace SszArchive

namespace Machine

open Wire (Reader bufferBound)

/-! ## Reading -/

def readChange : Scan Part := do
  let node ← Scan.int
  let bytes ← Scan.block
  return ⟨node, bytes⟩

def readAddition : Scan Addition := do
  let node ← Scan.int
  let anchor ← Scan.int
  return ⟨node, if anchor = 0 then none else some anchor⟩

def readDiff : Scan Diff := do
  let changes ← Scan.list readChange
  let removed ← Scan.list Scan.int
  let added ← Scan.list readAddition
  let (start, total) ← Scan.range
  Scan.finish
  return { changes, removed, added, start, total }

section

variable {limit : Nat} {scarce : Prop}

theorem follows_readChange : Follows limit scarce (· = ·) readChange Diff.readChange :=
  .bind .int fun _ _ hnode => .bind .block fun _ _ hbytes =>
    .pure (congrArg₂ Part.mk hnode hbytes.1)

theorem follows_readAddition : Follows limit scarce (· = ·) readAddition Diff.readAddition :=
  .bind .int fun _ _ hnode => .bind .int fun _ _ hanchor => .pure (by rw [hnode, hanchor])

theorem follows_readDiff : Follows limit scarce (· = ·) readDiff Diff.read :=
  .bind (.list follows_readChange) fun _ _ hchanges =>
    .bind (.list .int) fun _ _ hremoved =>
      .bind (.list follows_readAddition) fun _ _ hadded =>
        .bind .range fun _ _ hextent =>
          .bind .finish fun _ _ _ => .pure (by rw [hchanges, hremoved, hadded, hextent])

end

/-! ## Checks -/

def checkRemoved (base : Indexed) (seen : List GIndex) : List GIndex → Except Mismatch Unit
  | [] => .ok ()
  | g :: rest =>
    if !base.positions.contains g then .error (.removedMissing g)
    else if g ∈ seen then .error (.removedTwice g)
    else checkRemoved base (g :: seen) rest

def checkAdded (base : Indexed) (removed : List GIndex) (seen : List Addition) :
    List Addition → Except Mismatch Unit
  | [] => .ok ()
  | a :: rest =>
    if base.positions.contains a.node && !removed.contains a.node then
      .error (.addedPresent a.node)
    else if seen.any (·.node == a.node) then .error (.addedTwice a.node)
    else if seen.any (·.after == a.after) then .error (.sharedAnchor a.after)
    else checkAdded base removed (a :: seen) rest

variable {x : Indexed} {v : Version}

theorem checkRemoved_eq (h : x.Represents v) (seen removed : List GIndex) :
    checkRemoved x seen removed = Diff.checkRemoved v seen removed := by
  induction removed generalizing seen with
  | nil => rfl
  | cons g removed ih => rw [checkRemoved, Diff.checkRemoved, h.contains, ih]

theorem checkAdded_eq (h : x.Represents v) (d : Diff) (seen added : List Addition) :
    checkAdded x d.removed seen added =
      Diff.checkAdded ((d.kept v).map Slice.node) seen added := by
  induction added generalizing seen with
  | nil => rfl
  | cons a added ih =>
    have hkept : (x.positions.contains a.node && !d.removed.contains a.node) = true ↔
        a.node ∈ (d.kept v).map Slice.node := by
      rw [h.contains]
      simp only [Diff.kept, Version.has, List.mem_map, List.mem_filter]
      grind
    have hnode : seen.any (·.node == a.node) = true ↔ a.node ∈ seen.map Addition.node := by simp
    have hafter : seen.any (·.after == a.after) = true ↔ a.after ∈ seen.map Addition.after := by
      simp
    rw [checkAdded, Diff.checkAdded, ih]
    simp only [hkept, hnode, hafter]

/-! ## Changes -/

/-- Writes the bytes of changed kept nodes to their places, which `positions` tells. -/
def applyChanges (added : List GIndex) (positions : Positions) (seen : List GIndex)
    (kept : List Part) : List Part → Exec Mismatch (List Part)
  | [] => .ok kept
  | c :: rest =>
    if c.node ∈ added then
      if c.node ∈ seen then report (.changedTwice c.node)
      else applyChanges added positions (c.node :: seen) kept rest
    else
      match positions[c.node]? with
      | some i => do
          let kept ← update kept i fun p => ⟨p.node, c.bytes⟩
          applyChanges added positions seen kept rest
      | none => report (.changedUnknown c.node)

/-- `p` with the bytes of `c` if it is the part of the same node. -/
def overwrite (c p : Part) : Part := if p.node = c.node then ⟨p.node, c.bytes⟩ else p

theorem node_overwrite (c p : Part) : (overwrite c p).node = p.node := by
  unfold overwrite
  split <;> rfl

theorem map_node_overwrite (c : Part) (kept : List Part) :
    (kept.map (overwrite c)).map Part.node = kept.map Part.node := by
  rw [List.map_map]
  exact List.map_congr_left fun p _ => node_overwrite c p

theorem map_overwrite_of_not_mem {c : Part} {kept : List Part}
    (h : c.node ∉ kept.map Part.node) : kept.map (overwrite c) = kept := by
  refine (List.map_congr_left fun p hp => if_neg fun he => ?_).trans (List.map_id' kept)
  exact h (he ▸ List.mem_map_of_mem hp)

/-- Nodes are distinct, so that writing to a place is writing to a node. -/
theorem modify_eq_map {kept : List Part} {c : Part} {i : Nat}
    (hnodup : (kept.map Part.node).Nodup)
    (hi : (kept.map Part.node).findIdx? (· == c.node) = some i) :
    kept.modify i (fun p => ⟨p.node, c.bytes⟩) = kept.map (overwrite c) := by
  induction kept generalizing i with
  | nil => cases hi
  | cons p kept ih =>
    rw [List.map_cons] at hnodup hi
    obtain ⟨hp, hnodup⟩ := List.nodup_cons.1 hnodup
    rw [List.findIdx?_cons] at hi
    by_cases hc : p.node = c.node
    · rw [if_pos (by simpa using hc)] at hi
      cases hi
      rw [List.modify_zero_cons, List.map_cons, overwrite, if_pos hc,
        map_overwrite_of_not_mem (hc ▸ hp)]
    · rw [if_neg (by simpa using hc)] at hi
      obtain ⟨j, hj, rfl⟩ := Option.map_eq_some_iff.1 hi
      rw [List.modify_succ_cons, List.map_cons, overwrite, if_neg hc, ih hnodup hj]

/-- A kept part with the last bytes that the changes give it. -/
def latest (changes : List Part) (p : Part) : Part :=
  ⟨p.node, (Diff.bytesFor? changes p.node).getD p.bytes⟩

/-- Writing a change first and taking the later ones then is taking them all. -/
theorem latest_cons (c : Part) (changes : List Part) (p : Part) :
    latest (c :: changes) p = latest changes (overwrite c p) := by
  rw [latest, latest, node_overwrite, Diff.bytesFor?_cons, overwrite]
  by_cases hc : p.node = c.node
  · rw [if_pos hc, if_pos hc.symm]
    cases Diff.bytesFor? changes p.node <;> rfl
  · rw [if_neg hc, if_neg fun he => hc he.symm, Option.or_none]

theorem map_latest_cons (c : Part) (changes kept : List Part) :
    kept.map (latest (c :: changes)) = (kept.map (overwrite c)).map (latest changes) := by
  rw [List.map_map]
  exact List.map_congr_left fun p _ => latest_cons c changes p

theorem refines_applyChanges {added nodes : List GIndex} {positions : Positions} {kept : List Part}
    (hnodes : kept.map Part.node = nodes) (hnodup : nodes.Nodup)
    (hpositions : ∀ g, positions[g]? = nodes.findIdx? (· == g))
    (hdisjoint : ∀ g ∈ nodes, g ∉ added) (seen : List GIndex) (changes : List Part) :
    Refines False (fun parts _ => parts = kept.map (latest changes))
      (applyChanges added positions seen kept changes)
      (Diff.checkChanges nodes added seen changes) := by
  induction changes generalizing seen kept with
  | nil => exact .ok (List.map_id' kept).symm
  | cons c changes ih =>
    rw [applyChanges, Diff.checkChanges, map_latest_cons]
    by_cases hadded : c.node ∈ added
    · rw [if_pos hadded, if_pos hadded]
      by_cases hseen : c.node ∈ seen
      · rw [if_pos hseen, if_pos hseen]
        exact .fault _
      · -- An added node is not kept, so that no kept part changes.
        have hnot : c.node ∉ kept.map Part.node := fun h => hdisjoint _ (hnodes ▸ h) hadded
        rw [if_neg hseen, if_neg hseen, map_overwrite_of_not_mem hnot]
        exact ih hnodes (c.node :: seen)
    · rw [if_neg hadded, if_neg hadded, hpositions]
      cases hi : nodes.findIdx? (· == c.node) with
      | none =>
        have hnot : c.node ∉ nodes := by
          intro hmem
          have := List.findIdx?_eq_none_iff.1 hi c.node hmem
          simp at this
        rw [if_neg hnot]
        exact .fault _
      | some i =>
        obtain ⟨hlt, hnode, -⟩ := List.findIdx?_eq_some_iff_getElem.1 hi
        have hmem : c.node ∈ nodes := by
          rw [← show nodes[i] = c.node by simpa using hnode]
          exact List.getElem_mem hlt
        have hinside : i < kept.length := by rwa [← hnodes, List.length_map] at hlt
        rw [if_pos hmem]
        dsimp only
        rw [update, within_of hinside, ok_bind, modify_eq_map (hnodes ▸ hnodup) (hnodes ▸ hi)]
        exact ih (by rw [map_node_overwrite, hnodes]) seen

/-! ## Placement -/

/-- Every kept part followed by its chain. -/
def placeParts (changes : List Part) :
    List Part → List Addition → Except Mismatch (List Part × List Addition)
  | [], pending => .ok ([], pending)
  | p :: rest, pending =>
    match Diff.chain changes (some p.node) pending with
    | .error e => .error e
    | .ok (followers, left) =>
      match placeParts changes rest left with
      | .error e => .error e
      | .ok (parts, left) => .ok (p :: followers ++ parts, left)

theorem placeParts_latest (changes : List Part) (kept : List Slice) (pending : List Addition) :
    placeParts changes ((kept.map Slice.part).map (latest changes)) pending =
      Diff.placeKept changes kept pending := by
  induction kept generalizing pending with
  | nil => rfl
  | cons s kept ih =>
    rw [List.map_cons, List.map_cons, placeParts, Diff.placeKept]
    simp only [ih]
    rfl

/-- The parts of the target in order. Of the additions that are left over an arbitrary one is named,
here the first. -/
def place (d : Diff) (base : Indexed) : Exec Mismatch (List Part) := do
  checked (checkRemoved base [] d.removed)
  checked (checkAdded base d.removed [] d.added)
  let kept := (base.slices.filter fun s => !d.removed.contains s.node).map Slice.part
  let kept ← applyChanges (d.added.map Addition.node) (indexOf (kept.map Part.node)) [] kept
    d.changes
  let (front, left) ← checked (Diff.chain d.changes none d.added)
  let (body, left) ← checked (placeParts d.changes kept left)
  match left with
  | [] => return front ++ body
  | a :: _ => report (.danglingAnchor a.node a.after)

theorem refines_place (h : x.Represents v) (d : Diff) :
    Refines False (· = ·) (place d x) (d.place v) := by
  rw [place, Diff.place, checkRemoved_eq h, checkAdded_eq h]
  refine (Refines.checked _).bind fun _ _ _ => ?_
  cases hadded : Diff.checkAdded ((d.kept v).map Slice.node) [] d.added with
  | error e => exact .fault e
  | ok =>
    have hdisjoint : ∀ g ∈ (d.kept v).map Slice.node, g ∉ d.added.map Addition.node := by
      intro g hg hmem
      obtain ⟨a, ha, rfl⟩ := List.mem_map.1 hmem
      exact ((Diff.checkAdded_eq_ok_iff _ _ _).1 hadded).1 a ha hg
    have hnodup : ((d.kept v).map Slice.node).Nodup :=
      v.wellFormed.distinct.sublist (List.filter_sublist.map _)
    have hnodes : ((d.kept v).map Slice.part).map Part.node = (d.kept v).map Slice.node := by
      rw [List.map_map]
      rfl
    have hkept : (x.slices.filter fun s => !d.removed.contains s.node) = d.kept v := by
      rw [h.slices, Diff.kept]
    show Refines False (· = ·) (Except.ok () >>= _) (Except.ok () >>= _)
    simp only [hkept, hnodes]
    refine (refines_applyChanges hnodes hnodup (fun g => getElem?_indexOf hnodup g) hdisjoint []
      d.changes).bind ?_
    rintro kept _ rfl
    refine (Refines.checked _).bind ?_
    rintro ⟨front, left⟩ _ rfl
    rw [placeParts_latest]
    refine (Refines.checked _).bind ?_
    rintro ⟨body, left⟩ _ rfl
    cases left with
    | nil => exact .ok rfl
    | cons a left => exact .fault _

/-! ## Replay -/

def replay (d : Diff) (base : Indexed) : Exec DiffFault Indexed := do
  let parts ← mapFault .baseMismatch (place d base)
  let target ← mapFault .invariant (assemble d.start parts)
  let total ← target.totalLength
  if total = d.total.toNat then return target
  else report (.baseMismatch (.totalDiffers total d.total.toNat))

def replayPayload (base : Indexed) (payload : Bytes) : Exec DiffFault Indexed := do
  let d ← mapFault .malformed (readDiff.run payload)
  replay d base

theorem refines_replay (h : x.Represents v) (d : Diff) :
    Refines False Indexed.Represents (replay d x) (d.replay v) := by
  have hreplay : d.replay v = (d.place v).mapError .baseMismatch >>= fun parts =>
      (Version.assemble d.start parts).mapError .invariant >>= fun target =>
        if target.totalLength = d.total.toNat then .ok target
        else .error (.baseMismatch (.totalDiffers target.totalLength d.total.toNat)) := by
    rw [Diff.replay]
    cases d.place v with
    | error e => rfl
    | ok parts =>
      simp only [Except.mapError, bind, Except.bind]
      cases Version.assemble d.start parts <;> rfl
  rw [hreplay, replay]
  refine ((refines_place h d).mapFault _).bind ?_
  rintro parts _ rfl
  refine ((refines_assemble d.start parts).mapFault _).bind fun y w hy => ?_
  rw [hy.totalLength, ok_bind]
  split
  · exact .ok hy
  · exact .fault _

theorem refines_replayPayload (h : x.Represents v) {payload : Bytes}
    (hshort : payload.length < bufferBound) :
    Refines False Indexed.Represents (replayPayload x payload) (Diff.replayPayload v payload) := by
  have hreplay : Diff.replayPayload v payload =
      (Diff.read.run payload).mapError .malformed >>= fun d => d.replay v := by
    rw [Diff.replayPayload, Diff.decode]
    cases Diff.read.run payload <;> rfl
  rw [hreplay, replayPayload]
  refine ((follows_readDiff.run (Nat.le_refl _) hshort).mapFault _).bind ?_
  rintro d _ rfl
  exact refines_replay h d

end Machine

end SszArchive
