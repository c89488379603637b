import SszArchive.Proofs.Description

/-!
What the order of the changes in a diff means. An added node has exactly one change, but a kept
node may have several, of which only the last one counts and the others are overridden without a
word. Main statement: changes in another order give the same result exactly when every kept node
has the same last change.
-/

namespace SszArchive.Diff

/-! ## The last change of a node -/

/-- A node that is changed once at most has the same bytes in every order. -/
theorem bytesFor?_of_perm {changes others : List Part} {g : GIndex} (h : others.Perm changes)
    (honce : (changes.map Part.node).count g ≤ 1) :
    bytesFor? others g = bytesFor? changes g := by
  have hnodes : g ∈ others.map Part.node ↔ g ∈ changes.map Part.node := (h.map Part.node).mem_iff
  cases hfound : bytesFor? changes g with
  | none =>
    have hnot : g ∉ changes.map Part.node := by
      rw [← bytesFor?_isSome_iff, hfound]
      exact Bool.false_ne_true
    rwa [← Option.not_isSome_iff_eq_none, bytesFor?_isSome_iff, hnodes]
  | some b =>
    have hmem := hnodes.2 (bytesFor?_isSome_iff.1 (Option.isSome_of_eq_some hfound))
    obtain ⟨b', hb'⟩ := Option.isSome_iff_exists.1 (bytesFor?_isSome_iff.2 hmem)
    obtain ⟨front, back, rfl, hback⟩ := bytesFor?_eq_some_iff.1 hfound
    have hfront : g ∉ front.map Part.node := by
      intro hg
      have hpos := List.count_pos_iff.2 hg
      simp only [List.map_append, List.map_cons, List.count_append, List.count_cons_self] at honce
      omega
    -- The one entry with this node is the one that was found.
    have hentry : (⟨g, b'⟩ : Part) ∈ front ++ ⟨g, b⟩ :: back :=
      h.mem_iff.1 (mem_of_bytesFor? hb')
    rcases List.mem_append.1 hentry with hin | hin
    · exact absurd (List.mem_map_of_mem hin) hfront
    · rcases List.mem_cons.1 hin with heq | hin
      · rw [hb', Part.mk.inj heq |>.2]
      · exact absurd (List.mem_map_of_mem hin) hback

/-- A change in front of all others does not count where a later one does. -/
theorem bytesFor?_cons_of_mem {changes : List Part} {c : Part} (h : c.node ∈ changes.map Part.node)
    (g : GIndex) : bytesFor? (c :: changes) g = bytesFor? changes g := by
  rw [bytesFor?_cons]
  cases hfound : bytesFor? changes g with
  | some b => rfl
  | none =>
    have hne : c.node ≠ g := by
      rintro rfl
      rw [← bytesFor?_isSome_iff, hfound] at h
      cases h
    rw [if_neg hne]
    rfl

/-! ## Replays with other changes -/

theorem chainWithin_congr {changes others : List Part}
    (h : bytesFor? others = bytesFor? changes) (limit : Nat) (anchor : Option GIndex)
    (pending : List Addition) :
    chainWithin others limit anchor pending = chainWithin changes limit anchor pending := by
  induction limit generalizing anchor pending with
  | zero => rfl
  | succ limit ih => simp only [chainWithin, h, ih]

theorem placeKept_congr {changes others : List Part} (h : bytesFor? others = bytesFor? changes)
    (kept : List Slice) (pending : List Addition) :
    placeKept others kept pending = placeKept changes kept pending := by
  induction kept generalizing pending with
  | nil => rfl
  | cons s kept ih => simp only [placeKept, chain, chainWithin_congr h, h, ih]

variable {d : Diff} {base result : Version} {changes : List Part}

/-- Of the changes only the last one for each node is ever looked at. -/
theorem replay_of_bytesFor? (h : d.replay base = .ok result)
    (hchecked : checkChanges ((d.kept base).map Slice.node) (d.added.map Addition.node) []
      changes = .ok ())
    (hbytes : ∀ g, bytesFor? changes g = bytesFor? d.changes g) :
    replay { d with changes } base = .ok result := by
  obtain ⟨⟨parts, hplace, hslices⟩, htotal⟩ := replay_eq_ok_iff.1 h
  obtain ⟨hremoved, hadded, -, front, left, body, hchain, hkept, hparts⟩ :=
    place_eq_ok_iff.1 hplace
  have hsame : bytesFor? changes = bytesFor? d.changes := funext hbytes
  refine replay_eq_ok_iff.2 ⟨⟨parts, place_eq_ok_iff.2 ⟨hremoved, hadded, hchecked, front, left,
    body, ?_, ?_, hparts⟩, hslices⟩, htotal⟩
  · rw [← hchain]
    exact chainWithin_congr hsame ..
  · rw [← hkept]
    exact placeKept_congr hsame ..

/-- Both results give a kept node the last of its changes, so equal results mean equal last
changes. -/
theorem bytesFor?_of_describes {g : GIndex} (h : d.Describes base result)
    (h' : Describes { d with changes } base result) (hg : g ∈ d.keptNodes base)
    (hnodes : g ∈ changes.map Part.node ↔ g ∈ d.changes.map Part.node) :
    bytesFor? changes g = bytesFor? d.changes g := by
  obtain ⟨s, hs, rfl⟩ := List.mem_map.1 ((h.nodes g).2 (.inl (mem_keptNodes_iff.1 hg)))
  have hsame : bytesAt { d with changes } base s.node = bytesAt d base s.node :=
    (h'.bytes_eq hs).symm.trans (h.bytes_eq hs)
  rw [← bytesFor?_isSome_iff, ← bytesFor?_isSome_iff] at hnodes
  cases hfound : bytesFor? d.changes s.node with
  | none =>
    rw [hfound] at hnodes
    exact Option.not_isSome_iff_eq_none.1 fun hsome => Bool.false_ne_true (hnodes.1 hsome)
  | some b =>
    obtain ⟨b', hb'⟩ := Option.isSome_iff_exists.1 (hnodes.2 (Option.isSome_of_eq_some hfound))
    rw [bytesAt, bytesAt, hfound, show bytesFor? changes s.node = some b' from hb'] at hsame
    rw [hb', show b' = b from hsame]

theorem checkChanges_of_perm (h : changes.Perm d.changes)
    (hchecked : checkChanges ((d.kept base).map Slice.node) (d.added.map Addition.node) []
      d.changes = .ok ()) :
    checkChanges ((d.kept base).map Slice.node) (d.added.map Addition.node) [] changes =
      .ok () := by
  obtain ⟨hknown, honce, -⟩ := (checkChanges_eq_ok_iff ..).1 hchecked
  refine (checkChanges_eq_ok_iff ..).2 ⟨fun c hc => hknown c (h.mem_iff.1 hc), ?_, by simp⟩
  exact (((h.map Part.node).filter _).nodup_iff).2 honce

theorem checkChanges_cons_of_kept {c : Part} (hconsistent : d.Consistent base)
    (hc : c.node ∈ (d.kept base).map Slice.node)
    (hchecked : checkChanges ((d.kept base).map Slice.node) (d.added.map Addition.node) []
      d.changes = .ok ()) :
    checkChanges ((d.kept base).map Slice.node) (d.added.map Addition.node) []
      (c :: d.changes) = .ok () := by
  have hnew : c.node ∉ d.added.map Addition.node := by
    intro hadded
    obtain ⟨a, ha, hnode⟩ := List.mem_map.1 hadded
    exact hconsistent.addedNew a ha (hnode ▸ hc)
  rw [checkChanges, if_neg hnew, if_pos hc]
  exact hchecked

/-- Added nodes have one change each, so that a node with several is a kept one. -/
theorem Consistent.mem_keptNodes_of_count (h : d.Consistent base) {g : GIndex}
    (hcount : 1 < (d.changes.map Part.node).count g) : g ∈ d.keptNodes base := by
  have hmem : g ∈ d.changes.map Part.node := List.count_pos_iff.1 (by omega)
  obtain ⟨c, hc, rfl⟩ := List.mem_map.1 hmem
  refine (h.changesKnown c hc).resolve_right fun hadded => ?_
  obtain ⟨a, ha, hnode⟩ := List.mem_map.1 hadded
  have honce := h.addedSentOnce a ha
  rw [hnode] at honce
  omega

/-- **What the order of the changes means.** In a diff that replays no node is removed or added
twice, and a node that is changed twice is one that is kept. The changes in another order give the
same result exactly when every kept node has the same last change, in particular when no node is
changed twice. Otherwise an entry is overridden: whatever is put in front for a kept node that is
changed anyway makes no difference. -/
theorem replay_reordered (h : d.replay base = .ok result) :
    d.removed.Nodup ∧ (d.added.map Addition.node).Nodup ∧
      (∀ g, 1 < (d.changes.map Part.node).count g → g ∈ d.keptNodes base) ∧
      (∀ changes, changes.Perm d.changes →
        (replay { d with changes } base = .ok result ↔
          ∀ g ∈ d.keptNodes base, bytesFor? changes g = bytesFor? d.changes g)) ∧
      ((d.changes.map Part.node).Nodup →
        ∀ changes, changes.Perm d.changes → replay { d with changes } base = .ok result) ∧
      ∀ c : Part, c.node ∈ d.keptNodes base → c.node ∈ d.changes.map Part.node →
        replay { d with changes := c :: d.changes } base = .ok result := by
  obtain ⟨⟨parts, hplace, -⟩, -⟩ := replay_eq_ok_iff.1 h
  have hconsistent := consistent_of_place hplace
  obtain ⟨-, -, hchecked, -⟩ := place_eq_ok_iff.1 hplace
  have hreordered : ∀ changes, changes.Perm d.changes →
      (replay { d with changes } base = .ok result ↔
        ∀ g ∈ d.keptNodes base, bytesFor? changes g = bytesFor? d.changes g) := by
    intro changes hperm
    constructor
    · intro hreplay g hg
      exact bytesFor?_of_describes (describes_of_replay h) (describes_of_replay hreplay) hg
        (hperm.map Part.node).mem_iff
    · intro hlast
      refine replay_of_bytesFor? h (checkChanges_of_perm hperm hchecked) fun g => ?_
      by_cases hg : g ∈ d.keptNodes base
      · exact hlast g hg
      · have honce := mt hconsistent.mem_keptNodes_of_count hg
        exact bytesFor?_of_perm hperm (by omega)
  refine ⟨hconsistent.removedOnce, hconsistent.addedOnce,
    fun _ => hconsistent.mem_keptNodes_of_count, hreordered, fun hnodup changes hperm => ?_,
    fun c hc hmem => ?_⟩
  · refine (hreordered changes hperm).2 fun g _ => bytesFor?_of_perm hperm ?_
    exact List.nodup_iff_count_le_one.1 hnodup g
  · exact replay_of_bytesFor? h (checkChanges_cons_of_kept hconsistent hc hchecked)
      (bytesFor?_cons_of_mem hmem)

theorem replay_reordered_rearrangement :
    rearrangement.replay threeNodes = .ok fiveNodes ∧
      replay { rearrangement with changes := rearrangement.changes.reverse } threeNodes ≠
        .ok fiveNodes ∧
      replay { rearrangement with changes := ⟨4, [1, 2, 3]⟩ :: rearrangement.changes } threeNodes =
        .ok fiveNodes := by
  obtain ⟨-, -, -, hreordered, -, hoverridden⟩ := replay_reordered replay_rearrangement
  refine ⟨replay_rearrangement, fun hsame => ?_, hoverridden _ (by decide) (by decide)⟩
  have hlast := (hreordered _ (List.reverse_perm _)).1 hsame 4 (by decide)
  exact absurd hlast (by decide)

/-! ## An entry that is overridden -/

def oneNode : Version := ⟨[⟨2, 0, [0x41]⟩], firstFault_eq_none_iff.1 rfl⟩

/-- Two changes of the only node, which is kept. -/
def overriding : Diff where
  changes := [⟨2, [0x42]⟩, ⟨2, [0x43]⟩]
  removed := []
  added := []
  start := 0
  total := 1

/-- A diff that changes a node twice is replayed, and in the other order to another result. -/
theorem replay_overriding :
    ¬ (overriding.changes.map Part.node).Nodup ∧
      ∃ result other, overriding.replay oneNode = .ok result ∧
        replay { overriding with changes := overriding.changes.reverse } oneNode = .ok other ∧
        other ≠ result := by
  refine ⟨by decide, ⟨[⟨2, 0, [0x43]⟩], firstFault_eq_none_iff.1 rfl⟩,
    ⟨[⟨2, 0, [0x42]⟩], firstFault_eq_none_iff.1 rfl⟩, by cbv, by cbv, by decide⟩

end SszArchive.Diff
