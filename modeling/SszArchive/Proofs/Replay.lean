import Mathlib.Data.List.Nodup
import SszArchive.Diff.Replay
import SszArchive.Proofs.Between

/-!
How a diff is replayed: what each check accepts, and where the additions of an alignment end up.
-/

namespace SszArchive.Diff

/-! ## Checks -/

theorem checkRemoved_eq_ok_iff (base : Version) (seen removed : List GIndex) :
    checkRemoved base seen removed = .ok () ↔
      (∀ g ∈ removed, base.has g = true) ∧ removed.Nodup ∧ ∀ g ∈ removed, g ∉ seen := by
  induction removed generalizing seen with
  | nil => simp [checkRemoved]
  | cons g removed ih =>
    rw [checkRemoved]
    by_cases hhas : base.has g = true
    · by_cases hseen : g ∈ seen
      · simp [hhas, hseen]
      · rw [if_neg (by simp [hhas]), if_neg hseen, ih]
        grind
    · simp [hhas]

theorem checkAdded_eq_ok_iff (kept : List GIndex) (seen added : List Addition) :
    checkAdded kept seen added = .ok () ↔
      (∀ a ∈ added, a.node ∉ kept) ∧
        ((added.map Addition.node).Nodup ∧ ∀ a ∈ added, a.node ∉ seen.map Addition.node) ∧
        (added.map Addition.after).Nodup ∧ ∀ a ∈ added, a.after ∉ seen.map Addition.after := by
  induction added generalizing seen with
  | nil => simp [checkAdded]
  | cons a added ih =>
    rw [checkAdded]
    by_cases hkept : a.node ∈ kept
    · simp [hkept]
    · by_cases hnode : a.node ∈ seen.map Addition.node
      · rw [if_neg hkept, if_pos hnode]
        grind
      · by_cases hafter : a.after ∈ seen.map Addition.after
        · rw [if_neg hkept, if_neg hnode, if_pos hafter]
          grind
        · rw [if_neg hkept, if_neg hnode, if_neg hafter, ih]
          grind

theorem checkChanges_eq_ok_iff (kept added seen : List GIndex) (changes : List Part) :
    checkChanges kept added seen changes = .ok () ↔
      (∀ c ∈ changes, c.node ∈ added ∨ c.node ∈ kept) ∧
        ((changes.map Part.node).filter (· ∈ added)).Nodup ∧
        ∀ c ∈ changes, c.node ∈ added → c.node ∉ seen := by
  induction changes generalizing seen with
  | nil => simp [checkChanges]
  | cons c changes ih =>
    rw [checkChanges]
    by_cases hadded : c.node ∈ added
    · by_cases hseen : c.node ∈ seen
      · rw [if_pos hadded, if_pos hseen]
        grind
      · rw [if_pos hadded, if_neg hseen, ih]
        grind
    · by_cases hkept : c.node ∈ kept
      · rw [if_neg hadded, if_pos hkept, ih]
        grind
      · rw [if_neg hadded, if_neg hkept]
        grind

/-! ## The bytes of a node -/

theorem mem_of_bytesFor? {changes : List Part} {g : GIndex} {b : Bytes}
    (h : bytesFor? changes g = some b) : ⟨g, b⟩ ∈ changes := by
  obtain ⟨c, hc, rfl⟩ := Option.map_eq_some_iff.1 h
  have hnode : c.node = g := by simpa using List.find?_some hc
  rw [← hnode]
  exact List.mem_reverse.1 (List.mem_of_find?_eq_some hc)

theorem bytesFor?_of_mem {changes : List Part} (hnodup : (changes.map Part.node).Nodup) {c : Part}
    (hc : c ∈ changes) : bytesFor? changes c.node = some c.bytes := by
  have hfound : (changes.reverse.find? (·.node == c.node)).isSome := by
    rw [List.find?_isSome]
    exact ⟨c, List.mem_reverse.2 hc, by simp⟩
  obtain ⟨d, hd⟩ := Option.isSome_iff_exists.1 hfound
  have hnode : d.node = c.node := by simpa using List.find?_some hd
  have hmem : d ∈ changes := List.mem_reverse.1 (List.mem_of_find?_eq_some hd)
  have heq : d = c := List.inj_on_of_nodup_map hnodup hmem hc hnode
  rw [bytesFor?, hd, heq]
  rfl

theorem bytesFor?_cons (c : Part) (changes : List Part) (g : GIndex) :
    bytesFor? (c :: changes) g =
      (bytesFor? changes g).or (if c.node = g then some c.bytes else none) := by
  rw [bytesFor?, bytesFor?, List.reverse_cons, List.find?_append, List.find?_singleton]
  by_cases hc : c.node = g
  · rw [if_pos hc, if_pos (by simpa using hc)]
    cases changes.reverse.find? (·.node == g) <;> rfl
  · rw [if_neg hc, if_neg (by simpa using hc), Option.or_none, Option.or_none]

/-! ## Placement -/

/-- The parts come out when all three checks pass and nothing is left to place. -/
theorem place_eq_ok_iff {d : Diff} {base : Version} {parts : List Part} :
    d.place base = .ok parts ↔
      checkRemoved base [] d.removed = .ok () ∧
      checkAdded ((d.kept base).map Slice.node) [] d.added = .ok () ∧
      checkChanges ((d.kept base).map Slice.node) (d.added.map Addition.node) [] d.changes =
        .ok () ∧
      ∃ front left body, chain d.changes none d.added = .ok (front, left) ∧
        placeKept d.changes (d.kept base) left = .ok (body, []) ∧ front ++ body = parts := by
  simp only [place, bind, Except.bind, pure, Except.pure, throw, throwThe, MonadExceptOf.throw]
  cases checkRemoved base [] d.removed with
  | error e => simp
  | ok =>
    cases checkAdded ((d.kept base).map Slice.node) [] d.added with
    | error e => simp
    | ok =>
      cases checkChanges ((d.kept base).map Slice.node) (d.added.map Addition.node) [] d.changes with
      | error e => simp
      | ok =>
        cases chain d.changes none d.added with
        | error e => simp
        | ok first =>
          obtain ⟨front, left⟩ := first
          cases hkept : placeKept d.changes (d.kept base) left with
          | error e => simp [hkept]
          | ok second =>
            obtain ⟨body, rest⟩ := second
            cases rest <;> simp [hkept]

theorem chainWithin_of_not_mem {changes : List Part} {anchor : Option GIndex}
    {pending : List Addition} (limit : Nat) (h : anchor ∉ pending.map Addition.after) :
    chainWithin changes limit anchor pending = .ok ([], pending) := by
  cases limit with
  | zero => rfl
  | succ limit =>
    have hnone : pending.find? (·.after == anchor) = none := by
      rw [List.find?_eq_none]
      intro a ha he
      exact h (List.mem_map.2 ⟨a, ha, by simpa using he⟩)
    rw [chainWithin, hnone]

open SszArchive.Alignment

/-- The changes give every added and every paired slice of the target its bytes. -/
structure Sends (changes : List Part) (steps : List Step) : Prop where
  added : ∀ n, .added n ∈ steps → bytesFor? changes n.node = some n.bytes
  paired : ∀ o n, .paired o n ∈ steps → (bytesFor? changes n.node).getD o.bytes = n.bytes

theorem Sends.of_cons {changes : List Part} {step : Step} {steps : List Step}
    (h : Sends changes (step :: steps)) : Sends changes steps :=
  ⟨fun n hn => h.added n (List.mem_cons_of_mem _ hn),
    fun o n hn => h.paired o n (List.mem_cons_of_mem _ hn)⟩

private theorem fresh_of_nodup {n : Slice} {new : List Slice}
    (h : n.node ∉ new.map Slice.node) : ∀ t ∈ new, some n.node ≠ some t.node := by
  intro t ht he
  exact h (Option.some.inj he ▸ List.mem_map_of_mem ht)

/-- From any slice on, following the additions behind it and then placing the kept slices gives
the rest of the target and leaves nothing over. -/
theorem place_merged {changes : List Part} {old new : List Slice} {steps : List Step}
    (h : Merged old new steps) (hsends : Sends changes steps)
    (hnodup : (new.map Slice.node).Nodup) (before : Option GIndex)
    (hbefore : ∀ n ∈ new, before ≠ some n.node) (limit : Nat)
    (hlimit : (anchored before steps).length ≤ limit) :
    ∃ front body left, chainWithin changes limit before (anchored before steps) = .ok (front, left) ∧
      placeKept changes (steps.filterMap Step.kept?) left = .ok (body, []) ∧
      front ++ body = new.map Slice.part := by
  induction h generalizing before limit with
  | nil => exact ⟨[], [], [], chainWithin_of_not_mem limit (by simp [anchored]), rfl, rfl⟩
  | removed o _ ih => exact ih hsends.of_cons hnodup before hbefore limit hlimit
  | @added n old new steps h ih =>
    rw [List.map_cons, List.nodup_cons] at hnodup
    cases limit with
    | zero => simp [anchored] at hlimit
    | succ limit =>
      obtain ⟨front, body, left, hchain, hplace, hparts⟩ := ih hsends.of_cons hnodup.2
        (some n.node) (fresh_of_nodup hnodup.1) limit (by simpa [anchored] using hlimit)
      refine ⟨n.part :: front, body, left, ?_, hplace, by simp [hparts]⟩
      have hbytes := hsends.added n (List.mem_cons_self ..)
      simp [chainWithin, anchored, hbytes, hchain, Slice.part]
  | @paired o n old new steps hn h ih =>
    rw [List.map_cons, List.nodup_cons] at hnodup
    obtain ⟨front, body, left, hchain, hplace, hparts⟩ := ih hsends.of_cons hnodup.2
      (some n.node) (fresh_of_nodup hnodup.1) _ (Nat.le_refl _)
    have hfresh : before ∉ (anchored (some n.node) steps).map Addition.after := by
      intro hmem
      have hmem := (anchors_sublist (some n.node) steps).subset hmem
      rw [h.filterMap_new?] at hmem
      rcases List.mem_cons.1 hmem with he | hmem
      · exact hbefore n (List.mem_cons_self ..) he
      · obtain ⟨t, ht, he⟩ := List.mem_map.1 hmem
        exact hbefore t (List.mem_cons_of_mem _ ht) he.symm
    have hbytes := hsends.paired o n (List.mem_cons_self ..)
    refine ⟨[], n.part :: front ++ body, anchored (some n.node) steps,
      chainWithin_of_not_mem limit hfresh, ?_, ?_⟩
    · simp [Step.kept?, placeKept, chain, hn, hchain, hplace, hbytes, Slice.part]
    · simp [hparts]

end SszArchive.Diff
