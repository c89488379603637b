import SszArchive.Proofs.Replay

/-!
Where replaying a diff puts the nodes. The additions are followed from the front, and then from
every kept node, each time until nothing stands behind the last node placed. What comes out is a
list of entries, kept nodes and additions, in which every addition stands behind its anchor; what
is left over is anchored at no node placed.
-/

namespace SszArchive.Diff

/-! ## The bytes of a node -/

theorem bytesFor?_isSome_iff {changes : List Part} {g : GIndex} :
    (bytesFor? changes g).isSome = true ↔ g ∈ changes.map Part.node := by
  rw [bytesFor?, Option.isSome_map, List.find?_isSome]
  simp

/-- Of several changes of a node the last one counts. -/
theorem bytesFor?_eq_some_iff {changes : List Part} {g : GIndex} {b : Bytes} :
    bytesFor? changes g = some b ↔
      ∃ front back, changes = front ++ ⟨g, b⟩ :: back ∧ g ∉ back.map Part.node := by
  constructor
  · intro h
    obtain ⟨c, hfind, rfl⟩ := Option.map_eq_some_iff.1 h
    obtain ⟨hnode, later, earlier, hsplit, hlater⟩ := List.find?_eq_some_iff_append.1 hfind
    obtain rfl : c.node = g := by simpa using hnode
    refine ⟨earlier.reverse, later.reverse, ?_, ?_⟩
    · rw [← List.reverse_reverse changes, hsplit, List.reverse_append, List.reverse_cons,
        List.append_assoc]
      rfl
    · simpa using hlater
  · rintro ⟨front, back, rfl, hlast⟩
    have hnone : back.reverse.find? (·.node == g) = none := by
      rw [List.find?_eq_none]
      intro c hc he
      exact hlast (List.mem_map.2 ⟨c, List.mem_reverse.1 hc, by simpa using he⟩)
    rw [bytesFor?, List.reverse_append, List.reverse_cons, List.append_assoc, List.find?_append,
      hnone]
    simp

/-! ## Entries -/

/-- One place of the result. -/
inductive Entry where
  | kept (s : Slice)
  | added (a : Addition)

namespace Entry

def node : Entry → GIndex
  | kept s => s.node
  | added a => a.node

def kept? : Entry → Option Slice
  | kept s => some s
  | added _ => none

def added? : Entry → Option Addition
  | kept _ => none
  | added a => some a

/-- A kept node falls back on the bytes of the base, an added one has the sent bytes only. -/
def part (changes : List Part) : Entry → Part
  | kept s => ⟨s.node, (bytesFor? changes s.node).getD s.bytes⟩
  | added a => ⟨a.node, (bytesFor? changes a.node).getD []⟩

theorem node_part (changes : List Part) (e : Entry) : (e.part changes).node = e.node := by
  cases e <;> rfl

theorem mem_filterMap_kept? {entries : List Entry} {s : Slice} :
    s ∈ entries.filterMap kept? ↔ kept s ∈ entries := by
  rw [List.mem_filterMap]
  constructor
  · rintro ⟨e, he, hentry⟩
    cases e with
    | kept t => exact Option.some.inj hentry ▸ he
    | added a => cases hentry
  · exact fun hs => ⟨_, hs, rfl⟩

theorem mem_filterMap_added? {entries : List Entry} {a : Addition} :
    a ∈ entries.filterMap added? ↔ added a ∈ entries := by
  rw [List.mem_filterMap]
  constructor
  · rintro ⟨e, he, hentry⟩
    cases e with
    | kept s => cases hentry
    | added b => exact Option.some.inj hentry ▸ he
  · exact fun ha => ⟨_, ha, rfl⟩

/-- Entries apart from their order are the kept slices and the additions among them. -/
theorem perm_kept_added (entries : List Entry) :
    entries.Perm ((entries.filterMap kept?).map kept ++ (entries.filterMap added?).map added) := by
  induction entries with
  | nil => exact List.Perm.refl _
  | cons e entries ih =>
    cases e with
    | kept s => exact ih.cons (kept s)
    | added a => exact (ih.cons (added a)).trans List.perm_middle.symm

end Entry

/-- Every addition has its anchor right before it; `before` is the node before all of them. -/
def Linked : Option GIndex → List Entry → Prop
  | _, [] => True
  | _, .kept s :: rest => Linked (some s.node) rest
  | before, .added a :: rest => a.after = before ∧ Linked (some a.node) rest

theorem Linked.append {before : Option GIndex} {front back : List Entry} (h : Linked before front)
    (hback : ∀ before, Linked before back) : Linked before (front ++ back) := by
  induction front generalizing before with
  | nil => exact hback before
  | cons e front ih =>
    cases e with
    | kept s => exact @ih (some s.node) h
    | added a => exact ⟨h.1, ih h.2⟩

/-- The anchor of an addition is the node of the entry before it. -/
theorem Linked.after_eq {before : Option GIndex} {front back : List Entry} {a : Addition}
    (h : Linked before (front ++ .added a :: back)) :
    a.after = (front.getLast?.map Entry.node).or before := by
  induction front generalizing before with
  | nil => exact h.1
  | cons e front ih =>
    have hrest : Linked (some e.node) (front ++ .added a :: back) := by
      cases e with
      | kept s => exact h
      | added b => exact h.2
    rw [ih hrest, List.getLast?_cons]
    cases front.getLast? <;> rfl

/-! ## Following -/

/-- What placing `entries` has done to the pending additions. -/
structure Places (changes : List Part) (pending : List Addition) (entries : List Entry)
    (left : List Addition) : Prop where
  /-- Every addition is either placed or left. -/
  perm : pending.Perm (entries.filterMap Entry.added? ++ left)
  /-- The placed ones have bytes. -/
  sent : ∀ a ∈ entries.filterMap Entry.added?, (bytesFor? changes a.node).isSome = true
  /-- Nothing is left behind a node placed. -/
  done : ∀ e ∈ entries, some e.node ∉ left.map Addition.after

namespace Places

variable {changes : List Part} {pending left : List Addition} {entries : List Entry}

theorem nil (changes : List Part) (pending : List Addition) : Places changes pending [] pending :=
  ⟨List.Perm.refl _, by simp, by simp⟩

theorem perm_placed (h : Places changes pending entries []) :
    pending.Perm (entries.filterMap Entry.added?) := by
  simpa using h.perm

theorem left_subset (h : Places changes pending entries left) : left ⊆ pending :=
  fun _ ha => h.perm.mem_iff.2 (List.mem_append_right _ ha)

theorem anchors_nodup (h : Places changes pending entries left)
    (hanchors : (pending.map Addition.after).Nodup) : (left.map Addition.after).Nodup := by
  have hperm := h.perm.map Addition.after
  rw [List.map_append] at hperm
  exact (List.nodup_append.1 (hperm.nodup_iff.1 hanchors)).2.1

theorem append {more : List Entry} {rest : List Addition} (h : Places changes pending entries left)
    (hmore : Places changes left more rest) : Places changes pending (entries ++ more) rest := by
  refine ⟨?_, ?_, ?_⟩
  · rw [List.filterMap_append, List.append_assoc]
    exact h.perm.trans (hmore.perm.append_left _)
  · intro a ha
    rw [List.filterMap_append] at ha
    exact (List.mem_append.1 ha).elim (h.sent a) (hmore.sent a)
  · intro e he hleft
    rcases List.mem_append.1 he with he | he
    · exact h.done e he (List.map_subset _ hmore.left_subset hleft)
    · exact hmore.done e he hleft

end Places

/-- Following the additions from an anchor is a loop that ends when nothing stands behind the last
node; the limit on its steps is never met. -/
theorem chain_eq (changes : List Part) (anchor : Option GIndex) (pending : List Addition) :
    chain changes anchor pending =
      match pending.find? (·.after == anchor) with
      | none => .ok ([], pending)
      | some a =>
        match bytesFor? changes a.node with
        | none => .error (.addedWithoutBytes a.node)
        | some bytes =>
          match chain changes (some a.node) (pending.erase a) with
          | .ok (parts, left) => .ok (⟨a.node, bytes⟩ :: parts, left)
          | .error e => .error e := by
  cases hfind : pending.find? (·.after == anchor) with
  | none =>
    refine chainWithin_of_not_mem _ fun hmem => ?_
    obtain ⟨a, ha, rfl⟩ := List.mem_map.1 hmem
    simpa using List.find?_eq_none.1 hfind a ha
  | some a =>
    have hmem := List.mem_of_find?_eq_some hfind
    have hlength : pending.length = (pending.erase a).length + 1 := by
      have := List.length_pos_of_mem hmem
      rw [List.length_erase_of_mem hmem]
      omega
    rw [chain, hlength, chainWithin, hfind]
    rfl

/-- **Following** the additions from an anchor either places a run of them, each behind the one
before it, until nothing is left behind the last, or meets one without bytes. -/
theorem chain_cases (changes : List Part) (anchor : Option GIndex) {pending : List Addition}
    (hanchors : (pending.map Addition.after).Nodup) :
    (∃ entries left,
        chain changes anchor pending = .ok (entries.map (Entry.part changes), left) ∧
        Linked anchor entries ∧ entries.filterMap Entry.kept? = [] ∧
        Places changes pending entries left ∧ anchor ∉ left.map Addition.after) ∨
      ∃ a ∈ pending, bytesFor? changes a.node = none ∧
        chain changes anchor pending = .error (.addedWithoutBytes a.node) := by
  induction hn : pending.length generalizing anchor pending with
  | zero =>
    obtain rfl := List.length_eq_zero_iff.1 hn
    exact .inl ⟨[], [], chain_eq .., trivial, rfl, .nil .., by simp⟩
  | succ n ih =>
    rw [chain_eq]
    cases hfind : pending.find? (·.after == anchor) with
    | none =>
      refine .inl ⟨[], pending, rfl, trivial, rfl, .nil .., fun hmem => ?_⟩
      obtain ⟨a, ha, rfl⟩ := List.mem_map.1 hmem
      simpa using List.find?_eq_none.1 hfind a ha
    | some a =>
      have hmem := List.mem_of_find?_eq_some hfind
      have hafter : a.after = anchor := by simpa using List.find?_some hfind
      have hperm := List.perm_cons_erase hmem
      -- No other addition has this anchor, so that nothing is left behind it.
      obtain ⟨hfresh, hrest⟩ :=
        List.nodup_cons.1 ((hperm.map Addition.after).nodup_iff.1 hanchors)
      cases hbytes : bytesFor? changes a.node with
      | none => exact .inr ⟨a, hmem, hbytes, by simp only [hbytes]⟩
      | some bytes =>
        have hlength : (pending.erase a).length = n := by
          rw [List.length_erase_of_mem hmem, hn, Nat.add_sub_cancel]
        rcases ih (some a.node) hrest hlength with
          ⟨entries, left, hchain, hlinked, hkept, hplaces, hdone⟩ | ⟨b, hb, hnone, hchain⟩
        · refine .inl ⟨.added a :: entries, left, ?_, ⟨hafter, hlinked⟩, ?_, ⟨?_, ?_, ?_⟩, ?_⟩
          · simp only [hchain, List.map_cons, Entry.part, hbytes, Option.getD_some]
          · simpa [Entry.kept?] using hkept
          · exact hperm.trans (hplaces.perm.cons a)
          · exact List.forall_mem_cons.2 ⟨by rw [hbytes]; rfl, hplaces.sent⟩
          · exact List.forall_mem_cons.2 ⟨hdone, hplaces.done⟩
          · exact fun hleft => hfresh (hafter ▸ List.map_subset _ hplaces.left_subset hleft)
        · exact .inr ⟨b, List.mem_of_mem_erase hb, hnone, by simp only [hbytes, hchain]⟩

/-- **Placing** the kept slices puts each of them in its order with its chain behind it. -/
theorem placeKept_cases (changes : List Part) (kept : List Slice) {pending : List Addition}
    (hanchors : (pending.map Addition.after).Nodup) :
    (∃ entries left,
        placeKept changes kept pending = .ok (entries.map (Entry.part changes), left) ∧
        (∀ before, Linked before entries) ∧ entries.filterMap Entry.kept? = kept ∧
        Places changes pending entries left) ∨
      ∃ a ∈ pending, bytesFor? changes a.node = none ∧
        placeKept changes kept pending = .error (.addedWithoutBytes a.node) := by
  induction kept generalizing pending with
  | nil => exact .inl ⟨[], pending, rfl, fun _ => trivial, rfl, .nil ..⟩
  | cons s kept ih =>
    rw [placeKept]
    rcases chain_cases changes (some s.node) hanchors with
      ⟨run, left, hchain, hlinked, hnone, hrun, hdone⟩ | ⟨a, ha, hbytes, hchain⟩
    · rcases ih (hrun.anchors_nodup hanchors) with
        ⟨entries, rest, hplace, hrest, hkept, hplaces⟩ | ⟨a, ha, hbytes, hplace⟩
      · have hfirst : Places changes pending (.kept s :: run) left :=
          ⟨hrun.perm, hrun.sent, List.forall_mem_cons.2 ⟨hdone, hrun.done⟩⟩
        refine .inl ⟨.kept s :: run ++ entries, rest, ?_, fun before => ?_, ?_,
          hfirst.append hplaces⟩
        · simp only [hchain, hplace, List.map_append, List.map_cons, Entry.part]
        · have hfront : Linked before (.kept s :: run) := hlinked
          exact hfront.append hrest
        · rw [List.filterMap_append, List.filterMap_cons, Entry.kept?, hnone, hkept]
          rfl
      · refine .inr ⟨a, hrun.left_subset ha, hbytes, ?_⟩
        simp only [hchain, hplace]
    · exact .inr ⟨a, ha, hbytes, by simp only [hchain]⟩

/-- **Arrangement.** The parts that come out are the kept nodes in base order and all additions,
each addition behind its anchor. -/
theorem arrangement_of_place {d : Diff} {base : Version} {parts : List Part}
    (h : d.place base = .ok parts) :
    ∃ entries, parts = entries.map (Entry.part d.changes) ∧ Linked none entries ∧
      entries.filterMap Entry.kept? = d.kept base ∧ Places d.changes d.added entries [] := by
  obtain ⟨-, hadded, -, front, left, body, hchain, hplace, rfl⟩ := place_eq_ok_iff.1 h
  have hanchors := ((checkAdded_eq_ok_iff ..).1 hadded).2.2.1
  rcases chain_cases d.changes none hanchors with
    ⟨run, left', hrun, hlinked, hnone, hfirst, -⟩ | ⟨a, -, -, hrun⟩
  · obtain ⟨rfl, rfl⟩ : run.map (Entry.part d.changes) = front ∧ left' = left := by
      simpa [hrun] using hchain
    rcases placeKept_cases d.changes (d.kept base) (hfirst.anchors_nodup hanchors) with
      ⟨entries, rest, hentries, hrest, hkept, hsecond⟩ | ⟨a, -, -, hentries⟩
    · obtain ⟨rfl, rfl⟩ : entries.map (Entry.part d.changes) = body ∧ rest = [] := by
        simpa [hentries] using hplace
      refine ⟨run ++ entries, List.map_append.symm, hlinked.append hrest, ?_,
        hfirst.append hsecond⟩
      rw [List.filterMap_append, hnone, hkept, List.nil_append]
    · rw [hentries] at hplace
      cases hplace
  · rw [hrun] at hchain
    cases hchain

end SszArchive.Diff
