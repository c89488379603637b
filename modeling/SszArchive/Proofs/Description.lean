import SszArchive.Proofs.Consistency

/-!
What a diff says of its result, without replaying it: which nodes it has, in which order, with
which bytes, at which offsets. The order is given in two parts, kept nodes as in the base and every
added node behind its anchor. Main statement: the result of a replay fits that description, and no
other version does.
-/

namespace SszArchive.Diff

/-- The description of the result. -/
structure Describes (d : Diff) (base result : Version) : Prop where
  nodes : ∀ g, g ∈ result.slices.map Slice.node ↔
    (g ∈ base.slices.map Slice.node ∧ g ∉ d.removed) ∨ g ∈ d.added.map Addition.node
  /-- The nodes kept from the base stand in base order. -/
  order : (result.slices.map Slice.node).filter (· ∈ d.keptNodes base) = d.keptNodes base
  /-- An added node stands right behind its anchor, or first. -/
  placed : ∀ a ∈ d.added, ∃ front back,
    result.slices.map Slice.node = front ++ a.node :: back ∧ front.getLast? = a.after
  /-- The bytes are those of the node's last change, or those of the base when it has none. -/
  bytes : ∀ s ∈ result.slices,
    (∃ front back, d.changes = front ++ s.part :: back ∧ s.node ∉ back.map Part.node) ∨
      (s.node ∉ d.changes.map Part.node ∧ ∃ o ∈ base.slices, o.part = s.part)
  contiguous : Contiguous result.slices
  start : result.slices ≠ [] → result.start = d.start
  total : result.totalLength = d.total.toNat

theorem mem_keptNodes_iff {d : Diff} {base : Version} {g : GIndex} :
    g ∈ d.keptNodes base ↔ g ∈ base.slices.map Slice.node ∧ g ∉ d.removed := by
  simp only [keptNodes, kept, List.mem_map, List.mem_filter]
  constructor
  · rintro ⟨s, ⟨hs, hkept⟩, rfl⟩
    exact ⟨⟨s, hs, rfl⟩, by simpa using hkept⟩
  · rintro ⟨⟨s, hs, rfl⟩, hkept⟩
    exact ⟨s, ⟨hs, by simpa using hkept⟩, rfl⟩

/-! ## The result fits the description -/

theorem filter_node_entries {kept : List GIndex} {entries : List Entry}
    (hkept : ∀ s ∈ entries.filterMap Entry.kept?, s.node ∈ kept)
    (hadded : ∀ a ∈ entries.filterMap Entry.added?, a.node ∉ kept) :
    (entries.map Entry.node).filter (· ∈ kept) =
      (entries.filterMap Entry.kept?).map Slice.node := by
  induction entries with
  | nil => rfl
  | cons e entries ih =>
    cases e with
    | kept s =>
      have hs : s.node ∈ kept := hkept s (List.mem_cons_self ..)
      have hrest := ih (fun t ht => hkept t (List.mem_cons_of_mem _ ht)) hadded
      simp [Entry.node, Entry.kept?, hs, hrest]
    | added a =>
      have ha : a.node ∉ kept := hadded a (List.mem_cons_self ..)
      have hrest := ih hkept fun b hb => hadded b (List.mem_cons_of_mem _ hb)
      simp [Entry.node, Entry.kept?, ha, hrest, List.filterMap_cons]

theorem exists_split_of_mem_added {entries : List Entry} {a : Addition}
    (hlinked : Linked none entries) (ha : a ∈ entries.filterMap Entry.added?) :
    ∃ front back, entries.map Entry.node = front ++ a.node :: back ∧ front.getLast? = a.after := by
  obtain ⟨front, back, rfl⟩ := List.append_of_mem (Entry.mem_filterMap_added?.1 ha)
  refine ⟨front.map Entry.node, back.map Entry.node, by simp [Entry.node], ?_⟩
  rw [hlinked.after_eq, List.getLast?_map, Option.or_none]

/-- An entry has its last sent bytes, or is kept with the bytes of the base. -/
theorem bytes_of_entry {d : Diff} {base : Version} {entries : List Entry} {e : Entry}
    (hkept : entries.filterMap Entry.kept? = d.kept base)
    (hsent : ∀ a ∈ entries.filterMap Entry.added?, (bytesFor? d.changes a.node).isSome = true)
    (he : e ∈ entries) :
    (∃ front back, d.changes = front ++ e.part d.changes :: back ∧
        e.node ∉ back.map Part.node) ∨
      (e.node ∉ d.changes.map Part.node ∧ ∃ o ∈ base.slices, o.part = e.part d.changes) := by
  cases hbytes : bytesFor? d.changes e.node with
  | some b =>
    have hpart : e.part d.changes = ⟨e.node, b⟩ := by
      cases e <;> simp_all [Entry.part, Entry.node]
    rw [hpart]
    exact .inl (bytesFor?_eq_some_iff.1 hbytes)
  | none =>
    have hnot : e.node ∉ d.changes.map Part.node := by
      rw [← bytesFor?_isSome_iff, hbytes]
      exact Bool.false_ne_true
    cases e with
    | kept s =>
      have hs : s ∈ d.kept base := hkept ▸ Entry.mem_filterMap_kept?.2 he
      refine .inr ⟨hnot, s, (List.mem_filter.1 hs).1, ?_⟩
      rw [Entry.part, show bytesFor? d.changes s.node = none from hbytes]
      rfl
    | added a =>
      have ha := hsent a (Entry.mem_filterMap_added?.2 he)
      rw [show bytesFor? d.changes a.node = none from hbytes] at ha
      cases ha

theorem replay_eq_ok_iff {d : Diff} {base result : Version} :
    d.replay base = .ok result ↔
      (∃ parts, d.place base = .ok parts ∧ result.slices = layOut d.start parts) ∧
        result.totalLength = d.total.toNat := by
  cases hplace : d.place base with
  | error e => simp [replay, hplace]
  | ok parts =>
    cases hassemble : Version.assemble d.start parts with
    | error e =>
      have hnot : result.slices ≠ layOut d.start parts := fun h => by
        cases hassemble.symm.trans (Version.assemble_eq_ok_iff.2 h)
      simp [replay, hplace, hassemble, hnot]
    | ok target =>
      have htarget : result.slices = layOut d.start parts ↔ target = result := by
        rw [← Version.assemble_eq_ok_iff, hassemble, Except.ok.injEq]
      have hreplay : d.replay base =
          if target.totalLength = d.total.toNat then .ok target
          else .error (.baseMismatch (.totalDiffers target.totalLength d.total.toNat)) := by
        simp only [replay, hplace, hassemble]
      rw [hreplay]
      simp only [Except.ok.injEq, exists_eq_left', htarget]
      by_cases htotal : target.totalLength = d.total.toNat
      · rw [if_pos htotal, Except.ok.injEq]
        exact (and_iff_left_of_imp fun h => h ▸ htotal).symm
      · rw [if_neg htotal]
        exact iff_of_false (by simp) fun h => htotal (h.1 ▸ h.2)

theorem describes_of_replay {d : Diff} {base result : Version} (h : d.replay base = .ok result) :
    d.Describes base result := by
  obtain ⟨⟨parts, hplace, hslices⟩, htotal⟩ := replay_eq_ok_iff.1 h
  have hconsistent := consistent_of_place hplace
  have hnodes : result.slices.map Slice.node = parts.map Part.node := by
    rw [hslices, map_node_layOut]
  have hparts : result.slices.map Slice.part = parts := by
    rw [hslices, map_part_layOut]
  obtain ⟨entries, rfl, hlinked, hkept, hplaces⟩ := arrangement_of_place hplace
  have hentries : result.slices.map Slice.node = entries.map Entry.node := by
    rw [hnodes, List.map_map]
    exact List.map_congr_left fun e _ => e.node_part d.changes
  have hadded : ∀ a, a ∈ entries.filterMap Entry.added? ↔ a ∈ d.added :=
    fun _ => hplaces.perm_placed.mem_iff.symm
  constructor
  case nodes =>
    intro g
    rw [hnodes, (perm_nodes_of_place hplace).mem_iff, List.mem_append, mem_keptNodes_iff]
  case order =>
    rw [hentries, filter_node_entries, hkept]
    · rfl
    · intro s hs
      exact List.mem_map_of_mem (hkept ▸ hs)
    · exact fun a ha => hconsistent.addedNew a ((hadded a).1 ha)
  case placed =>
    intro a ha
    rw [hentries]
    exact exists_split_of_mem_added hlinked ((hadded a).2 ha)
  case bytes =>
    intro s hs
    obtain ⟨e, he, hpart⟩ := List.mem_map.1 (hparts ▸ List.mem_map_of_mem hs)
    have hnode : s.node = e.node := by
      rw [← e.node_part d.changes, hpart]
      rfl
    rw [hnode, ← hpart]
    exact bytes_of_entry hkept hplaces.sent he
  case contiguous => exact result.wellFormed.contiguous
  case start =>
    intro hne
    rw [Version.start, hslices]
    cases hcases : entries.map (Entry.part d.changes) with
    | nil =>
      rw [hslices, hcases] at hne
      exact absurd rfl hne
    | cons p rest => rfl
  case total => exact htotal

/-! ## No other version fits it -/

/-- Every added node stands right behind its anchor; `before` is the node before all of these. -/
def Stands (added : List Addition) : Option GIndex → List GIndex → Prop
  | _, [] => True
  | before, g :: rest =>
    (∀ a ∈ added, a.node = g → a.after = before) ∧ Stands added (some g) rest

theorem stands_of_placed {added : List Addition} {before : Option GIndex} {nodes : List GIndex}
    (hnodup : nodes.Nodup)
    (hplaced : ∀ a ∈ added, a.node ∈ nodes → ∃ front back,
      nodes = front ++ a.node :: back ∧ front.getLast?.or before = a.after) :
    Stands added before nodes := by
  induction nodes generalizing before with
  | nil => trivial
  | cons g nodes ih =>
    obtain ⟨hg, hnodup⟩ := List.nodup_cons.1 hnodup
    constructor
    · rintro a ha rfl
      obtain ⟨front, back, hsplit, hafter⟩ := hplaced a ha (List.mem_cons_self ..)
      cases front with
      | nil => exact hafter.symm
      | cons q front =>
        obtain ⟨-, rfl⟩ := List.cons.inj hsplit
        exact absurd (List.mem_append_right _ (List.mem_cons_self ..)) hg
    · refine ih hnodup fun a ha hmem => ?_
      obtain ⟨front, back, hsplit, hafter⟩ := hplaced a ha (List.mem_cons_of_mem _ hmem)
      cases front with
      | nil =>
        obtain ⟨rfl, -⟩ := List.cons.inj hsplit
        exact absurd hmem hg
      | cons q front =>
        obtain ⟨rfl, rfl⟩ := List.cons.inj hsplit
        refine ⟨front, back, rfl, ?_⟩
        rw [← hafter, List.getLast?_cons]
        cases front.getLast? <;> rfl

/-- An added node stands in front only when it is anchored to what comes before. -/
theorem Stands.head_or_behind {added : List Addition} {before : Option GIndex}
    {nodes : List GIndex} (h : Stands added before nodes) {a : Addition} (ha : a ∈ added)
    (hmem : a.node ∈ nodes) :
    nodes.head? = some a.node ∨ ∃ g ∈ nodes, a.after = some g := by
  induction nodes generalizing before with
  | nil => cases hmem
  | cons g nodes ih =>
    rcases List.mem_cons.1 hmem with hnode | hmem
    · exact .inl (hnode ▸ rfl)
    · refine .inr ?_
      rcases ih h.2 hmem with hhead | ⟨q, hq, hafter⟩
      · cases nodes with
        | nil => cases hmem
        | cons q nodes =>
          obtain rfl : q = a.node := Option.some.inj hhead
          exact ⟨g, List.mem_cons_self .., h.2.1 a ha rfl⟩
      · exact ⟨q, List.mem_cons_of_mem _ hq, hafter⟩

/-- An added node in front of one list is in front of the other: it cannot stand further back. -/
theorem Stands.head_eq {added : List Addition} {before : Option GIndex} {g q : GIndex}
    {nodes other : List GIndex} (h : Stands added before (g :: nodes))
    (hother : Stands added before (q :: other)) (hfresh : ∀ r ∈ q :: other, before ≠ some r)
    (hmem : g ∈ q :: other) (hg : g ∈ added.map Addition.node) : q = g := by
  obtain ⟨a, ha, rfl⟩ := List.mem_map.1 hg
  rcases hother.head_or_behind ha hmem with hhead | ⟨r, hr, hafter⟩
  · exact Option.some.inj hhead
  · exact absurd ((h.1 a ha rfl).symm.trans hafter) (hfresh r hr)

/-- The order of the kept nodes and the anchors of the added ones leave one order of them all. -/
theorem eq_of_stands {added : List Addition} {kept : List GIndex} {before : Option GIndex}
    {nodes other : List GIndex} (h : Stands added before nodes) (hother : Stands added before other)
    (hfresh : ∀ g ∈ nodes, before ≠ some g) (hnodup : nodes.Nodup) (hperm : nodes.Perm other)
    (hkind : ∀ g ∈ nodes, g ∈ kept ∨ g ∈ added.map Addition.node)
    (horder : nodes.filter (· ∈ kept) = other.filter (· ∈ kept)) : nodes = other := by
  induction nodes generalizing before other with
  | nil => exact (List.nil_perm.1 hperm).symm
  | cons g nodes ih =>
    cases other with
    | nil => exact absurd hperm.length_eq (by simp)
    | cons q other =>
      have hg : g ∈ q :: other := hperm.mem_iff.1 (List.mem_cons_self ..)
      have hq : q ∈ g :: nodes := hperm.mem_iff.2 (List.mem_cons_self ..)
      have hfresh' : ∀ r ∈ q :: other, before ≠ some r :=
        fun r hr => hfresh r (hperm.mem_iff.2 hr)
      -- Two kept heads are the first kept node of both lists, and an added one is first in both.
      have hhead : g = q := by
        rcases hkind g (List.mem_cons_self ..) with hgkept | hgadded
        · rcases hkind q hq with hqkept | hqadded
          · simp only [List.filter_cons, hgkept, hqkept, decide_true, if_true] at horder
            exact (List.cons.inj horder).1
          · exact hother.head_eq h hfresh hq hqadded
        · exact (h.head_eq hother hfresh' hg hgadded).symm
      subst hhead
      obtain ⟨hnot, hnodup⟩ := List.nodup_cons.1 hnodup
      have hrest : nodes.filter (· ∈ kept) = other.filter (· ∈ kept) := by
        by_cases hkept : g ∈ kept
        · simpa [hkept] using horder
        · simpa [hkept] using horder
      have htail : nodes = other := by
        refine ih h.2 hother.2 ?_ hnodup (List.Perm.cons_inv hperm)
          (fun r hr => hkind r (List.mem_cons_of_mem _ hr)) hrest
        rintro r hr he
        exact hnot (Option.some.inj he ▸ hr)
      rw [htail]

/-- The bytes that the description gives to a node. -/
def bytesAt (d : Diff) (base : Version) (g : GIndex) : Bytes :=
  ((bytesFor? d.changes g).or (bytesFor? base.parts g)).getD []

namespace Describes

variable {d : Diff} {base result other : Version}

theorem stands (h : d.Describes base result) :
    Stands d.added none (result.slices.map Slice.node) := by
  refine stands_of_placed result.wellFormed.distinct fun a ha _ => ?_
  obtain ⟨front, back, hsplit, hafter⟩ := h.placed a ha
  exact ⟨front, back, hsplit, by rw [Option.or_none, hafter]⟩

theorem nodes_eq (h : d.Describes base result) (h' : d.Describes base other) :
    result.slices.map Slice.node = other.slices.map Slice.node := by
  refine eq_of_stands h.stands h'.stands (by simp) result.wellFormed.distinct ?_ ?_
    (h.order.trans h'.order.symm)
  · exact (List.perm_ext_iff_of_nodup result.wellFormed.distinct other.wellFormed.distinct).2
      fun g => (h.nodes g).trans (h'.nodes g).symm
  · exact fun g hg => ((h.nodes g).1 hg).imp mem_keptNodes_iff.2 id

theorem bytes_eq (h : d.Describes base result) {s : Slice} (hs : s ∈ result.slices) :
    s.bytes = bytesAt d base s.node := by
  rcases h.bytes s hs with hlast | ⟨hnone, o, ho, hpart⟩
  · rw [bytesAt, bytesFor?_eq_some_iff.2 hlast]
    rfl
  · have hbytes : bytesFor? d.changes s.node = none := by
      rw [← Option.not_isSome_iff_eq_none, bytesFor?_isSome_iff]
      exact hnone
    have hnodup : (base.parts.map Part.node).Nodup := by
      rw [Version.parts, List.map_map]
      exact base.wellFormed.distinct
    have hbase : bytesFor? base.parts s.part.node = some s.part.bytes :=
      bytesFor?_of_mem hnodup (hpart ▸ List.mem_map_of_mem ho)
    rw [bytesAt, hbytes, Option.none_or, show bytesFor? base.parts s.node = _ from hbase]
    rfl

theorem parts_eq (h : d.Describes base result) :
    result.parts = (result.slices.map Slice.node).map fun g => ⟨g, bytesAt d base g⟩ := by
  rw [Version.parts, List.map_map]
  refine List.map_congr_left fun s hs => ?_
  rw [Slice.part, h.bytes_eq hs]
  rfl

theorem slices_eq (h : d.Describes base result) :
    result.slices = layOut d.start result.parts := by
  by_cases hne : result.slices = []
  · rw [Version.parts, hne]
    rfl
  · rw [← h.start hne, result.layOut_parts]

/-- At most one version fits the description. -/
theorem unique (h : d.Describes base result) (h' : d.Describes base other) : other = result := by
  have hparts : other.parts = result.parts := by
    rw [h'.parts_eq, h.parts_eq, h.nodes_eq h']
  apply Version.ext
  rw [h'.slices_eq, h.slices_eq, hparts]

end Describes

/-- **The result of a replay** has exactly the nodes that the diff keeps and adds, the kept ones in
base order, each added one right behind its anchor, with the last bytes sent for it or those of the
base, without gaps from the start on; and it is the only version of which all this holds. -/
theorem describes_iff_of_replay {d : Diff} {base result : Version}
    (h : d.replay base = .ok result) :
    ∀ version, d.Describes base version ↔ version = result := by
  intro version
  constructor
  · exact (describes_of_replay h).unique
  · rintro rfl
    exact describes_of_replay h

def threeNodes : Version :=
  ⟨[⟨4, 0, [1]⟩, ⟨5, 1, [2, 3]⟩, ⟨3, 3, [4]⟩], firstFault_eq_none_iff.1 rfl⟩

/-- Node 4 is changed twice, node 5 moves to the end, and node 9 hangs behind node 8, which is
listed after it. -/
def rearrangement : Diff where
  changes := [⟨4, [7]⟩, ⟨9, [9]⟩, ⟨8, [8]⟩, ⟨5, [5]⟩, ⟨4, [6, 6]⟩]
  removed := [5]
  added := [⟨9, some 8⟩, ⟨8, none⟩, ⟨5, some 3⟩]
  start := 10
  total := 6

def fiveNodes : Version :=
  ⟨[⟨8, 10, [8]⟩, ⟨9, 11, [9]⟩, ⟨4, 12, [6, 6]⟩, ⟨3, 14, [4]⟩, ⟨5, 15, [5]⟩],
    firstFault_eq_none_iff.1 rfl⟩

theorem replay_rearrangement : rearrangement.replay threeNodes = .ok fiveNodes := by cbv

theorem describes_iff_of_replay_rearrangement :
    rearrangement.replay threeNodes = .ok fiveNodes ∧
      ∀ version, rearrangement.Describes threeNodes version ↔ version = fiveNodes :=
  ⟨replay_rearrangement, describes_iff_of_replay replay_rearrangement⟩

end SszArchive.Diff
