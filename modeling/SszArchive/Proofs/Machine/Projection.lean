import SszArchive.Proofs.Machine.Indexed
import SszArchive.Proofs.Selection

/-!
Laws of projection. A projection is the parts that a selector picks, laid out from offset 0, so
two projections of one version are the same version as soon as their selectors agree on its nodes.
Main statement: projecting twice is projecting once to the nodes that both selectors pick, and a
selector and its inverse share out the parts of a version.
-/

namespace SszArchive

/-! ## Selectors on words -/

namespace Selector

variable {s t : Selector} {g : GIndex}

theorem ne_zero_of_selects (h : s.selects g = true) : g ≠ 0 := by
  rintro rfl
  exact absurd (one_le_of_mem ((s.selects_iff 0).1 h)) (by decide)

theorem selects_invert (hg : g ≠ 0) : s.invert.selects g = !s.selects g := by
  have hvalid : GIndex.valid g = true := bne_iff_ne.2 hg
  rw [invert, selects, selects, hvalid, Bool.true_and]

/-- What both pick, as an expression. -/
theorem selects_subtract_invert :
    (s.subtract t.invert).selects g = (s.selects g && t.selects g) := by
  rw [selects]
  cases hs : s.selects g with
  | false => rfl
  | true => rw [selects_invert (ne_zero_of_selects hs), Bool.not_not]

end Selector

/-! ## Projections by their parts -/

namespace Version

variable {v : Version} {s t u : Selector}

theorem parts_select (v : Version) (s : Selector) :
    (v.select s).parts = v.parts.filter (s.selects ·.node) := by
  rw [parts, select, map_part_layOut, parts, List.filter_map]
  rfl

theorem slices_select (v : Version) (s : Selector) :
    (v.select s).slices = layOut 0 (v.parts.filter (s.selects ·.node)) := by
  rw [← parts_select, select, parts, map_part_layOut]

theorem select_select
    (h : ∀ p ∈ v.parts, u.selects p.node = (s.selects p.node && t.selects p.node)) :
    (v.select s).select t = v.select u := by
  refine ext ?_
  rw [slices_select, parts_select, List.filter_filter, slices_select]
  refine congrArg (layOut 0) (List.filter_congr fun p hp => ?_)
  rw [h p hp, Bool.and_comm]

theorem nodup_parts (v : Version) : v.parts.Nodup := by
  refine List.Nodup.of_map Part.node ?_
  rw [parts, List.map_map]
  exact v.wellFormed.distinct

theorem node_ne_zero_of_mem_parts {p : Part} (h : p ∈ v.parts) : p.node ≠ 0 := by
  obtain ⟨slice, hslice, rfl⟩ := List.mem_map.1 h
  exact v.wellFormed.nodeNonzero slice hslice

/-- No part is lost and none is picked twice. -/
theorem parts_select_perm (v : Version) (s : Selector) :
    ((v.select s).parts ++ (v.select s.invert).parts).Perm v.parts := by
  have hrest : v.parts.filter (s.invert.selects ·.node) = v.parts.filter (!s.selects ·.node) :=
    List.filter_congr fun p hp => Selector.selects_invert (node_ne_zero_of_mem_parts hp)
  rw [parts_select, parts_select, hrest]
  exact List.filter_append_perm ..

theorem totalLength_eq_parts (v : Version) :
    v.totalLength = totalSize (v.parts.map (·.bytes.length)) := by
  rw [totalLength, parts, List.map_map]
  rfl

theorem totalLength_select_add (v : Version) (s : Selector) :
    (v.select s).totalLength + (v.select s.invert).totalLength = v.totalLength := by
  rw [totalLength_eq_parts, totalLength_eq_parts, ← totalSize_append, ← List.map_append,
    totalLength_eq_parts]
  exact totalSize_perm ((parts_select_perm v s).map _)

end Version

namespace Machine

/-! ## Projections in memory -/

theorem Indexed.Represents.agree {x y : Indexed} {v : Version} (hx : x.Represents v)
    (hy : y.Represents v) : x.slices = y.slices ∧ ∀ g : GIndex, x.positions[g]? = y.positions[g]? :=
  ⟨hx.slices.trans hy.slices.symm, fun g => (hx.positions g).trans (hy.positions g).symm⟩

/-- **Laws of projection.** Projecting to what `s` and then to what `t` picks gives the slices,
offsets and positions of projecting once to the nodes that both pick, such as by
`s.subtract t.invert`. The projections by `s` and by its inverse hold each part of the version
exactly once, in the order of the version, and their lengths add up to its length. -/
theorem projections_lawful (x : Indexed) (v : Version) (hx : x.Represents v) (s t : Selector) :
    (∀ u : Selector, (∀ g, u.selects g = true ↔ s.selects g = true ∧ t.selects g = true) →
      (v.select s).select t = v.select u ∧
        ∃ y twice once : Indexed, (x.select s : Exec ε Indexed) = .ok y ∧
          (y.select t : Exec ε Indexed) = .ok twice ∧ (x.select u : Exec ε Indexed) = .ok once ∧
          twice.Represents ((v.select s).select t) ∧ twice.slices = once.slices ∧
          ∀ g : GIndex, twice.positions[g]? = once.positions[g]?) ∧
    (∀ g, (s.subtract t.invert).selects g = true ↔ s.selects g = true ∧ t.selects g = true) ∧
    (v.parts.Nodup ∧ ((v.select s).parts ++ (v.select s.invert).parts).Perm v.parts ∧
      (v.select s).parts.Sublist v.parts ∧ (v.select s.invert).parts.Sublist v.parts) ∧
    ∃ picked others : Indexed, (x.select s : Exec ε Indexed) = .ok picked ∧
      (x.select s.invert : Exec ε Indexed) = .ok others ∧
      picked.Represents (v.select s) ∧ others.Represents (v.select s.invert) ∧
      ∃ n m, (picked.totalLength : Exec ε Nat) = .ok n ∧ (others.totalLength : Exec ε Nat) = .ok m ∧
        (x.totalLength : Exec ε Nat) = .ok (n + m) := by
  refine ⟨fun u hu => ?_, fun g => ?_, ⟨v.nodup_parts, v.parts_select_perm s, ?_, ?_⟩, ?_⟩
  · have hversion : (v.select s).select t = v.select u :=
      Version.select_select fun p _ => Bool.eq_iff_iff.2 (by rw [hu, Bool.and_eq_true])
    obtain ⟨y, hy, hfirst⟩ := hx.select s (ε := ε)
    obtain ⟨twice, htwice, hsecond⟩ := hfirst.select t (ε := ε)
    obtain ⟨once, honce, hdirect⟩ := hx.select u (ε := ε)
    exact ⟨hversion, y, twice, once, hy, htwice, honce, hsecond,
      (hversion ▸ hsecond).agree hdirect⟩
  · rw [Selector.selects_subtract_invert, Bool.and_eq_true]
  · rw [v.parts_select]
    exact List.filter_sublist
  · rw [v.parts_select]
    exact List.filter_sublist
  · obtain ⟨picked, hpicked, hs⟩ := hx.select s (ε := ε)
    obtain ⟨others, hothers, hrest⟩ := hx.select s.invert (ε := ε)
    refine ⟨picked, others, hpicked, hothers, hs, hrest, _, _, hs.totalLength,
      hrest.totalLength, ?_⟩
    rw [v.totalLength_select_add]
    exact hx.totalLength

/-- Slices of three nodes, two of them in the left half of the tree. -/
def bothHalves : Version :=
  ⟨[⟨4, 9, [1]⟩, ⟨3, 10, [2, 3]⟩, ⟨5, 12, [4]⟩], firstFault_eq_none_iff.1 rfl⟩

theorem projections_lawful_bothHalves :
    ((bothHalves.select (.subtree 2)).select (.subtree 5) =
        bothHalves.select ((Selector.subtree 2).subtract (Selector.subtree 5).invert) ∧
      bothHalves.select ((Selector.subtree 2).subtract (Selector.subtree 5).invert) =
        ⟨[⟨5, 0, [4]⟩], firstFault_eq_none_iff.1 rfl⟩) ∧
      ((bothHalves.select (.subtree 2)).parts ++
        (bothHalves.select (Selector.subtree 2).invert).parts).Perm
          [⟨4, [1]⟩, ⟨3, [2, 3]⟩, ⟨5, [4]⟩] := by
  obtain ⟨htwice, hboth, ⟨-, hparts, -⟩, -⟩ := projections_lawful (ε := Empty) _ bothHalves
    (Indexed.represents_indexOf bothHalves) (.subtree 2) (.subtree 5)
  exact ⟨⟨(htwice _ hboth).1, by decide⟩, hparts⟩

end Machine

end SszArchive
