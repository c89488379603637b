import SszArchive.Proofs.Machine.WordDelta

/-!
Every way to come by a version in memory. Slices and laid out parts are checked one by one; a full
encoding is cut first; a projection is put together without any check. Main statement: the checks
let exactly the slices through that make a version, and however a version has been built, its map
knows the position of every node and nothing else.
-/

namespace SszArchive.Machine

/-- Cuts a full encoding by the layout's lengths, of which those that are 0 name no slice. -/
def ofLayout (encoding : Bytes) (layout : List (GIndex × Nat)) : Exec InvariantFault Indexed :=
  let declared := totalSize (layout.map Prod.snd)
  if declared = encoding.length ∧ declared < offsetBound then do
    let parts ← cutFrom encoding 0 (layout.filter (0 < ·.2))
    assemble 0 parts
  else report (.lengthMismatch (min declared (offsetBound - 1)) encoding.length)

theorem refines_ofLayout (encoding : Bytes) (layout : List (GIndex × Nat)) :
    Refines False Indexed.Represents (ofLayout encoding layout)
      (Version.ofLayout encoding layout) := by
  simp only [ofLayout, Version.ofLayout]
  split
  · next hcovers =>
    have hfits : 0 + totalSize ((layout.filter (0 < ·.2)).map Prod.snd) ≤ encoding.length := by
      rw [totalSize_filter_pos]
      omega
    rw [cutFrom_eq hfits (hcovers.1 ▸ hcovers.2), ok_bind, List.drop_zero]
    exact refines_assemble 0 _
  · exact .fault _

/-! ## Building -/

/-- What the constructions make, one from another. -/
inductive Built : Indexed → Prop
  | empty : Built .empty
  | slices {slices : List Slice} {x : Indexed} (h : build slices = .ok x) : Built x
  | parts {start : UInt64} {parts : List Part} {x : Indexed} (h : assemble start parts = .ok x) :
      Built x
  | encoding {encoding : Bytes} {layout : List (GIndex × Nat)} {x : Indexed}
      (h : ofLayout encoding layout = .ok x) : Built x
  | projection {x y : Indexed} {selector : Selector} (hx : Built x)
      (h : x.select selector = (.ok y : Exec InvariantFault Indexed)) : Built y

theorem valid_of_refines {x : Indexed} {r : Except InvariantFault Version} {scarce : Prop}
    (h : Refines scarce Indexed.Represents (.ok x) r) : x.Valid := by
  obtain ⟨v, -, hv⟩ := h.of_ok
  exact hv.valid

/-- A projection never fails, and what comes out of it would pass the checks. -/
theorem Indexed.Valid.select {x : Indexed} (h : x.Valid) (selector : Selector) :
    ∃ y : Indexed, (x.select selector : Exec ε Indexed) = .ok y ∧ y.Valid ∧
      ∃ z, build y.slices = .ok z := by
  obtain ⟨y, hselect, hy⟩ := h.represents.select (ε := ε) selector
  refine ⟨y, hselect, hy.valid, ?_⟩
  rw [(refines_build y.slices).exists_ok_iff, Version.exists_ofSlices_eq_ok_iff]
  exact hy.valid.wellFormed

theorem Built.valid {x : Indexed} (h : Built x) : x.Valid := by
  induction h with
  | empty => exact Indexed.represents_empty.valid
  | slices h => exact valid_of_refines (h ▸ refines_build _)
  | parts h => exact valid_of_refines (h ▸ refines_assemble _ _)
  | encoding h => exact valid_of_refines (h ▸ refines_ofLayout _ _)
  | projection _ h ih =>
    obtain ⟨y, hselect, hy, -⟩ := ih.select _
    rw [h] at hselect
    cases hselect
    exact hy

/-- **However a version is built, it is one.** Slices are let through as they are exactly when
their nodes are real and distinct, none is empty, each starts where the one before it ends and the
last ends inside the offset space; parts exactly when their nodes are real and distinct, none is
empty and they fit behind the start, and then they become the slices in their order. A projection
never fails and would itself be let through. All that is built so, projections of projections
included, is well-formed, and a position is recorded for a node exactly when the slice of the node
stands there. -/
theorem constructions_sound (slices : List Slice) (start : UInt64) (parts : List Part) :
    (Refines False Indexed.Represents (build slices) (Version.ofSlices slices) ∧
      ((∃ x, build slices = .ok x) ↔
        (∀ s ∈ slices, s.node ≠ 0) ∧ (slices.map Slice.node).Nodup ∧
          (∀ s ∈ slices, s.bytes ≠ []) ∧ Contiguous slices ∧
          ∀ last, slices.getLast? = some last → last.stop < offsetBound) ∧
      ∀ x, build slices = .ok x → x.slices = slices) ∧
    (Refines False Indexed.Represents (assemble start parts) (Version.assemble start parts) ∧
      ((∃ x, assemble start parts = .ok x) ↔
        (∀ p ∈ parts, p.node ≠ 0) ∧ (∀ p ∈ parts, p.bytes ≠ []) ∧ (parts.map Part.node).Nodup ∧
          start.toNat + totalSize (parts.map (·.bytes.length)) < offsetBound) ∧
      ∀ x, assemble start parts = .ok x → x.slices.map Slice.part = parts) ∧
    (∀ (x : Indexed) (selector : Selector), x.Valid →
      ∃ y, x.select selector = (.ok y : Exec InvariantFault Indexed) ∧ y.Valid ∧
        ∃ z, build y.slices = .ok z) ∧
    ∀ x, Built x → WellFormed x.slices ∧
      ∀ g i, x.positions[g]? = some i ↔ ∃ s : Slice, x.slices[i]? = some s ∧ s.node = g := by
  have hbuild := refines_build slices
  have hassemble := refines_assemble start parts
  refine ⟨⟨hbuild, ?_, fun x hx => ?_⟩, ⟨hassemble, ?_, fun x hx => ?_⟩,
    fun x selector hx => hx.select selector,
    fun x hx => ⟨hx.valid.wellFormed, hx.valid.exact⟩⟩
  · rw [hbuild.exists_ok_iff, Version.exists_ofSlices_eq_ok_iff, wellFormed_iff_last]
  · obtain ⟨v, hv, hrepresents⟩ := (hx ▸ hbuild).of_ok
    rw [hrepresents.slices, Version.ofSlices_eq_ok_iff.1 hv]
  · rw [hassemble.exists_ok_iff, Version.exists_assemble_eq_ok_iff, wellFormed_layOut_iff]
  · obtain ⟨v, hv, hrepresents⟩ := (hx ▸ hassemble).of_ok
    rw [hrepresents.slices, Version.assemble_eq_ok_iff.1 hv, map_part_layOut]

/-- Two parts that end with the last offset. -/
theorem constructions_sound_lastOffset :
    ∃ x, assemble 0xfffffffffffffffc [⟨2, [1]⟩, ⟨3, [2, 3]⟩] = .ok x ∧
      (∃ y, x.select .all = (.ok y : Exec InvariantFault Indexed) ∧ y.Valid) ∧
      WellFormed x.slices ∧ x.positions[(3 : GIndex)]? = some 1 := by
  obtain ⟨-, ⟨-, hassemble, hparts⟩, hselect, hbuilt⟩ :=
    constructions_sound [] 0xfffffffffffffffc [⟨2, [1]⟩, ⟨3, [2, 3]⟩]
  obtain ⟨x, hx⟩ := hassemble.2 ⟨by decide, by decide, by decide, by decide⟩
  obtain ⟨hwf, hpositions⟩ := hbuilt x (.parts hx)
  obtain ⟨y, hy, hvalid, -⟩ := hselect x .all (Built.parts hx).valid
  have hsecond : (x.slices.map Slice.part)[1]? = some ⟨3, [2, 3]⟩ := by
    rw [hparts x hx]
    rfl
  rw [List.getElem?_map, Option.map_eq_some_iff] at hsecond
  obtain ⟨s, hs, hpart⟩ := hsecond
  exact ⟨x, hx, ⟨y, hy, hvalid⟩, hwf, (hpositions 3 1).2 ⟨s, hs, congrArg Part.node hpart⟩⟩

/-- The second part would have to start behind the last offset. -/
example : Version.assemble 0xfffffffffffffffe [⟨2, [1]⟩, ⟨3, [2]⟩] = .error (.offsetOverflow 3) :=
  rfl

end SszArchive.Machine
