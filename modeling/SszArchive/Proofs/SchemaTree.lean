import SszArchive.Proofs.Composite
import SszArchive.Proofs.RoundTrip

/-!
Trees of schemas over lawful leaves. Main statement: a tree reproduces its target exactly when at
every composite each node that reaches it is picked by one part, and refuses its own payload
otherwise.
-/

namespace SszArchive

/-! ## Scopes and composites -/

namespace Scope

theorem okIff_applyPart {s : Scope} {base target : Version} {inner : Bytes} {p : Prop}
    (hinner : inner.length < UInt64.size)
    (h : OkIff p (s.inner.apply (base.select s.selector) inner) (target.select s.selector)) :
    OkIff p (s.applyPart base (framePart s.selector target inner)) (target.picked s.selector) := by
  constructor
  · intro hp
    exact applyPart_of_ok hinner (h.1 hp)
  · intro hp
    obtain ⟨e, he⟩ := h.2 hp
    exact ⟨e, applyPart_of_error hinner he⟩

end Scope

namespace Composite

open Wire (Reader Reads Finishes Cursor)

theorem applyParts_cons (s : Scope) (rest : List Scope) (base : Version) {part : Bytes}
    (hpart : part.length < UInt64.size) (position : Nat) (tail : Bytes) :
    applyParts base (s :: rest) ⟨position, Wire.block part ++ tail⟩ =
      (s.applyPart base part).bind fun slices =>
        (applyParts base rest ⟨position + (Wire.block part).length, tail⟩).map
          fun (more, c) => (slices ++ more, c) := by
  simp only [applyParts, Reads.block hpart position tail]
  cases s.applyPart base part with
  | error e => rfl
  | ok slices =>
    simp only [Except.bind]
    cases applyParts base rest ⟨position + (Wire.block part).length, tail⟩ <;> rfl

theorem finishes_readExtent (start total : UInt64) :
    Finishes readExtent (Wire.range start total) (start, total) := by
  have hread : Finishes readExtent _ (start, total) := .bind (.range start total) (.finish _)
  rwa [List.append_nil] at hread

/-- The payload of a composite, from those of its parts. -/
def framePayload (parts : List Bytes) (target : Version) : Bytes :=
  Wire.count parts.length ++ parts.flatMap Wire.block ++
    Wire.range target.start (UInt64.ofNat target.totalLength)

theorem length_flatMap_block (parts : List Bytes) :
    parts.length ≤ (parts.flatMap Wire.block).length := by
  induction parts with
  | nil => exact Nat.le_refl _
  | cons part parts ih =>
    have hpart := Wire.length_lt_block part
    simp only [List.flatMap_cons, List.length_append, List.length_cons]
    omega

theorem length_flatMap_block_le (parts : List Bytes) (target : Version) :
    (parts.flatMap Wire.block).length ≤ (framePayload parts target).length := by
  simp only [framePayload, List.length_append]
  omega

/-- What comes after the parts: the extent is read, and the slices are merged. -/
def close : List Slice × Cursor → Except DiffFault Version
  | (slices, c) =>
    match readExtent c with
    | .error e _ => .error (.malformed e)
    | .ok (start, total) _ => merge slices start total

/-- A composite reads its parts, then the extent, and merges what it got. -/
theorem apply_framePayload {scopes : List Scope} {parts : List Bytes} (base target : Version)
    (hlength : parts.length = scopes.length) (hparts : parts.length < UInt64.size) {p : Prop}
    {selectors : List Selector}
    (h : ∀ position tail, OkIff p
      (applyParts base scopes ⟨position, parts.flatMap Wire.block ++ tail⟩)
      (pickedBy selectors target, ⟨position + (parts.flatMap Wire.block).length, tail⟩)) :
    OkIff (p ∧ PickedOnce selectors target) (apply scopes base (framePayload parts target))
      target := by
  have hcount := Reads.count hparts 0 (parts.flatMap Wire.block ++
    Wire.range target.start (UInt64.ofNat target.totalLength))
  have happly : apply scopes base (framePayload parts target) =
      (applyParts base scopes ⟨0 + (Wire.count parts.length).length, parts.flatMap Wire.block ++
        Wire.range target.start (UInt64.ofNat target.totalLength)⟩).bind close := by
    rw [apply, framePayload, Cursor.start, List.append_assoc, hcount]
    simp only [hlength, ne_eq, not_true, if_false]
    generalize applyParts base scopes _ = outcome
    cases outcome <;> rfl
  rw [happly]
  refine (h _ _).bind ?_
  simp only [close, finishes_readExtent _ _ _]
  exact merge_pickedBy selectors target

end Composite

/-! ## Trees -/

namespace SchemaTree

mutual

/-- Every schema at a leaf reads back what it writes. -/
def Lawful : SchemaTree → Prop
  | leaf s => s.RoundTrips
  | composite parts => LawfulParts parts

def LawfulParts : List (Selector × SchemaTree) → Prop
  | [] => True
  | (_, tree) :: rest => tree.Lawful ∧ LawfulParts rest

end

mutual

/-- At every composite each node of the projection that reaches it is picked by one part. -/
def Covers : SchemaTree → Version → Prop
  | leaf _, _ => True
  | composite parts, v => CoversParts parts v ∧ Composite.PickedOnce (parts.map Prod.fst) v

def CoversParts : List (Selector × SchemaTree) → Version → Prop
  | [], _ => True
  | (selector, tree) :: rest, v => tree.Covers (v.select selector) ∧ CoversParts rest v

end

open Wire (bufferBound bufferBound_lt Cursor)

mutual

theorem okIff_apply (tree : SchemaTree) (hlawful : tree.Lawful) (base target : Version) :
    ∃ payload, tree.schema.compute base target = .ok payload ∧
      (payload.length < bufferBound →
        OkIff (tree.Covers target) (tree.schema.apply base payload) target) := by
  cases tree with
  | leaf s =>
    obtain ⟨payload, hcompute, happly⟩ := hlawful base target
    exact ⟨payload, hcompute, fun _ => ⟨fun _ => happly, fun h => absurd trivial h⟩⟩
  | composite parts =>
    obtain ⟨payloads, hcompute, hlength, happly⟩ := okIff_applyParts parts hlawful base target
    refine ⟨Composite.framePayload payloads target, ?_, fun hshort => ?_⟩
    · show Composite.compute (scopes parts) base target = _
      rw [Composite.compute, hcompute, Composite.framePayload, hlength]
    · have hblocks := Composite.length_flatMap_block_le payloads target
      have hcount := Composite.length_flatMap_block payloads
      have hbound := bufferBound_lt
      exact Composite.apply_framePayload base target hlength (by omega) (happly (by omega))

theorem okIff_applyParts (parts : List (Selector × SchemaTree)) (hlawful : LawfulParts parts)
    (base target : Version) :
    ∃ payloads, Composite.computeParts base target (scopes parts) = .ok payloads ∧
      payloads.length = (scopes parts).length ∧
      ((payloads.flatMap Wire.block).length < bufferBound → ∀ position tail,
        OkIff (CoversParts parts target)
          (Composite.applyParts base (scopes parts)
            ⟨position, payloads.flatMap Wire.block ++ tail⟩)
          (Composite.pickedBy (parts.map Prod.fst) target,
            ⟨position + (payloads.flatMap Wire.block).length, tail⟩)) := by
  cases parts with
  | nil => exact ⟨[], rfl, rfl, fun _ _ _ => ⟨fun _ => rfl, fun h => absurd trivial h⟩⟩
  | cons part rest =>
    obtain ⟨selector, tree⟩ := part
    obtain ⟨inner, hcompute, happly⟩ := okIff_apply tree hlawful.1
      (base.select selector) (target.select selector)
    obtain ⟨payloads, hcomputes, hlength, happlies⟩ := okIff_applyParts rest hlawful.2 base target
    have hpart : Scope.computePart ⟨selector, tree.schema⟩ base target =
        .ok (Scope.framePart selector target inner) := Scope.computePart_of_ok hcompute
    refine ⟨Scope.framePart selector target inner :: payloads, ?_, ?_, fun hshort => ?_⟩
    · simp only [scopes, Composite.computeParts, hpart, hcomputes]
    · simp [scopes, hlength]
    · intro position tail
      have hbound := bufferBound_lt
      have hinner := Scope.length_lt_framePart selector target inner
      have hblock := Wire.length_lt_block (Scope.framePart selector target inner)
      rw [List.flatMap_cons, List.length_append] at hshort
      have hfirst := Scope.okIff_applyPart (s := ⟨selector, tree.schema⟩) (by omega)
        (happly (by omega))
      have hrest := (happlies (by omega)
        (position + (Wire.block (Scope.framePart selector target inner)).length) tail).map
          fun (more, c) => (target.picked selector ++ more, c)
      rw [List.flatMap_cons, List.append_assoc, List.length_append, ← Nat.add_assoc]
      rw [scopes, Composite.applyParts_cons _ _ _ (by omega)]
      exact hfirst.bind hrest

end

/-- **Trees reproduce what they cover.** Writing always succeeds, and the payload gives the target
back exactly when at every composite each node is picked by exactly one part; otherwise it is
refused, so no other version ever comes out. -/
theorem apply_compute (tree : SchemaTree) (hlawful : tree.Lawful) (base target : Version) :
    ∃ payload, tree.schema.compute base target = .ok payload ∧
      (payload.length < bufferBound →
        (tree.schema.apply base payload = .ok target ↔ tree.Covers target) ∧
        (¬ tree.Covers target → ∃ e, tree.schema.apply base payload = .error e)) := by
  obtain ⟨payload, hcompute, happly⟩ := okIff_apply tree hlawful base target
  exact ⟨payload, hcompute, fun hshort => ⟨(happly hshort).ok_iff, (happly hshort).2⟩⟩

/-- The subtrees of 2 and 3, with the first split once more. -/
def nestedScopes : SchemaTree :=
  composite [(.subtree 2, composite [(.subtree 4, leaf .slices), (.subtree 5, leaf .slices)]),
    (.subtree 3, leaf .slices)]

def shiftedBase : Version :=
  ⟨[⟨4, 0, [1, 2]⟩, ⟨3, 2, [9]⟩], firstFault_eq_none_iff.1 (by decide)⟩

/-- The node of the second scope lies between two nodes of the first. -/
def interleavedTarget : Version :=
  ⟨[⟨4, 7, [1]⟩, ⟨3, 8, [9, 9]⟩, ⟨5, 10, [2]⟩], firstFault_eq_none_iff.1 (by decide)⟩

theorem covers_interleavedTarget : nestedScopes.Covers interleavedTarget := by
  simp only [nestedScopes, Covers, CoversParts]
  refine ⟨⟨⟨⟨trivial, trivial, trivial⟩, ?_⟩, trivial, trivial⟩, ?_⟩ <;>
    unfold Composite.PickedOnce <;> decide

theorem apply_compute_nestedScopes :
    nestedScopes.Lawful ∧ nestedScopes.Covers interleavedTarget ∧
      ∃ payload, nestedScopes.schema.compute shiftedBase interleavedTarget = .ok payload ∧
        payload.length < bufferBound ∧
        nestedScopes.schema.apply shiftedBase payload = .ok interleavedTarget := by
  have hslices := Schema.slices_roundTrips
  have hlawful : nestedScopes.Lawful := ⟨⟨hslices, hslices, trivial⟩, hslices, trivial⟩
  obtain ⟨payload, hcompute, happly⟩ :=
    apply_compute nestedScopes hlawful shiftedBase interleavedTarget
  have hlength : (nestedScopes.schema.compute shiftedBase interleavedTarget).map List.length =
      .ok 55 := by cbv
  rw [hcompute] at hlength
  have hshort : payload.length < bufferBound := by
    rw [Except.ok.inj hlength]
    decide
  exact ⟨hlawful, covers_interleavedTarget, payload, hcompute, hshort,
    (happly hshort).1.2 covers_interleavedTarget⟩

end SchemaTree

end SszArchive
