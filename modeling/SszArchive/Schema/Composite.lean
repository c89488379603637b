import SszArchive.Schema.Scope

/-!
Several scopes side by side. Each writes a part of the payload, and the slices of all parts are
merged by offset. Behind the parts stands the extent of the target, so that scopes which miss a
node or meet at one do not go unnoticed.
-/

namespace SszArchive

namespace Composite

/-- Puts `s` before the first slice that does not start before it. -/
def insertByOffset (s : Slice) : List Slice → List Slice
  | [] => [s]
  | t :: rest => if s.offset ≤ t.offset then s :: t :: rest else t :: insertByOffset s rest

/-- By offset; slices that start together keep their order. -/
def sortByOffset (slices : List Slice) : List Slice := slices.foldr insertByOffset []

def computeParts (base target : Version) : List Scope → Except DiffFault (List Bytes)
  | [] => .ok []
  | s :: rest =>
    match s.computePart base target with
    | .error e => .error e
    | .ok part =>
      match computeParts base target rest with
      | .error e => .error e
      | .ok parts => .ok (part :: parts)

def compute (scopes : List Scope) (base target : Version) : Except DiffFault Bytes :=
  match computeParts base target scopes with
  | .error e => .error e
  | .ok parts =>
      .ok (Wire.count scopes.length ++ parts.flatMap Wire.block ++
        Wire.range target.start (UInt64.ofNat target.totalLength))

open Wire (Reader Cursor)

/-- Every part is applied before the next one is read. -/
def applyParts (base : Version) : List Scope → Cursor → Except DiffFault (List Slice × Cursor)
  | [], c => .ok ([], c)
  | s :: rest, c =>
    match Reader.block c with
    | .error e _ => .error (.malformed e)
    | .ok part c =>
      match s.applyPart base part with
      | .error e => .error e
      | .ok slices =>
        match applyParts base rest c with
        | .error e => .error e
        | .ok (more, c) => .ok (slices ++ more, c)

/-- The extent of the target, which ends the payload. -/
def readExtent : Reader (UInt64 × UInt64) := do
  let extent ← Reader.range
  Reader.finish
  return extent

/-- The slices as a version of the given extent. -/
def merge (slices : List Slice) (start total : UInt64) : Except DiffFault Version :=
  match Version.ofSlices (sortByOffset slices) with
  | .error e => .error (.invariant e)
  | .ok merged =>
    if merged.start = start ∧ merged.totalLength = total.toNat then .ok merged
    else
      .error (.baseMismatch
        (.coverage merged.totalLength merged.start.toNat total.toNat start.toNat))

def apply (scopes : List Scope) (base : Version) (payload : Bytes) : Except DiffFault Version :=
  match Reader.count (Cursor.start payload) with
  | .error e _ => .error (.malformed e)
  | .ok count c =>
    if count ≠ scopes.length then .error (.baseMismatch (.partCount count scopes.length))
    else
      match applyParts base scopes c with
      | .error e => .error e
      | .ok (slices, c) =>
        match readExtent c with
        | .error e _ => .error (.malformed e)
        | .ok (start, total) _ => merge slices start total

end Composite

def Schema.composite (scopes : List Scope) : Schema where
  compute := Composite.compute scopes
  apply := Composite.apply scopes

/-! ## Trees of schemas -/

/-- Composites over composites down to plain schemas. -/
inductive SchemaTree where
  | leaf (schema : Schema)
  | composite (parts : List (Selector × SchemaTree))

namespace SchemaTree

mutual

def schema : SchemaTree → Schema
  | leaf s => s
  | composite parts => .composite (scopes parts)

def scopes : List (Selector × SchemaTree) → List Scope
  | [] => []
  | (selector, tree) :: rest => ⟨selector, tree.schema⟩ :: scopes rest

end

end SchemaTree

end SszArchive
