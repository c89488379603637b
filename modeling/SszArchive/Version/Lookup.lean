import SszArchive.Version

/-!
The two addressings of a version: slices by byte offset and by tree node.
-/

namespace SszArchive

inductive LookupFault where
  | atNode (node : GIndex)
  | atOffset (offset : UInt64)
  deriving DecidableEq, Repr

def LookupFault.message : LookupFault → String
  | .atNode node => s!"No slice found with gIndex {node}"
  | .atOffset offset => s!"No slice found at offset {offset}"

namespace Version

/-- The last slice that starts at `offset` or before it. -/
def slicePreceding (v : Version) (offset : UInt64) : Except LookupFault Slice :=
  match (v.slices.filter (·.offset ≤ offset)).getLast? with
  | some s => .ok s
  | none => .error (.atOffset offset)

/-- The slice whose bytes cover `offset`. -/
def sliceCovering (v : Version) (offset : UInt64) : Except LookupFault Slice :=
  match v.slicePreceding offset with
  | .ok s => if s.contains offset then .ok s else .error (.atOffset offset)
  | .error e => .error e

def position? (v : Version) (node : GIndex) : Option Nat := v.slices.findIdx? (·.node == node)

def has (v : Version) (node : GIndex) : Bool := v.slices.any (·.node == node)

def sliceAt (v : Version) (node : GIndex) : Except LookupFault Slice :=
  match v.slices.find? (·.node == node) with
  | some s => .ok s
  | none => .error (.atNode node)

end Version

end SszArchive
