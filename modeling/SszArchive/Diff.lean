import SszArchive.Version

/-!
The step from one version to the next, node by node: new bytes for changed and added nodes, the
nodes that leave, and for every added node the node it follows.
-/

namespace SszArchive

/-- The place of a node that the base does not have: right after another node, or first. -/
structure Addition where
  node : GIndex
  after : Option GIndex
  deriving DecidableEq, Repr

structure Diff where
  changes : List Part
  removed : List GIndex
  added : List Addition
  /-- The offset of the target's first slice. -/
  start : UInt64
  /-- The length of the target's encoding. -/
  total : UInt64
  deriving DecidableEq, Repr

/-- Nothing changes but, perhaps, the place of the whole. -/
def Diff.isEmpty (d : Diff) : Bool := d.changes.isEmpty && d.removed.isEmpty && d.added.isEmpty

end SszArchive
