/-!
Generalized indices: the nodes of the unbounded binary tree numbered level by level. The root is
1 and node `i` has the children `2 * i` and `2 * i + 1`; 0 numbers no node.
-/

namespace SszArchive

abbrev GIndex := UInt64

namespace GIndex

def valid (g : GIndex) : Bool := g != 0

/-- The distance from the root. -/
def depth (g : GIndex) : Nat := g.toNat.log2

/-- `a` lies on the path from the root to `g`, both ends included. -/
def isAncestor (a g : GIndex) : Bool :=
  valid a && valid g && decide (depth a ≤ depth g) &&
    g.toNat >>> (depth g - depth a) == a.toNat

end GIndex

end SszArchive
