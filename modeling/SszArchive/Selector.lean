import SszArchive.GIndex

/-!
Sets of tree nodes built from subtrees by union and difference.
-/

namespace SszArchive

inductive Selector where
  | all
  /-- The descendants of `root`, with `root` itself when `inclusive`. -/
  | descendants (root : GIndex) (inclusive : Bool)
  | union (a b : Selector)
  | subtract (a b : Selector)
  deriving DecidableEq, Repr

namespace Selector

def subtree (root : GIndex) : Selector := .descendants root true

def successors (root : GIndex) : Selector := .descendants root false

def invert (s : Selector) : Selector := .subtract .all s

def selects : Selector → GIndex → Bool
  | all, g => GIndex.valid g
  | descendants root inclusive, g => GIndex.isAncestor root g && (inclusive || g != root)
  | union a b, g => a.selects g || b.selects g
  | subtract a b, g => a.selects g && !b.selects g

def describe : Selector → String
  | all => "All"
  | descendants root inclusive => s!"Subtree \x7b root: {root}, include_root: {inclusive} \x7d"
  | union a b => s!"Union({a.describe}, {b.describe})"
  | subtract a b => s!"Subtract({a.describe}, {b.describe})"

end Selector

end SszArchive
