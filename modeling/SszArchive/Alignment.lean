import SszArchive.Version

/-!
The slices of two versions side by side. A node of both versions is paired when it keeps its
place among the nodes paired so far; a node that moved counts as removed from the base and added
to the target.
-/

namespace SszArchive

namespace Alignment

inductive Step where
  | paired (old new : Slice)
  | removed (old : Slice)
  | added (new : Slice)
  deriving DecidableEq, Repr

namespace Step

def node : Step → GIndex
  | paired _ new => new.node
  | removed old => old.node
  | added new => new.node

def old? : Step → Option Slice
  | paired old _ | removed old => some old
  | added _ => none

def new? : Step → Option Slice
  | paired _ new | added new => some new
  | removed _ => none

def changed : Step → Bool
  | paired old new => old.bytes != new.bytes
  | _ => true

end Step

/-- The common nodes, in the target's order, that can be paired: walking the target, a node
stays when the base has it after the last one that stayed. `rest` is that part of the base. -/
def stable (rest : List Slice) : List Slice → List GIndex
  | [] => []
  | t :: target =>
    match rest.dropWhile (·.node != t.node) with
    | _ :: after => t.node :: stable after target
    | [] => stable rest target

/-- Merges both lists around the pairs at the stable nodes; between two pairs the removals come
before the additions. -/
def merge (old new : List Slice) : List GIndex → List Step
  | [] => old.map .removed ++ new.map .added
  | g :: nodes =>
    (old.takeWhile (·.node != g)).map .removed ++ (new.takeWhile (·.node != g)).map .added ++
      match old.dropWhile (·.node != g), new.dropWhile (·.node != g) with
      | o :: old, n :: new => .paired o n :: merge old new nodes
      | _, _ => []

end Alignment

def align (base target : Version) : List Alignment.Step :=
  Alignment.merge base.slices target.slices (Alignment.stable base.slices target.slices)

end SszArchive
