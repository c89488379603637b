import SszArchive.Alignment
import SszArchive.Diff
import SszArchive.Version.Lookup

/-!
The diff between two versions, read off their alignment. Pairs with equal bytes are left out.
-/

namespace SszArchive

/-- The node right before `node`. -/
def Version.predecessor? (v : Version) (node : GIndex) : Option GIndex :=
  match v.position? node with
  | some (i + 1) => v.slices[i]?.map Slice.node
  | _ => none

namespace Alignment.Step

def change? : Step → Option Part
  | paired old new => if old.bytes = new.bytes then none else some new.part
  | removed _ => none
  | added new => some new.part

def removal? : Step → Option GIndex
  | removed old => some old.node
  | _ => none

def addition? (target : Version) : Step → Option Addition
  | added new => some ⟨new.node, target.predecessor? new.node⟩
  | _ => none

end Alignment.Step

def Diff.between (base target : Version) : Diff :=
  let steps := align base target
  { changes := steps.filterMap Alignment.Step.change?
    removed := steps.filterMap Alignment.Step.removal?
    added := steps.filterMap (Alignment.Step.addition? target)
    start := target.start
    total := UInt64.ofNat target.totalLength }

end SszArchive
