import SszArchive.Store.Fault
import SszArchive.Version
import SszArchive.Wire

/-!
Why a diff cannot be computed, stored or replayed.
-/

namespace SszArchive

/-- A payload that does not belong to the version it is replayed on. -/
inductive Mismatch where
  | removedMissing (node : GIndex)
  | removedTwice (node : GIndex)
  | addedPresent (node : GIndex)
  | addedTwice (node : GIndex)
  | sharedAnchor (after : Option GIndex)
  | changedTwice (node : GIndex)
  | changedUnknown (node : GIndex)
  | addedWithoutBytes (node : GIndex)
  | danglingAnchor (node : GIndex) (after : Option GIndex)
  | totalDiffers (actual declared : Nat)
  | partCount (declared expected : Nat)
  | coverage (actualLength actualStart declaredLength declaredStart : Nat)
  | tooFewScoped
  | unselected (node : GIndex)
  | scopedPastEnd (node : GIndex)
  | tooManyScoped
  | otherBase (id : DiffId) (step : Nat) (version : Digest)
  deriving DecidableEq

private def anchorText : Option GIndex → String
  | some g => s!"Some({g})"
  | none => "None"

private def placeText : Option GIndex → String
  | some g => toString g
  | none => "<front>"

def Mismatch.message : Mismatch → String
  | .removedMissing node => s!"removed gIndex {node} is not in the base"
  | .removedTwice node => s!"gIndex {node} removed twice"
  | .addedPresent node => s!"added gIndex {node} already exists in the base"
  | .addedTwice node => s!"gIndex {node} added twice"
  | .sharedAnchor after => s!"two added slices share anchor {anchorText after}"
  | .changedTwice node => s!"gIndex {node} changed twice"
  | .changedUnknown node => s!"changed gIndex {node} is neither in the base nor added"
  | .addedWithoutBytes node => s!"added gIndex {node} carries no bytes"
  | .danglingAnchor node after =>
      s!"added gIndex {node} is anchored after missing gIndex {placeText after}"
  | .totalDiffers actual declared => s!"result is {actual} bytes, diff declares {declared}"
  | .partCount declared expected => s!"payload has {declared} parts, schema has {expected}"
  | .coverage actualLength actualStart declaredLength declaredStart =>
      s!"parts cover {actualLength} bytes at {actualStart}, target has {declaredLength} at " ++
        toString declaredStart
  | .tooFewScoped => "scoped diff places more slices than it produces"
  | .unselected node => s!"scoped diff produces unselected gIndex {node}"
  | .scopedPastEnd node => s!"gIndex {node} extends past the end of the offset space"
  | .tooManyScoped => "scoped diff produces slices it does not place"
  | .otherBase id step version =>
      s!"diff {id} (step {step}) was not computed against version {version.hex}"

inductive DiffFault where
  | malformed (cause : Wire.Fault)
  | baseMismatch (cause : Mismatch)
  | invariant (cause : InvariantFault)
  | verifyFailed (id : DiffId)
  | store (cause : StoreFault)
  deriving DecidableEq

def DiffFault.message : DiffFault → String
  | .malformed cause => s!"malformed diff payload: {cause.message}"
  | .baseMismatch cause => s!"diff does not match its base: {cause.message}"
  | .invariant cause => s!"diff produces invalid slices: {cause.message}"
  | .verifyFailed id => s!"diff {id} does not reproduce its target"
  | .store cause => cause.message

end SszArchive
