import SszArchive.Schema
import SszArchive.Version.Select

/-!
A schema restricted to the nodes that a selector picks. It works on the projections of both
versions; its payload says in addition where the picked slices of the target lie, as maximal runs
of neighbours.
-/

namespace SszArchive

structure Scope where
  selector : Selector
  inner : Schema

/-- `count` slices back to back from `start`. -/
structure Run where
  start : UInt64
  count : Nat
  deriving DecidableEq, Repr

namespace Scope

def describe (s : Scope) : String :=
  s!"ScopedSchema \x7b selector: {s.selector.describe}, .. \x7d"

/-! ## Writing -/

/-- The maximal runs of picked slices: a picked slice joins the run of a picked neighbour. -/
def runs (selector : Selector) : List Slice → List Run
  | [] => []
  | s :: rest =>
    if selector.selects s.node then
      match rest.head?.any (selector.selects ·.node), runs selector rest with
      | true, r :: more => ⟨s.offset, r.count + 1⟩ :: more
      | _, more => ⟨s.offset, 1⟩ :: more
    else runs selector rest

def encodeRun (r : Run) : Bytes := Wire.range r.start (UInt64.ofNat r.count)

def computePart (s : Scope) (base target : Version) : Except DiffFault Bytes :=
  match s.inner.compute (base.select s.selector) (target.select s.selector) with
  | .error e => .error e
  | .ok inner =>
      let runs := runs s.selector target.slices
      .ok (Wire.count runs.length ++ runs.flatMap encodeRun ++ Wire.block inner)

/-! ## Reading -/

open Wire (Reader)

def readRun : Reader Run := do
  let (start, count) ← Reader.range
  return ⟨start, count.toNat⟩

def readPart : Reader (List Run × Bytes) := do
  let runs ← Reader.list readRun
  let inner ← Reader.block
  Reader.finish
  return (runs, inner)

/-- Places `count` of the produced slices from `offset` on; the others are returned as well. -/
def placeRun (selector : Selector) :
    Nat → UInt64 → List Slice → Except Mismatch (List Slice × List Slice)
  | 0, _, produced => .ok ([], produced)
  | _ + 1, _, [] => .error .tooFewScoped
  | count + 1, offset, s :: produced =>
    if !selector.selects s.node then .error (.unselected s.node)
    else if offsetBound ≤ offset.toNat + s.length then .error (.scopedPastEnd s.node)
    else
      match placeRun selector count (addOffset offset s.length) produced with
      | .error e => .error e
      | .ok (placed, left) => .ok (⟨s.node, offset, s.bytes⟩ :: placed, left)

def placeRuns (selector : Selector) : List Run → List Slice → Except Mismatch (List Slice)
  | [], [] => .ok []
  | [], _ :: _ => .error .tooManyScoped
  | r :: rest, produced =>
    match placeRun selector r.count r.start produced with
    | .error e => .error e
    | .ok (placed, left) =>
      match placeRuns selector rest left with
      | .error e => .error e
      | .ok more => .ok (placed ++ more)

/-- The picked slices of the target, at their places. -/
def applyPart (s : Scope) (base : Version) (payload : Bytes) : Except DiffFault (List Slice) :=
  match readPart.run payload with
  | .error e => .error (.malformed e)
  | .ok (runs, inner) =>
    match s.inner.apply (base.select s.selector) inner with
    | .error e => .error e
    | .ok produced =>
      match placeRuns s.selector runs produced.slices with
      | .error e => .error (.baseMismatch e)
      | .ok slices => .ok slices

end Scope

end SszArchive
