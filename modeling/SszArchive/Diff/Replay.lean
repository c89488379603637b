import SszArchive.Diff.Fault
import SszArchive.Diff.Payload
import SszArchive.Version.Lookup

/-!
Replaying a diff on a base. The sections are checked one after another, then the kept nodes and
the chains of added nodes behind them are laid out anew. Nothing is returned unless the whole diff
fits the base.
-/

namespace SszArchive.Diff

/-- The slices of the base that the diff does not remove. -/
def kept (d : Diff) (base : Version) : List Slice :=
  base.slices.filter fun s => !d.removed.contains s.node

/-! ## Checks -/

def checkRemoved (base : Version) (seen : List GIndex) : List GIndex → Except Mismatch Unit
  | [] => .ok ()
  | g :: rest =>
    if !base.has g then .error (.removedMissing g)
    else if g ∈ seen then .error (.removedTwice g)
    else checkRemoved base (g :: seen) rest

def checkAdded (kept : List GIndex) (seen : List Addition) : List Addition → Except Mismatch Unit
  | [] => .ok ()
  | a :: rest =>
    if a.node ∈ kept then .error (.addedPresent a.node)
    else if a.node ∈ seen.map Addition.node then .error (.addedTwice a.node)
    else if a.after ∈ seen.map Addition.after then .error (.sharedAnchor a.after)
    else checkAdded kept (a :: seen) rest

/-- An added node is changed at most once; `seen` holds those already met. Of several changes of
a kept node the last one counts. -/
def checkChanges (kept added seen : List GIndex) : List Part → Except Mismatch Unit
  | [] => .ok ()
  | c :: rest =>
    if c.node ∈ added then
      if c.node ∈ seen then .error (.changedTwice c.node)
      else checkChanges kept added (c.node :: seen) rest
    else if c.node ∈ kept then checkChanges kept added seen rest
    else .error (.changedUnknown c.node)

/-- The bytes that the changes give to `node`. -/
def bytesFor? (changes : List Part) (node : GIndex) : Option Bytes :=
  (changes.reverse.find? (·.node == node)).map Part.bytes

/-! ## Placement -/

/-- Follows the additions from `anchor` on, for at most `limit` steps. Each one found leaves the
pending additions, which are returned with the parts that were placed. -/
def chainWithin (changes : List Part) :
    Nat → Option GIndex → List Addition → Except Mismatch (List Part × List Addition)
  | 0, _, pending => .ok ([], pending)
  | limit + 1, anchor, pending =>
    match pending.find? (·.after == anchor) with
    | none => .ok ([], pending)
    | some a =>
      match bytesFor? changes a.node with
      | none => .error (.addedWithoutBytes a.node)
      | some bytes =>
        match chainWithin changes limit (some a.node) (pending.erase a) with
        | .ok (parts, left) => .ok (⟨a.node, bytes⟩ :: parts, left)
        | .error e => .error e

/-- A chain is no longer than the additions that are left to place. -/
def chain (changes : List Part) (anchor : Option GIndex) (pending : List Addition) :
    Except Mismatch (List Part × List Addition) :=
  chainWithin changes pending.length anchor pending

/-- Every kept slice with its latest bytes, followed by its chain. -/
def placeKept (changes : List Part) :
    List Slice → List Addition → Except Mismatch (List Part × List Addition)
  | [], pending => .ok ([], pending)
  | s :: rest, pending =>
    match chain changes (some s.node) pending with
    | .error e => .error e
    | .ok (followers, left) =>
      match placeKept changes rest left with
      | .error e => .error e
      | .ok (parts, left) =>
          .ok (⟨s.node, (bytesFor? changes s.node).getD s.bytes⟩ :: followers ++ parts, left)

/-- The parts of the target in order. Additions that hang off nothing are left over. Which one of
them a fault names is arbitrary; here it is the first. -/
def place (d : Diff) (base : Version) : Except Mismatch (List Part) := do
  let kept := d.kept base
  let keptNodes := kept.map Slice.node
  checkRemoved base [] d.removed
  checkAdded keptNodes [] d.added
  checkChanges keptNodes (d.added.map Addition.node) [] d.changes
  let (front, left) ← chain d.changes none d.added
  let (body, left) ← placeKept d.changes kept left
  match left with
  | [] => return front ++ body
  | a :: _ => throw (.danglingAnchor a.node a.after)

/-- The target that `d` makes of `base`. -/
def replay (d : Diff) (base : Version) : Except DiffFault Version :=
  match d.place base with
  | .error e => .error (.baseMismatch e)
  | .ok parts =>
    match Version.assemble d.start parts with
    | .error e => .error (.invariant e)
    | .ok target =>
      if target.totalLength = d.total.toNat then .ok target
      else .error (.baseMismatch (.totalDiffers target.totalLength d.total.toNat))

/-- Reads a payload and replays it. -/
def replayPayload (base : Version) (payload : Bytes) : Except DiffFault Version :=
  match decode payload with
  | .error e => .error (.malformed e)
  | .ok d => d.replay base

end SszArchive.Diff
