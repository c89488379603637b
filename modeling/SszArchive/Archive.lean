import SszArchive.Schema
import SszArchive.Store
import SszArchive.Version.Identity

/-!
Archives: versions kept as diffs in a store. A commit writes the diff between two versions under
an identifier that depends on both and on the payload; a chain of such diffs is replayed on its
first base, and each step is checked against its identifier.
-/

namespace SszArchive

structure Archive (σ : Type) where
  store : Store σ
  schema : Schema
  /-- Whether each diff is replayed and compared with its target before it is stored. -/
  verify : Bool

/-- The identifier of a payload as the step between two versions. -/
def DiffId.between (base target : Version) (payload : Bytes) : DiffId :=
  .of base.identity target.identity payload

namespace Archive

variable {σ : Type}

/-- The payload of a commit and its identifier, checked if the archive verifies. -/
def prepare (a : Archive σ) (base target : Version) : Except DiffFault (DiffId × Bytes) := do
  let payload ← a.schema.compute base target
  let id := DiffId.between base target payload
  if a.verify then
    if (← a.schema.apply base payload) ≠ target then throw (.verifyFailed id)
  return (id, payload)

/-- Stores the diff between two versions, unless its identifier is stored already. -/
def commit (a : Archive σ) (base target : Version) (state : σ) :
    Outcome DiffFault σ (DiffId × Bytes) :=
  match a.prepare base target with
  | .error e => ⟨.error e, state, []⟩
  | .ok (id, payload) =>
    match a.store.has id state with
    | .error e => ⟨.error (.store e), state, []⟩
    | .ok true => ⟨.ok (id, payload), state, [⟨.debug, s!"diff {id} already stored"⟩]⟩
    | .ok false =>
      let line := s!"storing diff {id}: {base.size} -> {target.size} slices, " ++
        s!"{payload.length} payload bytes"
      let saved := a.store.save id payload state
      ⟨match saved.answer with
        | .ok () => .ok (id, payload)
        | .error e => .error (.store e),
        saved.state, ⟨.debug, line⟩ :: saved.log⟩

/-- Loads one diff and replays it; what comes out has to have the identifier that was asked for. -/
def step (a : Archive σ) (state : σ) (number : Nat) (current : Version) (id : DiffId) :
    Except DiffFault Version :=
  match a.store.load id state with
  | .error e => .error (.store e)
  | .ok payload =>
    match a.schema.apply current payload with
    | .error e => .error e
    | .ok next =>
      if DiffId.between current next payload = id then .ok next
      else .error (.baseMismatch (.otherBase id number current.identity))

/-- Replays diffs from step `number` on, with the log of the steps that succeeded. -/
def replayFrom (a : Archive σ) (state : σ) :
    Nat → Version → List DiffId → Except DiffFault Version × Log
  | _, current, [] => (.ok current, [])
  | number, current, id :: rest =>
    match a.step state number current id with
    | .error e => (.error e, [])
    | .ok next =>
      let line := s!"reconstruct step {number}: applied {id}, version {next.identity.hex}"
      let (result, log) := a.replayFrom state (number + 1) next rest
      (result, ⟨.trace, line⟩ :: log)

/-- Replays a chain of diffs on its anchor, oldest first. -/
def reconstruct (a : Archive σ) (anchor : Version) (chain : List DiffId) (state : σ) :
    Outcome DiffFault σ Version :=
  let (result, log) := a.replayFrom state 0 anchor chain
  ⟨result, state, log⟩

end Archive

/-- Loads a payload of the slice schema as a diff. -/
def Store.loadDiff {σ : Type} (s : Store σ) (id : DiffId) (state : σ) : Except DiffFault Diff :=
  match s.load id state with
  | .error e => .error (.store e)
  | .ok payload => (Diff.decode payload).mapError .malformed

end SszArchive
