import SszArchive.Diff.Between
import SszArchive.Diff.Replay

/-!
Schemas: ways to write the step between two versions into a payload and to replay it. A payload
means something only to the schema that wrote it.
-/

namespace SszArchive

structure Schema where
  compute : Version → Version → Except DiffFault Bytes
  apply : Version → Bytes → Except DiffFault Version

namespace Schema

/-- The diff between both versions, node by node. -/
def slices : Schema where
  compute base target := .ok (Diff.between base target).encode
  apply base payload := Diff.replayPayload base payload

/-- The diff from the empty version: a full copy of the target, whatever the base. -/
def snapshot : Schema where
  compute _ target := .ok (Diff.between .empty target).encode
  apply _ payload := Diff.replayPayload .empty payload

end Schema

end SszArchive
