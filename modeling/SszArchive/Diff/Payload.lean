import SszArchive.Diff
import SszArchive.Wire

/-!
The payload of a diff: three counted sections and the extent of the target. A place at the front
is written as the node number 0, which numbers no node.
-/

namespace SszArchive.Diff

/-! ## Writing -/

def encodeChange (c : Part) : Bytes := Wire.int c.node ++ Wire.block c.bytes

def encodeAddition (a : Addition) : Bytes := Wire.int a.node ++ Wire.int (a.after.getD 0)

def encode (d : Diff) : Bytes :=
  Wire.count d.changes.length ++ d.changes.flatMap encodeChange ++
    Wire.count d.removed.length ++ d.removed.flatMap Wire.int ++
    Wire.count d.added.length ++ d.added.flatMap encodeAddition ++
    Wire.range d.start d.total

/-! ## Reading -/

open Wire (Reader)

def readChange : Reader Part := do
  let node ← Reader.int
  let bytes ← Reader.block
  return ⟨node, bytes⟩

def readAddition : Reader Addition := do
  let node ← Reader.int
  let anchor ← Reader.int
  return ⟨node, if anchor = 0 then none else some anchor⟩

def read : Reader Diff := do
  let changes ← Reader.list readChange
  let removed ← Reader.list Reader.int
  let added ← Reader.list readAddition
  let (start, total) ← Reader.range
  Reader.finish
  return { changes, removed, added, start, total }

def decode (payload : Bytes) : Except Wire.Fault Diff := read.run payload

end SszArchive.Diff
