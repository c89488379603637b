import SszArchive.Schema

/-!
Deltas between little-endian 64-bit words. Both encodings are read as words, the last one filled
up with zeros, and every word is sent as the signed difference to the base's word in its place;
past the end of the base that word is 0. The layout is sent along unless the base has the same.
-/

namespace SszArchive.WordDelta

/-- The first `n` words of `bytes`, zero past the end. -/
def words : Nat → Bytes → List UInt64
  | 0, _ => []
  | n + 1, bytes => UInt64.ofNat (ofLittleEndian (bytes.take 8)) :: words n (bytes.drop 8)

/-- The words it takes to hold `length` bytes. -/
def wordCount (length : Nat) : Nat := (length + 7) / 8

/-! ## Writing -/

def encodeEntry (entry : GIndex × Nat) : Bytes := Wire.int entry.1 ++ Wire.count entry.2

def encodeLayout (base target : Version) : Bytes :=
  if base.layout = target.layout then Wire.int 0
  else Wire.int 1 ++ Wire.count target.size ++ target.layout.flatMap encodeEntry

def deltas (base target : Version) : List Int64 :=
  let n := wordCount target.totalLength
  List.zipWith (fun new old => (new - old).toInt64) (words n target.bytes) (words n base.bytes)

def encode (base target : Version) : Bytes :=
  encodeLayout base target ++ Wire.int target.start ++ (deltas base target).flatMap Wire.signed

/-! ## Reading -/

open Wire (Reader)

structure Payload where
  layout : List (GIndex × Nat)
  start : UInt64
  deltas : List Int64

def Payload.total (p : Payload) : Nat := totalSize (p.layout.map Prod.snd)

def readEntry : Reader (GIndex × Nat) := do
  let node ← Reader.int
  let length ← Reader.count
  return (node, length)

def readLayout (base : Version) : Reader (List (GIndex × Nat)) := do
  let offset := (← get).position
  let tag ← Reader.int
  if tag = 0 then return base.layout
  else if tag = 1 then Reader.list readEntry
  else throw (.unknownTag offset tag.toNat)

/-- A word takes at least one byte, so a length that the rest cannot hold is refused before the
words are read. -/
def read (base : Version) : Reader Payload := do
  let layout ← readLayout base
  let start ← Reader.int
  let total := totalSize (layout.map Prod.snd)
  if offsetBound ≤ total then throw (.lengthOverflow (offsetBound - 1))
  let c ← get
  if c.remaining < wordCount total then
    throw (.shortPayload c.position (wordCount total) c.remaining)
  let deltas ← Reader.times Reader.signed (wordCount total)
  Reader.finish
  return { layout, start, deltas }

/-- The encoding that the deltas make of the base's. -/
def Payload.bytes (p : Payload) (base : Version) : Bytes :=
  let old := words p.deltas.length base.bytes
  let new := List.zipWith (fun word delta => word + delta.toUInt64) old p.deltas
  (new.flatMap wordBytes).take p.total

def replay (base : Version) (payload : Bytes) : Except DiffFault Version :=
  match (read base).run payload with
  | .error e => .error (.malformed e)
  | .ok p =>
    match Version.assemble p.start (cut (p.bytes base) p.layout) with
    | .error e => .error (.invariant e)
    | .ok target => .ok target

end SszArchive.WordDelta

namespace SszArchive

def Schema.wordDelta : Schema where
  compute base target := .ok (WordDelta.encode base target)
  apply base payload := WordDelta.replay base payload

end SszArchive
