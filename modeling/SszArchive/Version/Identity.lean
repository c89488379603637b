import SszArchive.Digest
import SszArchive.Version

/-!
The identity of a version: the digest of its slices together with their addresses, so that equal
encodings with different layouts differ.
-/

namespace SszArchive

/-- Node, offset and length in eight bytes each, then the bytes. -/
def Slice.frame (s : Slice) : Bytes :=
  wordBytes s.node ++ wordBytes s.offset ++ littleEndian 8 s.length ++ s.bytes

namespace Version

/-- The string that is hashed: the number of slices, then every slice. -/
def frame (v : Version) : Bytes := littleEndian 8 v.size ++ v.slices.flatMap Slice.frame

def identity (v : Version) : Digest := .of v.frame

end Version

end SszArchive
