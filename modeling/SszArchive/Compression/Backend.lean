import SszArchive.Compression.Fault
import SszArchive.Compression.Lzma.Decoding
import SszArchive.Compression.Lzma.Encoding
import SszArchive.Compression.Zlib
import SszArchive.FileTree.Fault

/-!
Ways to compress an entry. Each has a number, which is written in front of what it compressed;
number 0 is for data as it is. Any codecs may write and read LZMA and zlib data.
-/

namespace SszArchive

/-- Writers and readers of LZMA and zlib data. A reader that fails says why. -/
class Codecs where
  lzmaCompress : Bytes → Bytes
  lzmaDecompress : Bytes → Except String Bytes
  zlibCompress (level : Nat) : Bytes → Bytes
  zlibDecompress : Bytes → Except String Bytes

/-- Those that are used where no others are given. -/
instance (priority := low) Codecs.usual : Codecs where
  lzmaCompress := Lzma.compress
  lzmaDecompress data := (Lzma.decompress data).mapError Lzma.Fault.message
  zlibCompress := Zlib.compress
  zlibDecompress data := (Zlib.decompress data).mapError Zlib.Fault.message

/-- Below this length an entry is not worth compressing. -/
def worthwhileLength : Nat := 32

structure Backend where
  id : UInt8
  compress : Bytes → Except FileFault Bytes
  decompress : Bytes → Except CompressionFault Bytes
  worthwhile : Bytes → Bool := fun data => worthwhileLength ≤ data.length

namespace Backend

def rawId : UInt8 := 0

def lzmaId : UInt8 := 2

def zlibId : UInt8 := 3

/-- Leaves data as it is. -/
def raw : Backend where
  id := rawId
  compress := .ok
  decompress := .ok
  worthwhile _ := false

section

variable [Codecs]

def lzma : Backend where
  id := lzmaId
  compress data := .ok (Codecs.lzmaCompress data)
  decompress data := (Codecs.lzmaDecompress data).mapError (.corrupt "LZMA")

def zlib (level : Nat) : Backend where
  id := zlibId
  compress data := .ok (Codecs.zlibCompress level data)
  decompress data := (Codecs.zlibDecompress data).mapError (.corrupt "Zlib")

def usualLevel : Nat := 6

/-- The backend that every store knows by this number. -/
def ofId (id : UInt8) : Except CompressionFault Backend :=
  if id = rawId then .ok raw
  else if id = lzmaId then .ok lzma
  else if id = zlibId then .ok (zlib usualLevel)
  else .error (.unsupported id)

end

end Backend

end SszArchive
