/-!
Why compressed bytes cannot be read.
-/

namespace SszArchive

inductive CompressionFault where
  | corrupt (backend reason : String)
  | unsupported (tag : UInt8)
  deriving DecidableEq, Repr

def CompressionFault.message : CompressionFault → String
  | .corrupt backend reason => s!"{backend} decompression failed: {reason}"
  | .unsupported tag => s!"unsupported compressor ID {tag}"

end SszArchive
