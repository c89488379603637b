import SszArchive.Compression.Backend

/-!
How new entries are compressed.
-/

namespace SszArchive

inductive Compression where
  | none
  | lzma
  | zlib (level : Nat)
  | custom (backend : Backend)

namespace Compression

def backend [Codecs] : Compression → Backend
  | none => .raw
  | lzma => .lzma
  | zlib level => .zlib level
  | custom b => b

def enabled : Compression → Bool
  | none => false
  | _ => true

def describe : Compression → String
  | none => "None"
  | lzma => "Lzma"
  | zlib level => s!"Zlib \x7b level: {level} \x7d"
  | custom b => s!"Custom(id={b.id})"

end Compression

end SszArchive
