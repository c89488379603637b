import SszArchive.Sha256

/-!
SHA-256 digests as values: thirty-two bytes, shown in hexadecimal.
-/

namespace SszArchive

structure Digest where
  bytes : Bytes
  length_eq : bytes.length = 32

namespace Digest

theorem ext {d e : Digest} (h : d.bytes = e.bytes) : d = e := by
  cases d; cases e; cases h; rfl

instance : DecidableEq Digest := fun d e =>
  decidable_of_iff (d.bytes = e.bytes) ⟨ext, fun h => h ▸ rfl⟩

def of (message : Bytes) : Digest := ⟨Sha256.hash message, Sha256.length_hash message⟩

def hex (d : Digest) : String := hexText d.bytes

end Digest

end SszArchive
