import SszArchive.Bytes

/-!
Bit strings. A byte gives its bits from the least significant one on, and so do numbers.
-/

namespace SszArchive

abbrev Bits := List Bool

namespace Bits

/-- The low `k` bits of `n`. -/
def ofNat : Nat → Nat → Bits
  | 0, _ => []
  | k + 1, n => (n % 2 == 1) :: ofNat k (n / 2)

def toNat : Bits → Nat
  | [] => 0
  | b :: rest => b.toNat + 2 * toNat rest

/-- Eight bits a byte; a last byte of fewer bits is filled up with zeros. -/
def toBytes : Bits → Bytes
  | [] => []
  | a :: b :: c :: d :: e :: f :: g :: h :: rest =>
      UInt8.ofNat (toNat [a, b, c, d, e, f, g, h]) :: toBytes rest
  | short => [UInt8.ofNat (toNat short)]

end Bits

end SszArchive
