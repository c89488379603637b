/-!
Signed words folded onto unsigned ones so that small magnitudes stay small: 0, -1, 1, -2, …
become 0, 1, 2, 3, ….
-/

namespace SszArchive.ZigZag

def encode (v : Int64) : UInt64 :=
  let i := v.toInt
  if 0 ≤ i then UInt64.ofNat (2 * i.toNat) else UInt64.ofNat (2 * (-i).toNat - 1)

/-- Even words are the non-negative numbers, odd words the negative ones. -/
def decode (w : UInt64) : Int64 :=
  let n := w.toNat
  if n % 2 = 0 then Int64.ofInt (n / 2 : Nat) else Int64.ofInt (-((n / 2 : Nat) : Int) - 1)

end SszArchive.ZigZag
