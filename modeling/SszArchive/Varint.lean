import SszArchive.Bytes

/-!
Variable-length integers in LEB128 form: seven bits a byte, least significant group first, the
high bit set on every byte but the last. A 64-bit number takes at most ten bytes, and reading
refuses a redundant zero group, so a number has one encoding.
-/

namespace SszArchive.Varint

inductive Fault where
  | underflow
  | overflow
  | nonCanonical
  deriving DecidableEq, Repr

def Fault.message : Fault → String
  | .underflow => "varint underflow (truncated input)"
  | .overflow => "varint overflow"
  | .nonCanonical => "non-canonical varint"

/-! ## Writing -/

def encodeNat (n : Nat) : Bytes :=
  if n < 128 then [UInt8.ofNat n] else UInt8.ofNat (n % 128 + 128) :: encodeNat (n / 128)
termination_by n
decreasing_by omega

def encode (v : UInt64) : Bytes := encodeNat v.toNat

/-- The number of bytes of `encode v`: one for every started group of seven bits. -/
def size (v : UInt64) : Nat := v.toNat.log2 / 7 + 1

/-! ## Reading -/

/-- Reads from group number `i` on. The tenth group holds bit 63 alone, and there is no
eleventh; both are refused before the byte is looked at as the last one. -/
def decodeFrom (i : Nat) : Bytes → Except Fault (Nat × Nat)
  | [] => .error .underflow
  | b :: rest =>
    if i = 10 then .error .overflow
    else if i = 9 ∧ 1 < b.toNat % 128 then .error .overflow
    else if b.toNat < 128 then
      if 0 < i ∧ b = 0 then .error .nonCanonical else .ok (b.toNat, 1)
    else
      match decodeFrom (i + 1) rest with
      | .ok (high, used) => .ok (b.toNat % 128 + 128 * high, used + 1)
      | .error e => .error e

/-- The number at the front of `data` and how many bytes it takes. -/
def decode (data : Bytes) : Except Fault (UInt64 × Nat) :=
  match decodeFrom 0 data with
  | .ok (n, used) => .ok (UInt64.ofNat n, used)
  | .error e => .error e

end SszArchive.Varint
