/-!
Byte strings, with their two plain notations: little-endian numbers of a fixed width and
hexadecimal text.
-/

namespace SszArchive

abbrev Bytes := List UInt8

/-- The sum of some sizes. -/
def totalSize : List Nat → Nat
  | [] => 0
  | n :: rest => n + totalSize rest

/-! ## Little-endian numbers -/

/-- The low `k` base-256 digits of `n`, least significant first. -/
def littleEndian : Nat → Nat → Bytes
  | 0, _ => []
  | k + 1, n => UInt8.ofNat n :: littleEndian k (n / 256)

def ofLittleEndian : Bytes → Nat
  | [] => 0
  | b :: rest => b.toNat + 256 * ofLittleEndian rest

theorem length_littleEndian (k n : Nat) : (littleEndian k n).length = k := by
  induction k generalizing n with
  | zero => rfl
  | succ k ih => simp [littleEndian, ih]

/-- A 64-bit word in eight bytes. -/
def wordBytes (w : UInt64) : Bytes := littleEndian 8 w.toNat

/-! ## Hexadecimal text -/

def hexDigit (n : Nat) : Char :=
  if n < 10 then Char.ofNat (48 + n) else Char.ofNat (87 + n)

/-- Two lower-case digits a byte, the high half first. -/
def hexDigits (b : Bytes) : List Char :=
  b.flatMap fun x => [hexDigit (x.toNat / 16), hexDigit (x.toNat % 16)]

def hexText (b : Bytes) : String := String.ofList (hexDigits b)

/-- The value of an ASCII hexadecimal digit of either case. -/
def hexValue? (c : UInt8) : Option Nat :=
  let n := c.toNat
  if 48 ≤ n ∧ n ≤ 57 then some (n - 48)
  else if 97 ≤ n ∧ n ≤ 102 then some (n - 87)
  else if 65 ≤ n ∧ n ≤ 70 then some (n - 55)
  else none

end SszArchive
