import SszArchive.Bytes
import SszArchive.GIndex

/-!
Slices: the bytes of one tree node at an offset of the full encoding. A part is a slice that has
no place yet; laying parts out puts them back to back.
-/

namespace SszArchive

/-- The offsets are 64-bit words: every slice has to end before this bound. -/
def offsetBound : Nat := UInt64.size

structure Slice where
  node : GIndex
  offset : UInt64
  bytes : Bytes
  deriving DecidableEq, Repr

structure Part where
  node : GIndex
  bytes : Bytes
  deriving DecidableEq, Repr

namespace Slice

def length (s : Slice) : Nat := s.bytes.length

/-- One past the last byte. -/
def stop (s : Slice) : Nat := s.offset.toNat + s.length

def contains (s : Slice) (offset : UInt64) : Bool :=
  decide (s.offset.toNat ≤ offset.toNat ∧ offset.toNat < s.stop)

def part (s : Slice) : Part := ⟨s.node, s.bytes⟩

end Slice

/-- Addition that stops at the last offset instead of wrapping. -/
def addOffset (offset : UInt64) (n : Nat) : UInt64 :=
  UInt64.ofNat (min (offset.toNat + n) (offsetBound - 1))

/-- The parts back to back from `start`. Past the last offset they pile up there, which the
check of the resulting slices refuses. -/
def layOut (start : UInt64) : List Part → List Slice
  | [] => []
  | p :: rest => ⟨p.node, start, p.bytes⟩ :: layOut (addOffset start p.bytes.length) rest

/-- Cuts `bytes` into parts of the declared lengths. -/
def cut (bytes : Bytes) : List (GIndex × Nat) → List Part
  | [] => []
  | (g, n) :: rest => ⟨g, bytes.take n⟩ :: cut (bytes.drop n) rest

theorem addOffset_toNat {offset : UInt64} {n : Nat} (h : offset.toNat + n < offsetBound) :
    (addOffset offset n).toNat = offset.toNat + n := by
  have : min (offset.toNat + n) (offsetBound - 1) = offset.toNat + n := by omega
  simp only [addOffset, this, UInt64.toNat_ofNat']
  exact Nat.mod_eq_of_lt h

theorem map_part_layOut (start : UInt64) (parts : List Part) :
    (layOut start parts).map Slice.part = parts := by
  induction parts generalizing start with
  | nil => rfl
  | cons p rest ih => simp [layOut, Slice.part, ih]

theorem map_node_layOut (start : UInt64) (parts : List Part) :
    (layOut start parts).map Slice.node = parts.map Part.node := by
  induction parts generalizing start with
  | nil => rfl
  | cons p rest ih => simp [layOut, ih]

end SszArchive
