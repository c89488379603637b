import SszArchive.Bytes
import Std.Data.TreeMap

/-!
The adaptive model of LZMA. Every binary decision has a context; a context's probability of a
zero starts at one half and moves towards what was seen.
-/

namespace SszArchive.Lzma

/-- What a binary decision is about. `node` is a place in a binary tree, 1 at the root; the
children of `n` are `2 * n` and `2 * n + 1`. -/
inductive Context where
  /-- Whether data is copied. -/
  | copied (phase position : Nat)
  /-- Whether an earlier distance is used again. -/
  | repeated (phase : Nat)
  /-- Whether it is another one than the last. -/
  | notLast (phase : Nat)
  /-- Whether more than one byte is copied from the last distance. -/
  | long (phase position : Nat)
  | notSecond (phase : Nat)
  | notThird (phase : Nat)
  /-- A bit of a literal byte, after the bytes that select `place`. -/
  | literal (place node : Nat)
  | beyondShort (again : Bool)
  | beyondMiddle (again : Bool)
  | shortLength (again : Bool) (position node : Nat)
  | middleLength (again : Bool) (position node : Nat)
  | longLength (again : Bool) (node : Nat)
  | distanceSlot (length node : Nat)
  | distanceBits (slot node : Nat)
  | distanceAlign (node : Nat)
  deriving DecidableEq, Ord, Repr

/-! ## Probabilities -/

/-- The probabilities that have moved, in units of 1/2048. -/
abbrev Model := Std.TreeMap Context UInt32

def evenOdds : UInt32 := 1024

def Model.odds (m : Model) (c : Context) : UInt32 := m.getD c evenOdds

def Model.learn (m : Model) (c : Context) (bit : Bool) : Model :=
  let p := m.odds c
  m.insert c (if bit then p - p >>> 5 else p + (2048 - p) >>> 5)

/-- The part of the range that stands for a zero. -/
def Model.bound (m : Model) (range : UInt32) (c : Context) : UInt32 := (range >>> 11) * m.odds c

/-- A range below this is widened by another byte. -/
def narrow : UInt32 := 0x1000000

/-! ## Phases -/

/-- The phase, 0 to 11, tells the last few steps; from 7 on the last one was a copy. -/
def afterLiteral (phase : Nat) : Nat :=
  if phase < 4 then 0 else if phase < 10 then phase - 3 else phase - 6

def afterCopy (phase : Nat) : Nat := if phase < 7 then 7 else 10

def afterRepeat (phase : Nat) : Nat := if phase < 7 then 8 else 11

def afterShortRepeat (phase : Nat) : Nat := if phase < 7 then 9 else 11

/-- The slot and distance that mark the end of the data. -/
def endSlot : Nat := 63

def endDistance : Nat := 0xffffffff

end SszArchive.Lzma
