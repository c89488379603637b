import SszArchive.Compression.Lzma.Model

/-!
Writing LZMA data with literals only. The adaptive probabilities alone make repetitive data
short.
-/

namespace SszArchive.Lzma

/-! ## Decisions -/

/-- The bytes written, last first, and the part of the number line that stands for the decisions
so far: from `low` on, `range` wide. -/
structure Interval where
  written : List UInt8
  low : Nat
  range : UInt32
  model : Model

def Interval.start : Interval := ⟨[0], 0, 0xffffffff, ∅⟩

/-- Adds one to the number that the bytes stand for. -/
def carry : List UInt8 → List UInt8
  | [] => []
  | b :: rest => if b = 255 then 0 :: carry rest else (b + 1) :: rest

def Interval.raise (i : Interval) (n : Nat) : Interval :=
  let low := i.low + n
  if low < UInt32.size then { i with low }
  else { i with low := low - UInt32.size, written := carry i.written }

def Interval.widen (i : Interval) : Interval :=
  if i.range < narrow then
    { i with
      written := UInt8.ofNat (i.low >>> 24) :: i.written
      low := i.low % 0x1000000 * 256
      range := i.range <<< 8 }
  else i

/-- Keeps the part of the interval that stands for `bit`. -/
def Interval.put (i : Interval) (c : Context) (bit : Bool) : Interval :=
  let bound := i.model.bound i.range c
  let part :=
    if bit then { i.raise bound.toNat with range := i.range - bound } else { i with range := bound }
  Interval.widen { part with model := i.model.learn c bit }

def Interval.putPlain (i : Interval) (bit : Bool) : Interval :=
  let range := i.range >>> 1
  (if bit then { i.raise range.toNat with range } else { i with range }).widen

/-- The `n` low bits of a number, the most significant first. -/
def Interval.putTree (context : Nat → Context) (number : Nat) :
    Nat → Nat → Interval → Interval
  | 0, _, i => i
  | n + 1, node, i =>
      let bit := number.testBit n
      putTree context number n (2 * node + bit.toNat) (i.put (context node) bit)

/-- The last four bytes fix a point of the interval. -/
def Interval.finish (i : Interval) : Bytes :=
  i.written.reverse ++ (littleEndian 4 i.low).reverse

/-! ## Literals -/

/-- The literals after `count` bytes, of which `last` is the latest. -/
def putLiterals : Nat → UInt8 → Bytes → Interval → Interval
  | _, _, [], i => i
  | count, last, b :: rest, i =>
      let i := i.put (.copied 0 (count % 4)) false
      let place := last.toNat / 32
      putLiterals (count + 1) b rest (Interval.putTree (.literal place) b.toNat 8 1 i)

/-- A copy of length two from a distance that stands for the end. -/
def putEnd (count : Nat) (i : Interval) : Interval :=
  let position := count % 4
  let i := i.put (.copied 0 position) true
  let i := i.put (.repeated 0) false
  let i := i.put (.beyondShort false) false
  let i := Interval.putTree (.shortLength false position) 0 3 1 i
  let i := Interval.putTree (.distanceSlot 0) endSlot 6 1 i
  let i := (List.replicate 26 true).foldl Interval.putPlain i
  Interval.putTree .distanceAlign 15 4 1 i

/-- Three bits of the last byte, two of the position; a window of 8 MiB; no size. -/
def head : Bytes := [0x5d, 0, 0, 0x80, 0] ++ List.replicate 8 0xff

def compress (data : Bytes) : Bytes :=
  head ++ (putEnd data.length (putLiterals 0 0 data .start)).finish

end SszArchive.Lzma
