import SszArchive.Compression.Lzma.Model

/-!
Reading LZMA data behind its 13-byte head.
-/

namespace SszArchive.Lzma

inductive Fault where
  | truncated
  | properties
  | farDistance
  | dataAfterEnd
  | size
  deriving DecidableEq, Repr

def Fault.message : Fault → String
  | .truncated => "unexpected end of input"
  | .properties => "invalid properties"
  | .farDistance => "distance too far back"
  | .dataAfterEnd => "data after the end marker"
  | .size => "unexpected size"

/-! ## Head -/

structure Head where
  /-- How many high bits of the last byte tell literals apart. -/
  literalContext : Nat
  /-- How many low bits of the position tell literals apart. -/
  literalPosition : Nat
  /-- How many low bits of the position tell the other decisions apart. -/
  position : Nat
  window : Nat
  /-- None if the data ends with a marker. -/
  size : Option Nat
  deriving DecidableEq, Repr

def smallestWindow : Nat := 4096

def Head.decode (bytes : Bytes) : Except Fault (Head × Bytes) :=
  match bytes with
  | [] => .error .truncated
  | properties :: rest =>
      let p := properties.toNat
      let size := ofLittleEndian ((rest.drop 4).take 8)
      if 225 ≤ p then .error .properties
      else if rest.length < 12 then .error .truncated
      else .ok (⟨p % 9, p / 9 % 5, p / 45, max smallestWindow (ofLittleEndian (rest.take 4)),
        if size = UInt64.size - 1 then none else some size⟩, rest.drop 12)

/-! ## Decisions -/

structure Progress where
  input : Bytes
  range : UInt32
  code : UInt32
  model : Model
  output : Array UInt8
  phase : Nat
  /-- The last four distances less one, the latest first. -/
  distances : Nat × Nat × Nat × Nat

abbrev Decoder := EStateM Fault Progress

def widen : Decoder Unit := do
  let p ← get
  if p.range < narrow then
    match p.input with
    | [] => throw .truncated
    | b :: rest =>
        set { p with
          input := rest, range := p.range <<< 8, code := p.code <<< 8 ||| b.toUInt32 }

def decision (c : Context) : Decoder Bool := do
  let bit ← modifyGet fun p =>
    let bound := p.model.bound p.range c
    let bit := !(p.code < bound)
    let p :=
      if bit then { p with code := p.code - bound, range := p.range - bound }
      else { p with range := bound }
    (bit, { p with model := p.model.learn c bit })
  widen
  return bit

/-- A number of `n` bits with even odds, the most significant first. -/
def plain : Nat → Nat → Decoder Nat
  | 0, read => return read
  | n + 1, read => do
      let bit ← modifyGet fun (p : Progress) =>
        let half := p.range >>> 1
        if p.code < half then (0, { p with range := half })
        else (1, { p with range := half, code := p.code - half })
      widen
      plain n (2 * read + bit)

/-- Walks down `n` levels of a tree. -/
def walk (context : Nat → Context) : Nat → Nat → Decoder Nat
  | 0, node => return node
  | n + 1, node => do
      let bit ← decision (context node)
      walk context n (2 * node + bit.toNat)

/-- A number of `n` bits, the most significant first. -/
def tree (context : Nat → Context) (n : Nat) : Decoder Nat := do
  return (← walk context n 1) - 1 <<< n

/-- A number of `n` bits, the least significant first. -/
def reversedTree (context : Nat → Context) : Nat → Nat → Decoder Nat
  | 0, _ => return 0
  | n + 1, node => do
      let bit ← decision (context node)
      let high ← reversedTree context n (2 * node + bit.toNat)
      return bit.toNat + 2 * high

/-! ## Literals -/

def byteBack (output : Array UInt8) (distance : Nat) : Nat :=
  (output.getD (output.size - distance) 0).toNat

def checkDistance (window distance : Nat) : Decoder Unit := do
  if min window (← get).output.size < distance then throw .farDistance

/-- A literal next to a byte that it probably differs from: as long as the bits agree with those
of `expected`, that byte's bits are part of the context. -/
def walkBeside (place : Nat) : Nat → Nat → Nat → Decoder Nat
  | 0, _, node => return node
  | n + 1, expected, node => do
      let likely := expected / 128 % 2
      let bit ← decision (.literal place (256 * (1 + likely) + node))
      let node := 2 * node + bit.toNat
      if bit.toNat = likely then walkBeside place n (2 * expected) node
      else walk (.literal place) n node

def literal (h : Head) : Decoder Unit := do
  let p ← get
  let last := if p.output.isEmpty then 0 else byteBack p.output 1
  let place := (p.output.size % (1 <<< h.literalPosition)) <<< h.literalContext
    + last >>> (8 - h.literalContext)
  let leaf ←
    if 7 ≤ p.phase then
      let distance := p.distances.1 + 1
      checkDistance h.window distance
      walkBeside place 8 (byteBack p.output distance) 1
    else walk (.literal place) 8 1
  modify fun p => { p with
    output := p.output.push (UInt8.ofNat (leaf - 256)), phase := afterLiteral p.phase }

/-! ## Copies -/

/-- The length of a copy less two. -/
def copyLength (again : Bool) (position : Nat) : Decoder Nat := do
  if ← decision (.beyondShort again) then
    if ← decision (.beyondMiddle again) then return (← tree (.longLength again) 8) + 16
    else return (← tree (.middleLength again position) 3) + 8
  else tree (.shortLength again position) 3

/-- A distance less one: a slot gives its highest two bits and how many bits follow. -/
def newDistance (length : Nat) : Decoder Nat := do
  let slot ← tree (.distanceSlot (min length 3)) 6
  if slot < 4 then return slot
  let width := slot / 2 - 1
  let high := (2 + slot % 2) <<< width
  if slot < 14 then return high + (← reversedTree (.distanceBits slot) width 1)
  else
    let middle ← plain (width - 4) 0
    return high + 16 * middle + (← reversedTree .distanceAlign 4 1)

def copyBack (distance : Nat) : Nat → Array UInt8 → Array UInt8
  | 0, output => output
  | n + 1, output => copyBack distance n (output.push (output.getD (output.size - distance) 0))

def copy (h : Head) (length : Nat) : Decoder Unit := do
  let distance := (← get).distances.1 + 1
  checkDistance h.window distance
  modify fun p => { p with output := copyBack distance length p.output }

/-- Chooses one of the last distances and makes it the latest. -/
def chooseDistance (phase : Nat) : Decoder Unit := do
  let (a, b, c, d) := (← get).distances
  if ← decision (.notSecond phase) then
    if ← decision (.notThird phase) then modify fun p => { p with distances := (d, a, b, c) }
    else modify fun p => { p with distances := (c, a, b, d) }
  else modify fun p => { p with distances := (b, a, c, d) }

/-- Copies one byte from the latest distance. -/
def copyByte (h : Head) (phase : Nat) : Decoder Unit := do
  modify fun p => { p with phase := afterShortRepeat phase }
  copy h 1

/-- Copies more than one byte from the latest distance. -/
def copyAgain (h : Head) (phase position : Nat) : Decoder Unit := do
  let length ← copyLength true position
  modify fun p => { p with phase := afterRepeat phase }
  copy h (length + 2)

/-- All input is used up and nothing of it is left over. -/
def exhausted : Decoder Bool := do
  let p ← get
  return p.code == 0 && p.input.isEmpty

/-- A literal, a copy, or the end marker; says whether it was the marker. -/
def step (h : Head) : Decoder Bool := do
  let p ← get
  let phase := p.phase
  let position := p.output.size % (1 <<< h.position)
  if !(← decision (.copied phase position)) then
    literal h
    return false
  if ← decision (.repeated phase) then
    if ← decision (.notLast phase) then
      chooseDistance phase
      copyAgain h phase position
    else
      if ← decision (.long phase position) then copyAgain h phase position
      else copyByte h phase
    return false
  else
    let length ← copyLength false position
    let distance ← newDistance length
    modify fun p =>
      let (a, b, c, _) := p.distances
      { p with phase := afterCopy phase, distances := (distance, a, b, c) }
    if distance = endDistance then
      if ← exhausted then return true else throw .dataAfterEnd
    copy h (length + 2)
    return false

/-- Steps up to the size in the head. Without one the data ends at the marker, or where the input
is exhausted. -/
def steps (h : Head) : Nat → Decoder Unit
  | 0 => throw .truncated
  | n + 1 => do
      let full ← match h.size with
        | some size => pure (decide (size ≤ (← get).output.size))
        | none => exhausted
      if full then return ()
      if ← step h then return ()
      steps h n

/-- Each decision uses up at least 1/45 of a bit of the input, which bounds their number. -/
def decode (h : Head) (body : Bytes) : Except Fault Bytes :=
  if body.length < 5 then .error .truncated
  else
    let code := UInt32.ofNat (ofLittleEndian ((body.drop 1).take 4).reverse)
    let begun : Progress := ⟨body.drop 5, 0xffffffff, code, ∅, #[], 0, (0, 0, 0, 0)⟩
    match steps h (512 * (body.length + 1)) begun with
    | .error e _ => .error e
    | .ok _ p =>
        if h.size.all (· == p.output.size) then .ok p.output.toList else .error .size

def decompress (bytes : Bytes) : Except Fault Bytes := do
  let (h, body) ← Head.decode bytes
  decode h body

end SszArchive.Lzma
