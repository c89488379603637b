import SszArchive.Compression.Deflate.Code

/-!
Reading DEFLATE data: blocks stored as they are, or coded with the fixed codes or with codes of
their own, until a block that says it is the last one.
-/

namespace SszArchive.Deflate

inductive Fault where
  | truncated
  | blockType
  | storedLength
  | tooManyCodes
  | codeLengths
  | repeatWithoutLength
  | tooManyLengths
  | noEndOfBlock
  | badCode
  | badDistance
  deriving DecidableEq, Repr

def Fault.message : Fault → String
  | .truncated => "unexpected end of input"
  | .blockType => "invalid block type"
  | .storedLength => "stored block length does not match its complement"
  | .tooManyCodes => "too many length or distance symbols"
  | .codeLengths => "invalid code lengths"
  | .repeatWithoutLength => "repeated code length without a previous one"
  | .tooManyLengths => "code lengths repeated past their number"
  | .noEndOfBlock => "missing end-of-block code"
  | .badCode => "invalid code"
  | .badDistance => "distance too far back"

/-- What is still to be read, and the bytes produced. -/
structure Progress where
  /-- The bits that are left of a byte. -/
  bits : Bits
  /-- The bytes behind it. -/
  input : Bytes
  output : Array UInt8

abbrev Inflater := EStateM Fault Progress

/-! ## Bits -/

def bit : Inflater Nat := fun p =>
  match p.bits, p.input with
  | b :: bits, _ => .ok b.toNat { p with bits }
  | [], b :: input => .ok (b.toNat % 2) { p with bits := Bits.ofNat 7 (b.toNat / 2), input }
  | [], [] => .error .truncated p

/-- A number of `n` bits, the least significant first. -/
def number : Nat → Inflater Nat
  | 0 => return 0
  | n + 1 => do
      let low ← bit
      let high ← number n
      return low + 2 * high

/-- Skips to the next byte of the input. -/
def align : Inflater Unit :=
  modify fun p => { p with bits := [] }

def emit (b : UInt8) : Inflater Unit :=
  modify fun p => { p with output := p.output.push b }

/-! ## Symbols -/

/-- Compares with the codewords of one length after another: `code` is what has been read,
`first` the first codeword of this length and `index` its place among all symbols. -/
def symbolFrom (symbols : Array Nat) (code first index : Nat) : List Nat → Inflater Nat
  | [] => throw .badCode
  | count :: longer => do
      let code := 2 * code + (← bit)
      if code < first + count then return symbols.getD (index + (code - first)) 0
      else symbolFrom symbols code (2 * (first + count)) (index + count) longer

def symbol (c : Code) : Inflater Nat := symbolFrom c.symbols 0 0 0 c.counts

/-- The value of a step: its smallest value and what the extra bits add. -/
def stepped (steps : List (Nat × Nat)) (index : Nat) : Inflater Nat :=
  match steps[index]? with
  | none => throw .badCode
  | some (least, extra) => do
      let more ← number extra
      return least + more

/-! ## Copies -/

def copyBack (distance : Nat) : Nat → Array UInt8 → Array UInt8
  | 0, output => output
  | n + 1, output => copyBack distance n (output.push (output.getD (output.size - distance) 0))

def copy (length distance : Nat) : Inflater Unit := do
  if (← get).output.size < distance then throw .badDistance
  modify fun p => { p with output := copyBack distance length p.output }

/-- Literals and copies up to the end of the block. Every symbol takes a bit at least, so the
number of bits is limit enough. -/
def codedBlock (literals distances : Code) : Nat → Inflater Unit
  | 0 => throw .truncated
  | limit + 1 => do
      let s ← symbol literals
      if s < 256 then
        emit (UInt8.ofNat s)
        codedBlock literals distances limit
      else if s = 256 then return ()
      else
        let length ← stepped lengthSteps (s - 257)
        let distance ← stepped distanceSteps (← symbol distances)
        copy length distance
        codedBlock literals distances limit

/-! ## Block heads -/

def numbers (width : Nat) : Nat → Inflater (List Nat)
  | 0 => return []
  | n + 1 => do
      let first ← number width
      let others ← numbers width n
      return first :: others

/-- Code lengths up to `wanted`: plain ones, and repetitions of the last one or of zero. -/
def codeLengths (c : Code) (wanted : Nat) : Nat → Array Nat → Inflater (Array Nat)
  | 0, _ => throw .truncated
  | limit + 1, known => do
      if known.size = wanted then return known
      let s ← symbol c
      if s < 16 then codeLengths c wanted limit (known.push s)
      else
        let (value, times) ← (do
          if s = 16 then
            match known.back? with
            | none => throw .repeatWithoutLength
            | some last => return (last, 3 + (← number 2))
          else if s = 17 then return (0, 3 + (← number 3))
          else return (0, 11 + (← number 7)) : Inflater (Nat × Nat))
        if wanted < known.size + times then throw .tooManyLengths
        codeLengths c wanted limit (known ++ Array.replicate times value)

/-- Puts the lengths sent in `lengthOrder` back in symbol order. -/
def reorder (sent : List Nat) : List Nat :=
  (List.range 19).map fun symbol =>
    match (lengthOrder.zip sent).find? (·.1 == symbol) with
    | some (_, l) => l
    | none => 0

/-- The two codes of a block that brings its own. -/
def ownCodes (limit : Nat) : Inflater (Code × Code) := do
  let literalCount := (← number 5) + 257
  let distanceCount := (← number 5) + 1
  let lengthCount := (← number 4) + 4
  if 286 < literalCount ∨ 30 < distanceCount then throw .tooManyCodes
  let forLengths := reorder (← numbers 3 lengthCount)
  if !complete forLengths then throw .codeLengths
  let lengths ← codeLengths (.ofLengths forLengths) (literalCount + distanceCount) limit #[]
  let literals := lengths.toList.take literalCount
  let distances := lengths.toList.drop literalCount
  if literals.getD 256 0 = 0 then throw .noEndOfBlock
  if !usable literals || !usable distances then throw .codeLengths
  return (.ofLengths literals, .ofLengths distances)

def storedBlock : Inflater Unit := do
  align
  let length ← number 16
  let complement ← number 16
  if length + complement ≠ 65535 then throw .storedLength
  let p ← get
  let content := p.input.take length
  if content.length < length then throw .truncated
  set { p with input := p.input.drop length, output := p.output ++ content }

/-- One block; says whether it was the last. -/
def block (limit : Nat) : Inflater Bool := do
  let final ← bit
  let kind ← number 2
  if kind = 0 then storedBlock
  else if kind = 1 then
    codedBlock (.ofLengths fixedLengths) (.ofLengths fixedDistances) limit
  else if kind = 2 then
    let (literals, distances) ← ownCodes limit
    codedBlock literals distances limit
  else throw .blockType
  return final = 1

def blocks (limit : Nat) : Nat → Inflater Unit
  | 0 => throw .truncated
  | n + 1 => do
      let last ← block limit
      if last then return () else blocks limit n

/-- What `data` stands for, and the bytes behind its last block. -/
def inflate (data : Bytes) : Except Fault (Array UInt8 × Bytes) :=
  let limit := 8 * data.length + 1
  match blocks limit limit ⟨[], data, #[]⟩ with
  | .ok _ p => .ok (p.output, p.input)
  | .error e _ => .error e

end SszArchive.Deflate
