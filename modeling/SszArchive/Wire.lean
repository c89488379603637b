import SszArchive.Varint
import SszArchive.ZigZag

/-!
The framing of payloads. Four kinds of field are written one after another without a schema:
integers as varints, signed integers folded onto them, byte strings behind their length, and
pairs of integers. Reading is a cursor that moves over the buffer; a failed read says where the
cursor is left.
-/

namespace SszArchive.Wire

/-! ## Writing -/

inductive Field where
  | int (value : UInt64)
  | signed (value : Int64)
  | bytes (content : Bytes)
  | range (low high : UInt64)
  deriving DecidableEq, Repr

def int (v : UInt64) : Bytes := Varint.encode v

def signed (v : Int64) : Bytes := int (ZigZag.encode v)

/-- A number of things, as an integer. -/
def count (n : Nat) : Bytes := int (UInt64.ofNat n)

def block (b : Bytes) : Bytes := count b.length ++ b

def range (low high : UInt64) : Bytes := int low ++ int high

def Field.encode : Field → Bytes
  | .int v => Wire.int v
  | .signed v => Wire.signed v
  | .bytes b => block b
  | .range low high => Wire.range low high

def encode (fields : List Field) : Bytes := fields.flatMap Field.encode

/-! ## Faults -/

inductive Fault where
  | varint (offset : Nat) (cause : Varint.Fault)
  | shortPayload (offset declared available : Nat)
  | lengthOverflow (value : Nat)
  | unknownTag (offset tag : Nat)
  | trailingBytes (count : Nat)
  deriving DecidableEq, Repr

def Fault.message : Fault → String
  | .varint offset cause => s!"invalid varint at byte {offset}: {cause.message}"
  | .shortPayload offset declared available =>
      s!"payload at byte {offset} declares {declared} bytes but only {available} remain"
  | .lengthOverflow value => s!"value {value} does not fit in usize"
  | .unknownTag offset tag => s!"unknown tag {tag} at byte {offset}"
  | .trailingBytes count => s!"{count} trailing bytes after end of payload"

/-! ## Reading -/

/-- The bytes still to be read, and how many have been. -/
structure Cursor where
  position : Nat
  rest : Bytes
  deriving DecidableEq, Repr

def Cursor.start (data : Bytes) : Cursor := ⟨0, data⟩

def Cursor.remaining (c : Cursor) : Nat := c.rest.length

def Cursor.advance (c : Cursor) (n : Nat) : Cursor := ⟨c.position + n, c.rest.drop n⟩

abbrev Reader := EStateM Fault Cursor

namespace Reader

/-- The next integer; a bad one leaves the cursor where it was. -/
def int : Reader UInt64 := fun c =>
  match Varint.decode c.rest with
  | .ok (v, used) => .ok v (c.advance used)
  | .error cause => .error (.varint c.position cause) c

/-- The next integer as a count or a length. -/
def count : Reader Nat := do
  let v ← int
  return v.toNat

def signed : Reader Int64 := do
  let v ← int
  return ZigZag.decode v

/-- The next `n` bytes, or none of them. -/
def take (n : Nat) : Reader Bytes := fun c =>
  let taken := c.rest.take n
  if taken.length = n then .ok taken (c.advance n)
  else .error (.shortPayload c.position n c.remaining) c

/-- A byte string behind its length. When too few bytes remain the length has been read. -/
def block : Reader Bytes := do
  let length ← count
  take length

/-- Two integers. When the second is bad the first has been read. -/
def range : Reader (UInt64 × UInt64) := do
  let low ← int
  let high ← int
  return (low, high)

def times (item : Reader α) : Nat → Reader (List α)
  | 0 => return []
  | n + 1 => do
      let first ← item
      let others ← times item n
      return first :: others

/-- Items behind their number. -/
def list (item : Reader α) : Reader (List α) := do
  let n ← count
  times item n

def finish : Reader Unit := fun c =>
  if c.rest.isEmpty then .ok () c else .error (.trailingBytes c.remaining) c

/-- What `r` makes of the whole of `data`. -/
def run (r : Reader α) (data : Bytes) : Except Fault α :=
  match r (.start data) with
  | .ok a _ => .ok a
  | .error e _ => .error e

end Reader

end SszArchive.Wire
