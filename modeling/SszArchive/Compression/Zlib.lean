import SszArchive.Compression.Deflate.Blocks
import SszArchive.Compression.Deflate.Inflate

/-!
The zlib container: a two-byte head, DEFLATE data, and an Adler-32 checksum, most significant
byte first. Bytes behind the checksum are ignored.
-/

namespace SszArchive.Zlib

/-! ## Checksum -/

def adlerModulus : Nat := 65521

/-- One sum of the bytes, and one of these sums. -/
def adler32 (data : Bytes) : Nat :=
  let (a, b) := data.foldl (fun (a, b) x =>
    let a := (a + x.toNat) % adlerModulus
    (a, (b + a) % adlerModulus)) (1, 0)
  65536 * b + a

def bigEndian4 (n : Nat) : Bytes := (littleEndian 4 n).reverse

/-! ## Reading -/

inductive Fault where
  | truncated
  | header
  | data (cause : Deflate.Fault)
  | checksum
  deriving DecidableEq, Repr

def Fault.message : Fault → String
  | .truncated => "unexpected end of input"
  | .header => "invalid header"
  | .data cause => cause.message
  | .checksum => "checksum mismatch"

/-- The method is DEFLATE with a window of at most 32768 bytes, the head as a number is a
multiple of 31, and no preset dictionary is asked for. -/
def acceptedHead (method flags : UInt8) : Bool :=
  method.toNat % 16 == 8 && method.toNat / 16 ≤ 7
    && (256 * method.toNat + flags.toNat) % 31 == 0 && flags.toNat / 32 % 2 == 0

def decompress : Bytes → Except Fault Bytes
  | method :: flags :: body => do
      if !acceptedHead method flags then throw .header
      let (output, rest) ← (Deflate.inflate body).mapError .data
      let data := output.toList
      let checksum := rest.take 4
      if checksum.length < 4 then throw .truncated
      if checksum ≠ bigEndian4 (adler32 data) then throw .checksum
      return data
  | _ => .error .truncated

/-! ## Writing -/

/-- The flags that name a level and make the head a multiple of 31. -/
def headFlags (level : Nat) : UInt8 :=
  if level ≤ 1 then 0x01 else if level ≤ 5 then 0x5e else if level = 6 then 0x9c else 0xda

def container (level : Nat) (data body : Bytes) : Bytes :=
  0x78 :: headFlags level :: body ++ bigEndian4 (adler32 data)

def compress (level : Nat) (data : Bytes) : Bytes :=
  container level data (Deflate.deflate level data)

end SszArchive.Zlib
