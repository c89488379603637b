import SszArchive.Digest

/-!
Identifiers of stored diffs: a digest over the identities of both versions and the payload. As
text an identifier is sixty-four hexadecimal digits; reading it back allows either case and white
space around it.
-/

namespace SszArchive

structure DiffId where
  digest : Digest
  deriving DecidableEq

namespace DiffId

/-- The string that is hashed. Both identities have a fixed length, so it splits in one way. -/
def frame (base target : Digest) (payload : Bytes) : Bytes := base.bytes ++ target.bytes ++ payload

def of (base target : Digest) (payload : Bytes) : DiffId := ⟨.of (frame base target payload)⟩

def hexChars (id : DiffId) : List Char := hexDigits id.digest.bytes

def hex (id : DiffId) : String := String.ofList id.hexChars

instance : ToString DiffId := ⟨hex⟩

/-! ## Reading -/

inductive TextFault where
  | oddLength
  | wrongLength
  | badDigit (byte : UInt8) (position : Nat)
  deriving DecidableEq, Repr

/-- A byte as a quoted character: controls and blanks by their number, quotes and the backslash
behind a backslash. -/
def quoted (byte : UInt8) : String :=
  let shown :=
    if byte = 0 then "\\0"
    else if byte = 9 then "\\t"
    else if byte = 10 then "\\n"
    else if byte = 13 then "\\r"
    else if byte = 39 then "\\'"
    else if byte = 92 then "\\\\"
    else if byte < 32 ∨ (127 ≤ byte ∧ byte ≤ 160) ∨ byte = 173 then
      "\\u\x7b" ++ String.ofList (Nat.toDigits 16 byte.toNat) ++ "\x7d"
    else String.singleton (Char.ofNat byte.toNat)
  "'" ++ shown ++ "'"

def TextFault.message : TextFault → String
  | .oddLength => "Odd number of digits"
  | .wrongLength => "Invalid string length"
  | .badDigit byte position => s!"Invalid character {quoted byte} at position {position}"

/-- A text that is no identifier, as it was given. -/
structure ParseFault where
  text : String
  cause : TextFault
  deriving DecidableEq, Repr

def ParseFault.message (e : ParseFault) : String :=
  s!"invalid diff id '{e.text}': {e.cause.message}"

/-- Unicode white space. -/
def isBlank (c : Char) : Bool :=
  let n := c.toNat
  (9 ≤ n && n ≤ 13) || n == 32 || n == 0x85 || n == 0xA0 || n == 0x1680 ||
    (0x2000 ≤ n && n ≤ 0x200A) || n == 0x2028 || n == 0x2029 || n == 0x202F || n == 0x205F ||
    n == 0x3000

def trim (text : List Char) : List Char :=
  ((text.dropWhile isBlank).reverse.dropWhile isBlank).reverse

/-- Pairs of digits from `position` on; the first bad digit is reported. -/
def decodeDigits (position : Nat) : Bytes → Except TextFault Bytes
  | high :: low :: rest =>
    match hexValue? high, hexValue? low with
    | none, _ => .error (.badDigit high position)
    | _, none => .error (.badDigit low (position + 1))
    | some h, some l =>
      match decodeDigits (position + 2) rest with
      | .ok bytes => .ok (UInt8.ofNat (16 * h + l) :: bytes)
      | .error e => .error e
  | _ => .ok []

def ofDigits (digits : Bytes) : Except TextFault DiffId :=
  if digits.length % 2 = 1 then .error .oddLength
  else if digits.length ≠ 64 then .error .wrongLength
  else
    match decodeDigits 0 digits with
    | .ok bytes => if h : bytes.length = 32 then .ok ⟨bytes, h⟩ else .error .wrongLength
    | .error e => .error e

/-- Length and digits are judged on the UTF-8 bytes of the trimmed text. -/
def ofText (text : String) : Except ParseFault DiffId :=
  match ofDigits ((trim text.toList).flatMap String.utf8EncodeChar) with
  | .ok id => .ok id
  | .error cause => .error ⟨text, cause⟩

end DiffId

end SszArchive
