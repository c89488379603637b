import SszArchive.GIndex

/-!
Layouts as text: a JSON list of pairs of generalized index and length, in the order of the bytes.
Nothing else is accepted: no trailing comma, sign, fraction or exponent, no leading zero, and no
number beyond 64 bits.
-/

namespace SszArchive.LayoutFile

inductive Token where
  | opening
  | closing
  | comma
  | number (n : Nat)
  deriving DecidableEq, Repr

def isSpace (c : Char) : Bool := c == ' ' || c == '\n' || c == '\t' || c == '\r'

/-- Longer numbers have more than 64 bits. -/
def mostDigits : Nat := 20

/-- The number that digits stand for, if it is written in the one accepted way. -/
def number? (digits : List Char) : Option Nat :=
  match digits with
  | [] => none
  | ['0'] => some 0
  | '0' :: _ => none
  | _ =>
    if mostDigits < digits.length then none
    else
      let n := digits.foldl (fun n c => 10 * n + (c.toNat - 48)) 0
      if n < UInt64.size then some n else none

/-- A number whose digits have all been read, the last one first, in front of other tokens. -/
def finishNumber (digits : List Char) (rest : List Token) : Option (List Token) :=
  match digits with
  | [] => some rest
  | _ => (number? digits.reverse).map fun n => .number n :: rest

/-- The tokens of a text; `digits` are those of a number that may go on, the last one first. -/
def tokens? (digits : List Char) : List Char → Option (List Token)
  | [] => finishNumber digits []
  | c :: text =>
    if c.isDigit then tokens? (c :: digits) text
    else
      match tokens? [] text with
      | none => none
      | some rest =>
        if isSpace c then finishNumber digits rest
        else if c = '[' then finishNumber digits (.opening :: rest)
        else if c = ']' then finishNumber digits (.closing :: rest)
        else if c = ',' then finishNumber digits (.comma :: rest)
        else none

/-- Pairs up to the end of the list. -/
def pairs? : List Token → Option (List (GIndex × Nat))
  | [.opening, .number g, .comma, .number n, .closing, .closing] => some [(UInt64.ofNat g, n)]
  | .opening :: .number g :: .comma :: .number n :: .closing :: .comma :: rest =>
    (pairs? rest).map ((UInt64.ofNat g, n) :: ·)
  | _ => none

def ofTokens? : List Token → Option (List (GIndex × Nat))
  | [.opening, .closing] => some []
  | .opening :: rest => pairs? rest
  | _ => none

def parse? (text : String) : Option (List (GIndex × Nat)) :=
  (tokens? [] text.toList).bind ofTokens?

end SszArchive.LayoutFile
