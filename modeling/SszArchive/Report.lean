/-!
Reports as JSON, one value a line, two spaces for each level. Fields come in the order in which
they are given. Texts in reports are words and hexadecimal digits, so that none needs an escape.
-/

namespace SszArchive

inductive Report where
  | null
  | number (n : Nat)
  | text (s : String)
  | list (items : List Report)
  | record (fields : List (String × Report))

namespace Report

def ofOption : Option Nat → Report
  | some n => number n
  | none => null

def indent (depth : Nat) : String := String.ofList (List.replicate (2 * depth) ' ')

def quote (s : String) : String := "\"" ++ s ++ "\""

/-- Lines between brackets, the closing one at `depth`. -/
def enclose (opening closing : String) (depth : Nat) (lines : List String) : String :=
  if lines.isEmpty then opening ++ closing
  else
    let indented := lines.map fun line => indent (depth + 1) ++ line
    opening ++ "\n" ++ ",\n".intercalate indented ++ "\n" ++ indent depth ++ closing

mutual

def renderAt (depth : Nat) : Report → String
  | null => "null"
  | number n => toString n
  | text s => quote s
  | list items => enclose "[" "]" depth (renderItems (depth + 1) items)
  | record fields => enclose "\x7b" "\x7d" depth (renderFields (depth + 1) fields)

def renderItems (depth : Nat) : List Report → List String
  | [] => []
  | item :: rest => renderAt depth item :: renderItems depth rest

def renderFields (depth : Nat) : List (String × Report) → List String
  | [] => []
  | (key, value) :: rest =>
    (quote key ++ ": " ++ renderAt depth value) :: renderFields depth rest

end

def render (r : Report) : String := renderAt 0 r ++ "\n"

end Report

end SszArchive
