import SszArchive.FileTree.Fault

/-!
Locations of files as text. Names are separated by slashes; a single dot and an empty name stay
where they are, two dots go back to the directory above.
-/

namespace SszArchive

/-- What stands behind the last name. A slash or a dot there asks for a directory. -/
inductive LocationEnd where
  | plain
  | slash
  | dot
  deriving DecidableEq, Repr

structure Location where
  text : String
  names : List String
  ending : LocationEnd
  deriving DecidableEq, Repr

namespace Location

/-- The name under which all absolute locations stand, next to the relative ones. -/
def rootName : String := "/"

def ofText (text : String) : Location :=
  let pieces := text.splitOn "/"
  let names := pieces.filter fun piece => piece != "" && piece != "."
  let ending :=
    match pieces.reverse.dropWhile (· == "") with
    | "." :: _ => .dot
    | _ => if pieces.getLast? = some "" then .slash else .plain
  ⟨text, if text.startsWith "/" then rootName :: names else names, ending⟩

/-- The most bytes that the text of a location may have. -/
def longestText : Nat := 4095

/-- What is wrong with the text itself, whatever files there are. -/
def fault? (l : Location) : Option FileFault :=
  if l.text.contains (Char.ofNat 0) then some .nulByte
  else if longestText < l.text.utf8ByteSize then some .nameTooLong
  else none

/-- The directory above, without its last name. -/
def above (l : Location) : Location :=
  let isFiller (piece : String) := piece == "" || piece == "."
  let pieces := (l.text.splitOn "/").reverse.dropWhile isFiller
  let left := (pieces.drop 1).dropWhile isFiller
  let text := "/".intercalate left.reverse
  ⟨if text.isEmpty && l.text.startsWith "/" then "/" else text, l.names.dropLast, .plain⟩

/-- The location of `name` in this directory. -/
def child (l : Location) (name : String) : Location :=
  let text :=
    if l.text.isEmpty || l.text.endsWith "/" then l.text ++ name else l.text ++ "/" ++ name
  ⟨text, l.names ++ [name], .plain⟩

end Location

end SszArchive
