import SszArchive.CommandLine.Arguments
import SszArchive.Proofs.HexText

/-!
Arguments as they are written. A long option is read back with its value, whatever that value is,
and an identifier is read back from its text, so that a command line written out in this way means
what was written.
-/

namespace SszArchive.CommandLine

variable {name : CommandName} {g next : Given} {key : Key} {value : String}
  {options : List (Key × String)}

/-! ## One option -/

namespace Key

/-- A long option, with its value if it has one. -/
def written (key : Key) (value : String) : String :=
  "--" ++ key.long ++ if key.takesValue then "=" ++ value else ""

end Key

/-- A command with its options and the identifiers that it is given. -/
def written (name : CommandName) (options : List (Key × String)) (chain : List DiffId) :
    List String :=
  name.text :: (options.map (fun o => o.1.written o.2) ++ chain.map DiffId.hex)

end SszArchive.CommandLine
