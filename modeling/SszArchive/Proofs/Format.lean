import SszArchive.Schema.Composite
import SszArchive.Schema.WordDelta

/-!
The formats that payloads come in: one for each plain schema, and composites of formats nested to
any depth.
-/

namespace SszArchive

inductive Format where
  | slices
  | snapshot
  | wordDelta
  | composite (parts : List (Selector × Format))

namespace Format

mutual

def tree : Format → SchemaTree
  | slices => .leaf .slices
  | snapshot => .leaf .snapshot
  | wordDelta => .leaf .wordDelta
  | composite parts => .composite (trees parts)

def trees : List (Selector × Format) → List (Selector × SchemaTree)
  | [] => []
  | (selector, format) :: rest => (selector, format.tree) :: trees rest

end

def schema (f : Format) : Schema := f.tree.schema

end Format

end SszArchive
