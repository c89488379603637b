import SszArchive.Compression.Fault
import SszArchive.DiffId
import SszArchive.FileTree.Fault

/-!
Why a store gives no answer.
-/

namespace SszArchive

/-- What is wrong with an entry. -/
inductive Damage where
  | empty
  | unreadable (cause : CompressionFault)
  deriving DecidableEq, Repr

def Damage.message : Damage → String
  | .empty => "empty entry"
  | .unreadable cause => cause.message

inductive StoreFault where
  | notFound (id : DiffId)
  | files (cause : FileFault)
  | corrupt (id : DiffId) (damage : Damage)
  deriving DecidableEq

def StoreFault.message : StoreFault → String
  | .notFound id => s!"no diff found: {id}"
  | .files cause => s!"I/O error: {cause.message}"
  | .corrupt id damage => s!"corrupt entry for {id}: {damage.message}"

end SszArchive
