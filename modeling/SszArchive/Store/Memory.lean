import SszArchive.Store

/-!
A store in memory: a list with one entry for each identifier. Saving again replaces the entry.
-/

namespace SszArchive

abbrev Memory := List (DiffId × Bytes)

namespace Memory

def empty : Memory := []

def get? (m : Memory) (id : DiffId) : Option Bytes := m.lookup id

def insert (m : Memory) (id : DiffId) (bytes : Bytes) : Memory :=
  (id, bytes) :: m.filter (·.1 != id)

/-- The number of bytes in all entries. -/
def totalBytes (m : Memory) : Nat := totalSize (m.map fun entry => entry.2.length)

def store : Store Memory where
  has id m := .ok (m.get? id).isSome
  load id m :=
    match m.get? id with
    | some bytes => .ok bytes
    | none => .error (.notFound id)
  save id bytes m :=
    ⟨.ok (), m.insert id bytes, [⟨.trace, s!"mem store: {id} ({bytes.length} bytes)"⟩]⟩

end Memory

end SszArchive
