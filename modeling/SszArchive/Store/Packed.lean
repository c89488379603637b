import SszArchive.Compression.Choice
import SszArchive.Store

/-!
Stores with compressed entries. An entry starts with a tag byte, the number of the backend that
wrote the rest; number 0 stands for a payload as it is. Any store reads what any other wrote, as
long as it knows the backend.
-/

namespace SszArchive

variable [Codecs]

namespace Backend

/-- Compresses only what is worthwhile and gets shorter. -/
def pack (b : Backend) (payload : Bytes) : Except FileFault Bytes :=
  if b.worthwhile payload then
    match b.compress payload with
    | .error e => .error e
    | .ok compressed =>
      if compressed.length < payload.length then .ok (b.id :: compressed)
      else .ok (rawId :: payload)
  else .ok (rawId :: payload)

/-- Its own tag comes first, then those of the backends that every store knows. -/
def unpack (b : Backend) : Bytes → Except Damage Bytes
  | [] => .error .empty
  | tag :: body =>
    if tag = rawId then .ok body
    else
      match if tag = b.id then .ok b else ofId tag with
      | .error e => .error (.unreadable e)
      | .ok reader =>
        match reader.decompress body with
        | .ok payload => .ok payload
        | .error e => .error (.unreadable e)

end Backend

/-- The same store with entries packed by `b`. Identifiers are those of the payloads. -/
def Store.packed {σ : Type} (inner : Store σ) (b : Backend) : Store σ where
  has := inner.has
  load id state :=
    match inner.load id state with
    | .error e => .error e
    | .ok entry =>
      match b.unpack entry with
      | .ok payload => .ok payload
      | .error damage => .error (.corrupt id damage)
  save id payload state :=
    match b.pack payload with
    | .error e => ⟨.error (.files e), state, []⟩
    | .ok entry =>
      let line := s!"compressed store: {id} {payload.length} -> {entry.length} bytes (tag " ++
        s!"{entry.headD 0})"
      let saved := inner.save id entry state
      { saved with log := ⟨.trace, line⟩ :: saved.log }

end SszArchive
