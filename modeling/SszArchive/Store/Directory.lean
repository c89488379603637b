import SszArchive.FileTree
import SszArchive.Store

/-!
A store in a directory: one file for each entry, under its identifier in hexadecimal, in a
subdirectory named by the first two digits. An entry is written under a temporary name and then
renamed, so that no reader meets half of it. Opening the store removes temporary files that an
interrupted writer left behind, once they are old enough.
-/

namespace SszArchive

structure Directory where
  root : Location
  /-- Temporary files not modified for this long are removed, in nanoseconds. -/
  staleAge : Nat

namespace Directory

/-- An hour. -/
def usualStaleAge : Nat := 3600 * 1000000000

def folder (d : Directory) (id : DiffId) : Location := d.root.child (String.ofList (id.hexChars.take 2))

def location (d : Directory) (id : DiffId) : Location := (d.folder id).child id.hex

/-! ## Temporary files -/

def temporaryMark : String := ".tmp-"

/-- A name for an entry that is being written. A writer makes it of its process number and a counter
and creates the file only if there is none of that name. Here the time stands for the process, and
the counter is the first whose name is free in the folder. -/
def temporaryName (taken : List String) (now : Int) (id : DiffId) : String :=
  let name (n : Nat) := s!"{temporaryMark}{id.hex}.{now % 100000}.{n}"
  name (((List.range (taken.length + 1)).find? fun n => !taken.contains (name n)).getD 0)

/-- The temporary files in the immediate subdirectories of the root. A subdirectory that cannot be
listed gives a fault in their place. -/
def temporaryFiles (d : Directory) (t : FileTree) (root : Place) :
    List (Except FileFault (Location × Node)) :=
  (t.children root).flatMap fun (folder, node) =>
    match node.content, t.find (d.root.child folder) with
    | .file _, _ => []
    | .directory, .error e => [.error e]
    | .directory, .ok _ =>
      (t.children (root ++ [folder])).filterMap fun (name, node) =>
        if name.startsWith temporaryMark then some (.ok ((d.root.child folder).child name, node))
        else none

/-- A file modified in the future is not stale. -/
def stale (d : Directory) (now : Int) (node : Node) : Bool :=
  0 ≤ now - node.modified && (d.staleAge : Int) ≤ now - node.modified

/-- Removes the stale ones of the given files and counts them, up to the first fault. -/
def sweep (d : Directory) :
    List (Except FileFault (Location × Node)) → Nat → FileTree → Outcome StoreFault FileTree Nat
  | [], removed, t => ⟨.ok removed, t, []⟩
  | .error e :: _, _, t => ⟨.error (.files e), t, []⟩
  | .ok (l, node) :: rest, removed, t =>
    if d.stale t.now node then
      match t.remove l with
      | .ok t => d.sweep rest (removed + 1) t
      | .error .notFound => d.sweep rest removed t
      | .error e => ⟨.error (.files e), t, []⟩
    else
      let swept := d.sweep rest removed t
      { swept with log := ⟨.trace, s!"fs store: keeping in-flight {l.text}"⟩ :: swept.log }

/-- Creates the directory if it is missing and sweeps it. -/
def «open» (d : Directory) (t : FileTree) : Outcome StoreFault FileTree Unit :=
  match t.createDirectories d.root with
  | (.error e, t) => ⟨.error (.files e), t, []⟩
  | (.ok (), t) =>
    match t.place d.root with
    | .error e => ⟨.error (.files e), t, []⟩
    | .ok root =>
      let swept := d.sweep (d.temporaryFiles t root) 0 t
      match swept.answer with
      | .error e => ⟨.error e, swept.state, swept.log⟩
      | .ok removed =>
        let warning : Log :=
          if removed = 0 then []
          else [⟨.warn, s!"fs store {d.root.text}: removed {removed} interrupted write(s)"⟩]
        ⟨.ok (), swept.state,
          swept.log ++ warning ++ [⟨.debug, s!"fs store opened at {d.root.text}"⟩]⟩

/-! ## Entries -/

/-- Writes an entry under a temporary name and moves it to its own. -/
def writeEntry (d : Directory) (id : DiffId) (bytes : Bytes) (t : FileTree) :
    Except FileFault Unit × FileTree :=
  match t.createDirectories (d.folder id) with
  | (.error e, t) => (.error e, t)
  | (.ok (), t) =>
    match t.place (d.folder id) with
    | .error e => (.error e, t)
    | .ok folder =>
      let taken := (t.children folder).map Prod.fst
      let temporary := (d.folder id).child (temporaryName taken t.now id)
      match t.write temporary bytes with
      | .error e => (.error e, t)
      | .ok written =>
        match written.rename temporary (d.location id) with
        | .ok moved => (.ok (), moved)
        | .error e => (.error e, t)

/-- An entry that is present is never written again. -/
def store (d : Directory) : Store FileTree where
  has id t :=
    match t.present (d.location id) with
    | .ok found => .ok found
    | .error e => .error (.files e)
  load id t :=
    match t.read (d.location id) with
    | .ok bytes => .ok bytes
    | .error .notFound => .error (.notFound id)
    | .error e => .error (.files e)
  save id bytes t :=
    match t.present (d.location id) with
    | .error e => ⟨.error (.files e), t, []⟩
    | .ok true => ⟨.ok (), t, [⟨.trace, s!"fs store: {id} already present"⟩]⟩
    | .ok false =>
      match d.writeEntry id bytes t with
      | (.ok (), t) => ⟨.ok (), t, [⟨.debug, s!"fs store: wrote {id} ({bytes.length} bytes)"⟩]⟩
      | (.error e, t) => ⟨.error (.files e), t, []⟩

end Directory

end SszArchive
