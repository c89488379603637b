import SszArchive.CommandLine.Run

/-!
The program. It looks at the files that a command may need, runs the command on them as a value,
and makes the changes that the run made.
-/

namespace SszArchive.Program

/-! ## Looking -/

/-- The path of a place for the operating system. -/
def pathOf : Place → String
  | [] => "."
  | name :: rest =>
    if name = Location.rootName then "/" ++ "/".intercalate rest
    else "/".intercalate (name :: rest)

def nanoseconds (time : IO.FS.SystemTime) : Int := time.sec * 1000000000 + time.nsec.toNat

/-- The time now, as the file system tells it. -/
def clock : IO Int :=
  IO.FS.withTempFile fun _ path => do return nanoseconds (← path.metadata).modified

/-- Adds what is at a place, if there is anything. What has been looked at before stays. -/
def look (t : FileTree) (place : Place) (contents : Bool) : IO FileTree := do
  if (t.node? place).isSome then return t
  let path := System.mkFilePath [pathOf place]
  match ← path.metadata.toBaseIO with
  | .error _ => return t
  | .ok found =>
    let modified := nanoseconds found.modified
    let content ←
      match found.type with
      | .dir => pure Content.directory
      | _ =>
        if contents then pure (.file (← IO.FS.readBinFile path).toList) else pure (.file [])
    return { ({ t with now := modified }.put place content) with now := t.now }

/-- Adds everything on the way to a location. -/
def lookAlong (t : FileTree) (place : Place) : List String → IO (FileTree × Place)
  | [] => return (t, place)
  | name :: rest =>
    if name = ".." then lookAlong t place.dropLast rest
    else do lookAlong (← look t (place ++ [name]) true) (place ++ [name]) rest

def namesIn (place : Place) : IO (List String) := do
  let path := System.mkFilePath [pathOf place]
  if ← path.isDir then return (← path.readDir).toList.map (·.fileName) else return []

/-- Adds a store: the directory, its subdirectories and their files. Only the entries that are
asked for are read. -/
def lookAtStore (t : FileTree) (root : Location) (ids : List DiffId) : IO FileTree := do
  let (t, place) ← lookAlong t [] root.names
  (← namesIn place).foldlM (fun t folder => do
    let t ← look t (place ++ [folder]) false
    (← namesIn (place ++ [folder])).foldlM
      (fun t name => look t (place ++ [folder, name]) (ids.any (·.hex == name))) t) t

open CommandLine in
def lookFor (t : FileTree) : Command → IO FileTree
  | .diff store _ base target _ _ _ => do
    let t ← [base.bytes, base.layout, target.bytes, target.layout].foldlM
      (fun t l => do return (← lookAlong t [] l.names).1) t
    lookAtStore t store []
  | .apply store _ base output chain => do
    let t ← ([base.bytes, base.layout] ++ output.toList).foldlM
      (fun t l => do return (← lookAlong t [] l.names).1) t
    lookAtStore t store chain
  | .inspect store _ id => lookAtStore t store [id]
  | .config => return t

/-! ## Changing -/

/-- A new file appears under its name with all its contents at once. -/
def writeNew (place : Place) (bytes : ByteArray) : IO Unit := do
  let name := place.getLastD ""
  let temporary := pathOf (place.dropLast ++ [Directory.temporaryMark ++ (name.take 64).toString])
  IO.FS.writeBinFile temporary bytes
  IO.FS.rename temporary (pathOf place)

/-- Makes the changes between two trees. Directories come before what is in them. -/
def change (old new : FileTree) : IO Unit := do
  for (place, _) in old.nodes do
    if (new.node? place).isNone then IO.FS.removeFile (pathOf place)
  for (place, node) in new.nodes.reverse do
    match node.content, old.node? place with
    | .directory, none => IO.FS.createDir (pathOf place)
    | .file bytes, none => writeNew place ⟨bytes.toArray⟩
    | .file bytes, some before =>
      if before.content ≠ .file bytes then
        IO.FS.writeBinFile (pathOf place) ⟨bytes.toArray⟩
    | _, _ => pure ()

def run (args : List String) : IO UInt32 := do
  let tree := FileTree.empty (← clock)
  let tree ←
    match CommandLine.parse args with
    | .ok (_, command) => lookFor tree command
    | .error _ => pure tree
  let result := CommandLine.run args tree
  change tree result.tree
  IO.eprint result.stderr
  let stdout ← IO.getStdout
  stdout.write ⟨result.stdout.toArray⟩
  stdout.flush
  return result.exit.toUInt32

end SszArchive.Program

def main (args : List String) : IO UInt32 := do
  try SszArchive.Program.run args
  catch e =>
    IO.eprintln s!"{SszArchive.CommandLine.programName}: {e}"
    return 1
