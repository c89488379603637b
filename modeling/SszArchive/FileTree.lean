import SszArchive.Bytes
import SszArchive.FileTree.Fault
import SszArchive.FileTree.Location

/-!
A tree of files and directories as a value, with the operations of a file system on it. Times are
nanoseconds. Every operation looks at the names of a location from left to right and fails at the
first one that is missing or no directory.
-/

namespace SszArchive

inductive Content where
  | file (bytes : Bytes)
  | directory
  deriving DecidableEq, Repr

structure Node where
  content : Content
  modified : Int
  deriving DecidableEq, Repr

/-- The names on the way from the root. -/
abbrev Place := List String

structure FileTree where
  nodes : List (Place × Node)
  now : Int

namespace FileTree

def empty (now : Int) : FileTree := ⟨[], now⟩

def node? (t : FileTree) (place : Place) : Option Node :=
  if place = [] then some ⟨.directory, t.now⟩ else t.nodes.lookup place

def put (t : FileTree) (place : Place) (content : Content) : FileTree :=
  { t with nodes := (place, ⟨content, t.now⟩) :: t.nodes.filter (·.1 != place) }

def drop (t : FileTree) (place : Place) : FileTree :=
  { t with nodes := t.nodes.filter (·.1 != place) }

/-- The names in a directory with what they stand for. -/
def children (t : FileTree) (place : Place) : List (String × Node) :=
  t.nodes.filterMap fun (p, node) =>
    if p.dropLast = place then p.getLast?.map fun name => (name, node) else none

/-! ## Finding -/

def longestName : Nat := 255

/-- Follows names from `place`, which has to be a directory as long as names are left. -/
def follow (t : FileTree) : Place → List String → Except FileFault Place
  | place, [] => .ok place
  | place, name :: rest =>
    match t.node? place with
    | none => .error .notFound
    | some ⟨.file _, _⟩ => .error .notDirectory
    | some ⟨.directory, _⟩ =>
      if name = ".." then t.follow place.dropLast rest
      else if longestName < name.utf8ByteSize then .error .nameTooLong
      else t.follow (place ++ [name]) rest

/-- The place at a location, whether or not there is something. -/
def place (t : FileTree) (l : Location) : Except FileFault Place :=
  match l.fault? with
  | some e => .error e
  | none => t.follow [] l.names

def find (t : FileTree) (l : Location) : Except FileFault Content :=
  match t.place l with
  | .error e => .error e
  | .ok place =>
    match t.node? place, l.ending with
    | none, _ => .error .notFound
    | some ⟨.file bytes, _⟩, .plain => .ok (.file bytes)
    | some ⟨.file _, _⟩, _ => .error .notDirectory
    | some ⟨.directory, _⟩, _ => .ok .directory

/-- Whether something is there; a location that leads through a file is a fault. -/
def present (t : FileTree) (l : Location) : Except FileFault Bool :=
  match t.find l with
  | .ok _ => .ok true
  | .error .notFound => .ok false
  | .error e => .error e

def read (t : FileTree) (l : Location) : Except FileFault Bytes :=
  match t.find l with
  | .ok (.file bytes) => .ok bytes
  | .ok .directory => .error .isDirectory
  | .error e => .error e

/-- The contents of a file as text, if they are UTF-8. -/
def readText (t : FileTree) (l : Location) : Except FileFault String :=
  match t.read l with
  | .ok bytes =>
    match String.fromUTF8? ⟨bytes.toArray⟩ with
    | some text => .ok text
    | none => .error .invalidText
  | .error e => .error e

/-! ## Changing -/

/-- Creates a file or replaces its contents. Behind a slash there can only be a directory, so the
last name is not looked up then. -/
def write (t : FileTree) (l : Location) (bytes : Bytes) : Except FileFault FileTree :=
  match l.ending with
  | .slash =>
    match t.find { l with names := l.names.dropLast } with
    | .error e => .error e
    | .ok _ => .error .isDirectory
  | ending =>
    match t.place l with
    | .error e => .error e
    | .ok place =>
      match t.node? place, ending with
      | some ⟨.directory, _⟩, _ => .error .isDirectory
      | some ⟨.file _, _⟩, .dot => .error .notDirectory
      | none, .dot => .error .notFound
      | _, _ => .ok (t.put place (.file bytes))

/-- Removes a file. -/
def remove (t : FileTree) (l : Location) : Except FileFault FileTree :=
  match t.place l with
  | .error e => .error e
  | .ok place =>
    match t.node? place with
    | none => .error .notFound
    | some ⟨.directory, _⟩ => .error .isDirectory
    | some ⟨.file _, _⟩ => .ok (t.drop place)

/-- Moves a file; a file that was at the new location is replaced. -/
def rename (t : FileTree) (old new : Location) : Except FileFault FileTree :=
  match t.read old, t.place old with
  | .ok bytes, .ok place => (t.drop place).write new bytes
  | .error e, _ => .error e
  | _, .error e => .error e

/-- Creates a directory in one that is there. What is there already is a fault, and so is a dot
behind a name that is missing. -/
def createDirectory (t : FileTree) (l : Location) : Except FileFault FileTree :=
  match t.place l with
  | .error e => .error e
  | .ok place =>
    match t.node? place, l.ending with
    | some ⟨.file _, _⟩, .dot => .error .notDirectory
    | none, .dot => .error .notFound
    | some _, _ => .error .exists
    | none, _ => .ok (t.put place .directory)

/-- Creates a directory unless it is there. -/
def ensureDirectory (t : FileTree) (l : Location) : Except FileFault FileTree :=
  match t.createDirectory l with
  | .ok t => .ok t
  | .error e =>
    match t.find l with
    | .ok .directory => .ok t
    | _ => .error e

/-- Creates a directory, after those above it if it cannot be created at once. Those created
before a fault are kept. -/
def createDirectories (t : FileTree) (l : Location) : Except FileFault Unit × FileTree :=
  match t.ensureDirectory l with
  | .ok t => (.ok (), t)
  | .error .notFound =>
    if l.names.isEmpty then (.error .notFound, t)
    else
      match t.createDirectories l.above with
      | (.error e, t) => (.error e, t)
      | (.ok (), t) =>
        match t.ensureDirectory l with
        | .ok t => (.ok (), t)
        | .error e => (.error e, t)
  | .error e => (.error e, t)
termination_by l.names.length
decreasing_by
  have : 0 < l.names.length := by grind [List.length_pos_iff, List.isEmpty_iff]
  simp only [Location.above, List.length_dropLast]
  omega

end FileTree

end SszArchive
