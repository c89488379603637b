import SszArchive.Archive
import SszArchive.CommandLine.Arguments
import SszArchive.LayoutFile
import SszArchive.Report
import SszArchive.Schema.Composite
import SszArchive.Schema.WordDelta
import SszArchive.Store.Directory
import SszArchive.Store.Packed

/-!
Running the command line on a tree of files. The result holds what is printed and the tree that
is left.
-/

namespace SszArchive.CommandLine

variable [Codecs]

structure Result where
  exit : Nat
  stdout : Bytes
  stderr : String
  tree : FileTree

def textBytes (s : String) : Bytes := s.toUTF8.toList

def programName : String := "sszdelta"

def versionNumber : String := "0.1.0"

/-- The end of a command that failed: a line that says where and why. -/
def failure (tree : FileTree) (log context reason : String) : Result :=
  ⟨1, [], log ++ s!"{programName}: {context}: {reason}\n", tree⟩

/-! ## Reading versions -/

def load (t : FileTree) (s : Source) : Except String Version :=
  match t.read s.bytes with
  | .error e => .error s!"{s.bytes.text}: {e.message}"
  | .ok bytes =>
    match t.readText s.layout with
    | .error e => .error s!"{s.layout.text}: {e.message}"
    | .ok text =>
      match LayoutFile.parse? text with
      | none => .error s!"{s.layout.text}: invalid layout: not a list of index and length pairs"
      | some layout =>
        match Version.ofLayout bytes layout with
        | .error e => .error s!"{s.bytes.text}: {e.message}"
        | .ok v => .ok v

/-! ## Archives -/

/-- The nodes below any of the given roots; none if there are no roots. -/
def numeric? : List GIndex → Option Selector
  | [] => none
  | root :: rest =>
    some (rest.foldl (fun s g => .union s (.successors g)) (.successors root))

/-- Word deltas below the given roots and slice diffs everywhere else. -/
def schemaFor (wordsUnder : List GIndex) : Schema :=
  match numeric? wordsUnder with
  | none => .slices
  | some numeric => .composite [⟨numeric, .wordDelta⟩, ⟨numeric.invert, .slices⟩]

def compressionFor (method : Method) (level : Nat) : Compression :=
  match method with
  | .none => .none
  | .lzma => .lzma
  | .zlib => .zlib level

def directoryAt (root : Location) : Directory := ⟨root, Directory.usualStaleAge⟩

/-- Opens the store at a location and goes on with what it holds. -/
def withStore {α : Type} (root : Location) (compression : Compression) (t : FileTree)
    (use : Store FileTree → FileTree → Outcome DiffFault FileTree α) :
    Outcome String FileTree α :=
  let directory := directoryAt root
  let opened := directory.open t
  match opened.answer with
  | .error e => ⟨.error s!"{root.text}: {e.message}", opened.state, opened.log⟩
  | .ok () =>
    let used := use (directory.store.packed compression.backend) opened.state
    ⟨used.answer.mapError DiffFault.message, used.state, opened.log ++ used.log⟩

/-! ## Reports -/

def logLevel (s : Settings) : LogLevel :=
  if s.quiet then .error
  else
    match s.verbose with
    | 0 => .warn
    | 1 => .info
    | 2 => .debug
    | _ => .trace

def Settings.talkative (s : Settings) : Bool := 0 < s.verbose && !s.quiet

/-- How many nodes a diff changes, removes and adds. -/
structure Counts where
  changed : Nat
  removed : Nat
  added : Nat

def countsOf (d : Diff) : Counts := ⟨d.changes.length, d.removed.length, d.added.length⟩

def diffLine (base target : Version) (counts : Option Counts) (payload : Bytes) : String :=
  let nodes := match counts with
    | some c => s!"{c.changed} changed, {c.removed} removed, {c.added} added, "
    | none => ""
  s!"{programName}: diff: {base.size} -> {target.size} slices, " ++ nodes ++
    s!"{payload.length} payload bytes\n"

def diffReport (id : DiffId) (base target : Version) (counts : Option Counts) (payload : Bytes) :
    Report :=
  .record
    [("added", .ofOption (counts.map Counts.added)),
     ("base_slices", .number base.size),
     ("base_version", .text base.identity.hex),
     ("changed", .ofOption (counts.map Counts.changed)),
     ("command", .text "diff"),
     ("id", .text id.hex),
     ("payload_size", .number payload.length),
     ("removed", .ofOption (counts.map Counts.removed)),
     ("target_slices", .number target.size),
     ("target_version", .text target.identity.hex)]

def applyReport (chain : List DiffId) (v : Version) : Report :=
  .record
    [("command", .text "apply"),
     ("diffs", .number chain.length),
     ("output_size", .number v.bytes.length),
     ("slices", .number v.size),
     ("version", .text v.identity.hex)]

def inspectReport (id : DiffId) (d : Diff) (changes : List Part) : Report :=
  .record
    [("added", .list (d.added.map fun a => .record
        [("after", .ofOption (a.after.map UInt64.toNat)), ("g_index", .number a.node.toNat)])),
     ("changes", .list (changes.map fun c => .record
        [("g_index", .number c.node.toNat), ("len", .number c.bytes.length)])),
     ("command", .text "inspect"),
     ("id", .text id.hex),
     ("removed", .list (d.removed.map fun g => .number g.toNat)),
     ("start_offset", .number d.start.toNat),
     ("total_len", .number d.total.toNat)]

/-! ## Summaries -/

/-- Right-aligned in a column of the given width. -/
def alignRight (width : Nat) (s : String) : String :=
  String.ofList (List.replicate (width - s.length) ' ') ++ s

def nodeColumn (g : GIndex) : String := "  gIndex " ++ alignRight 8 (toString g)

def changeLine (c : Part) : String :=
  let depth := if GIndex.valid c.node then s!"  depth {GIndex.depth c.node}" else ""
  s!"{nodeColumn c.node}  {alignRight 6 (toString c.bytes.length)} bytes{depth}"

def additionLine (a : Addition) : String :=
  match a.after with
  | some anchor => s!"{nodeColumn a.node}  after {anchor}"
  | none => s!"{nodeColumn a.node}  first"

def summary (id : DiffId) (d : Diff) (changes : List Part) : String :=
  let lines :=
    [s!"Diff id:       {id}", s!"Start offset:  {d.start}", s!"Total length:  {d.total}",
      s!"Changes:       {changes.length}"] ++ changes.map changeLine ++
    [s!"Removed:       {d.removed.length}"] ++ d.removed.map nodeColumn ++
    [s!"Added:         {d.added.length}"] ++ d.added.map additionLine
  String.join (lines.map fun line => line ++ "\n")

/-! ## Commands -/

def runDiff (s : Settings) (store : Location) (wordsUnder : List GIndex) (old new : Source)
    (compression : Compression) (verify : Bool) (t : FileTree) : Result :=
  match load t old with
  | .error e => failure t "" "base" e
  | .ok base =>
    match load t new with
    | .error e => failure t "" "target" e
    | .ok target =>
      let done := withStore store compression t fun store tree =>
        (Archive.mk store (schemaFor wordsUnder) verify).commit base target tree
      let log := Log.render (logLevel s) done.log
      match done.answer with
      | .error e => failure done.state log "diff" e
      | .ok (id, payload) =>
        let counts :=
          if wordsUnder.isEmpty then (Diff.decode payload).toOption.map countsOf else none
        let line := if s.talkative then diffLine base target counts payload else ""
        let report := if s.json then (diffReport id base target counts payload).render else ""
        ⟨0, textBytes s!"{id}\n", log ++ line ++ report, done.state⟩

def runApply (s : Settings) (store : Location) (wordsUnder : List GIndex) (source : Source)
    (output : Option Location) (chain : List DiffId) (t : FileTree) : Result :=
  let taken := output.filter fun l => (t.find l).isOk && !s.force
  match taken with
  | some l => failure t "" "apply" s!"{l.text} exists (use -f to overwrite)"
  | none =>
    match load t source with
    | .error e => failure t "" "base" e
    | .ok base =>
      let done := withStore store .none t fun store tree =>
        (Archive.mk store (schemaFor wordsUnder) true).reconstruct base chain tree
      let log := Log.render (logLevel s) done.log
      match done.answer with
      | .error e => failure done.state log "apply" e
      | .ok v =>
        let line :=
          if s.talkative then
            s!"{programName}: apply: {chain.length} diff(s), {v.size} slices, " ++
              s!"{v.bytes.length} bytes\n"
          else ""
        let report := if s.json then (applyReport chain v).render else ""
        match output with
        | none => ⟨0, v.bytes, log ++ line ++ report, done.state⟩
        | some l =>
          match done.state.write l v.bytes with
          | .error e => failure done.state log "write output" e.message
          | .ok tree => ⟨0, [], log ++ line ++ report, tree⟩

def runInspect (s : Settings) (store : Location) (under : Option GIndex) (id : DiffId)
    (t : FileTree) : Result :=
  let done := withStore store .none t fun store tree => ⟨store.loadDiff id tree, tree, []⟩
  let log := Log.render (logLevel s) done.log
  match done.answer with
  | .error e => failure done.state log "inspect" e
  | .ok d =>
    let changes := match under with
      | some root => d.changes.filter fun c => (Selector.subtree root).selects c.node
      | none => d.changes
    if s.json then ⟨0, [], log ++ (inspectReport id d changes).render, done.state⟩
    else ⟨0, textBytes (summary id d changes), log, done.state⟩

def configText : String :=
  s!"{programName} version {versionNumber}\nCOMPRESS_LZMA=1\nCOMPRESS_ZLIB=1\n" ++
    s!"DEFAULT_ZLIB_LEVEL={usualLevel}\nDIFF_ID=sha256\nsizeof(usize)=8\n"

def runCommand (s : Settings) (t : FileTree) : Command → Result
  | .diff store wordsUnder base target method level verify =>
    runDiff s store wordsUnder base target (compressionFor method level) verify t
  | .apply store wordsUnder base output chain => runApply s store wordsUnder base output chain t
  | .inspect store under id => runInspect s store under id t
  | .config => ⟨0, [], configText, t⟩

def usageText : String :=
  s!"Usage: {programName} [OPTIONS] <COMMAND>\n\nCommands:\n" ++
    String.join (CommandName.all.map fun name => s!"  {name.text}\n") ++ "\nOptions:\n" ++
    String.join ((keys none).map fun key => s!"      --{key.long}\n")

def run (args : List String) (t : FileTree) : Result :=
  match parse args with
  | .ok (s, command) => runCommand s t command
  | .error .help => ⟨0, textBytes usageText, "", t⟩
  | .error .version => ⟨0, textBytes s!"{programName} {versionNumber}\n", "", t⟩
  | .error .usage => ⟨2, [], usageText, t⟩

end SszArchive.CommandLine
