import SszArchive.DiffId
import SszArchive.FileTree.Location
import SszArchive.GIndex

/-!
The arguments of the command line, read from left to right. Options stand before or behind the
name of the command; each command has its own, and four are allowed in both places. The first
argument that is wrong, or that asks for help or for the version, ends the reading.
-/

namespace SszArchive.CommandLine

/-- Why no command is run. -/
inductive Stop where
  | usage
  | help
  | version
  deriving DecidableEq, Repr

/-! ## Names -/

inductive CommandName where
  | diff
  | apply
  | inspect
  | config
  deriving DecidableEq, Repr

def CommandName.text : CommandName → String
  | diff => "diff"
  | apply => "apply"
  | inspect => "inspect"
  | config => "config"

def CommandName.all : List CommandName := [diff, apply, inspect, config]

def CommandName.ofText? (text : String) : Option CommandName := all.find? (·.text == text)

inductive Key where
  | force
  | quiet
  | verbose
  | json
  | help
  | version
  | store
  | noSync
  | wordsUnder
  | base
  | baseLayout
  | target
  | targetLayout
  | compress
  | level
  | verify
  | output
  | under
  deriving DecidableEq, Repr

namespace Key

def long : Key → String
  | force => "force"
  | quiet => "quiet"
  | verbose => "verbose"
  | json => "json"
  | help => "help"
  | version => "version"
  | store => "store"
  | noSync => "no-sync"
  | wordsUnder => "u64-under"
  | base => "base"
  | baseLayout => "base-layout"
  | target => "target"
  | targetLayout => "target-layout"
  | compress => "compress"
  | level => "level"
  | verify => "verify"
  | output => "output"
  | under => "under"

def short? : Key → Option Char
  | force => some 'f'
  | quiet => some 'q'
  | verbose => some 'v'
  | help => some 'h'
  | version => some 'V'
  | level => some 'l'
  | output => some 'o'
  | _ => none

def takesValue : Key → Bool
  | force | quiet | verbose | json | help | version | noSync | verify => false
  | _ => true

end Key

/-- The options in front of the command's name (`none`) or behind it. -/
def keys : Option CommandName → List Key
  | none => [.force, .quiet, .verbose, .json, .help, .version]
  | some name => [.force, .quiet, .verbose, .json, .help] ++
    match name with
    | .diff => [.store, .noSync, .wordsUnder, .base, .baseLayout, .target, .targetLayout,
        .compress, .level, .verify]
    | .apply => [.store, .noSync, .wordsUnder, .base, .baseLayout, .output]
    | .inspect => [.store, .noSync, .under]
    | .config => []

/-! ## Values -/

def digits? (text : List Char) : Option Nat :=
  if !text.isEmpty && text.all Char.isDigit then
    some (text.foldl (fun n c => 10 * n + (c.toNat - 48)) 0)
  else none

/-- A number of 64 bits, with or without a plus sign. -/
def word? (text : String) : Option UInt64 :=
  let digits := match text.toList with
    | '+' :: rest => rest
    | all => all
  match digits? digits with
  | some n => if n < UInt64.size then some (UInt64.ofNat n) else none
  | none => none

/-- A compression level from 0 to 9, with or without a sign. -/
def level? (text : String) : Option Nat :=
  match text.toList with
  | '-' :: rest => (digits? rest).filter (· == 0)
  | '+' :: rest => (digits? rest).filter (· ≤ 9)
  | all => (digits? all).filter (· ≤ 9)

inductive Method where
  | none
  | lzma
  | zlib
  deriving DecidableEq, Repr

def Method.ofText? : String → Option Method
  | "none" => some .none
  | "lzma" => some .lzma
  | "zlib" => some .zlib
  | _ => Option.none

def location? (text : String) : Option Location :=
  if text.isEmpty then none else some (.ofText text)

/-! ## Collecting -/

/-- What was given before or behind the command's name. -/
structure Given where
  force : Bool := false
  quiet : Bool := false
  verbose : Nat := 0
  json : Bool := false
  noSync : Bool := false
  verify : Bool := false
  store : Option Location := none
  wordsUnder : List GIndex := []
  base : Option Location := none
  baseLayout : Option Location := none
  target : Option Location := none
  targetLayout : Option Location := none
  compress : Option Method := none
  level : Option Nat := none
  output : Option Location := none
  under : Option GIndex := none
  ids : List DiffId := []

/-- Most options may be given once only. -/
def once {α : Type} (known new : Option α) : Except Stop (Option α) :=
  match known, new with
  | none, some value => .ok (some value)
  | _, _ => .error .usage

def onceFlag (known : Bool) : Except Stop Bool := if known then .error .usage else .ok true

def Given.add (g : Given) (key : Key) (text : String) : Except Stop Given :=
  match key with
  | .help => .error .help
  | .version => .error .version
  | .verbose => .ok { g with verbose := g.verbose + 1 }
  | .force => do return { g with force := ← onceFlag g.force }
  | .quiet => do return { g with quiet := ← onceFlag g.quiet }
  | .json => do return { g with json := ← onceFlag g.json }
  | .noSync => do return { g with noSync := ← onceFlag g.noSync }
  | .verify => do return { g with verify := ← onceFlag g.verify }
  | .store => do return { g with store := ← once g.store (location? text) }
  | .base => do return { g with base := ← once g.base (location? text) }
  | .baseLayout => do return { g with baseLayout := ← once g.baseLayout (location? text) }
  | .target => do return { g with target := ← once g.target (location? text) }
  | .targetLayout => do return { g with targetLayout := ← once g.targetLayout (location? text) }
  | .output => do return { g with output := ← once g.output (location? text) }
  | .compress => do return { g with compress := ← once g.compress (Method.ofText? text) }
  | .level => do return { g with level := ← once g.level (level? text) }
  | .under => do return { g with under := ← once g.under (word? text) }
  | .wordsUnder =>
    match word? text with
    | some root =>
      if root = 0 then .error .usage else .ok { g with wordsUnder := g.wordsUnder ++ [root] }
    | none => .error .usage

/-- An argument that is no option: one of any number of identifiers, or a single one. -/
def Given.addArgument (g : Given) (name : Option CommandName) (text : String) :
    Except Stop Given :=
  match name, DiffId.ofText text with
  | some .apply, .ok id => .ok { g with ids := g.ids ++ [id] }
  | some .inspect, .ok id =>
    if g.ids.isEmpty then .ok { g with ids := [id] } else .error .usage
  | _, _ => .error .usage

/-! ## Reading -/

/-- Short options behind one dash. The last one may be waiting for its value. -/
def cluster (name : Option CommandName) (g : Given) : List Char → Except Stop (Given × Option Key)
  | [] => .ok (g, none)
  | c :: rest =>
    match (keys name).find? (·.short? == some c) with
    | none => .error .usage
    | some key =>
      if key.takesValue then
        match rest with
        | [] => .ok (g, some key)
        | '=' :: value => do return (← g.add key (String.ofList value), none)
        | value => do return (← g.add key (String.ofList value), none)
      else
        match g.add key "" with
        | .ok g => cluster name g rest
        | .error e => .error e

/-- A long option behind two dashes, with or without a value behind an equals sign. -/
def longOption (name : Option CommandName) (g : Given) (text : List Char) :
    Except Stop (Given × Option Key) :=
  let option := text.takeWhile (· != '=')
  match (keys name).find? (·.long == String.ofList option), text.drop option.length with
  | none, _ => .error .usage
  | some key, [] =>
    if key.takesValue then .ok (g, some key) else do return (← g.add key "", none)
  | some key, _ :: value =>
    if key.takesValue then do return (← g.add key (String.ofList value), none)
    else .error .usage

/-- Whether an argument starts an option, so that it is no value of the one before. -/
def startsOption (arg : String) : Bool := arg.startsWith "-" && arg != "-"

/-- Help on a command is asked for by its name; help has a page itself. -/
def helpFor : List String → Stop
  | [] => .help
  | [topic] => if topic == "help" || (CommandName.ofText? topic).isSome then .help else .usage
  | _ => .usage

def readOption (name : Option CommandName) (g : Given) (arg : String) :
    Except Stop (Given × Option Key) :=
  if arg.startsWith "--" then longOption name g (arg.toList.drop 2)
  else cluster name g (arg.toList.drop 1)

/-- What stands behind two dashes alone is no option. -/
def addArguments (name : Option CommandName) (g : Given) : List String → Except Stop Given
  | [] => .ok g
  | text :: rest =>
    match g.addArgument name text with
    | .ok g => addArguments name g rest
    | .error e => .error e

/-- Reads arguments up to the end, or up to the name of the command. The option that was read last
may be waiting for its value. -/
def scan (name : Option CommandName) (waiting : Option Key) (g : Given) :
    List String → Except Stop (Given × Option (CommandName × List String))
  | [] => if waiting.isSome then .error .usage else .ok (g, none)
  | arg :: rest =>
    match waiting, if name.isNone then CommandName.ofText? arg else none with
    | some key, _ =>
      if startsOption arg then .error .usage
      else
        match g.add key arg with
        | .ok g => scan name none g rest
        | .error e => .error e
    | none, some found => .ok (g, some (found, rest))
    | none, none =>
      if name.isNone && arg == "help" then .error (helpFor rest)
      else if arg == "--" then
        match addArguments name g rest with
        | .ok g => .ok (g, none)
        | .error e => .error e
      else if startsOption arg then
        match readOption name g arg with
        | .ok (g, waiting) => scan name waiting g rest
        | .error e => .error e
      else
        match g.addArgument name arg with
        | .ok g => scan name none g rest
        | .error e => .error e

/-! ## Commands -/

/-- The options that every command has. -/
structure Settings where
  force : Bool
  quiet : Bool
  verbose : Nat
  json : Bool
  deriving DecidableEq, Repr

/-- Where a version is read from. -/
structure Source where
  bytes : Location
  layout : Location
  deriving DecidableEq, Repr

inductive Command where
  | diff (store : Location) (wordsUnder : List GIndex) (base target : Source) (method : Method)
      (level : Nat) (verify : Bool)
  | apply (store : Location) (wordsUnder : List GIndex) (base : Source)
      (output : Option Location) (chain : List DiffId)
  | inspect (store : Location) (under : Option GIndex) (id : DiffId)
  | config

def usualLevel : Nat := 6

/-- The command, if all that it needs was given. -/
def Given.command? (g : Given) : CommandName → Option Command
  | .diff => do
    return .diff (← g.store) g.wordsUnder ⟨← g.base, ← g.baseLayout⟩
      ⟨← g.target, ← g.targetLayout⟩ (g.compress.getD .none) (g.level.getD usualLevel) g.verify
  | .apply => do
    let _ ← g.ids.head?
    return .apply (← g.store) g.wordsUnder ⟨← g.base, ← g.baseLayout⟩ g.output g.ids
  | .inspect => do return .inspect (← g.store) g.under (← g.ids.head?)
  | .config => some .config

/-- Quiet and verbose exclude each other in one place. -/
def Given.consistent (g : Given) : Bool := !(g.quiet && 0 < g.verbose)

/-- What stands behind the command's name counts before what stands in front of it. -/
def settings (front behind : Given) : Settings where
  force := front.force || behind.force
  quiet := front.quiet || behind.quiet
  verbose := if 0 < behind.verbose then behind.verbose else front.verbose
  json := front.json || behind.json

def parse (args : List String) : Except Stop (Settings × Command) :=
  match scan none none {} args with
  | .error e => .error e
  | .ok (_, none) => .error .usage
  | .ok (front, some (name, rest)) =>
    match scan (some name) none {} rest with
    | .error e => .error e
    | .ok (behind, _) =>
      match behind.command? name with
      | none => .error .usage
      | some command =>
        if front.consistent && behind.consistent then .ok (settings front behind, command)
        else .error .usage

end SszArchive.CommandLine
