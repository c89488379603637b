import SszArchive.Log.PlainText

/-!
Log lines. Each has a level; what is shown depends on the level that is asked for.
-/

namespace SszArchive

inductive LogLevel where
  | error
  | warn
  | info
  | debug
  | trace
  deriving DecidableEq, Repr

namespace LogLevel

/-- How much detail a level adds. -/
def detail : LogLevel → Nat
  | error => 1
  | warn => 2
  | info => 3
  | debug => 4
  | trace => 5

/-- All names are five characters wide. -/
def label : LogLevel → String
  | error => "ERROR"
  | warn => "WARN "
  | info => "INFO "
  | debug => "DEBUG"
  | trace => "TRACE"

end LogLevel

structure LogLine where
  level : LogLevel
  text : String
  deriving DecidableEq, Repr

abbrev Log := List LogLine

/-- Puts the second and all further lines of a text further in. -/
def indented (text : String) : String := "\n    ".intercalate (text.splitOn "\n")

/-- The level and the text, which is shown plain. -/
def LogLine.render (l : LogLine) : String :=
  PlainText.ofText s!"[{l.level.label}] {indented l.text}\n"

/-- The lines up to a level, as text. -/
def Log.render (limit : LogLevel) (log : Log) : String :=
  String.join ((log.filter (·.level.detail ≤ limit.detail)).map LogLine.render)

end SszArchive
