/-!
Plain text: what is left of text without the controls of a terminal. Escape sequences go as a whole
and other controls one by one; blanks and line breaks stay, also inside a sequence.
-/

namespace SszArchive.PlainText

/-- What the text so far leaves open. -/
inductive Mode where
  | plain
  /-- Behind an escape. -/
  | escape
  /-- Behind an escape and characters that announce another one. -/
  | announced
  /-- In a control sequence, which ends with a letter or a similar character. -/
  | sequence
  /-- In a command to the system, which ends with a bell. -/
  | command
  /-- In front of a device's string, of its parameters, or behind them. -/
  | device
  | deviceParameters
  | deviceAnnounced
  /-- In a string, which only an escape or a terminator ends. -/
  | string
  deriving DecidableEq, Repr

def bell : Char := '\x07'

def escape : Char := '\x1b'

/-- Cancels whatever is open. -/
def isCancel (c : Char) : Bool := c == '\x18' || c == '\x1a'

def isControl (c : Char) : Bool := c < ' '

def isBlankControl (c : Char) : Bool := c == '\t' || c == '\n' || c == '\x0c' || c == '\r'

def delete : Char := '\x7f'

/-- Announces another character of the same sequence. -/
def announces (c : Char) : Bool := ' ' ≤ c && c ≤ '/'

/-- Ends a control sequence or the front of a device's string. -/
def isFinal (c : Char) : Bool := '@' ≤ c && c ≤ '~'

/-- The terminator of strings is a byte; a longer character that holds it counts as one. -/
def terminates (c : Char) : Bool := (String.utf8EncodeChar c).contains 0x9c

/-- What follows the character behind an escape. -/
def afterEscape (c : Char) : Mode :=
  if c == '[' then .sequence
  else if c == ']' then .command
  else if c == 'P' then .device
  else if c == 'X' || c == '^' || c == '_' then .string
  else if announces c then .announced
  else if '0' ≤ c && c ≤ '~' then .plain
  else .escape

/-- What follows a character that is no cancel, no escape and, in the first four modes, no
control. -/
def Mode.next (mode : Mode) (c : Char) : Mode :=
  match mode with
  | plain => plain
  | escape => afterEscape c
  | announced => if '0' ≤ c && c ≤ '~' then plain else announced
  | sequence => if isFinal c then plain else sequence
  | command => if c == bell then plain else command
  | device =>
    if announces c then deviceAnnounced
    else if '0' ≤ c && c ≤ '?' then deviceParameters
    else if isFinal c then string
    else device
  | deviceParameters =>
    if announces c then deviceAnnounced
    else if '<' ≤ c && c ≤ '~' then string
    else deviceParameters
  | deviceAnnounced => if '0' ≤ c && c ≤ '~' then string else deviceAnnounced
  | string => if terminates c then plain else string

/-- Whether a control works inside what is open. -/
def Mode.heedsControls : Mode → Bool
  | escape | announced | sequence => true
  | _ => false

def isHidden (c : Char) : Bool := isControl c && !isBlankControl c || c == delete

/-- The characters that stay. A blank control inside a sequence stays and pauses it: what follows
is plain up to the next hidden character, behind which the sequence goes on. A character outside
ASCII in a pause ends the sequence. -/
def keep (mode : Mode) (paused : Bool) : List Char → List Char
  | [] => []
  | c :: rest =>
    if c == escape then keep .escape false rest
    else if isCancel c then keep .plain false rest
    else if paused || mode == .plain then
      if isHidden c then keep mode false rest
      else if c ≤ delete then c :: keep mode paused rest
      else c :: keep .plain false rest
    else if mode.heedsControls && isControl c then
      if isBlankControl c then c :: keep mode true rest else keep mode false rest
    else keep (mode.next c) false rest

def ofText (text : String) : String := String.ofList (keep .plain false text.toList)

end SszArchive.PlainText
