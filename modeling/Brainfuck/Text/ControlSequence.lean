/-! Control characters and control sequences, as a terminal would obey them, and the text that is
left when they are taken out.

A sequence starts with an escape character. What follows tells its kind: a few characters that end
at the first final one, or a string that runs up to its terminator. An escape character starts a
new sequence wherever it stands, and a cancel or substitute character ends any. -/

namespace Brainfuck.Text.ControlSequence

def escape : Char := '\x1b'
def cancel : Char := '\x18'
def substitute : Char := '\x1a'
def bell : Char := '\x07'
def delete : Char := '\x7f'

/-- The control characters that lay text out. They count as text, also in the middle of a short
sequence, which they break off. -/
def isLayout (c : Char) : Bool :=
  c == '\t' || c == '\n' || c == '\x0c' || c == '\r'

/-- The byte `9c` terminates a string, also as part of a longer encoding. -/
def terminatesString (c : Char) : Bool :=
  (String.utf8EncodeChar c).contains 0x9c

def between (low high c : Char) : Bool :=
  low ≤ c && c ≤ high

/-- What the next character is part of. -/
inductive Mode where
  | text
  /-- Right after an escape character. -/
  | escape
  /-- In a sequence of an escape character and intermediate characters. -/
  | escapeIntermediate
  /-- In a control sequence, which a bracket introduces. -/
  | control
  /-- In front of the parameters of a device control string. -/
  | deviceEntry
  | deviceParameters
  | deviceIntermediate
  /-- In a string that only its terminator ends. -/
  | string
  /-- In an operating system command, which a bell ends. -/
  | command
deriving DecidableEq, Repr

namespace Mode

def afterEscape (c : Char) : Mode :=
  match c with
  | '[' => .control
  | ']' => .command
  | 'P' => .deviceEntry
  | 'X' => .string
  | '^' => .string
  | '_' => .string
  | _ =>
      if isLayout c then .text
      else if between ' ' '/' c then .escapeIntermediate
      else if between '0' '~' c then .text
      else .escape

def next (mode : Mode) (c : Char) : Mode :=
  if c = ControlSequence.escape then
    .escape
  else if c = cancel ∨ c = substitute then
    .text
  else
    match mode with
    | .text => .text
    | .escape => afterEscape c
    | .escapeIntermediate => if isLayout c || between '0' '~' c then .text else mode
    | .control => if isLayout c || between '@' '~' c then .text else mode
    | .deviceEntry =>
        if between ' ' '/' c then .deviceIntermediate
        else if between '0' '?' c then .deviceParameters
        else if between '@' '~' c then .string
        else mode
    | .deviceParameters =>
        if between ' ' '/' c then .deviceIntermediate
        else if between '<' '~' c then .string
        else mode
    | .deviceIntermediate => if between '0' '~' c then .string else mode
    | .string => if terminatesString c then .text else mode
    | .command => if c = bell then .text else mode

/-- Whether a character is text. -/
def shows (mode : Mode) (c : Char) : Bool :=
  match mode with
  | .text => isLayout c || (' ' ≤ c && c != delete)
  | .escape => isLayout c
  | .escapeIntermediate => isLayout c
  | .control => isLayout c
  | _ => false

end Mode

def step (state : Mode × String) (c : Char) : Mode × String :=
  (state.1.next c, if state.1.shows c then state.2.push c else state.2)

/-- The text without control characters and control sequences. -/
def strip (text : String) : String :=
  (text.toList.foldl step (.text, "")).2

end Brainfuck.Text.ControlSequence
