import Brainfuck.Position
import Brainfuck.Source
import Brainfuck.Text.Style

/-! Errors as the user sees them.

A diagnostic with a place in a known source quotes the line and puts a caret under the column. Any
other is a single line under the program's name. -/

namespace Brainfuck

inductive ErrorKind where
  | usage
  | io
  | memory
  | extraClose
  | unclosed
  | internal
deriving DecidableEq, Repr

def ErrorKind.code : ErrorKind → String
  | .usage => "ERROR_ARGS"
  | .io => "ERROR_IO"
  | .memory => "ERROR_ALLOC"
  | .extraClose => "ERROR_MISMATCHED_BRACKET"
  | .unclosed => "ERROR_MISSING_BRACKET"
  | .internal => "ERROR_INTERNAL"

structure Diagnostic where
  kind : ErrorKind
  message : String
  position? : Option Position
deriving DecidableEq, Repr

namespace Diagnostic

/-- The first line: who speaks, the code of the error, and what it says. -/
def headline (styled : Bool) (speaker : String) (diagnostic : Diagnostic) : String :=
  Text.Style.bold.apply styled speaker ++
    Text.Style.boldRed.apply styled diagnostic.kind.code ++
    Text.Style.bold.apply styled (": " ++ diagnostic.message) ++ "\n"

def gutter (margin : String) : String :=
  "   " ++ margin ++ " | "

def quotedRow (source : Source) (position : Position) : String :=
  gutter (toString position.line) ++ (source.line? position.line).getD "" ++ "\n"

def caretRow (position : Position) : String :=
  gutter ("".pushn ' ' (toString position.line).length) ++
    "".pushn ' ' (position.column - 1) ++ "^\n"

def render (styled : Bool) (source? : Option Source) (diagnostic : Diagnostic) : String :=
  match diagnostic.position?, source? with
  | some position, some source =>
      diagnostic.headline styled (source.name ++ position.bracketed ++ ": ") ++
        quotedRow source position ++ caretRow position
  | _, _ => diagnostic.headline styled "bfc: "

end Diagnostic

end Brainfuck
