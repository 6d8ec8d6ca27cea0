/-! Terminal styles. -/

namespace Brainfuck.Text

inductive Style where
  | bold
  | boldRed
  | dim
  | italic
  | yellow
  | blue
deriving DecidableEq, Repr

namespace Style

def code : Style → String
  | .bold => "1"
  | .boldRed => "1;31"
  | .dim => "2"
  | .italic => "3"
  | .yellow => "33"
  | .blue => "34"

def start (style : Style) : String :=
  "\x1b[" ++ style.code ++ "m"

def reset : String := "\x1b[0m"

/-- Styled text. Where the text itself goes back to the plain style, the style starts anew. -/
def paint (style : Style) (text : String) : String :=
  style.start ++ text.replace reset (reset ++ style.start) ++ reset

/-- Styled text on a terminal with styles, bare text on any other. -/
def apply (styled : Bool) (style : Style) (text : String) : String :=
  if styled then style.paint text else text

end Style

end Brainfuck.Text
