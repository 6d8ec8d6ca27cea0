/-! Places in a source: a line and a byte column, both counted from one. -/

namespace Brainfuck

structure Position where
  line : Nat
  column : Nat
deriving DecidableEq, Repr

namespace Position

def start : Position := ⟨1, 1⟩

def nextLine (position : Position) : Position := ⟨position.line + 1, 1⟩

def nextColumn (position : Position) : Position := ⟨position.line, position.column + 1⟩

/-- The form that heads a diagnostic: `[line, column]`. -/
def bracketed (position : Position) : String :=
  "[" ++ toString position.line ++ ", " ++ toString position.column ++ "]"

/-- The short form `line:column`. -/
def short (position : Position) : String :=
  toString position.line ++ ":" ++ toString position.column

end Position

end Brainfuck
