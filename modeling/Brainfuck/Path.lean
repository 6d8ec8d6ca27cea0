import Brainfuck.Text.Utf8

/-! Paths: byte strings whose parts are divided by `/`. -/

namespace Brainfuck

abbrev Path := Bytes

namespace Path

def here : Bytes := Bytes.ofString "."
def above : Bytes := Bytes.ofString ".."

/-- Everything between the slashes, empty parts included. -/
def parts (path : Path) : List Bytes :=
  path.splitOn Bytes.slash

def isAbsolute (path : Path) : Bool :=
  path.head? == some Bytes.slash

/-- The last part that names something; a path that ends by going up has none. -/
def fileName? (path : Path) : Option Bytes :=
  match (path.parts.filter fun part => !part.isEmpty && part != here).getLast? with
  | some last => if last = above then none else some last
  | none => none

def text (path : Path) : String :=
  Text.Utf8.decode path

end Path

end Brainfuck
