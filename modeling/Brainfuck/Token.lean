import Brainfuck.Bytes
import Brainfuck.Command
import Brainfuck.Position

/-! The visible commands of a source, each with its place.

Every byte that spells a command counts, unless a `;` stands before it on its line and comments are
switched on. All other bytes are inert. -/

namespace Brainfuck

structure Token where
  command : Command
  position : Position
deriving DecidableEq, Repr

/-! What the scan knows in front of a byte: its place, and whether a comment covers it. -/

structure Cursor where
  position : Position
  commented : Bool
deriving DecidableEq, Repr

namespace Cursor

def start : Cursor := ⟨.start, false⟩

def advance (comments : Bool) (cursor : Cursor) (byte : UInt8) : Cursor :=
  if byte = Bytes.newline then
    ⟨cursor.position.nextLine, false⟩
  else
    ⟨cursor.position.nextColumn,
      cursor.commented || (comments && byte == Bytes.semicolon)⟩

def token? (cursor : Cursor) (byte : UInt8) : Option Token :=
  if cursor.commented then
    none
  else
    (Command.ofByte? byte).map fun command => ⟨command, cursor.position⟩

end Cursor

namespace Token

/-- One byte of the scan. The tokens found so far stand in reverse order. -/
def scanStep (comments : Bool) (state : Cursor × List Token) (byte : UInt8) :
    Cursor × List Token :=
  (state.1.advance comments byte,
    match state.1.token? byte with
    | some token => token :: state.2
    | none => state.2)

/-- The visible commands of `source` in order; `comments` tells whether `;` hides the rest of its
line. -/
def scan (comments : Bool) (source : Bytes) : List Token :=
  (source.foldl (scanStep comments) (.start, [])).2.reverse

theorem foldl_scanStep (comments : Bool) (source : Bytes) (cursor : Cursor)
    (found : List Token) :
    (source.foldl (scanStep comments) (cursor, found)).2 =
      (source.foldl (scanStep comments) (cursor, [])).2 ++ found := by
  induction source generalizing cursor found with
  | nil => rfl
  | cons byte rest ih =>
      simp only [List.foldl_cons, scanStep]
      cases cursor.token? byte with
      | none => exact ih _ _
      | some token =>
          simp only
          rw [ih _ (token :: found), ih _ [token]]
          simp

end Token

end Brainfuck
