import Brainfuck.Path

/-! A source file in memory. -/

namespace Brainfuck

structure Source where
  path : Path
  bytes : Bytes
deriving DecidableEq, Repr

namespace Source

/-- The name shown in diagnostics: the file's own, or the whole path if that has none. -/
def name (source : Source) : String :=
  Path.text (source.path.fileName?.getD source.path)

/-- The text of a line, counted from one, without its newline. -/
def line? (source : Source) : Nat → Option String
  | 0 => none
  | index + 1 => (source.bytes.splitOn Bytes.newline)[index]?.map Text.Utf8.decode

end Source

end Brainfuck
