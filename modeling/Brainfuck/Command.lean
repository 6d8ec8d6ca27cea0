/-! The eight commands of the language and the bytes that spell them. -/

namespace Brainfuck

inductive Command where
  | increment
  | decrement
  | right
  | left
  | loopStart
  | loopEnd
  | output
  | input
deriving DecidableEq, Repr

namespace Command

def ofByte? (byte : UInt8) : Option Command :=
  match Char.ofUInt8 byte with
  | '+' => some .increment
  | '-' => some .decrement
  | '>' => some .right
  | '<' => some .left
  | '[' => some .loopStart
  | ']' => some .loopEnd
  | '.' => some .output
  | ',' => some .input
  | _ => none

def byte : Command → UInt8
  | .increment => '+'.toUInt8
  | .decrement => '-'.toUInt8
  | .right => '>'.toUInt8
  | .left => '<'.toUInt8
  | .loopStart => '['.toUInt8
  | .loopEnd => ']'.toUInt8
  | .output => '.'.toUInt8
  | .input => ','.toUInt8

@[simp] theorem ofByte?_byte (command : Command) : ofByte? command.byte = some command := by
  cases command <;> rfl

end Command

end Brainfuck
