/-! Straight-line operations on the tape. Operands are 64-bit words; cells are bytes. -/

namespace Brainfuck

inductive Op where
  | add (delta : Int64)
  | move (delta : Int64)
  | set (value : Int64)
  | get
  | put
deriving DecidableEq, Repr

namespace Op

/-- What an operand means to a cell: its residue modulo 256. -/
def cell (operand : Int64) : UInt8 :=
  operand.toUInt64.toUInt8

def text : Op → String
  | .add delta => "Add(" ++ toString delta.toInt ++ ")"
  | .move delta => "Move(" ++ toString delta.toInt ++ ")"
  | .set value => "Set(" ++ toString value.toInt ++ ")"
  | .get => "Get"
  | .put => "Put"

end Op

end Brainfuck
