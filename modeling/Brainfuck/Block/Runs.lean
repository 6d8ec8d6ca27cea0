import Brainfuck.Block.Walk

/-! Run folding: neighbouring additions become one, neighbouring moves become one, and what comes
to nothing is dropped, so that the runs on both sides of a cancelled run meet. Input, output,
`set` and loops end a run and are never reordered.

Additions act on byte cells, so their sums wrap. A move must not: two moves whose sum leaves the
64-bit range stay apart. -/

namespace Brainfuck

namespace Op

def sum? (left right : Int64) : Option Int64 :=
  let total := left.toInt + right.toInt
  if Int64.minValue.toInt ≤ total ∧ total ≤ Int64.maxValue.toInt then
    some (.ofInt total)
  else
    none

/-- The one operation that does what two neighbours do, if there is one. -/
def merge? : Op → Op → Option Op
  | .add left, .add right => some (.add (left + right))
  | .move left, .move right => (sum? left right).map .move
  | _, _ => none

def isIdle : Op → Bool
  | .add delta => delta == 0
  | .move delta => delta == 0
  | _ => false

end Op

namespace Block

/-- Puts an operation in front, unless it does nothing. -/
def keep (operation : Op) (done : Block) : Block :=
  if operation.isIdle then done else .op operation done

/-- Adds one operation to a folded run. The instructions in `done` stand in reverse order. -/
def absorb (done : Block) (operation : Op) : Block :=
  match done with
  | .op last earlier =>
      match last.merge? operation with
      | some merged => keep merged earlier
      | none => keep operation done
  | _ => keep operation done

def foldingRuns : Traversal Block Block where
  op := absorb
  enter done := (done, .nil)
  leave around done := .loop done.reverse around

/-- Folds every run of a tree, at all levels. -/
def foldRuns (block : Block) : Block :=
  (block.walk foldingRuns .nil).reverse

end Block

end Brainfuck
