import Brainfuck.Asm.Listing
import Brainfuck.Block.Walk

/-! What a target machine provides, and the lowering of a tree with it.

The tape pointer lives in a register. A loop tests the cell at both ends:

```
    branch to the second label if the cell is zero
first:
    body
    branch to the first label if the cell is not zero
second:
```
-/

namespace Brainfuck.Asm

/-- Number of cells on the tape. -/
def tapeSize : Nat := 30000

structure Backend where
  header : List Line
  data : List Line
  /-- The entry symbol, and the set-up of the tape pointer. -/
  entry : List Line
  /-- Leaves the process with status zero. -/
  exit : List Line
  op : Op → List Line
  branchIfZero : String → List Line
  branchIfNonzero : String → List Line

/-! The labels at the two ends of an open loop. -/

structure LoopLabels where
  first : Label
  second : Label
deriving DecidableEq, Repr

namespace Backend

def lowerOp (backend : Backend) (listing : Listing) (operation : Op) : Listing :=
  listing.countOp.emit (backend.op operation)

def openLoop (backend : Backend) (listing : Listing) : LoopLabels × Listing :=
  let (first, listing) := listing.countOp.freshLabel
  let (second, listing) := listing.freshLabel
  (⟨first, second⟩,
    (listing.emit (backend.branchIfZero second.name)).emit [.labelled first.name])

def closeLoop (backend : Backend) (labels : LoopLabels) (listing : Listing) : Listing :=
  (listing.emit (backend.branchIfNonzero labels.first.name)).emit
    [.labelled labels.second.name]

def lowering (backend : Backend) : Traversal Listing LoopLabels where
  op := backend.lowerOp
  enter := backend.openLoop
  leave := backend.closeLoop

/-- Appends the code of a tree. -/
def lower (backend : Backend) (listing : Listing) (block : Block) : Listing :=
  block.walk backend.lowering listing

/-- The complete listing of a program. -/
def assemble (backend : Backend) (block : Block) : Listing :=
  let opening := Listing.empty.emit (backend.header ++ backend.data ++ backend.entry)
  (backend.lower opening block).emit backend.exit

end Backend

end Brainfuck.Asm
