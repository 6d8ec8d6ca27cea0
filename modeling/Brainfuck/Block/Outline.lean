import Brainfuck.Block.Walk

/-! The printed outline of a tree: one row for each instruction, two spaces deeper inside each
loop. Nothing marks the end of a loop; the next row's depth shows it. -/

namespace Brainfuck

structure Row where
  depth : Nat
  label : String
deriving DecidableEq, Repr

def Row.text (row : Row) : String :=
  "".pushn ' ' (2 * row.depth) ++ row.label ++ "\n"

structure Outline where
  depth : Nat
  rows : Array Row

namespace Outline

def start : Outline := ⟨0, #[]⟩

def add (outline : Outline) (label : String) : Outline :=
  ⟨outline.depth, outline.rows.push ⟨outline.depth, label⟩⟩

def indent (outline : Outline) : Outline :=
  ⟨outline.depth + 1, outline.rows⟩

end Outline

namespace Block

def writeOutline : Traversal Outline Nat where
  op outline operation := outline.add operation.text
  enter outline := (outline.depth, (outline.add "Loop").indent)
  leave depth outline := ⟨depth, outline.rows⟩

def rows (block : Block) : Array Row :=
  (block.walk writeOutline .start).rows

def outline (block : Block) : String :=
  block.rows.foldl (fun text row => text ++ row.text) ""

/-- The outline under a heading line. -/
def inspect (block : Block) : String :=
  "Block\n" ++ block.outline

end Block

namespace Instr

def outline (instr : Instr) : String :=
  instr.toBlock.outline

/-- An operation is its bare label; a loop is its outline. -/
def inspect : Instr → String
  | .op operation => operation.text
  | .loop body => (Block.loop body .nil).outline

end Instr

end Brainfuck
