import Brainfuck.Block.Equality
import Brainfuck.Proofs.Walks

/-! Comparing and copying trees.

Both come to an end, comparing after one round for each pair of blocks that it takes from its list
and copying as every walk does, and both are exact: two trees compare equal just if they are one
tree, and a copy is the tree that was copied. A round of comparing leaves a lighter list than it
found. Instructions are compared in agreement with trees, be it that a tree is taken as the list of
its instructions or an instruction as a tree. -/

namespace Brainfuck

namespace Block

/-! Rounds. -/

/-- Takes the pair that was put on the list last. -/
def compareNext : List (Block × Block) → Turn (List (Block × Block)) Bool
  | [] => .stop true
  | (left, right) :: pending =>
      if left.length = right.length then
        match compareLevels left right pending with
        | some found => .next found
        | none => .stop false
      else
        .stop false

/-- The rounds of a comparison as a process, which writes nothing. -/
def comparing : Process (List (Block × Block)) Bool where
  step := compareNext
  output _ := []
  output_step _ := List.prefix_refl []

theorem ends_comparing (pairs : List (Block × Block)) :
    comparing.Ends pairs (sameAll pairs) := by
  fun_induction sameAll pairs with
  | case1 => exact .of_stop rfl
  | case2 left right pending hlength found hfound ih =>
      have hnext : comparing.step ((left, right) :: pending) = .next found := by
        simp [comparing, compareNext, hlength, hfound]
      exact (Process.Reaches.single hnext).ends ih
  | case3 left right pending hlength hfound =>
      apply Process.Ends.of_stop
      simp [comparing, compareNext, hlength, hfound]
  | case4 left right pending hlength =>
      apply Process.Ends.of_stop
      simp [comparing, compareNext, hlength]

/-! Instructions. -/

theorem foldr_instrs (block : Block) : block.instrs.foldr cons .nil = block := by
  induction block with
  | nil => rfl
  | op operation rest ih => exact congrArg (op operation) ih
  | loop body rest _ ih => exact congrArg (loop body) ih

theorem instrs_inj {left right : Block} : left.instrs = right.instrs ↔ left = right :=
  (Function.LeftInverse.injective foldr_instrs).eq_iff

theorem instrs_toBlock (instr : Instr) : instr.toBlock.instrs = [instr] := by
  cases instr <;> rfl

theorem beq_eq_beq_instrs (left right : Block) :
    (left == right) = (left.instrs == right.instrs) := by
  rw [Bool.eq_iff_iff, beq_iff, beq_iff_eq, instrs_inj]

theorem beq_toBlock (first second : Instr) :
    (first.toBlock == second.toBlock) = (first == second) := by
  rw [beq_eq_beq_instrs, instrs_toBlock, instrs_toBlock]
  simp

end Block

/-- Comparing two trees ends, and tells whether they are one tree: the same instructions with the
same operands in the same order, at every level. Comparing their instructions one after the other
tells the same. Two instructions compare equal just if they are one instruction, and just if the
trees do in which each of them stands alone. Copying a tree ends, and gives the tree. -/
theorem Block.comparing_and_copying_exact (left right : Block) :
    (Block.comparing.Ends [(left, right)] (left == right) ∧
      ((left == right) = true ↔ left = right)) ∧
    ((left == right) = (left.instrs == right.instrs) ∧
      ∀ first second : Instr, ((first == second) = true ↔ first = second) ∧
        (first == second) = (first.toBlock == second.toBlock)) ∧
    (∃ done, Block.rebuild.turns.Ends ⟨.nil, left, []⟩ done ∧ done.reverse = left.copy) ∧
    left.copy = left := by
  refine ⟨⟨ends_comparing _, beq_iff⟩, ⟨left.beq_eq_beq_instrs right, ?_⟩, ?_, left.copy_eq⟩
  · intro first second
    exact ⟨Instr.beq_iff, (beq_toBlock first second).symm⟩
  · exact ⟨_, ⟨_, Block.rebuild.after_turns left .nil⟩, rfl⟩

end Brainfuck
