import Brainfuck.Block.Metrics
import Brainfuck.Block.Runs

/-! Run folding in small steps.

Whatever folding does to a tree is done by dropping idle operations and merging neighbours, one at a
time and at any place. A property of trees that these two steps keep is kept by folding. Both make
the operations fewer, so a tree with as many operations as before is the same tree. -/

namespace Brainfuck.Block

/-- `image` comes from `block` by dropping and merging operations. -/
inductive Simplifies : Block → Block → Prop
  | refl (block : Block) : Simplifies block block
  | trans {first second third : Block} (hfirst : Simplifies first second)
      (hsecond : Simplifies second third) : Simplifies first third
  | op (operation : Op) {rest rest' : Block} (hrest : Simplifies rest rest') :
      Simplifies (.op operation rest) (.op operation rest')
  | loop {body body' rest rest' : Block} (hbody : Simplifies body body')
      (hrest : Simplifies rest rest') : Simplifies (.loop body rest) (.loop body' rest')
  | drop {operation : Op} (hidle : operation.isIdle = true) (rest : Block) :
      Simplifies (.op operation rest) rest
  | merge {first second merged : Op} (hmerge : first.merge? second = some merged)
      (rest : Block) : Simplifies (.op first (.op second rest)) (.op merged rest)

theorem Simplifies.append_left (front : Block) {back back' : Block}
    (hback : Simplifies back back') : Simplifies (front ++ back) (front ++ back') := by
  induction front with
  | nil => exact hback
  | op operation rest ih =>
      rw [op_append, op_append]
      exact .op operation ih
  | loop body rest _ ih =>
      rw [loop_append, loop_append]
      exact .loop (.refl body) ih

/-! What one step of folding does. The instructions in `done` stand in reverse order. -/

theorem simplifies_keep (done : Block) (operation : Op) (rest : Block) :
    Simplifies (done.reverse ++ op operation rest) ((keep operation done).reverse ++ rest) := by
  unfold keep
  split
  · next hidle => exact .append_left _ (.drop hidle rest)
  · rw [reverse_op, append_assoc]
    exact .refl _

theorem simplifies_absorb (done : Block) (operation : Op) (rest : Block) :
    Simplifies (done.reverse ++ op operation rest)
      ((absorb done operation).reverse ++ rest) := by
  unfold absorb
  split
  · next last earlier =>
      split
      · next merged hmerge =>
          rw [reverse_op, append_assoc]
          exact (Simplifies.append_left _ (.merge hmerge rest)).trans
            (simplifies_keep earlier merged rest)
      · exact simplifies_keep _ operation rest
  · exact simplifies_keep _ operation rest

theorem simplifies_fold (block done : Block) :
    Simplifies (done.reverse ++ block) (block.fold foldingRuns done).reverse := by
  induction block generalizing done with
  | nil =>
      rw [append_nil]
      exact .refl _
  | op operation rest ih => exact (simplifies_absorb done operation rest).trans (ih _)
  | loop body rest ihBody ihRest =>
      have hbody : Simplifies body (body.fold foldingRuns .nil).reverse := ihBody .nil
      have hrest := ihRest (.loop (body.fold foldingRuns .nil).reverse done)
      rw [reverse_loop, append_assoc] at hrest
      exact (Simplifies.append_left _ (.loop hbody (.refl rest))).trans hrest

theorem simplifies_foldRuns (block : Block) : Simplifies block block.foldRuns := by
  rw [foldRuns, walk_eq_fold]
  exact simplifies_fold block .nil

namespace Simplifies

variable {block image : Block}

theorem opCount_le (hsimplifies : Simplifies block image) :
    image.opCount ≤ block.opCount := by
  induction hsimplifies with
  | refl block => exact Nat.le_refl _
  | trans _ _ ihFirst ihSecond => exact Nat.le_trans ihSecond ihFirst
  | op operation _ ih =>
      rw [opCount_op, opCount_op]
      exact Nat.succ_le_succ ih
  | loop _ _ ihBody ihRest =>
      rw [opCount_loop, opCount_loop]
      exact Nat.add_le_add ihBody ihRest
  | drop _ rest =>
      rw [opCount_op]
      exact Nat.le_succ _
  | merge _ rest =>
      rw [opCount_op, opCount_op, opCount_op]
      exact Nat.le_succ _

/-- Every step takes an operation away, so as many operations are the same operations. -/
theorem eq_of_opCount_eq (hsimplifies : Simplifies block image)
    (hcount : image.opCount = block.opCount) : image = block := by
  induction hsimplifies with
  | refl block => rfl
  | trans hfirst hsecond ihFirst ihSecond =>
      have hless := hfirst.opCount_le
      have hless' := hsecond.opCount_le
      exact (ihSecond (by omega)).trans (ihFirst (by omega))
  | op operation _ ih =>
      rw [opCount_op, opCount_op] at hcount
      exact congrArg (Block.op operation) (ih (Nat.succ.inj hcount))
  | loop hbody hrest ihBody ihRest =>
      have hless := hbody.opCount_le
      have hless' := hrest.opCount_le
      rw [opCount_loop, opCount_loop] at hcount
      rw [ihBody (by omega), ihRest (by omega)]
  | drop _ rest =>
      rw [opCount_op] at hcount
      omega
  | merge _ rest =>
      rw [opCount_op, opCount_op, opCount_op] at hcount
      omega

end Simplifies

end Brainfuck.Block
