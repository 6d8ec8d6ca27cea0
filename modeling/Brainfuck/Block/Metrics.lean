import Brainfuck.Block.Walk

/-! Counts of operations and loops, and the nesting depth of a tree.

The blocks that are still to be looked at stand on a list. The one put there last is taken next: its
own level is gone through, and the bodies of its loops are put on the list. What is found is joined
in this order, which is not that of the tree, so joining must not depend on an order. -/

namespace Brainfuck

universe u

structure Survey (Note : Type u) where
  join : Nat → Nat → Nat
  /-- What a block comes to by itself. -/
  block : Note → Nat
  op : Nat
  loop : Nat
  /-- The note for a loop's body, given that of the block around it. -/
  inside : Note → Note
  associative : Std.Associative join := by infer_instance
  commutative : Std.Commutative join := by infer_instance
  identity : Std.LawfulRightIdentity join 0 := by infer_instance

attribute [instance] Survey.associative Survey.commutative Survey.identity

namespace Block

variable {Note : Type u}

def surveyFrom (survey : Survey Note) (total : Nat) (note : Note) :
    Block → List (Note × Block) → Nat
  | .nil, [] => total
  | .nil, (note, block) :: pending =>
      surveyFrom survey (survey.join total (survey.block note)) note block pending
  | .op _ rest, pending => surveyFrom survey (survey.join total survey.op) note rest pending
  | .loop body rest, pending =>
      surveyFrom survey (survey.join total survey.loop) note rest
        ((survey.inside note, body) :: pending)
termination_by block pending => block.weight + pendingWeight pending
decreasing_by all_goals (simp only [weight, pendingWeight]; omega)

def survey (survey : Survey Note) (note : Note) (block : Block) : Nat :=
  surveyFrom survey (survey.join 0 (survey.block note)) note block []

def measureDepth : Survey Nat where
  join := max
  block depth := depth
  op := 0
  loop := 0
  inside depth := depth + 1

/-- The greatest number of loops around one place of the tree. -/
def depth (block : Block) : Nat :=
  block.survey measureDepth 0

def countOps : Survey Unit where
  join := (· + ·)
  block _ := 0
  op := 1
  loop := 0
  inside := id

/-- The number of operations at all levels. -/
def opCount (block : Block) : Nat :=
  block.survey countOps ()

def countLoops : Survey Unit where
  join := (· + ·)
  block _ := 0
  op := 0
  loop := 1
  inside := id

/-- The number of loops at all levels. -/
def loopCount (block : Block) : Nat :=
  block.survey countLoops ()

/-! What a survey comes to, in the order of the tree. -/

def amount (survey : Survey Note) (note : Note) : Block → Nat
  | .nil => 0
  | .op _ rest => survey.join survey.op (rest.amount survey note)
  | .loop body rest =>
      survey.join survey.loop
        (survey.join
          (survey.join (survey.block (survey.inside note))
            (body.amount survey (survey.inside note)))
          (rest.amount survey note))

def pendingAmount (survey : Survey Note) : List (Note × Block) → Nat
  | [] => 0
  | (note, block) :: pending =>
      survey.join (survey.join (survey.block note) (block.amount survey note))
        (pendingAmount survey pending)

section Survey

variable (survey : Survey Note)

theorem join_zero (total : Nat) : survey.join total 0 = total :=
  survey.identity.right_id total

theorem zero_join (total : Nat) : survey.join 0 total = total := by
  rw [survey.commutative.comm, join_zero]

theorem surveyFrom_eq (total : Nat) (note : Note) (block : Block)
    (pending : List (Note × Block)) :
    surveyFrom survey total note block pending =
      survey.join total
        (survey.join (block.amount survey note) (pendingAmount survey pending)) := by
  fun_induction surveyFrom survey total note block pending with
  | case1 total note => rw [amount, pendingAmount, join_zero, join_zero]
  | case2 total _ note block pending ih =>
      rw [ih, amount, pendingAmount, zero_join]
      ac_rfl
  | case3 total note operation rest pending ih =>
      rw [ih, amount]
      ac_rfl
  | case4 total note body rest pending ih =>
      rw [ih, amount, pendingAmount]
      ac_rfl

theorem survey_eq (note : Note) (block : Block) :
    block.survey survey note = survey.join (survey.block note) (block.amount survey note) := by
  rw [Block.survey, surveyFrom_eq, zero_join, pendingAmount, join_zero]

theorem survey_nil (note : Note) : nil.survey survey note = survey.block note := by
  rw [survey_eq, amount, join_zero]

theorem survey_op (note : Note) (operation : Op) (rest : Block) :
    (op operation rest).survey survey note = survey.join survey.op (rest.survey survey note) := by
  rw [survey_eq, survey_eq, amount]
  ac_rfl

theorem survey_loop (note : Note) (body rest : Block) :
    (loop body rest).survey survey note =
      survey.join survey.loop
        (survey.join (body.survey survey (survey.inside note)) (rest.survey survey note)) := by
  rw [survey_eq, survey_eq, survey_eq, amount]
  ac_rfl

end Survey

/-- The depth of a block inside loops is counted on from theirs. -/
theorem survey_measureDepth (block : Block) (outer : Nat) :
    block.survey measureDepth outer = outer + block.depth := by
  rw [depth]
  induction block generalizing outer with
  | nil => rw [survey_nil, survey_nil]; rfl
  | op operation rest ih =>
      rw [survey_op, survey_op, ih]
      simp only [measureDepth, Nat.zero_max]
  | loop body rest ihBody ihRest =>
      rw [survey_loop, survey_loop, ihBody, ihBody (measureDepth.inside 0), ihRest]
      simp only [measureDepth]
      omega

@[simp] theorem depth_nil : depth nil = 0 := survey_nil measureDepth 0

@[simp] theorem depth_op (operation : Op) (rest : Block) :
    (op operation rest).depth = rest.depth := by
  rw [depth, survey_op]
  exact Nat.zero_max _

@[simp] theorem depth_loop (body rest : Block) :
    (loop body rest).depth = max (body.depth + 1) rest.depth := by
  rw [depth, survey_loop, survey_measureDepth, survey_measureDepth]
  simp only [measureDepth]
  omega

@[simp] theorem opCount_nil : opCount nil = 0 := survey_nil countOps ()

@[simp] theorem opCount_op (operation : Op) (rest : Block) :
    (op operation rest).opCount = rest.opCount + 1 :=
  (survey_op countOps () operation rest).trans (Nat.add_comm ..)

@[simp] theorem opCount_loop (body rest : Block) :
    (loop body rest).opCount = body.opCount + rest.opCount :=
  (survey_loop countOps () body rest).trans (Nat.zero_add _)

@[simp] theorem loopCount_nil : loopCount nil = 0 := survey_nil countLoops ()

@[simp] theorem loopCount_op (operation : Op) (rest : Block) :
    (op operation rest).loopCount = rest.loopCount :=
  (survey_op countLoops () operation rest).trans (Nat.zero_add _)

@[simp] theorem loopCount_loop (body rest : Block) :
    (loop body rest).loopCount = body.loopCount + rest.loopCount + 1 :=
  (survey_loop countLoops () body rest).trans (Nat.add_comm ..)

end Block

end Brainfuck
