import Brainfuck.Block.Basic

/-! Left-to-right traversals of a tree.

A traversal carries a state through the instructions in order. On meeting a loop it sets a frame
aside and enters the body; after the body, the frame and the state reached there give the state
with which it goes on. `fold` is the recursion that says so. `walk` keeps the frames of all open
loops on a list, so that its own depth does not grow with the nesting, and `walk_eq_fold` is the
agreement of the two. -/

namespace Brainfuck

universe u v

structure Traversal (State : Type u) (Frame : Type v) where
  op : State → Op → State
  enter : State → Frame × State
  leave : Frame → State → State

namespace Block

variable {State : Type u} {Frame : Type v}

def fold (traversal : Traversal State Frame) : State → Block → State
  | state, .nil => state
  | state, .op operation rest => rest.fold traversal (traversal.op state operation)
  | state, .loop body rest =>
      rest.fold traversal
        (traversal.leave (traversal.enter state).1
          (body.fold traversal (traversal.enter state).2))

/-- The number of steps that a walk over a block takes. -/
def weight : Block → Nat
  | .nil => 1
  | .op _ rest => rest.weight + 1
  | .loop body rest => body.weight + rest.weight + 1

theorem weight_pos (block : Block) : 0 < block.weight := by
  cases block <;> exact Nat.succ_pos _

def pendingWeight : List (Frame × Block) → Nat
  | [] => 0
  | (_, rest) :: pending => rest.weight + pendingWeight pending

def walkFrom (traversal : Traversal State Frame) (state : State) :
    Block → List (Frame × Block) → State
  | .nil, [] => state
  | .nil, (frame, rest) :: pending =>
      walkFrom traversal (traversal.leave frame state) rest pending
  | .op operation rest, pending =>
      walkFrom traversal (traversal.op state operation) rest pending
  | .loop body rest, pending =>
      let entered := traversal.enter state
      walkFrom traversal entered.2 body ((entered.1, rest) :: pending)
termination_by block pending => block.weight + pendingWeight pending
decreasing_by all_goals simp [weight, pendingWeight] <;> omega

def walk (traversal : Traversal State Frame) (state : State) (block : Block) : State :=
  walkFrom traversal state block []

theorem walkFrom_eq (traversal : Traversal State Frame) (state : State)
    (block : Block) (pending : List (Frame × Block)) :
    walkFrom traversal state block pending =
      walkFrom traversal (block.fold traversal state) .nil pending := by
  induction block generalizing state pending with
  | nil => rfl
  | op operation rest ih => rw [walkFrom, ih, fold]
  | loop body rest ihBody ihRest => rw [walkFrom, ihBody, walkFrom, ihRest, fold]

theorem walk_eq_fold (traversal : Traversal State Frame) (state : State)
    (block : Block) : block.walk traversal state = block.fold traversal state := by
  rw [walk, walkFrom_eq, walkFrom]

end Block

end Brainfuck
