import Brainfuck.Op

/-! Trees of operations and loops.

A block is empty, or starts with an operation, or starts with a loop whose body is a block.
`Instr` is the view of a block's first instruction. -/

namespace Brainfuck

inductive Block where
  | nil
  | op (operation : Op) (rest : Block)
  | loop (body rest : Block)
deriving Repr

inductive Instr where
  | op (operation : Op)
  | loop (body : Block)
deriving Repr

namespace Block

def cons : Instr → Block → Block
  | .op operation, rest => .op operation rest
  | .loop body, rest => .loop body rest

def isEmpty : Block → Bool
  | .nil => true
  | _ => false

/-! Operations on the top level only; loop bodies are carried along unchanged. -/

def reverseOnto : Block → Block → Block
  | .nil, done => done
  | .op operation rest, done => rest.reverseOnto (.op operation done)
  | .loop body rest, done => rest.reverseOnto (.loop body done)

def reverse (block : Block) : Block :=
  block.reverseOnto .nil

def append (front back : Block) : Block :=
  front.reverse.reverseOnto back

instance : Append Block := ⟨append⟩

def lengthFrom (count : Nat) : Block → Nat
  | .nil => count
  | .op _ rest => rest.lengthFrom (count + 1)
  | .loop _ rest => rest.lengthFrom (count + 1)

/-- The number of instructions on the top level, a loop counting as one. -/
def length (block : Block) : Nat :=
  block.lengthFrom 0

def get? : Block → Nat → Option Instr
  | .nil, _ => none
  | .op operation _, 0 => some (.op operation)
  | .loop body _, 0 => some (.loop body)
  | .op _ rest, index + 1 => rest.get? index
  | .loop _ rest, index + 1 => rest.get? index

theorem reverseOnto_reverseOnto (front middle back : Block) :
    (front.reverseOnto middle).reverseOnto back =
      middle.reverseOnto (front.append back) := by
  induction front generalizing middle with
  | nil => rfl
  | op operation rest ih =>
      change (rest.reverseOnto (.op operation middle)).reverseOnto back =
        middle.reverseOnto ((rest.reverseOnto (.op operation .nil)).reverseOnto back)
      rw [ih, ih]
      rfl
  | loop body rest _ ih =>
      change (rest.reverseOnto (.loop body middle)).reverseOnto back =
        middle.reverseOnto ((rest.reverseOnto (.loop body .nil)).reverseOnto back)
      rw [ih, ih]
      rfl

@[simp] theorem nil_append (back : Block) : nil ++ back = back := rfl

@[simp] theorem op_append (operation : Op) (rest back : Block) :
    op operation rest ++ back = op operation (rest ++ back) :=
  reverseOnto_reverseOnto rest (.op operation .nil) back

@[simp] theorem loop_append (body rest back : Block) :
    loop body rest ++ back = loop body (rest ++ back) :=
  reverseOnto_reverseOnto rest (.loop body .nil) back

@[simp] theorem append_nil (block : Block) : block ++ nil = block := by
  induction block with
  | nil => rfl
  | op operation rest ih => simp [ih]
  | loop body rest _ ih => simp [ih]

theorem append_assoc (first second third : Block) :
    (first ++ second) ++ third = first ++ (second ++ third) := by
  induction first with
  | nil => rfl
  | op operation rest ih => simp [ih]
  | loop body rest _ ih => simp [ih]

theorem reverseOnto_eq (front back : Block) :
    front.reverseOnto back = front.reverse ++ back := by
  induction front generalizing back with
  | nil => rfl
  | op operation rest ih =>
      change rest.reverseOnto (.op operation back) =
        rest.reverseOnto (.op operation .nil) ++ back
      rw [ih, ih, append_assoc]
      rfl
  | loop body rest _ ih =>
      change rest.reverseOnto (.loop body back) =
        rest.reverseOnto (.loop body .nil) ++ back
      rw [ih, ih, append_assoc]
      rfl

@[simp] theorem reverse_nil : reverse nil = nil := rfl

@[simp] theorem reverse_op (operation : Op) (rest : Block) :
    (op operation rest).reverse = rest.reverse ++ op operation nil :=
  reverseOnto_eq rest _

@[simp] theorem reverse_loop (body rest : Block) :
    (loop body rest).reverse = rest.reverse ++ loop body nil :=
  reverseOnto_eq rest _

theorem reverse_append (front back : Block) :
    (front ++ back).reverse = back.reverse ++ front.reverse := by
  induction front with
  | nil => simp
  | op operation rest ih => simp [ih, append_assoc]
  | loop body rest _ ih => simp [ih, append_assoc]

@[simp] theorem reverse_reverse (block : Block) : block.reverse.reverse = block := by
  induction block with
  | nil => rfl
  | op operation rest ih => simp [reverse_append, ih]
  | loop body rest _ ih => simp [reverse_append, ih]

theorem lengthFrom_eq (count : Nat) (block : Block) :
    block.lengthFrom count = count + block.length := by
  induction block generalizing count with
  | nil => rfl
  | op operation rest ih =>
      rw [length, lengthFrom, lengthFrom, ih, ih 1]
      omega
  | loop body rest _ ih =>
      rw [length, lengthFrom, lengthFrom, ih, ih 1]
      omega

@[simp] theorem length_nil : length nil = 0 := rfl

@[simp] theorem length_op (operation : Op) (rest : Block) :
    (op operation rest).length = rest.length + 1 := by
  rw [length, lengthFrom, lengthFrom_eq, Nat.add_comm]

@[simp] theorem length_loop (body rest : Block) :
    (loop body rest).length = rest.length + 1 := by
  rw [length, lengthFrom, lengthFrom_eq, Nat.add_comm]

end Block

/-- The block that holds one instruction. -/
def Instr.toBlock (instr : Instr) : Block :=
  .cons instr .nil

end Brainfuck
