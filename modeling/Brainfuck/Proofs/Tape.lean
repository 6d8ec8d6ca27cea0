import Mathlib.Algebra.Group.Action.Defs
import Mathlib.Algebra.Group.Int.Defs
import Mathlib.Logic.Function.Basic
import Brainfuck.Bytes
import Brainfuck.Op

/-! The tape that operations work on: byte cells, a pointer to one of them, the input still to be
read and the output written so far.

Cells are numbered by any type on which the integers act by translation: the integers themselves,
for a tape without ends, or the 64-bit words, for a memory whose addresses wrap around. -/

namespace Brainfuck

structure Tape (A : Type) where
  cells : A → UInt8
  pointer : A
  input : Bytes
  output : Bytes

instance addActionAddress : AddAction ℤ UInt64 where
  vadd distance address := address + .ofInt distance
  zero_vadd address := UInt64.add_zero address
  add_vadd first second address := by
    change address + .ofInt (first + second) = address + .ofInt second + .ofInt first
    rw [UInt64.ofInt_add, UInt64.add_comm (.ofInt first), UInt64.add_assoc]

theorem vadd_address (distance : ℤ) (address : UInt64) :
    distance +ᵥ address = address + .ofInt distance := rfl

theorem vadd_natCast (distance : ℕ) (address : UInt64) :
    (distance : ℤ) +ᵥ address = address + .ofNat distance := by
  have hofInt : UInt64.ofInt distance = .ofNat distance := by
    apply UInt64.toNat_inj.mp
    rw [UInt64.ofInt, UInt64.toNat_ofNat', UInt64.toNat_ofNat']
    omega
  rw [vadd_address, hofInt]

namespace Tape

variable {A : Type}

/-- The unbounded tape on which a program starts. -/
def blank (input : Bytes) : Tape ℤ :=
  ⟨fun _ => 0, 0, input, []⟩

def cell (tape : Tape A) : UInt8 :=
  tape.cells tape.pointer

def write [DecidableEq A] (tape : Tape A) (value : UInt8) : Tape A :=
  { tape with cells := Function.update tape.cells tape.pointer value }

def move [AddAction ℤ A] (tape : Tape A) (distance : ℤ) : Tape A :=
  { tape with pointer := distance +ᵥ tape.pointer }

/-- At the end of the input the cell stays as it is. -/
def get [DecidableEq A] (tape : Tape A) : Tape A :=
  match tape.input with
  | [] => tape
  | byte :: rest => { tape.write byte with input := rest }

def put (tape : Tape A) : Tape A :=
  { tape with output := tape.output ++ [tape.cell] }

section Write

variable [DecidableEq A] (tape : Tape A) (value : UInt8)

@[simp] theorem cell_write : (tape.write value).cell = value :=
  Function.update_self _ _ _

@[simp] theorem write_write (later : UInt8) :
    (tape.write value).write later = tape.write later := by
  simp [write]

@[simp] theorem write_cell : tape.write tape.cell = tape := by
  simp [write, cell]

@[simp] theorem output_get : tape.get.output = tape.output := by
  unfold get
  split <;> rfl

end Write

section Move

variable [AddAction ℤ A] (tape : Tape A) (distance : ℤ)

@[simp] theorem move_zero : tape.move 0 = tape := by
  simp [move]

theorem move_move (later : ℤ) :
    (tape.move distance).move later = tape.move (distance + later) := by
  simp [move, add_comm distance, add_vadd]

end Move

end Tape

namespace Op

variable {A : Type} [DecidableEq A] [AddAction ℤ A]

/-- What an operation does. Cells count modulo 256; the pointer moves by the exact distance. -/
def apply (operation : Op) (tape : Tape A) : Tape A :=
  match operation with
  | .add delta => tape.write (tape.cell + .ofInt delta.toInt)
  | .move delta => tape.move delta.toInt
  | .set value => tape.write (.ofInt value.toInt)
  | .get => tape.get
  | .put => tape.put

/-- Whether an operation reads or writes the cell at the pointer. At the end of the input nothing
is got. -/
def touches (operation : Op) (tape : Tape A) : Bool :=
  match operation with
  | .move _ => false
  | .get => !tape.input.isEmpty
  | _ => true

omit [DecidableEq A] [AddAction ℤ A] in
theorem touches_get {tape : Tape A} {byte : UInt8} {rest : Bytes}
    (hinput : tape.input = byte :: rest) : get.touches tape = true := by
  change (!tape.input.isEmpty) = true
  rw [hinput]
  rfl

theorem output_apply (operation : Op) (tape : Tape A) :
    tape.output <+: (operation.apply tape).output := by
  cases operation with
  | add delta => exact List.prefix_refl _
  | move delta => exact List.prefix_refl _
  | set value => exact List.prefix_refl _
  | get =>
      exact tape.output_get.symm ▸ List.prefix_refl _
  | put => exact List.prefix_append _ _

theorem toInt_emod (operand : Int64) :
    operand.toInt % 2 ^ 64 = operand.toUInt64.toNat := by
  have hbmod : operand.toInt = (operand.toUInt64.toNat : ℤ).bmod (2 ^ 64) := by
    rw [← Int64.toInt_toBitVec, BitVec.toInt_eq_toNat_bmod]
    rfl
  have hlt := operand.toUInt64.toNat_lt
  rw [hbmod, Int.bmod_def]
  split <;> omega

theorem toUInt64_eq_ofInt (operand : Int64) : operand.toUInt64 = .ofInt operand.toInt := by
  rw [UInt64.ofInt, toInt_emod, Int.toNat_natCast, UInt64.ofNat_toNat]

/-- The residue that the backends work with is the one that the cells count with. -/
theorem cell_eq_ofInt (operand : Int64) : cell operand = .ofInt operand.toInt := by
  have hemod := toInt_emod operand
  apply UInt8.toNat_inj.mp
  rw [cell, UInt64.toNat_toUInt8, UInt8.ofInt, UInt8.toNat_ofNat']
  omega

end Op

end Brainfuck
