import Brainfuck.Proofs.Tape

/-! A tape in memory.

The cells of the unbounded tape from zero up to a size are bytes of memory from a base address on.
What lies outside of this window does not matter as long as it is not touched; the pointer may leave
the window, and its address wraps around. -/

namespace Brainfuck.Tape

def inWindow (size : Nat) (index : ℤ) : Prop :=
  0 ≤ index ∧ index < size

structure Mirrors (base : UInt64) (size : Nat) (tape : Tape ℤ) (image : Tape UInt64) : Prop where
  cells : ∀ index, inWindow size index → image.cells (index +ᵥ base) = tape.cells index
  pointer : image.pointer = tape.pointer +ᵥ base
  input : image.input = tape.input
  output : image.output = tape.output

/-- The cells of a window have addresses of their own. -/
theorem vadd_base_inj {base : UInt64} {size : Nat} (hsize : size ≤ UInt64.size) {first second : ℤ}
    (hfirst : inWindow size first) (hsecond : inWindow size second)
    (haddress : first +ᵥ base = second +ᵥ base) : first = second := by
  rw [vadd_address, vadd_address, UInt64.add_right_inj] at haddress
  have hwords := congrArg UInt64.toNat haddress
  rw [UInt64.ofInt, UInt64.ofInt, UInt64.toNat_ofNat', UInt64.toNat_ofNat'] at hwords
  unfold UInt64.size at hsize
  obtain ⟨hfirst, hfirst'⟩ := hfirst
  obtain ⟨hsecond, hsecond'⟩ := hsecond
  omega

namespace Mirrors

variable {base : UInt64} {size : Nat} {tape : Tape ℤ} {image : Tape UInt64}

theorem cell (hmirrors : Mirrors base size tape image) (hwindow : inWindow size tape.pointer) :
    image.cell = tape.cell := by
  rw [Tape.cell, hmirrors.pointer, hmirrors.cells _ hwindow, Tape.cell]

theorem write (hmirrors : Mirrors base size tape image) (hsize : size ≤ UInt64.size)
    (hwindow : inWindow size tape.pointer) (value : UInt8) :
    Mirrors base size (tape.write value) (image.write value) := by
  refine ⟨?_, hmirrors.pointer, hmirrors.input, hmirrors.output⟩
  intro index hindex
  change Function.update image.cells image.pointer value (index +ᵥ base) =
    Function.update tape.cells tape.pointer value index
  rw [hmirrors.pointer]
  by_cases hhere : index = tape.pointer
  · rw [hhere, Function.update_self, Function.update_self]
  · have haddress : index +ᵥ base ≠ tape.pointer +ᵥ base :=
      fun heq => hhere (vadd_base_inj hsize hindex hwindow heq)
    rw [Function.update_of_ne haddress, Function.update_of_ne hhere, hmirrors.cells _ hindex]

theorem touches (hmirrors : Mirrors base size tape image) (operation : Op) :
    operation.touches image = operation.touches tape := by
  unfold Op.touches
  rw [hmirrors.input]

theorem apply (hmirrors : Mirrors base size tape image) (hsize : size ≤ UInt64.size)
    (operation : Op) (hwindow : operation.touches tape = true → inWindow size tape.pointer) :
    Mirrors base size (operation.apply tape) (operation.apply image) := by
  cases operation with
  | add delta =>
      rw [Op.apply, Op.apply, hmirrors.cell (hwindow rfl)]
      exact hmirrors.write hsize (hwindow rfl) _
  | move delta =>
      refine ⟨hmirrors.cells, ?_, hmirrors.input, hmirrors.output⟩
      change delta.toInt +ᵥ image.pointer = (delta.toInt + tape.pointer) +ᵥ base
      rw [hmirrors.pointer, add_vadd]
  | set value => exact hmirrors.write hsize (hwindow rfl) _
  | get =>
      change Mirrors base size tape.get image.get
      have hinput := hmirrors.input
      cases hbytes : tape.input with
      | nil =>
          rw [hbytes] at hinput
          rw [Tape.get, Tape.get, hbytes, hinput]
          exact hmirrors
      | cons byte rest =>
          rw [hbytes] at hinput
          have hwritten := hmirrors.write hsize (hwindow (Op.touches_get hbytes)) byte
          rw [Tape.get, Tape.get, hbytes, hinput]
          exact ⟨hwritten.cells, hwritten.pointer, rfl, hwritten.output⟩
  | put =>
      refine ⟨hmirrors.cells, hmirrors.pointer, hmirrors.input, ?_⟩
      change image.output ++ [image.cell] = tape.output ++ [tape.cell]
      rw [hmirrors.cell (hwindow rfl), hmirrors.output]

end Mirrors

end Brainfuck.Tape
