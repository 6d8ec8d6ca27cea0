import Mathlib.Data.List.DropRight
import Brainfuck.Token

/-! The places of the visible commands.

The line and the column of a byte are told by the bytes in front of it, and so is whether a comment
covers it. The scan comes to the same places in one pass. -/

namespace Brainfuck

/-- The bytes of a line that stand in front of `index`. -/
def Bytes.lineBefore (source : Bytes) (index : Nat) : Bytes :=
  (source.take index).rtakeWhile (· != newline)

def Position.ofIndex (source : Bytes) (index : Nat) : Position :=
  ⟨(source.take index).count Bytes.newline + 1, (Bytes.lineBefore source index).length + 1⟩

namespace Token

/-- The command that is visible at a byte: the byte spells one, and if there are comments, no `;`
stands in front of it on its line. -/
def shown? (comments : Bool) (source : Bytes) (index : Nat) : Option Token :=
  if comments = true ∧ Bytes.semicolon ∈ Bytes.lineBefore source index then
    none
  else
    (source[index]?.bind Command.ofByte?).map fun command => ⟨command, .ofIndex source index⟩

def shown (comments : Bool) (source : Bytes) : List Token :=
  (List.range source.length).filterMap (shown? comments source)

end Token

namespace Bytes

variable (source : Bytes)

theorem lineBefore_append {index : Nat} (hindex : index ≤ source.length)
    (more : Bytes) : lineBefore (source ++ more) index = lineBefore source index := by
  rw [lineBefore, List.take_append_of_le_length hindex, lineBefore]

theorem lineBefore_newline :
    lineBefore (source ++ [newline]) (source.length + 1) = [] := by
  rw [lineBefore, List.take_of_length_le (by simp)]
  exact List.rtakeWhile_concat_neg _ _ _ (by simp)

theorem lineBefore_concat {byte : UInt8} (hbyte : byte ≠ newline) :
    lineBefore (source ++ [byte]) (source.length + 1) =
      lineBefore source source.length ++ [byte] := by
  rw [lineBefore, lineBefore, List.take_of_length_le (by simp), List.take_length]
  exact List.rtakeWhile_concat_pos _ _ _ (by simpa using hbyte)

end Bytes

namespace Position

variable (source : Bytes)

theorem ofIndex_append {index : Nat} (hindex : index ≤ source.length) (more : Bytes) :
    ofIndex (source ++ more) index = ofIndex source index := by
  rw [ofIndex, ofIndex, Bytes.lineBefore_append source hindex,
    List.take_append_of_le_length hindex]

theorem ofIndex_newline :
    ofIndex (source ++ [Bytes.newline]) (source.length + 1) =
      (ofIndex source source.length).nextLine := by
  rw [ofIndex, Bytes.lineBefore_newline, List.take_of_length_le (by simp)]
  simp [ofIndex, nextLine]

theorem ofIndex_concat {byte : UInt8} (hbyte : byte ≠ Bytes.newline) :
    ofIndex (source ++ [byte]) (source.length + 1) =
      (ofIndex source source.length).nextColumn := by
  rw [ofIndex, Bytes.lineBefore_concat source hbyte, List.take_of_length_le (by simp)]
  simp [ofIndex, nextColumn, hbyte]

end Position

namespace Cursor

/-- The cursor behind all of a source. -/
def behind (comments : Bool) (source : Bytes) : Cursor :=
  ⟨.ofIndex source source.length,
    comments && decide (Bytes.semicolon ∈ Bytes.lineBefore source source.length)⟩

theorem advance_behind (comments : Bool) (source : Bytes) (byte : UInt8) :
    (behind comments source).advance comments byte = behind comments (source ++ [byte]) := by
  unfold advance behind
  rw [List.length_append, List.length_singleton]
  by_cases hbyte : byte = Bytes.newline
  · subst hbyte
    simp [Position.ofIndex_newline, Bytes.lineBefore_newline]
  · rw [if_neg hbyte, Position.ofIndex_concat source hbyte, Bytes.lineBefore_concat source hbyte]
    cases comments <;> simp [eq_comm, beq_eq_decide]

theorem token?_behind (comments : Bool) (source : Bytes) (byte : UInt8) :
    (behind comments source).token? byte =
      Token.shown? comments (source ++ [byte]) source.length := by
  unfold token? behind Token.shown?
  rw [Bytes.lineBefore_append source (Nat.le_refl _),
    Position.ofIndex_append source (Nat.le_refl _)]
  simp

end Cursor

namespace Token

theorem shown?_append {source : Bytes} {index : Nat} (hindex : index < source.length)
    (comments : Bool) (more : Bytes) :
    shown? comments (source ++ more) index = shown? comments source index := by
  rw [shown?, Bytes.lineBefore_append source (Nat.le_of_lt hindex),
    Position.ofIndex_append source (Nat.le_of_lt hindex), List.getElem?_append_left hindex, shown?]

theorem shown_concat (comments : Bool) (source : Bytes) (byte : UInt8) :
    shown comments (source ++ [byte]) =
      shown comments source ++ (shown? comments (source ++ [byte]) source.length).toList := by
  have hearlier : (List.range source.length).filterMap (shown? comments (source ++ [byte])) =
      shown comments source :=
    List.filterMap_congr fun index hindex => shown?_append (List.mem_range.mp hindex) _ _
  rw [shown, List.length_append, List.length_singleton, List.range_succ, List.filterMap_append,
    hearlier]
  cases hlast : shown? comments (source ++ [byte]) source.length <;> simp [hlast]

theorem foldl_scanStep_eq (comments : Bool) (source : Bytes) :
    source.foldl (scanStep comments) (.start, []) =
      (.behind comments source, (shown comments source).reverse) := by
  induction source using List.reverseRecOn with
  | nil => cases comments <;> rfl
  | append_singleton source byte ih =>
      rw [List.foldl_concat, ih, scanStep, Cursor.advance_behind, Cursor.token?_behind,
        shown_concat]
      cases shown? comments (source ++ [byte]) source.length <;> simp

/-- The scan finds the visible commands, in the order of their bytes and with their places. -/
theorem scan_eq_shown (comments : Bool) (source : Bytes) :
    scan comments source = shown comments source := by
  rw [scan, foldl_scanStep_eq, List.reverse_reverse]

end Token

end Brainfuck
