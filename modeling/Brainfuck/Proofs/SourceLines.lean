import Brainfuck.Proofs.LossyText
import Brainfuck.Proofs.VisibleCommands
import Brainfuck.Source

/-! The lines of a source and its text.

A source is cut at its newlines and each line is read on its own. A newline is a character by
itself and ends whatever sequence stands in front of it, as the end of the bytes does. So the lines
that are read one by one are the lines of the whole text. -/

namespace Brainfuck

namespace Text.Utf8

theorem decode_append_newline (front back : Bytes) :
    decode (front ++ Bytes.newline :: back) = decode front ++ "\n" ++ decode back := by
  have hascii : IsAscii Bytes.newline := by decide
  apply String.toList_inj.mp
  rw [toList_decode_append hascii, String.toList_append, String.toList_append, List.append_assoc]
  rfl

theorem decode_intercalate (lines : List Bytes) :
    decode ([Bytes.newline].intercalate lines) = "\n".intercalate (lines.map decode) := by
  induction lines with
  | nil => simp
  | cons line lines ih =>
      cases lines with
      | nil => simp
      | cons next lines =>
          simp only [List.intercalate_cons_cons, List.append_assoc, List.singleton_append,
            List.map_cons, String.intercalate_cons_cons] at ih ⊢
          rw [decode_append_newline, ih]

end Text.Utf8

namespace Source

theorem isSome_line? (source : Source) (number : Nat) :
    (source.line? number).isSome = true ↔
      1 ≤ number ∧ number ≤ source.bytes.count Bytes.newline + 1 := by
  cases number with
  | zero => simp [line?]
  | succ index =>
      rw [line?, Option.isSome_map, Option.isSome_iff_ne_none, ne_eq, List.getElem?_eq_none_iff,
        Bytes.length_splitOn]
      omega

theorem map_line? (source : Source) :
    (List.range' 1 (source.bytes.count Bytes.newline + 1)).map source.line? =
      ((source.bytes.splitOn Bytes.newline).map Text.Utf8.decode).map some := by
  rw [← Bytes.length_splitOn]
  apply List.ext_getElem
  · simp
  · intro index _ hindex
    have hline : index < (source.bytes.splitOn Bytes.newline).length := by
      simpa using hindex
    simp [Nat.add_comm 1 index, line?, hline]

/-- The lines of a source have the numbers from one to one more than it has newlines, and joined by
newlines they are the text of the whole source, whatever its bytes. -/
theorem lines_join_text (source : Source) :
    (∀ number, (source.line? number).isSome = true ↔
      1 ≤ number ∧ number ≤ source.bytes.count Bytes.newline + 1) ∧
    ∃ lines : List String,
      (List.range' 1 (source.bytes.count Bytes.newline + 1)).map source.line? = lines.map some ∧
      "\n".intercalate lines = Text.Utf8.decode source.bytes := by
  refine ⟨source.isSome_line?, _, source.map_line?, ?_⟩
  rw [← Text.Utf8.decode_intercalate, List.intercalate_splitOn]

/-! `é` cut off in front of a newline, then a stray byte, then `é` cut off at the end. -/

example :
    let source : Source := ⟨.ofString "prog.bf", [0x2B, 0xC3, 0x0A, 0xFF, 0x0A, 0x0A, 0xC3]⟩
    (List.range 6).map source.line? =
      [none, some "+\ufffd", some "\ufffd", some "", some "\ufffd", none] := by
  cbv

end Source

end Brainfuck
