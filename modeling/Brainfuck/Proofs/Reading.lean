import Brainfuck.Block.Word
import Brainfuck.Token

/-! What a source says: its visible commands, line by line, and the tree that they spell. The scan
finds exactly those commands, and a tree that is built from a sequence has it as its linear form. -/

namespace Brainfuck

namespace Command

/-- The commands of one line: all of them, or those in front of the first `;`. -/
def visibleOnLine (comments : Bool) (line : Bytes) : List Command :=
  (if comments then line.takeWhile (· != Bytes.semicolon) else line).filterMap ofByte?

def visible (comments : Bool) (source : Bytes) : List Command :=
  (source.splitOn Bytes.newline).flatMap (visibleOnLine comments)

/-- The visible commands of some lines, the first of which may be inside a comment already. -/
def visibleFrom (comments commented : Bool) : List Bytes → List Command
  | [] => []
  | first :: lines =>
      (if commented then [] else visibleOnLine comments first) ++
        lines.flatMap (visibleOnLine comments)

theorem ofByte?_newline : ofByte? Bytes.newline = none := rfl

theorem ofByte?_semicolon : ofByte? Bytes.semicolon = none := rfl

@[simp] theorem visibleOnLine_nil (comments : Bool) : visibleOnLine comments [] = [] := by
  cases comments <;> rfl

theorem visibleOnLine_cons (comments : Bool) (byte : UInt8) (line : Bytes) :
    visibleOnLine comments (byte :: line) =
      if (comments && byte == Bytes.semicolon) = true then []
      else (ofByte? byte).toList ++ visibleOnLine comments line := by
  unfold visibleOnLine
  cases comments with
  | false =>
      simp only [Bool.false_and, Bool.false_eq_true, if_false, List.filterMap_cons]
      cases ofByte? byte <;> rfl
  | true =>
      simp only [Bool.true_and, if_true, List.takeWhile_cons]
      by_cases hbyte : byte = Bytes.semicolon
      · simp [hbyte]
      · simp only [bne_iff_ne, ne_eq, hbyte, not_false_eq_true, if_true, beq_iff_eq, if_false,
          List.filterMap_cons]
        cases ofByte? byte <;> rfl

end Command

namespace Token

theorem map_command_scanStep (comments : Bool) (cursor : Cursor) (byte : UInt8)
    (source : Bytes) :
    ((byte :: source).foldl (scanStep comments) (cursor, [])).2.reverse.map command =
      (if cursor.commented then [] else (Command.ofByte? byte).toList) ++
        (source.foldl (scanStep comments)
          (cursor.advance comments byte, [])).2.reverse.map command := by
  rw [List.foldl_cons, scanStep, foldl_scanStep, List.reverse_append, List.map_append]
  congr 1
  unfold Cursor.token?
  cases cursor.commented with
  | true => rfl
  | false => cases hbyte : Command.ofByte? byte <;> simp

theorem map_command_foldl (comments : Bool) (source : Bytes) (cursor : Cursor) :
    (source.foldl (scanStep comments) (cursor, [])).2.reverse.map command =
      Command.visibleFrom comments cursor.commented (source.splitOn Bytes.newline) := by
  induction source generalizing cursor with
  | nil =>
      rw [List.splitOn_nil]
      cases hcommented : cursor.commented <;> simp [Command.visibleFrom]
  | cons byte source ih =>
      rw [map_command_scanStep, ih, List.splitOn_cons_eq_if_modifyHead]
      cases hlines : source.splitOn Bytes.newline with
      | nil => exact absurd hlines (List.splitOn_ne_nil _ _)
      | cons first lines =>
          by_cases hnewline : byte = Bytes.newline
          · subst hnewline
            cases hcommented : cursor.commented <;>
              simp [Command.visibleFrom, Cursor.advance, Command.ofByte?_newline]
          · simp only [Cursor.advance, if_neg hnewline, beq_iff_eq, List.modifyHead_cons,
              Command.visibleFrom, Command.visibleOnLine_cons]
            cases hcommented : cursor.commented with
            | true => simp
            | false =>
                by_cases hbyte : byte = Bytes.semicolon
                · simp [hbyte, Command.ofByte?_semicolon]
                · simp [hbyte]

theorem map_command_scan (comments : Bool) (source : Bytes) :
    (scan comments source).map command = Command.visible comments source := by
  rw [scan, map_command_foldl, Command.visible]
  cases hlines : source.splitOn Bytes.newline with
  | nil => rfl
  | cons first lines => rfl

end Token

namespace Block

theorem words_append (front back : Block) : (front ++ back).words = front.words ++ back.words := by
  induction front with
  | nil => simp
  | op operation rest ih => simp [ih]
  | loop body rest _ ih => simp [ih]

namespace Builder

/-- The words from which a builder has come about. -/
def written (builder : Builder) : List Word :=
  builder.outer.foldr (fun level written => written ++ level.reverse.words ++ [.enter]) [] ++
    builder.level.reverse.words

theorem written_step? {builder builder' : Builder} {word : Word}
    (hstep : builder.step? word = some builder') :
    builder'.written = builder.written ++ [word] := by
  obtain ⟨level, outer⟩ := builder
  cases word with
  | op operation =>
      cases hstep
      simp [written, words_append]
  | enter =>
      cases hstep
      simp [written]
  | leave =>
      cases outer with
      | nil => cases hstep
      | cons around outer =>
          cases hstep
          simp [written, words_append]

theorem written_foldlM {words : List Word} {builder builder' : Builder}
    (hfold : words.foldlM step? builder = some builder') :
    builder'.written = builder.written ++ words := by
  induction words generalizing builder with
  | nil =>
      cases hfold
      rw [List.append_nil]
  | cons word words ih =>
      rw [List.foldlM_cons] at hfold
      obtain ⟨middle, hstep, hrest⟩ := Option.bind_eq_some_iff.mp hfold
      rw [ih hrest, written_step? hstep, List.append_assoc, List.singleton_append]

end Builder

/-- A tree that has been read is written back as it was. -/
theorem words_of_ofWords? {words : List Word} {block : Block}
    (hread : ofWords? words = some block) : block.words = words := by
  obtain ⟨⟨level, outer⟩, hfold, hfinish⟩ := Option.bind_eq_some_iff.mp hread
  have hwritten := Builder.written_foldlM hfold
  cases outer with
  | nil =>
      cases hfinish
      simpa [Builder.written, Builder.start] using hwritten
  | cons around outer => cases hfinish

end Block

end Brainfuck
