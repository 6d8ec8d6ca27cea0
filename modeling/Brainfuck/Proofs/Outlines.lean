import Brainfuck.Block.Metrics
import Brainfuck.Block.Outline
import Brainfuck.Proofs.TextLines

/-! The outline of a tree tells the tree.

The lines of an outline are the instructions in the order in which they are met, each indented by
the loops around it. A label starts with no blank, so a line tells the depth and the label of its
instruction. Nothing marks the end of a loop, but whatever follows a block is less deep than the
block, and so a block is told apart from what follows it. -/

namespace Brainfuck

namespace Op

theorem not_mem_enclosed {front : String} (hfront : '\n' ∉ front.toList) (value : Int) :
    '\n' ∉ (front ++ toString value ++ ")").toList :=
  Text.not_mem_append (Text.not_mem_append hfront
    (Text.not_mem_toString_int (by decide) (by decide) value)) (by decide)

theorem not_mem_text (operation : Op) : '\n' ∉ operation.text.toList := by
  cases operation with
  | add delta => exact not_mem_enclosed (by decide) delta.toInt
  | move delta => exact not_mem_enclosed (by decide) delta.toInt
  | set value => exact not_mem_enclosed (by decide) value.toInt
  | get => decide
  | put => decide

def initial : Op → Char
  | .add _ => 'A'
  | .move _ => 'M'
  | .set _ => 'S'
  | .get => 'G'
  | .put => 'P'

theorem head?_text (operation : Op) : operation.text.toList.head? = some operation.initial := by
  cases operation <;> simp [text, initial]

theorem operand_injective {front back : String} {left right : Int64}
    (htext : front ++ toString left.toInt ++ back = front ++ toString right.toInt ++ back) :
    left = right := by
  rw [String.append_left_inj, String.append_right_inj] at htext
  exact Int64.toInt_inj.mp (Text.toString_int_injective htext)

theorem text_injective : Function.Injective text := by
  intro first second htext
  have hinitial : first.initial = second.initial := by
    have hheads := congrArg (fun text => text.toList.head?) htext
    rw [head?_text, head?_text] at hheads
    exact Option.some.inj hheads
  cases first with
  | add left =>
      cases second with
      | add right => exact congrArg add (operand_injective htext)
      | _ => simp [initial] at hinitial
  | move left =>
      cases second with
      | move right => exact congrArg move (operand_injective htext)
      | _ => simp [initial] at hinitial
  | set left =>
      cases second with
      | set right => exact congrArg set (operand_injective htext)
      | _ => simp [initial] at hinitial
  | get =>
      cases second with
      | get => rfl
      | _ => simp [initial] at hinitial
  | put =>
      cases second with
      | put => rfl
      | _ => simp [initial] at hinitial

end Op

def Instr.label : Instr → String
  | .op operation => operation.text
  | .loop _ => "Loop"

theorem Instr.not_mem_label (instr : Instr) : '\n' ∉ instr.label.toList := by
  cases instr with
  | op operation => exact operation.not_mem_text
  | loop body => exact (by decide : '\n' ∉ "Loop".toList)

theorem Instr.head?_label_ne (instr : Instr) : instr.label.toList.head? ≠ some ' ' := by
  cases instr with
  | op operation =>
      rw [label, Op.head?_text]
      cases operation <;> simp [Op.initial]
  | loop body => exact (by decide : "Loop".toList.head? ≠ some ' ')

theorem Op.text_ne_loop (operation : Op) : operation.text ≠ "Loop" := by
  intro htext
  have hheads := congrArg (fun text => text.toList.head?) htext
  rw [head?_text] at hheads
  cases operation <;> simp [initial] at hheads

/-- An instruction of a tree, with the number of loops around it. -/
structure Entry where
  depth : Nat
  instr : Instr

namespace Entry

def row (entry : Entry) : Row :=
  ⟨entry.depth, entry.instr.label⟩

/-- The label behind two blanks for each loop. -/
def line (entry : Entry) : List Char :=
  List.replicate (2 * entry.depth) ' ' ++ entry.instr.label.toList

theorem toList_text_row (entry : Entry) : entry.row.text.toList = entry.line ++ ['\n'] := by
  simp [Row.text, row, line, Text.toList_pushn]

theorem not_mem_line (entry : Entry) : '\n' ∉ entry.line := by
  rw [line, List.mem_append]
  intro hmem
  rcases hmem with hblank | hlabel
  · exact absurd (List.eq_of_mem_replicate hblank) (by decide)
  · exact entry.instr.not_mem_label hlabel

end Entry

/-- The row that is written as a line. -/
def Row.ofLine (line : List Char) : Row :=
  ⟨(line.takeWhile (· == ' ')).length / 2, .ofList (line.dropWhile (· == ' '))⟩

theorem Row.ofLine_line (entry : Entry) : ofLine entry.line = entry.row := by
  have hblanks : ∀ char ∈ List.replicate (2 * entry.depth) ' ', (char == ' ') = true := by
    intro char hmem
    exact beq_iff_eq.mpr (List.eq_of_mem_replicate hmem)
  have hlabel := Text.dropWhile_blank entry.instr.head?_label_ne
  have hnone : entry.instr.label.toList.takeWhile (· == ' ') = [] := by
    have hparts := List.takeWhile_append_dropWhile (p := (· == ' ')) (l := entry.instr.label.toList)
    rwa [hlabel, List.append_left_eq_self] at hparts
  rw [ofLine, Entry.line, List.takeWhile_append_of_pos hblanks,
    List.dropWhile_append_of_pos hblanks, hlabel, hnone]
  simp [Entry.row]

namespace Block

/-- The instructions of a tree, each in front of those inside it. The tree itself stands inside
`depth` loops. -/
def entries (depth : Nat) : Block → List Entry
  | .nil => []
  | .op operation rest => ⟨depth, .op operation⟩ :: rest.entries depth
  | .loop body rest =>
      ⟨depth, .loop body⟩ :: (body.entries (depth + 1) ++ rest.entries depth)

theorem length_entries (depth : Nat) (block : Block) :
    (block.entries depth).length = block.opCount + block.loopCount := by
  induction block generalizing depth with
  | nil => simp [entries]
  | op operation rest ih =>
      rw [entries, List.length_cons, ih, opCount_op, loopCount_op]
      omega
  | loop body rest ihBody ihRest =>
      rw [entries, List.length_cons, List.length_append, ihBody, ihRest, opCount_loop,
        loopCount_loop]
      omega

theorem fold_writeOutline (block : Block) (outline : Outline) :
    block.fold writeOutline outline =
      ⟨outline.depth, outline.rows ++ ((block.entries outline.depth).map Entry.row).toArray⟩ := by
  induction block generalizing outline with
  | nil => simp [fold, entries]
  | op operation rest ih =>
      rw [fold, ih]
      simp [writeOutline, Outline.add, entries, Entry.row, Instr.label]
  | loop body rest ihBody ihRest =>
      rw [fold, ihRest, ihBody]
      simp [writeOutline, Outline.add, Outline.indent, entries, Entry.row, Instr.label]

theorem toList_rows (block : Block) : block.rows.toList = (block.entries 0).map Entry.row := by
  rw [rows, walk_eq_fold, fold_writeOutline]
  simp [Outline.start]

theorem splitOn_outline (block : Block) :
    block.outline.toList.splitOn '\n' = (block.entries 0).map Entry.line ++ [[]] := by
  rw [← Text.splitOn_flatMap fun entry _ => entry.not_mem_line, outline, ← Array.foldl_toList,
    Text.toList_foldl_append, toList_rows, List.flatMap_map]
  simp only [Entry.toList_text_row]
  rfl

/-- What follows a block in an outline is less deep. -/
def Shallow (depth : Nat) (more : List Row) : Prop :=
  ∀ row ∈ more.head?, row.depth < depth

theorem shallow_rows {depth : Nat} {more : List Row} (hmore : Shallow depth more)
    (block : Block) : Shallow (depth + 1) ((block.entries depth).map Entry.row ++ more) := by
  cases block with
  | nil =>
      intro row hrow
      exact Nat.lt_succ_of_lt (hmore row hrow)
  | op operation rest =>
      rintro row ⟨⟩
      exact Nat.lt_succ_self depth
  | loop body rest =>
      rintro row ⟨⟩
      exact Nat.lt_succ_self depth

theorem Shallow.ne_cons {depth : Nat} {more : List Row} (hmore : Shallow depth more)
    (label : String) (rows : List Row) : more ≠ ⟨depth, label⟩ :: rows := by
  rintro rfl
  exact Nat.lt_irrefl depth (hmore _ rfl)

/-- The rows of a block end where a less deep one follows, so they tell the block. -/
theorem rows_append_inj {depth : Nat} {left right : Block} {more more' : List Row}
    (hmore : Shallow depth more) (hmore' : Shallow depth more')
    (hrows : (left.entries depth).map Entry.row ++ more =
      (right.entries depth).map Entry.row ++ more') : left = right ∧ more = more' := by
  induction left generalizing depth right more more' with
  | nil =>
      cases right with
      | nil => exact ⟨rfl, hrows⟩
      | op operation rest => exact absurd hrows (hmore.ne_cons _ _)
      | loop body rest => exact absurd hrows (hmore.ne_cons _ _)
  | op operation rest ih =>
      cases right with
      | nil => exact absurd hrows.symm (hmore'.ne_cons _ _)
      | op operation' rest' =>
          obtain ⟨hrow, hrest⟩ := List.cons.inj hrows
          have hoperation := Op.text_injective (congrArg Row.label hrow)
          obtain ⟨rfl, hmores⟩ := ih hmore hmore' hrest
          exact ⟨congrArg (op · rest) hoperation, hmores⟩
      | loop body rest' =>
          have hlabel := congrArg Row.label (List.cons.inj hrows).1
          exact absurd hlabel operation.text_ne_loop
  | loop body rest ihBody ihRest =>
      cases right with
      | nil => exact absurd hrows.symm (hmore'.ne_cons _ _)
      | op operation rest' =>
          have hlabel := congrArg Row.label (List.cons.inj hrows).1
          exact absurd hlabel.symm operation.text_ne_loop
      | loop body' rest' =>
          rw [entries, entries, List.map_cons, List.map_cons, List.map_append, List.map_append,
            List.cons_append, List.cons_append, List.append_assoc, List.append_assoc] at hrows
          have hinside := (List.cons.inj hrows).2
          obtain ⟨rfl, hbehind⟩ :=
            ihBody (shallow_rows hmore rest) (shallow_rows hmore' rest') hinside
          obtain ⟨rfl, hmores⟩ := ihRest hmore hmore' hbehind
          exact ⟨rfl, hmores⟩

theorem outline_injective : Function.Injective outline := by
  intro left right houtline
  have hlines := congrArg (fun text => text.toList.splitOn '\n') houtline
  simp only [splitOn_outline, List.append_left_inj] at hlines
  have hrows := congrArg (List.map Row.ofLine) hlines
  simp only [List.map_map, Function.comp_def, Row.ofLine_line] at hrows
  have hempty : Shallow 0 [] := by
    rintro row ⟨⟩
  exact (rows_append_inj hempty hempty (by simpa using hrows)).1

/-- Two trees with one outline are one tree, with a heading line above it or without. The outline
has a line for each operation and each loop, in the order in which they are met, and each line is
indented by two blanks for every loop around its instruction. -/
theorem outline_tells_tree (block : Block) :
    (∀ other : Block, block.outline = other.outline ↔ block = other) ∧
      (∀ other : Block, block.inspect = other.inspect ↔ block = other) ∧
      block.outline.toList.splitOn '\n' = (block.entries 0).map Entry.line ++ [[]] ∧
      (block.entries 0).length = block.opCount + block.loopCount := by
  refine ⟨fun other => outline_injective.eq_iff, fun other => ?_, block.splitOn_outline,
    block.length_entries 0⟩
  rw [inspect, inspect, String.append_right_inj, outline_injective.eq_iff]

end Block

end Brainfuck
