import Mathlib.Data.List.Nodup
import Brainfuck.Asm.Backend
import Brainfuck.Proofs.Machine.Basic

/-! The lowering of trees, on any target.

A backend writes a tree down as a layout of lines, and a target that reads the single pieces reads
the whole text as the layout of what it has read. If the pieces then do their work in the registers
and the memory, the machine follows the execution of the tree. -/

namespace Brainfuck.Asm

/-! Labels. -/

namespace Label

theorem toList_name (label : Label) :
    label.name.toList = ".Lbf".toList ++ Nat.toDigits 10 label.index := by
  rw [name, String.toList_append]
  simp

theorem name_injective : Function.Injective name := by
  intro first second hname
  have hlists := congrArg String.toList hname
  rw [toList_name, toList_name] at hlists
  have hread := Text.natural?_toDigits first.index
  rw [List.append_cancel_left hlists, Text.natural?_toDigits] at hread
  cases first
  cases second
  cases hread
  rfl

theorem not_mem_name (label : Label) {char : Char} (hdigit : char.isDigit = false)
    (hfront : char ∉ ".Lbf".toList) : char ∉ label.name.toList := by
  rw [toList_name, List.mem_append]
  exact not_or.mpr ⟨hfront, Text.not_mem_toDigits hdigit label.index⟩

theorem isOperand_name (label : Label) : IsOperand label.name := by
  have hfront : IsOperand ".Lbf" := by decide
  exact hfront.append (isOperand_toString label.index)

theorem name_ne (label : Label) {name : String} (hname : '.' ∉ name.toList) :
    label.name ≠ name := by
  intro heq
  apply hname
  rw [← heq, toList_name]
  exact List.mem_cons_self

end Label

/-! A tree is written down as its layout. -/

namespace Backend

def layout (backend : Backend) : Layout Line where
  op := backend.op
  enter label :=
    backend.branchIfZero (Label.name ⟨label + 1⟩) ++ [.labelled (Label.name ⟨label⟩)]
  leave label :=
    backend.branchIfNonzero (Label.name ⟨label⟩) ++ [.labelled (Label.name ⟨label + 1⟩)]

variable (backend : Backend) (listing outer : Listing)

theorem lines_openLoop : (backend.openLoop listing).2.lines.toList =
    listing.lines.toList ++ backend.layout.enter listing.labels := by
  simp [openLoop, layout, Listing.emit, Listing.freshLabel, Listing.countOp]

theorem labels_openLoop : (backend.openLoop listing).2.labels = listing.labels + 2 := rfl

theorem lines_closeLoop :
    (backend.closeLoop (backend.openLoop outer).1 listing).lines.toList =
      listing.lines.toList ++ backend.layout.leave outer.labels := by
  simp [closeLoop, openLoop, layout, Listing.emit, Listing.freshLabel, Listing.countOp]

theorem labels_closeLoop (labels : LoopLabels) :
    (backend.closeLoop labels listing).labels = listing.labels := rfl

theorem lower_eq (block : Block) :
    (backend.lower listing block).lines.toList =
        listing.lines.toList ++ backend.layout.code listing.labels block ∧
      (backend.lower listing block).labels = listing.labels + 2 * block.loopCount := by
  rw [lower, Block.walk_eq_fold]
  induction block generalizing listing with
  | nil => simp [Block.fold, Layout.code]
  | op operation rest ih =>
      obtain ⟨hlines, hlabels⟩ := ih (backend.lowerOp listing operation)
      refine ⟨hlines.trans ?_, hlabels.trans ?_⟩
      · simp [Layout.code, layout, lowerOp, Listing.emit, Listing.countOp]
      · simp [lowerOp, Listing.emit, Listing.countOp]
  | loop body rest ihBody ihRest =>
      obtain ⟨hbody, hbodyLabels⟩ := ihBody (backend.openLoop listing).2
      obtain ⟨hrest, hrestLabels⟩ := ihRest (backend.closeLoop (backend.openLoop listing).1
        (body.fold backend.lowering (backend.openLoop listing).2))
      rw [lines_openLoop, labels_openLoop] at hbody
      rw [labels_openLoop] at hbodyLabels
      rw [lines_closeLoop, labels_closeLoop, hbody, hbodyLabels] at hrest
      rw [labels_closeLoop, hbodyLabels] at hrestLabels
      refine ⟨hrest.trans ?_, hrestLabels.trans ?_⟩
      · simp only [Layout.code, List.append_assoc]
      · rw [Block.loopCount_loop]
        omega

theorem lines_assemble (block : Block) : (backend.assemble block).lines.toList =
    backend.header ++ backend.data ++ backend.entry ++
      (backend.layout.code 0 block ++ backend.exit) := by
  have hlower := (backend.lower_eq
    (Listing.empty.emit (backend.header ++ backend.data ++ backend.entry)) block).1
  simp only [assemble, Listing.emit, Array.toList_appendList] at hlower ⊢
  rw [hlower, List.append_assoc]
  rfl

end Backend

/-! The numbers of the labels in the code of a tree. -/

def numbering : Layout Nat where
  op _ := []
  enter label := [label]
  leave label := [label + 1]

theorem numbering_loop (label : Nat) (body rest : Block) :
    numbering.code label (.loop body rest) =
      label :: (numbering.code (label + 2) body ++
        (label + 1) :: numbering.code (label + 2 + 2 * body.loopCount) rest) := by
  rw [Layout.code, List.append_assoc, List.append_assoc]
  rfl

theorem mem_numbering {label number : Nat} {block : Block}
    (hmem : number ∈ numbering.code label block) :
    label ≤ number ∧ number < label + 2 * block.loopCount := by
  induction block generalizing label with
  | nil => cases hmem
  | op operation rest ih =>
      rw [Block.loopCount_op]
      exact ih hmem
  | loop body rest ihBody ihRest =>
      rw [Block.loopCount_loop]
      rw [numbering_loop, List.mem_cons, List.mem_append, List.mem_cons] at hmem
      rcases hmem with rfl | hmem | rfl | hmem
      · omega
      · have hbounds := ihBody hmem
        omega
      · omega
      · have hbounds := ihRest hmem
        omega

theorem nodup_numbering (label : Nat) (block : Block) : (numbering.code label block).Nodup := by
  induction block generalizing label with
  | nil => exact .nil
  | op operation rest ih => exact ih label
  | loop body rest ihBody ihRest =>
      rw [numbering_loop, List.nodup_cons, List.nodup_append, List.nodup_cons]
      refine ⟨?_, ihBody _, ⟨?_, ihRest _⟩, ?_⟩
      · intro hmem
        rw [List.mem_append, List.mem_cons] at hmem
        rcases hmem with hmem | hmem | hmem
        · have hbounds := mem_numbering hmem
          omega
        · omega
        · have hbounds := mem_numbering hmem
          omega
      · intro hmem
        have hbounds := mem_numbering hmem
        omega
      · intro first hfirst second hsecond
        have hbounds := mem_numbering hfirst
        rcases List.mem_cons.mp hsecond with hsecond | hsecond
        · omega
        · have hbounds' := mem_numbering hsecond
          omega

/-! What a target reads in the lines of a backend. -/

theorem Line.reads_labelled {Instr : Type} {instr? : String → List String → Option Instr}
    (label : Label) : Line.Reads instr? (.labelled label.name) (.label label.name) := by
  have hbody : (Line.labelled label.name).body = label.name.toList ++ [':'] := by
    rw [labelled, body, String.toList_append]
    rfl
  refine ⟨?_, ?_⟩
  · rw [hbody, List.mem_append]
    intro hmem
    rcases hmem with hmem | hmem
    · exact label.not_mem_name (by decide) (by decide) hmem
    · exact absurd hmem (by decide)
  · rw [hbody]
    exact Item.read?_label (label.not_mem_name (by decide) (by decide))

/-- The instructions in the lines of a backend, as a target reads them, and the items around
them. -/
structure Code (backend : Backend) (target : Target) where
  data : List (Item target.Instr)
  setUp : List target.Instr
  op : Op → List target.Instr
  branchIfZero : String → List target.Instr
  branchIfNonzero : String → List target.Instr
  exit : List target.Instr
  pool : List (Item target.Instr)
  reads_opening : List.Forall₂ (Line.Reads target.instr?)
    (backend.header ++ backend.data ++ backend.entry)
    (data ++ .label "_start" :: setUp.map .instr)
  reads_op : ∀ operation, List.Forall₂ (Line.Reads target.instr?)
    (backend.op operation) ((op operation).map .instr)
  reads_branchIfZero : ∀ label : Label, List.Forall₂ (Line.Reads target.instr?)
    (backend.branchIfZero label.name) ((branchIfZero label.name).map .instr)
  reads_branchIfNonzero : ∀ label : Label, List.Forall₂ (Line.Reads target.instr?)
    (backend.branchIfNonzero label.name) ((branchIfNonzero label.name).map .instr)
  reads_exit : List.Forall₂ (Line.Reads target.instr?) backend.exit (exit.map .instr ++ pool)
  labels_data : data.filterMap Item.name? = ["tape"]
  labels_pool : pool.filterMap Item.name? = []
  reserves : ∀ rest, reserved? (data ++ rest) = some tapeSize

namespace Code

variable {backend : Backend} {target : Target} (code : Code backend target)

def layout : Layout (Item target.Instr) where
  op operation := (code.op operation).map .instr
  enter label :=
    (code.branchIfZero (Label.name ⟨label + 1⟩)).map .instr ++ [.label (Label.name ⟨label⟩)]
  leave label :=
    (code.branchIfNonzero (Label.name ⟨label⟩)).map .instr ++ [.label (Label.name ⟨label + 1⟩)]

def opening : List (Item target.Instr) :=
  code.data ++ .label "_start" :: code.setUp.map .instr

def closing : List (Item target.Instr) :=
  code.exit.map .instr ++ code.pool ++ [.blank]

def program (block : Block) : List (Item target.Instr) :=
  code.opening ++ (code.layout.code 0 block ++ code.closing)

theorem reads_code (label : Nat) (block : Block) :
    List.Forall₂ (Line.Reads target.instr?) (backend.layout.code label block)
      (code.layout.code label block) := by
  induction block generalizing label with
  | nil => exact .nil
  | op operation rest ih => exact List.rel_append (code.reads_op operation) (ih label)
  | loop body rest ihBody ihRest =>
      have henter := List.rel_append (code.reads_branchIfZero ⟨label + 1⟩)
        (.cons (Line.reads_labelled ⟨label⟩) .nil)
      have hleave := List.rel_append (code.reads_branchIfNonzero ⟨label⟩)
        (.cons (Line.reads_labelled ⟨label + 1⟩) .nil)
      exact List.rel_append (List.rel_append (List.rel_append henter (ihBody _)) hleave)
        (ihRest _)

theorem labels_instrs (instrs : List target.Instr) :
    (instrs.map Item.instr).filterMap Item.name? = [] := by
  rw [List.filterMap_map]
  exact List.filterMap_eq_nil_iff.mpr fun _ _ => rfl

theorem labels_code (label : Nat) (block : Block) :
    (code.layout.code label block).filterMap Item.name? =
      (numbering.code label block).map fun number => Label.name ⟨number⟩ := by
  induction block generalizing label with
  | nil => rfl
  | op operation rest ih =>
      rw [Layout.code, List.filterMap_append, ih]
      exact congrArg (· ++ _) (labels_instrs _)
  | loop body rest ihBody ihRest =>
      simp only [Layout.code, List.filterMap_append, ihBody, ihRest, List.map_append]
      simp only [layout, numbering, List.filterMap_append, labels_instrs]
      rfl

theorem labels_program (block : Block) : (code.program block).filterMap Item.name? =
    "tape" :: "_start" :: (numbering.code 0 block).map fun number => Label.name ⟨number⟩ := by
  simp only [program, opening, closing, List.filterMap_append, List.filterMap_cons, Item.name?,
    code.labels_data, labels_instrs, labels_code, code.labels_pool]
  simp

theorem nodup_program (block : Block) : ((code.program block).filterMap Item.name?).Nodup := by
  have hinjective : Function.Injective fun number => Label.name ⟨number⟩ := by
    intro first second hname
    exact congrArg Label.index (Label.name_injective hname)
  have hother : ∀ {name : String}, '.' ∉ name.toList →
      name ∉ (numbering.code 0 block).map fun number => Label.name ⟨number⟩ := by
    intro name hname hmem
    obtain ⟨number, -, heq⟩ := List.mem_map.mp hmem
    exact Label.name_ne ⟨number⟩ hname heq
  rw [labels_program, List.nodup_cons, List.nodup_cons, List.mem_cons]
  refine ⟨?_, hother (by decide), (nodup_numbering 0 block).map hinjective⟩
  intro htape
  rcases htape with htape | hmem
  · exact absurd htape (by decide)
  · exact hother (by decide) hmem

theorem assemble?_assemble (block : Block) :
    assemble? target.instr? (backend.assemble block).text = some (code.program block) := by
  have hreads : List.Forall₂ (Line.Reads target.instr?) (backend.assemble block).lines.toList
      (code.opening ++ (code.layout.code 0 block ++ (code.exit.map .instr ++ code.pool))) := by
    rw [Backend.lines_assemble]
    exact List.rel_append code.reads_opening
      (List.rel_append (code.reads_code 0 block) code.reads_exit)
  have hitems : code.opening ++ (code.layout.code 0 block ++ (code.exit.map .instr ++ code.pool)) ++
      [.blank] = code.program block := by
    simp only [program, closing, List.append_assoc]
  have hlabels := code.nodup_program block
  rw [← hitems, List.filterMap_append] at hlabels
  rw [assemble?_text hreads (List.nodup_append.mp hlabels).1, hitems]

theorem getElem?_start (block : Block) :
    (code.program block)[code.data.length]? = some (.label "_start") := by
  simp only [program, opening, List.append_assoc, List.cons_append]
  rw [List.getElem?_append_right (Nat.le_refl _), Nat.sub_self]
  rfl

theorem entry?_program (block : Block) :
    target.entry? (code.program block) = some code.data.length :=
  Target.findIdx?_defines (code.nodup_program block) (code.getElem?_start block)

theorem reserved?_program (block : Block) : reserved? (code.program block) = some tapeSize := by
  rw [program, opening, List.append_assoc]
  exact code.reserves _

end Code

end Brainfuck.Asm
