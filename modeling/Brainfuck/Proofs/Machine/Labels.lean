import Mathlib.Data.List.Count
import Brainfuck.Proofs.Loops
import Brainfuck.Proofs.Machine.AArch64
import Brainfuck.Proofs.Machine.X64

/-! The labels in a listing.

Every loop owns two labels. Each of them is defined by one line of the text and is the target of one
branch, and no other line mentions a label. The lines of the loops are nested as the loops are. -/

namespace Brainfuck

/-! What the code of a tree consists of. -/

namespace Layout

variable {I : Type} {layout : Layout I}

theorem forall_mem_code {property : I → Prop} {label : Nat} {block : Block}
    (hop : ∀ operation, ∀ item ∈ layout.op operation, property item)
    (hends : ∀ number, label ≤ number → number + 1 < label + 2 * block.loopCount →
      ∀ item ∈ layout.enter number ++ layout.leave number, property item) :
    ∀ item ∈ layout.code label block, property item := by
  induction block generalizing label with
  | nil => simp [code]
  | op operation rest ih =>
      rw [Block.loopCount_op] at hends
      intro item hitem
      rcases List.mem_append.mp hitem with hitem | hitem
      · exact hop operation item hitem
      · exact ih hends item hitem
  | loop body rest ihBody ihRest =>
      rw [Block.loopCount_loop] at hends
      have hown := hends label (Nat.le_refl _) (by omega)
      intro item hitem
      rw [code, List.mem_append, List.mem_append, List.mem_append] at hitem
      rcases hitem with ((hitem | hitem) | hitem) | hitem
      · exact hown item (List.mem_append_left _ hitem)
      · refine ihBody ?_ item hitem
        intro number hlow hhigh
        exact hends number (by omega) (by omega)
      · exact hown item (List.mem_append_right _ hitem)
      · refine ihRest ?_ item hitem
        intro number hlow hhigh
        exact hends number (by omega) (by omega)

/-- What each loop has once for each of its labels, the code has once for each label. -/
theorem measure_code (measure : List I → Nat) {number : Nat}
    (happend : ∀ front back, measure (front ++ back) = measure front + measure back)
    (hop : ∀ operation, measure (layout.op operation) = 0)
    (hends : ∀ label, measure (layout.enter label ++ layout.leave label) =
      if label = number ∨ label + 1 = number then 1 else 0)
    (label : Nat) (block : Block) :
    measure (layout.code label block) =
      if label ≤ number ∧ number < label + 2 * block.loopCount then 1 else 0 := by
  induction block generalizing label with
  | nil =>
      have hnil := happend [] []
      rw [code, Block.loopCount_nil, if_neg (by omega)]
      simpa using hnil
  | op operation rest ih =>
      rw [code, happend, hop, ih, Block.loopCount_op, Nat.zero_add]
  | loop body rest ihBody ihRest =>
      have hown := hends label
      rw [happend] at hown
      rw [code, happend, happend, happend, ihBody, ihRest, Block.loopCount_loop]
      split_ifs at hown ⊢ <;> omega

end Layout

namespace Asm

/-! The lines of a text. -/

/-- Every line ends with a newline. -/
def rowsOf (text : String) : List String :=
  (text.toList.splitOn '\n').dropLast.map String.ofList

namespace Line

def row : Line → String
  | .flush text => text
  | .indented text => "    " ++ text

theorem toList_row (line : Line) : line.row.toList = line.body := by
  cases line with
  | flush text => rfl
  | indented text => exact String.toList_append

end Line

theorem rowsOf_text {listing : Listing}
    (hsingle : ∀ line ∈ listing.lines.toList, '\n' ∉ line.body) :
    rowsOf listing.text = listing.lines.toList.map Line.row := by
  rw [rowsOf, Listing.toList_text, Text.splitOn_flatMap hsingle, List.dropLast_concat, List.map_map]
  refine List.map_congr_left ?_
  intro line _
  rw [Function.comp_apply, ← Line.toList_row, String.ofList_toList]

theorem single_of_reads {Instr : Type} {instr? : String → List String → Option Instr}
    {lines : List Line} {items : List (Item Instr)}
    (hreads : List.Forall₂ (Line.Reads instr?) lines items) :
    ∀ line ∈ lines, '\n' ∉ line.body := by
  induction hreads with
  | nil => simp
  | cons hread _ ih => exact List.forall_mem_cons.mpr ⟨hread.single, ih⟩

/-! The marks of the loops. -/

/-- How the two branches of a loop are written, up to the label. -/
structure Branches where
  ifZero : String
  ifNonzero : String

/-- What a line can do with the label of some number. -/
inductive Mark where
  | definition (number : Nat)
  | branchIfZero (number : Nat)
  | branchIfNonzero (number : Nat)
deriving DecidableEq

namespace Mark

def number : Mark → Nat
  | .definition number => number
  | .branchIfZero number => number
  | .branchIfNonzero number => number

def line (branches : Branches) : Mark → Line
  | .definition number => .labelled (Label.name ⟨number⟩)
  | .branchIfZero number => .indented (branches.ifZero ++ Label.name ⟨number⟩)
  | .branchIfNonzero number => .indented (branches.ifNonzero ++ Label.name ⟨number⟩)

def row (branches : Branches) (mark : Mark) : String :=
  (mark.line branches).row

/-- The marks of the loop with the labels `label` and `label + 1`, in the order of their lines. -/
def ofLoop (label : Nat) : List Mark :=
  [.branchIfZero (label + 1), .definition label, .branchIfNonzero label,
    .definition (label + 1)]

theorem countP_definition (label number : Nat) :
    (ofLoop label).countP (· ∈ [definition number]) =
      if label = number ∨ label + 1 = number then 1 else 0 := by
  have hcount : (ofLoop label).countP (· ∈ [definition number]) =
      (if label + 1 = number then 1 else 0) + if label = number then 1 else 0 := by
    simp [ofLoop, List.countP_cons]
  rw [hcount]
  split_ifs <;> omega

theorem countP_branch (label number : Nat) :
    (ofLoop label).countP (· ∈ [branchIfZero number, branchIfNonzero number]) =
      if label = number ∨ label + 1 = number then 1 else 0 := by
  have hcount : (ofLoop label).countP (· ∈ [branchIfZero number, branchIfNonzero number]) =
      (if label = number then 1 else 0) + if label + 1 = number then 1 else 0 := by
    simp [ofLoop, List.countP_cons]
  rw [hcount]
  split_ifs <;> omega

theorem mem_row (branches : Branches) (mark : Mark) : 'L' ∈ (mark.row branches).toList := by
  have hname : ∀ label : Label, 'L' ∈ label.name.toList := by
    intro label
    rw [Label.toList_name]
    exact List.mem_append_left _ (by decide)
  rw [row, Line.toList_row]
  cases mark with
  | definition number =>
      rw [line, Line.labelled, Line.body, String.toList_append]
      exact List.mem_append_left _ (hname _)
  | branchIfZero number =>
      rw [line, Line.body, String.toList_append]
      exact List.mem_append_right _ (List.mem_append_right _ (hname _))
  | branchIfNonzero number =>
      rw [line, Line.body, String.toList_append]
      exact List.mem_append_right _ (List.mem_append_right _ (hname _))

/-- Different marks are written differently. -/
theorem row_injective {branches : Branches}
    (hapart : ∀ first second, branches.ifZero ++ first ≠ branches.ifNonzero ++ second) :
    Function.Injective (row branches) := by
  have hnumber : ∀ {first second : Nat}, Label.name ⟨first⟩ = Label.name ⟨second⟩ →
      first = second := by
    intro first second hname
    exact congrArg Label.index (Label.name_injective hname)
  have hdefinition : ∀ (number : Nat) (text : String),
      Label.name ⟨number⟩ ++ ":" ≠ "    " ++ text := by
    intro number text heq
    have hheads := congrArg (fun text => text.toList.head?) heq
    simp only [String.toList_append, Label.toList_name] at hheads
    exact absurd hheads (by simp)
  have hinstr : ∀ {front text other : String}, "    " ++ (front ++ text) = "    " ++ (front ++ other) →
      text = other := by
    intro front text other heq
    exact (String.append_right_inj front).mp ((String.append_right_inj _).mp heq)
  have hbranch : ∀ text other, "    " ++ (branches.ifZero ++ text) ≠
      "    " ++ (branches.ifNonzero ++ other) := by
    intro text other heq
    exact hapart text other ((String.append_right_inj _).mp heq)
  intro first second hrow
  cases first with
  | definition number =>
      cases second with
      | definition other =>
          exact congrArg definition (hnumber ((String.append_left_inj _).mp hrow))
      | branchIfZero other => exact absurd hrow (hdefinition _ _)
      | branchIfNonzero other => exact absurd hrow (hdefinition _ _)
  | branchIfZero number =>
      cases second with
      | definition other => exact absurd hrow.symm (hdefinition _ _)
      | branchIfZero other => exact congrArg branchIfZero (hnumber (hinstr hrow))
      | branchIfNonzero other => exact absurd hrow (hbranch _ _)
  | branchIfNonzero number =>
      cases second with
      | definition other => exact absurd hrow.symm (hdefinition _ _)
      | branchIfZero other => exact absurd hrow.symm (hbranch _ _)
      | branchIfNonzero other => exact congrArg branchIfNonzero (hnumber (hinstr hrow))

end Mark

/-! Listings whose loops are marked. -/

/-- The lines of a loop: the branch behind it, the definition of its first label in front of the
body, the branch back, and the definition of its second label. -/
structure LoopLines where
  loop : Loop
  label : Nat
  test : Nat
  first : Nat
  back : Nat
  second : Nat

/-- The lines of a loop that stands at a site, in a listing with one line for the test of the cell in
front of every branch. -/
def LoopLines.ofSite (layout : Layout Line) (site : Site) : LoopLines where
  loop := site.loop
  label := site.label
  test := site.origin + 1
  first := site.origin + 2
  back := layout.stop site - 2
  second := layout.stop site - 1

/-- The lines of a loop are in a text, in their order and with the code of the body between them. -/
structure LoopLines.Hold (lines : LoopLines) (backend : Backend) (branches : Branches)
    (rows : List String) : Prop where
  test : rows[lines.test]? = some (Mark.row branches (.branchIfZero (lines.label + 1)))
  first : rows[lines.first]? = some (Mark.row branches (.definition lines.label))
  back : rows[lines.back]? = some (Mark.row branches (.branchIfNonzero lines.label))
  second : rows[lines.second]? = some (Mark.row branches (.definition (lines.label + 1)))
  test_first : lines.test < lines.first
  first_back : lines.first < lines.back
  back_second : lines.back < lines.second
  body : rows.extract (lines.first + 1) (lines.back - 1) =
    rowsOf (backend.lower ⟨#[], lines.label + 2, 0⟩ lines.loop.body).text

/-- The lines of two loops are nested as the loops are, and are apart if these are not nested. -/
structure LoopLines.Nests (outer inner : LoopLines) : Prop where
  encloses : outer.loop.Encloses inner.loop ↔
    outer.test < inner.test ∧ inner.second < outer.second
  apart : outer.loop.path ≠ inner.loop.path → ¬ outer.loop.Encloses inner.loop →
    ¬ inner.loop.Encloses outer.loop →
    outer.second < inner.test ∨ inner.second < outer.test

/-- The labels of a listing are those of the loops of a tree. -/
structure Listing.MarksLoops (listing : Listing) (backend : Backend) (branches : Branches)
    (block : Block) : Prop where
  ops : listing.ops = block.opCount + block.loopCount
  labels : listing.labels = 2 * block.loopCount
  defined : ∀ number < listing.labels,
    (rowsOf listing.text).count (Mark.row branches (.definition number)) = 1
  targeted : ∀ number < listing.labels,
    (rowsOf listing.text).countP (fun row =>
      row = Mark.row branches (.branchIfZero number) ∨
        row = Mark.row branches (.branchIfNonzero number)) = 1
  nothingElse : ∀ row ∈ rowsOf listing.text, ".Lbf".toList <:+: row.toList →
    ∃ mark : Mark, mark.number < listing.labels ∧ row = mark.row branches
  loops : ∃ lines : List LoopLines,
    lines.map LoopLines.loop = block.loops ∧
    lines.map LoopLines.label = (List.range block.loopCount).map (2 * ·) ∧
    (∀ own ∈ lines, own.Hold backend branches (rowsOf listing.text)) ∧
    ∀ outer ∈ lines, ∀ inner ∈ lines, outer.Nests inner

namespace Backend

/-- A backend marks its loops: a branch follows a test of the cell, and no other line holds the
letter of a label. -/
structure Marked (backend : Backend) (branches : Branches) (test : Line) : Prop where
  branchIfZero : ∀ target,
    backend.branchIfZero target = [test, .indented (branches.ifZero ++ target)]
  branchIfNonzero : ∀ target,
    backend.branchIfNonzero target = [test, .indented (branches.ifNonzero ++ target)]
  apart : ∀ first second, branches.ifZero ++ first ≠ branches.ifNonzero ++ second
  quiet_test : 'L' ∉ test.body
  quiet_op : ∀ operation, ∀ line ∈ backend.op operation, 'L' ∉ line.body
  quiet_opening : ∀ line ∈ backend.header ++ backend.data ++ backend.entry, 'L' ∉ line.body
  quiet_exit : ∀ line ∈ backend.exit, 'L' ∉ line.body

theorem ops_lower (backend : Backend) (listing : Listing) (block : Block) :
    (backend.lower listing block).ops = listing.ops + block.opCount + block.loopCount := by
  rw [lower, Block.walk_eq_fold]
  induction block generalizing listing with
  | nil => simp [Block.fold]
  | op operation rest ih =>
      rw [Block.fold, ih, Block.opCount_op, Block.loopCount_op]
      change listing.ops + 1 + _ + _ = _
      omega
  | loop body rest ihBody ihRest =>
      have hclose : ∀ labels (inner : Listing),
          (backend.lowering.leave labels inner).ops = inner.ops := fun _ _ => rfl
      rw [Block.fold, ihRest, hclose, ihBody, Block.opCount_loop, Block.loopCount_loop]
      change listing.ops + 1 + _ + _ + _ + _ = _
      omega

namespace Marked

variable {backend : Backend} {branches : Branches} {test : Line}
  (hmarked : backend.Marked branches test)

include hmarked

theorem enter_eq (label : Nat) : backend.layout.enter label =
    [test, Mark.line branches (.branchIfZero (label + 1)),
      Mark.line branches (.definition label)] := by
  change backend.branchIfZero _ ++ _ = _
  rw [hmarked.branchIfZero]
  rfl

theorem leave_eq (label : Nat) : backend.layout.leave label =
    [test, Mark.line branches (.branchIfNonzero label),
      Mark.line branches (.definition (label + 1))] := by
  change backend.branchIfNonzero _ ++ _ = _
  rw [hmarked.branchIfNonzero]
  rfl

theorem length_whole (label : Nat) (body : Block) : (backend.layout.whole label body).length =
    (backend.layout.code (label + 2) body).length + 6 := by
  rw [Layout.whole, hmarked.enter_eq, hmarked.leave_eq]
  simp

theorem guarded (label : Nat) :
    backend.layout.enter label ≠ [] ∧ backend.layout.leave label ≠ [] := by
  rw [hmarked.enter_eq, hmarked.leave_eq]
  exact ⟨List.cons_ne_nil _ _, List.cons_ne_nil _ _⟩

end Marked

section Rows

variable {backend : Backend} {target : Target} (code : Code backend target)

include code

theorem rowsOf_assemble (block : Block) : rowsOf (backend.assemble block).text =
    (backend.header ++ backend.data ++ backend.entry ++
      (backend.layout.code 0 block ++ backend.exit)).map Line.row := by
  have hreads := List.rel_append code.reads_opening
    (List.rel_append (code.reads_code 0 block) code.reads_exit)
  rw [rowsOf_text, lines_assemble]
  rw [lines_assemble]
  exact single_of_reads hreads

theorem rowsOf_lower (label : Nat) (body : Block) :
    rowsOf (backend.lower ⟨#[], label, 0⟩ body).text =
      (backend.layout.code label body).map Line.row := by
  have hlines : (backend.lower ⟨#[], label, 0⟩ body).lines.toList =
      backend.layout.code label body := by
    rw [(backend.lower_eq _ body).1]
    rfl
  rw [rowsOf_text, hlines]
  rw [hlines]
  exact single_of_reads (code.reads_code label body)

variable {branches : Branches} {test : Line} (hmarked : backend.Marked branches test)

include hmarked

/-- What is found in the marks of a loop once for each of its labels, and never in other lines, is
found in a listing once for each label. -/
theorem measure_rowsOf (measure : List String → Nat) {number : Nat} {block : Block}
    (happend : ∀ front back, measure (front ++ back) = measure front + measure back)
    (hquiet : ∀ row : String, 'L' ∉ row.toList → measure [row] = 0)
    (hends : ∀ label, measure ((Mark.ofLoop label).map (Mark.row branches)) =
      if label = number ∨ label + 1 = number then 1 else 0)
    (hnumber : number < 2 * block.loopCount) :
    measure (rowsOf (backend.assemble block).text) = 1 := by
  have hzero : ∀ lines : List Line, (∀ line ∈ lines, 'L' ∉ line.body) →
      measure (lines.map Line.row) = 0 := by
    intro lines hlines
    induction lines with
    | nil => simpa using happend [] []
    | cons line lines ih =>
        obtain ⟨hline, hlines⟩ := List.forall_mem_cons.mp hlines
        rw [List.map_cons, ← List.singleton_append, happend, ih hlines, hquiet]
        rwa [Line.toList_row]
  have hmarks : ∀ label, measure ((backend.layout.enter label ++
      backend.layout.leave label).map Line.row) =
        if label = number ∨ label + 1 = number then 1 else 0 := by
    intro label
    have htest : measure [test.row] = 0 := hzero [test] (by simpa using hmarked.quiet_test)
    have hown := hends label
    rw [hmarked.enter_eq, hmarked.leave_eq, ← hown]
    change measure ([test.row] ++ ([_, _] ++ ([test.row] ++ [_, _]))) = measure ([_, _] ++ [_, _])
    rw [happend, happend, happend, happend, htest, Nat.zero_add, Nat.zero_add]
    rfl
  have hcode := Layout.measure_code (fun lines => measure (lines.map Line.row))
    (fun front back => by rw [List.map_append, happend])
    (fun operation => hzero _ (hmarked.quiet_op operation)) hmarks 0 block
  have hopening := hzero _ hmarked.quiet_opening
  have hexit := hzero _ hmarked.quiet_exit
  simp only [List.map_append, happend] at hopening
  rw [rowsOf_assemble code]
  simp only [List.map_append, happend]
  rw [hopening, hcode, hexit, if_pos (by omega)]

theorem countP_row (marks : List Mark) {number : Nat} {block : Block}
    (hends : ∀ label, (Mark.ofLoop label).countP (· ∈ marks) =
      if label = number ∨ label + 1 = number then 1 else 0)
    (hnumber : number < 2 * block.loopCount) :
    (rowsOf (backend.assemble block).text).countP (· ∈ marks.map (Mark.row branches)) = 1 := by
  refine measure_rowsOf code hmarked (List.countP (· ∈ marks.map (Mark.row branches)))
    (fun _ _ => List.countP_append) ?_ ?_ hnumber
  · intro row hrow
    rw [List.countP_eq_zero]
    intro other hother hmark
    obtain rfl := List.mem_singleton.mp hother
    obtain ⟨mark, -, rfl⟩ := List.mem_map.mp (of_decide_eq_true hmark)
    exact hrow (mark.mem_row branches)
  · intro label
    rw [List.countP_map, ← hends label]
    refine List.countP_congr ?_
    intro mark _
    rw [Function.comp_apply, decide_eq_true_iff, decide_eq_true_iff,
      List.mem_map_of_injective (Mark.row_injective hmarked.apart)]

theorem exists_mark {block : Block} {row : String}
    (hrow : row ∈ rowsOf (backend.assemble block).text) (hmention : 'L' ∈ row.toList) :
    ∃ mark : Mark, mark.number < 2 * block.loopCount ∧ row = mark.row branches := by
  have hmarks : ∀ line ∈ backend.layout.code 0 block, 'L' ∈ line.body →
      ∃ mark : Mark, mark.number < 2 * block.loopCount ∧ line.row = mark.row branches := by
    refine Layout.forall_mem_code ?_ ?_
    · intro operation line hline hmention
      exact absurd hmention (hmarked.quiet_op operation line hline)
    · intro number _ hnumber line hline hmention
      rw [hmarked.enter_eq, hmarked.leave_eq] at hline
      simp only [List.cons_append, List.nil_append, List.mem_cons, List.not_mem_nil,
        or_false] at hline
      have hsecond : number + 1 < 2 * block.loopCount := by omega
      have hfirst : number < 2 * block.loopCount := by omega
      rcases hline with rfl | rfl | rfl | rfl | rfl | rfl
      · exact absurd hmention hmarked.quiet_test
      · exact ⟨.branchIfZero (number + 1), hsecond, rfl⟩
      · exact ⟨.definition number, hfirst, rfl⟩
      · exact absurd hmention hmarked.quiet_test
      · exact ⟨.branchIfNonzero number, hfirst, rfl⟩
      · exact ⟨.definition (number + 1), hsecond, rfl⟩
  rw [rowsOf_assemble code] at hrow
  obtain ⟨line, hline, rfl⟩ := List.mem_map.mp hrow
  rw [Line.toList_row] at hmention
  rcases List.mem_append.mp hline with hopening | hline
  · exact absurd hmention (hmarked.quiet_opening line hopening)
  rcases List.mem_append.mp hline with hcode | hexit
  · exact hmarks line hcode hmention
  · exact absurd hmention (hmarked.quiet_exit line hexit)

/-- Where the code of a loop stands, its lines are found. -/
theorem hold_of_placed {program : List Line} {site : Site}
    (hplaced : Placed program site.origin (backend.layout.whole site.label site.loop.body)) :
    (LoopLines.ofSite backend.layout site).Hold backend branches (program.map Line.row) := by
  have hstop : backend.layout.stop site = site.origin + 3 +
      (backend.layout.code (site.label + 2) site.loop.body).length + 3 := by
    rw [Layout.stop, hmarked.length_whole]
    omega
  have hrows := hplaced.map Line.row
  rw [Layout.whole, hmarked.enter_eq, hmarked.leave_eq, List.append_assoc, List.map_append,
    List.map_append] at hrows
  obtain ⟨henter, hrest⟩ := placed_append.mp hrows
  change Placed _ (site.origin + 3) _ at hrest
  obtain ⟨hbody, hleave⟩ := placed_append.mp hrest
  rw [List.length_map] at hleave
  obtain ⟨-, hentered⟩ := placed_cons.mp henter
  obtain ⟨htest, hlabelled⟩ := placed_cons.mp hentered
  obtain ⟨-, hleft⟩ := placed_cons.mp hleave
  obtain ⟨hback, hlast⟩ := placed_cons.mp hleft
  have hbackLine : (LoopLines.ofSite backend.layout site).back = site.origin + 3 +
      (backend.layout.code (site.label + 2) site.loop.body).length + 1 := by
    simp only [LoopLines.ofSite]
    omega
  have hsecondLine : (LoopLines.ofSite backend.layout site).second = site.origin + 3 +
      (backend.layout.code (site.label + 2) site.loop.body).length + 2 := by
    simp only [LoopLines.ofSite]
    omega
  refine ⟨htest, (placed_cons.mp hlabelled).1, ?_, ?_, Nat.lt_succ_self _, ?_, ?_, ?_⟩
  · rw [hbackLine]
    exact hback
  · rw [hsecondLine]
    exact (placed_cons.mp hlast).1
  · rw [hbackLine]
    change site.origin + 2 < _
    omega
  · rw [hbackLine, hsecondLine]
    omega
  · rw [hbackLine]
    have hextract := hbody.extract_eq
    rw [List.length_map] at hextract
    exact hextract.trans (rowsOf_lower code _ _).symm

theorem exists_loopLines (block : Block) :
    ∃ lines : List LoopLines,
      lines.map LoopLines.loop = block.loops ∧
      lines.map LoopLines.label = (List.range block.loopCount).map (2 * ·) ∧
      (∀ own ∈ lines, own.Hold backend branches (rowsOf (backend.assemble block).text)) ∧
      ∀ outer ∈ lines, ∀ inner ∈ lines, outer.Nests inner := by
  have hplaced : Placed (backend.header ++ backend.data ++ backend.entry ++
      (backend.layout.code 0 block ++ backend.exit))
      (backend.header ++ backend.data ++ backend.entry).length (backend.layout.code 0 block) := by
    rw [Placed, List.drop_left]
    exact List.prefix_append _ _
  refine ⟨(backend.layout.sites 0 0 (backend.header ++ backend.data ++ backend.entry).length
    block).map (LoopLines.ofSite backend.layout), ?_, ?_, ?_, ?_⟩
  · rw [List.map_map]
    exact backend.layout.map_loop_sites 0 0 _ block
  · rw [List.map_map]
    have hlabels := backend.layout.map_label_sites 0 0
      (backend.header ++ backend.data ++ backend.entry).length block
    refine hlabels.trans (List.ext_getElem (by simp) ?_)
    simp
  · intro own hown
    obtain ⟨site, hsite, rfl⟩ := List.mem_map.mp hown
    rw [rowsOf_assemble code]
    exact hold_of_placed code hmarked (Layout.placed_of_mem_sites hplaced hsite)
  · intro outer houter inner hinner
    obtain ⟨first, hfirst, rfl⟩ := List.mem_map.mp houter
    obtain ⟨second, hsecond, rfl⟩ := List.mem_map.mp hinner
    have hlength : ∀ site : Site, site.origin + 6 ≤ backend.layout.stop site := by
      intro site
      rw [Layout.stop, hmarked.length_whole]
      omega
    have hfirstLength := hlength first
    have hsecondLength := hlength second
    refine ⟨?_, ?_⟩
    · refine (Layout.encloses_iff_of_mem_sites hmarked.guarded hfirst hsecond).trans ?_
      simp only [LoopLines.ofSite]
      omega
    · intro hdistinct hnotOuter hnotInner
      have hapart := Layout.disjoint_of_mem_sites hmarked.guarded hfirst hsecond hdistinct
        hnotOuter hnotInner
      simp only [LoopLines.ofSite]
      omega

/-- The text of a tree marks its loops. -/
theorem marksLoops_assemble (block : Block) :
    (backend.assemble block).MarksLoops backend branches block := by
  have hlabels : (backend.assemble block).labels = 2 * block.loopCount := by
    have hlower := (backend.lower_eq
      (Listing.empty.emit (backend.header ++ backend.data ++ backend.entry)) block).2
    exact hlower.trans (Nat.zero_add _)
  have hops : (backend.assemble block).ops = block.opCount + block.loopCount := by
    have hlower := backend.ops_lower
      (Listing.empty.emit (backend.header ++ backend.data ++ backend.entry)) block
    rw [Nat.add_assoc] at hlower
    exact hlower.trans (Nat.zero_add _)
  refine ⟨hops, hlabels, ?_, ?_, ?_, exists_loopLines code hmarked block⟩
  · intro number hnumber
    rw [hlabels] at hnumber
    rw [List.count_eq_countP, ← countP_row code hmarked [.definition number]
      (fun label => Mark.countP_definition label number) hnumber]
    exact List.countP_congr fun row _ => by simp
  · intro number hnumber
    rw [hlabels] at hnumber
    rw [← countP_row code hmarked [.branchIfZero number, .branchIfNonzero number]
      (fun label => Mark.countP_branch label number) hnumber]
    exact List.countP_congr fun row _ => by simp
  · intro row hrow hmention
    rw [hlabels]
    exact exists_mark code hmarked hrow (hmention.subset (by decide))

end Rows

end Backend

/-! The two backends. -/

theorem not_mem_numbered {front : String} (hfront : 'L' ∉ front.toList) (value : Nat) :
    'L' ∉ (front ++ toString value).toList :=
  Text.not_mem_append hfront (Text.not_mem_toString (by decide) value)

theorem not_mem_numbered_int {front : String} (hfront : 'L' ∉ front.toList) (value : Int) :
    'L' ∉ (front ++ toString value).toList :=
  Text.not_mem_append hfront (Text.not_mem_toString_int (by decide) (by decide) value)

namespace X64

def branches : Branches := ⟨"je ", "jne "⟩

def Instr.isBranch : Instr → Bool
  | .jumpIfZero _ => true
  | .jumpIfNonzero _ => true
  | _ => false

theorem Instr.quiet {instr : Instr} (hbranch : instr.isBranch = false) :
    'L' ∉ instr.line.body := by
  have htext : 'L' ∉ instr.text.toList := by
    cases instr with
    | addCell amount => exact not_mem_numbered (by decide) _
    | subCell amount => exact not_mem_numbered (by decide) _
    | storeCell value => exact not_mem_numbered (by decide) _
    | addPointer amount => exact not_mem_numbered_int (by decide) _
    | loadOffset amount => exact not_mem_numbered_int (by decide) _
    | call number => exact not_mem_numbered (by decide) _
    | file number => exact not_mem_numbered (by decide) _
    | bufferSize size => exact not_mem_numbered (by decide) _
    | jumpIfZero target => cases hbranch
    | jumpIfNonzero target => cases hbranch
    | _ => decide
  rw [line, Line.body, List.mem_append]
  exact not_or.mpr ⟨by decide, htext⟩

theorem isBranch_op (operation : Op) : ∀ instr ∈ op operation, instr.isBranch = false := by
  cases operation with
  | add delta =>
      rw [op, add]
      split
      · simp
      · split
        · simp [Instr.isBranch]
        · simp [Instr.isBranch]
  | move delta =>
      rw [op, move]
      split
      · simp [Instr.isBranch]
      · simp [Instr.isBranch]
  | set value => simp [op, Instr.isBranch]
  | get => simp [op, transfer, Instr.isBranch]
  | put => simp [op, transfer, Instr.isBranch]

theorem marked : backend.Marked branches (Instr.line .testCell) where
  branchIfZero := fun _ => rfl
  branchIfNonzero := fun _ => rfl
  apart := by
    intro first second heq
    have hletters := congrArg (fun text => text.toList[1]?) heq
    simp [branches] at hletters
  quiet_test := by decide
  quiet_op := by
    intro operation line hline
    obtain ⟨instr, hinstr, rfl⟩ := List.mem_map.mp hline
    exact Instr.quiet (isBranch_op operation instr hinstr)
  quiet_opening := by decide
  quiet_exit := by decide

end X64

namespace AArch64

def branches : Branches := ⟨"cbz w9, ", "cbnz w9, "⟩

def Instr.isBranch : Instr → Bool
  | .branchZero _ => true
  | .branchNonzero _ => true
  | _ => false

theorem Instr.quiet {instr : Instr} (hbranch : instr.isBranch = false) :
    'L' ∉ instr.line.body := by
  have htext : 'L' ∉ instr.text.toList := by
    cases instr with
    | addScratch amount => exact not_mem_numbered (by decide) _
    | setScratch value => exact not_mem_numbered (by decide) _
    | addPointer amount => exact not_mem_numbered (by decide) _
    | subPointer amount => exact not_mem_numbered (by decide) _
    | loadOffset amount => exact not_mem_numbered_int (by decide) _
    | file number => exact not_mem_numbered (by decide) _
    | bufferSize size => exact not_mem_numbered (by decide) _
    | call number => exact not_mem_numbered (by decide) _
    | branchZero target => cases hbranch
    | branchNonzero target => cases hbranch
    | _ => decide
  rw [line, Line.body, List.mem_append]
  exact not_or.mpr ⟨by decide, htext⟩

theorem isBranch_op (operation : Op) : ∀ instr ∈ op operation, instr.isBranch = false := by
  cases operation with
  | add delta =>
      rw [op, add]
      split
      · simp
      · simp [Instr.isBranch]
  | move delta =>
      rw [op, move]
      split
      · simp [Instr.isBranch]
      · split
        · simp [Instr.isBranch]
        · simp [Instr.isBranch]
  | set value => simp [op, Instr.isBranch]
  | get => simp [op, transfer, Instr.isBranch]
  | put => simp [op, transfer, Instr.isBranch]

theorem marked : backend.Marked branches (Instr.line .loadCell) where
  branchIfZero := fun _ => rfl
  branchIfNonzero := fun _ => rfl
  apart := by
    intro first second heq
    have hletters := congrArg (fun text => text.toList[2]?) heq
    simp [branches] at hletters
  quiet_test := by decide
  quiet_op := by
    intro operation line hline
    obtain ⟨instr, hinstr, rfl⟩ := List.mem_map.mp hline
    exact Instr.quiet (isBranch_op operation instr hinstr)
  quiet_opening := by decide
  quiet_exit := by decide

end AArch64

/-- In the text of a tree each of its loops, in the order in which they are met, owns the next two
labels. Every label is defined by one line and is the target of one branch, and no other line
mentions a label. The lines of a loop enclose the code of its body, and the lines of two loops are
nested if the loops are and apart if not. -/
theorem Arch.text_marks_loops (block : Block) :
    (∃ listing, Arch.x64.assemble block = .ok listing ∧
      listing.MarksLoops X64.backend X64.branches block) ∧
    ∃ listing, Arch.aarch64.assemble block = .ok listing ∧
      listing.MarksLoops AArch64.backend AArch64.branches block :=
  ⟨⟨_, rfl, Backend.marksLoops_assemble X64.code X64.marked block⟩,
    ⟨_, rfl, Backend.marksLoops_assemble AArch64.code AArch64.marked block⟩⟩

end Asm

end Brainfuck
