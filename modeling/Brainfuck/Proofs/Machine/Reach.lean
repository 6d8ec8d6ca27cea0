import Brainfuck.Proofs.Machine.Labels

/-! The reach of the branches on AArch64.

A branch on a register holds the way to its label as a number of instructions, in 19 bits with a
sign. The two branches of a loop lead over its body, so whether they can is a matter of how many
instructions the body has. The way out of a loop is eight bytes longer than the way back, and
decides. -/

namespace Brainfuck.Asm

def Item.isInstr {Instr : Type} : Item Instr → Bool
  | .instr _ => true
  | _ => false

section Address

variable {Instr : Type} {program segment : List (Item Instr)} {place : Nat}

/-- The number of bytes in front of a place, in the section of the instructions. Each instruction
takes four; labels take none, and no directive sets any aside there. -/
def address (program : List (Item Instr)) (place : Nat) : Nat :=
  4 * (program.take place).countP Item.isInstr

theorem address_append (hplaced : Placed program place segment) :
    address program (place + segment.length) =
      address program place + 4 * segment.countP Item.isInstr := by
  rw [address, List.take_add, ← List.prefix_iff_eq_take.mp hplaced, List.countP_append,
    Nat.mul_add]
  rfl

theorem address_instr {instr : Instr} (hitem : program[place]? = some (.instr instr)) :
    address program (place + 1) = address program place + 4 := by
  have hplaced : Placed program place [.instr instr] :=
    placed_cons.mpr ⟨hitem, List.nil_prefix⟩
  exact address_append hplaced

theorem address_label {name : String} (hitem : program[place]? = some (.label name)) :
    address program (place + 1) = address program place := by
  have hplaced : Placed program place [.label name] :=
    placed_cons.mpr ⟨hitem, List.nil_prefix⟩
  exact address_append hplaced

theorem countP_instrs (instrs : List Instr) :
    (instrs.map Item.instr).countP Item.isInstr = instrs.length := by
  rw [List.countP_map]
  exact List.countP_eq_length.mpr fun _ _ => rfl

/-- The way from one place to another, in bytes. -/
def distance (program : List (Item Instr)) (place line : Nat) : ℤ :=
  address program line - address program place

end Address

namespace AArch64

def Instr.target? : Instr → Option String
  | .branchZero target => some target
  | .branchNonzero target => some target
  | _ => none

/-- Every branch reaches its label: what it can hold goes from `-2 ^ 18` to `2 ^ 18 - 1`
instructions. -/
def InReach (program : List (Item Instr)) : Prop :=
  ∀ place instr name, program[place]? = some (.instr instr) → instr.target? = some name →
    ∃ line, program.findIdx? (Item.defines name) = some line ∧
      -2 ^ 20 ≤ distance program place line ∧ distance program place line ≤ 2 ^ 20 - 4

/-- The number of instructions that a tree is lowered to. -/
def instrCount : Block → Nat
  | .nil => 0
  | .op operation rest => (op operation).length + instrCount rest
  | .loop body rest => instrCount body + 4 + instrCount rest

theorem countP_code (label : Nat) (block : Block) :
    (code.layout.code label block).countP Item.isInstr = instrCount block := by
  induction block generalizing label with
  | nil => rfl
  | op operation rest ih =>
      rw [Layout.code, List.countP_append, ih, instrCount]
      exact congrArg (· + _) (countP_instrs _)
  | loop body rest ihBody ihRest =>
      rw [Layout.code, List.countP_append, List.countP_append, List.countP_append, ihBody, ihRest,
        instrCount]
      change 2 + _ + 2 + _ = _
      omega

def branchBack (site : Site) : Nat :=
  site.origin + 3 + (code.layout.code (site.label + 2) site.loop.body).length + 1

/-- The branches of a loop, the labels that they lead to, and how far away these are. -/
structure LoopItems (program : List (Item Instr)) (site : Site) : Prop where
  test : program[site.origin + 1]? = some (.instr (.branchZero (Label.name ⟨site.label + 1⟩)))
  first : program[site.origin + 2]? = some (.label (Label.name ⟨site.label⟩))
  back : program[branchBack site]? = some (.instr (.branchNonzero (Label.name ⟨site.label⟩)))
  second : program[branchBack site + 1]? = some (.label (Label.name ⟨site.label + 1⟩))
  distance_second : distance program (site.origin + 1) (branchBack site + 1) =
    4 * instrCount site.loop.body + 12
  distance_first : distance program (branchBack site) (site.origin + 2) =
    -(4 * instrCount site.loop.body + 4)

theorem loopItems_of_placed {program : List (Item Instr)} {site : Site}
    (hplaced : Placed program site.origin (code.layout.whole site.label site.loop.body)) :
    LoopItems program site := by
  obtain ⟨hfront, hleave⟩ := placed_append.mp hplaced
  obtain ⟨henter, hbody⟩ := placed_append.mp hfront
  obtain ⟨hload, henter⟩ := placed_cons.mp henter
  obtain ⟨htest, henter⟩ := placed_cons.mp henter
  obtain ⟨hfirst, -⟩ := placed_cons.mp henter
  change Placed program (site.origin + 3) _ at hbody
  rw [List.length_append, ← Nat.add_assoc] at hleave
  change Placed program (site.origin + 3 + _) _ at hleave
  obtain ⟨hreload, hleave⟩ := placed_cons.mp hleave
  change Placed program (branchBack site) _ at hleave
  obtain ⟨hback, hleave⟩ := placed_cons.mp hleave
  obtain ⟨hsecond, -⟩ := placed_cons.mp hleave
  have htestAddress := address_instr hload
  have hfirstAddress : address program (site.origin + 2) = address program site.origin + 8 := by
    rw [address_instr htest, htestAddress]
  have hbackAddress : address program (branchBack site) =
      address program site.origin + 4 * instrCount site.loop.body + 12 := by
    rw [branchBack, address_instr hreload, address_append hbody, countP_code, address_label hfirst,
      hfirstAddress]
    omega
  refine ⟨htest, hfirst, hback, hsecond, ?_, ?_⟩
  · rw [distance, address_instr hback, hbackAddress, htestAddress]
    omega
  · rw [distance, hfirstAddress, hbackAddress]
    omega

theorem isBranch_around {instr : Instr} (hinstr : .instr instr ∈ code.opening ++ code.closing) :
    instr.isBranch = false := by
  have haround : ∀ instr ∈ [.tapePage, .tapeOffset] ++ exit, instr.isBranch = false := by decide
  exact haround instr (by simpa [Code.opening, Code.closing, code] using hinstr)

theorem isBranch_of_target? {instr : Instr} {name : String} (htarget : instr.target? = some name) :
    instr.isBranch = true := by
  cases instr <;> first | rfl | cases htarget

/-- The branch at an end of a loop is the second item there. -/
theorem eq_of_test {branch instr : Instr} {own name : String} {offset : Nat}
    (hitem : [.instr .loadCell, .instr branch, Item.label own][offset]? = some (.instr instr))
    (htarget : instr.target? = some name) : offset = 1 ∧ instr = branch := by
  rcases offset with _ | _ | _ | beyond
  · cases hitem
    cases htarget
  · cases hitem
    exact ⟨rfl, rfl⟩
  · cases hitem
  · cases hitem

/-- Every branch is at one of the two ends of a loop. -/
theorem exists_site_of_target? {block : Block} {place : Nat} {instr : Instr} {name : String}
    (hitem : (code.program block)[place]? = some (.instr instr))
    (htarget : instr.target? = some name) :
    ∃ site ∈ code.layout.sites 0 0 code.opening.length block,
      (place = site.origin + 1 ∧ name = Label.name ⟨site.label + 1⟩) ∨
      (place = branchBack site ∧ name = Label.name ⟨site.label⟩) := by
  have hbranch := isBranch_of_target? htarget
  rcases Layout.getElem?_append_cases hitem with hopening | ⟨offset, rfl, hrest⟩
  · have hmem := List.mem_append_left code.closing (List.mem_of_getElem? hopening)
    cases (isBranch_around hmem).symm.trans hbranch
  rcases Layout.getElem?_append_cases hrest with hcode | ⟨beyond, rfl, hclosing⟩
  · cases Layout.part_of_getElem? 0 code.opening.length hcode with
    | @op operation hmem =>
        obtain ⟨own, hown, heq⟩ := List.mem_map.mp hmem
        cases heq
        cases (isBranch_op operation instr hown).symm.trans hbranch
    | @enter site offset hsite hpiece hplace =>
        obtain ⟨rfl, rfl⟩ := eq_of_test hpiece htarget
        cases htarget
        exact ⟨site, hsite, .inl ⟨hplace, rfl⟩⟩
    | @leave site offset hsite hpiece hplace =>
        obtain ⟨rfl, rfl⟩ := eq_of_test hpiece htarget
        cases htarget
        exact ⟨site, hsite, .inr ⟨hplace, rfl⟩⟩
  · have hmem := List.mem_append_right code.opening (List.mem_of_getElem? hclosing)
    cases (isBranch_around hmem).symm.trans hbranch

theorem loopItems_program {block : Block} {site : Site}
    (hsite : site ∈ code.layout.sites 0 0 code.opening.length block) :
    LoopItems (code.program block) site := by
  have hplaced : Placed (code.program block) code.opening.length (code.layout.code 0 block) := by
    rw [Placed, Code.program, List.drop_left]
    exact List.prefix_append _ _
  exact loopItems_of_placed (Layout.placed_of_mem_sites hplaced hsite)

theorem inReach_program_iff (block : Block) :
    InReach (code.program block) ↔
      ∀ loop ∈ block.loops, instrCount loop.body ≤ 262140 := by
  have hfind : ∀ {name line}, (code.program block)[line]? = some (.label name) →
      (code.program block).findIdx? (Item.defines name) = some line :=
    fun hlabel => Target.findIdx?_defines (code.nodup_program block) hlabel
  rw [Block.loops, ← code.layout.map_loop_sites 0 0 code.opening.length block,
    List.forall_mem_map]
  constructor
  · intro hreach site hsite
    have hitems := loopItems_program hsite
    obtain ⟨line, hline, -, hfar⟩ := hreach _ _ _ hitems.test rfl
    cases (hfind hitems.second).symm.trans hline
    rw [hitems.distance_second] at hfar
    omega
  · intro hshort place instr name hitem htarget
    obtain ⟨site, hsite, ⟨rfl, rfl⟩ | ⟨rfl, rfl⟩⟩ := exists_site_of_target? hitem htarget
    · have hitems := loopItems_program hsite
      have hbound := hshort site hsite
      refine ⟨_, hfind hitems.second, ?_⟩
      rw [hitems.distance_second]
      omega
    · have hitems := loopItems_program hsite
      have hbound := hshort site hsite
      refine ⟨_, hfind hitems.first, ?_⟩
      rw [hitems.distance_first]
      omega

/-! No operation takes more than five instructions. -/

theorem length_op_le (operation : Op) : (op operation).length ≤ 5 := by
  cases operation with
  | add delta =>
      rw [op, add]
      split <;> simp
  | move delta =>
      rw [op, move]
      split
      · simp
      · split <;> simp
  | set value => simp [op]
  | get => simp [op, transfer]
  | put => simp [op, transfer]

theorem instrCount_le (block : Block) :
    instrCount block ≤ 5 * (block.opCount + block.loopCount) := by
  induction block with
  | nil => exact Nat.zero_le _
  | op operation rest ih =>
      have hop := length_op_le operation
      rw [instrCount, Block.opCount_op, Block.loopCount_op]
      omega
  | loop body rest ihBody ihRest =>
      rw [instrCount, Block.opCount_loop, Block.loopCount_loop]
      omega

/-- The text for AArch64 is accepted as a whole, and each of its branches reaches the label that it
names exactly if no loop has a body of more than 262140 instructions. With up to 52429 operations
and loops in all, this cannot happen. -/
theorem branches_reach_iff (block : Block) :
    ∃ listing program,
      Arch.aarch64.assemble block = .ok listing ∧
      assemble? machine.instr? listing.text = some program ∧
      (InReach program ↔ ∀ loop ∈ block.loops, instrCount loop.body ≤ 262140) ∧
      (listing.ops ≤ 52429 → InReach program) := by
  have hreach := inReach_program_iff block
  refine ⟨backend.assemble block, code.program block, rfl, code.assemble?_assemble block,
    hreach, ?_⟩
  intro hops
  rw [(Backend.marksLoops_assemble code marked block).ops] at hops
  refine hreach.mpr fun loop hloop => ?_
  have hinner := block.count_lt_of_mem_loopsFrom 0 loop hloop
  have hcount := instrCount_le loop.body
  omega

def writes : Nat → Block → Block
  | 0, rest => rest
  | count + 1, rest => .op .put (writes count rest)

theorem instrCount_writes (count : Nat) (rest : Block) :
    instrCount (writes count rest) = 5 * count + instrCount rest := by
  induction count with
  | zero => exact (Nat.zero_add _).symm
  | succ count ih =>
      rw [writes, instrCount, ih, op]
      change 5 + _ = _
      omega

theorem opCount_writes (count : Nat) (rest : Block) :
    (writes count rest).opCount + (writes count rest).loopCount =
      count + (rest.opCount + rest.loopCount) := by
  induction count with
  | zero => exact (Nat.zero_add _).symm
  | succ count ih =>
      rw [writes, Block.opCount_op, Block.loopCount_op]
      omega

theorem exists_out_of_reach {count : Nat} (hcount : 262140 < 5 * count + 1) :
    ∃ listing program,
      Arch.aarch64.assemble (.loop (writes count (.op (.move 1) .nil)) .nil) = .ok listing ∧
      listing.ops = count + 2 ∧
      assemble? machine.instr? listing.text = some program ∧
      ¬ InReach program := by
  refine ⟨_, code.program _, rfl, ?_, code.assemble?_assemble _, ?_⟩
  · have hops := opCount_writes count (.op (.move 1) .nil)
    rw [(Backend.marksLoops_assemble code marked _).ops, Block.opCount_loop, Block.loopCount_loop]
    simp only [Block.opCount_op, Block.loopCount_op, Block.opCount_nil, Block.loopCount_nil] at *
    omega
  · rw [inReach_program_iff]
    intro hshort
    have hbound := hshort ⟨[0], writes count (.op (.move 1) .nil)⟩ List.mem_cons_self
    rw [instrCount_writes] at hbound
    change 5 * count + 1 ≤ _ at hbound
    omega

/-- With one operation more, the branch over a loop can be four bytes too far from its label. -/
theorem branch_out_of_reach :
    ∃ listing program,
      Arch.aarch64.assemble (.loop (writes 52428 (.op (.move 1) .nil)) .nil) = .ok listing ∧
      listing.ops = 52430 ∧
      assemble? machine.instr? listing.text = some program ∧
      ¬ InReach program :=
  exists_out_of_reach (by decide)

end AArch64

end Brainfuck.Asm
