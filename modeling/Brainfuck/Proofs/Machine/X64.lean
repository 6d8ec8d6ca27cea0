import Brainfuck.Compile
import Brainfuck.Proofs.Machine.Correctness

/-! The x86-64 machine, as far as the backend uses it, and the proof that the backend works on it.

Of the flags there is only the one that tells whether the last result was zero. An immediate has to
fit its field: 8 bits in an operation on a byte, 32 bits with a sign in an addition to a 64-bit
register. -/

namespace Brainfuck.Asm.X64

structure Registers where
  rax : UInt64
  rbx : UInt64
  rdi : UInt64
  rsi : UInt64
  rdx : UInt64
  zero : Bool

def byte? (operand : String) : Option UInt8 :=
  (immediate? (-128) 255 operand).map .ofInt

def word? (operand : String) : Option Nat :=
  (immediate? 0 (2 ^ 32 - 1) operand).map Int.toNat

def distance? (operand : String) : Option Int32 :=
  (immediate? (-2 ^ 31) (2 ^ 31 - 1) operand).map .ofInt

def offset? (operand : String) : Option Int64 :=
  (immediate? (-2 ^ 63) (2 ^ 64 - 1) operand).map .ofInt

def instr? (word : String) (operands : List String) : Option Instr :=
  match word, operands with
  | "lea", ["rbx", "[rip + tape]"] => some .leaTape
  | "add", ["byte ptr [rbx]", amount] => (byte? amount).map .addCell
  | "sub", ["byte ptr [rbx]", amount] => (byte? amount).map .subCell
  | "mov", ["byte ptr [rbx]", value] => (byte? value).map .storeCell
  | "cmp", ["byte ptr [rbx]", "0"] => some .testCell
  | "add", ["rbx", amount] =>
      if amount = "rax" then some .addOffset else (distance? amount).map .addPointer
  | "movabs", ["rax", amount] => (offset? amount).map .loadOffset
  | "mov", ["eax", number] => (word? number).map .call
  | "mov", ["edi", number] => (word? number).map .file
  | "mov", ["edx", size] => (word? size).map .bufferSize
  | "mov", ["rsi", "rbx"] => some .buffer
  | "xor", ["edi", "edi"] => some .noFile
  | "syscall", [] => some .syscall
  | "je", [target] => some (.jumpIfZero target)
  | "jne", [target] => some (.jumpIfNonzero target)
  | _, _ => none

def service? (number : UInt64) : Option Core.Service :=
  if number = 0 then some .read
  else if number = 1 then some .write
  else if number = 60 then some .exit
  else none

def changeCell (core : Core Registers) (change : UInt8 → UInt8) : Option (Effect Registers) := do
  let byte ← core.load? core.registers.rbx
  let stored ← core.store? core.registers.rbx (change byte)
  return stored.proceed { core.registers with zero := change byte == 0 }

def addToPointer (core : Core Registers) (distance : UInt64) : Effect Registers :=
  let sum := core.registers.rbx + distance
  core.proceed { core.registers with rbx := sum, zero := sum == 0 }

def exec? (tape : UInt64) (instr : Instr) (core : Core Registers) : Option (Effect Registers) :=
  let registers := core.registers
  match instr with
  | .leaTape => some (core.proceed { registers with rbx := tape })
  | .addCell amount => changeCell core (· + amount)
  | .subCell amount => changeCell core (· - amount)
  | .storeCell value => (core.store? registers.rbx value).map .next
  | .testCell =>
      (core.load? registers.rbx).map fun (byte : UInt8) =>
        core.proceed { registers with zero := byte == 0 }
  | .addPointer amount => some (addToPointer core amount.toInt64.toUInt64)
  | .loadOffset amount => some (core.proceed { registers with rax := amount.toUInt64 })
  | .addOffset => some (addToPointer core registers.rax)
  | .call number => some (core.proceed { registers with rax := .ofNat number })
  | .file number => some (core.proceed { registers with rdi := .ofNat number })
  | .noFile => some (core.proceed { registers with rdi := 0, zero := true })
  | .buffer => some (core.proceed { registers with rsi := registers.rbx })
  | .bufferSize size => some (core.proceed { registers with rdx := .ofNat size })
  | .syscall => do
      core.call? (fun value => { registers with rax := value }) registers.rdi registers.rsi
        registers.rdx (← service? registers.rax)
  | .jumpIfZero target =>
      some (if registers.zero = true then .jump target core else .next core)
  | .jumpIfNonzero target =>
      some (if registers.zero = true then .next core else .jump target core)

theorem output_changeCell {core : Core Registers} {change : UInt8 → UInt8}
    {effect : Effect Registers} (hchange : changeCell core change = some effect) :
    core.output <+: effect.core.output := by
  obtain ⟨byte, -, hrest⟩ := Option.bind_eq_some_iff.mp hchange
  obtain ⟨stored, hstore, hstored⟩ := Option.bind_eq_some_iff.mp hrest
  cases hstored
  exact Core.output_store? hstore ▸ List.prefix_refl _

theorem output_exec? {tape : UInt64} {instr : Instr} {core : Core Registers}
    {effect : Effect Registers} (hexec : exec? tape instr core = some effect) :
    core.output <+: effect.core.output := by
  cases instr with
  | addCell amount => exact output_changeCell hexec
  | subCell amount => exact output_changeCell hexec
  | storeCell value =>
      obtain ⟨stored, hstore, rfl⟩ := Option.map_eq_some_iff.mp hexec
      exact Core.output_store? hstore ▸ List.prefix_refl _
  | testCell =>
      obtain ⟨byte, -, rfl⟩ := Option.map_eq_some_iff.mp hexec
      exact List.prefix_refl _
  | syscall =>
      obtain ⟨service, -, hcall⟩ := Option.bind_eq_some_iff.mp hexec
      exact Core.output_call? hcall
  | jumpIfZero target =>
      cases hexec
      split <;> exact List.prefix_refl _
  | jumpIfNonzero target =>
      cases hexec
      split <;> exact List.prefix_refl _
  | _ =>
      cases hexec
      exact List.prefix_refl _

abbrev machine : Target where
  Instr := Instr
  Registers := Registers
  instr? := instr?
  exec? := exec?
  output_exec? := output_exec?

/-! The machine reads the lines of the backend. -/

theorem byte?_toString (value : UInt8) : byte? (toString value.toNat) = some value := by
  have hlt := value.toNat_lt
  rw [byte?, immediate?_toString (by omega) (by omega), Option.map_some, ofInt_toNat]

theorem word?_toString {value : Nat} (hvalue : value < UInt32.size) :
    word? (toString value) = some value := by
  unfold UInt32.size at hvalue
  rw [word?, immediate?_toString (by omega) (by omega), Option.map_some]
  rfl

theorem distance?_toString (value : Int32) : distance? (toString value.toInt) = some value := by
  have hlt := value.toInt_lt
  rw [distance?, immediate?_toString_int value.le_toInt (by omega), Option.map_some,
    Int32.ofInt_toInt]

theorem offset?_toString (value : Int64) : offset? (toString value.toInt) = some value := by
  have hlt := value.toInt_lt
  rw [offset?, immediate?_toString_int value.le_toInt (by omega), Option.map_some,
    Int64.ofInt_toInt]

theorem toString_ne_rax (value : Int) : toString value ≠ "rax" := by
  intro hrax
  have hread := Text.numeral?_toString_int value
  rw [hrax] at hread
  cases hread

/-- What is not bounded by its type fits its field all the same. -/
def Instr.Encodable : Instr → Prop
  | .call number => number < UInt32.size
  | .file number => number < UInt32.size
  | .bufferSize size => size < UInt32.size
  | .jumpIfZero target => IsOperand target
  | .jumpIfNonzero target => IsOperand target
  | _ => True

theorem Instr.reads_line {instr : Instr} (hencodable : instr.Encodable) :
    Line.Reads instr? instr.line (.instr instr) := by
  cases instr with
  | leaTape => exact ⟨by decide, rfl⟩
  | addCell amount =>
      exact Line.reads_operand "add" ["byte ptr [rbx]"] (by decide)
        (isOperand_toString _) (congrArg (Option.map addCell) (byte?_toString amount))
  | subCell amount =>
      exact Line.reads_operand "sub" ["byte ptr [rbx]"] (by decide)
        (isOperand_toString _) (congrArg (Option.map subCell) (byte?_toString amount))
  | storeCell value =>
      exact Line.reads_operand "mov" ["byte ptr [rbx]"] (by decide)
        (isOperand_toString _) (congrArg (Option.map storeCell) (byte?_toString value))
  | testCell => exact ⟨by decide, rfl⟩
  | addPointer amount =>
      exact Line.reads_operand "add" ["rbx"] (by decide)
        (isOperand_toString_int _) ((if_neg (toString_ne_rax amount.toInt)).trans
          (congrArg (Option.map addPointer) (distance?_toString amount)))
  | loadOffset amount =>
      exact Line.reads_operand "movabs" ["rax"] (by decide)
        (isOperand_toString_int _) (congrArg (Option.map loadOffset) (offset?_toString amount))
  | addOffset => exact ⟨by decide, rfl⟩
  | call number =>
      exact Line.reads_operand "mov" ["eax"] (by decide)
        (isOperand_toString _) (congrArg (Option.map call) (word?_toString hencodable))
  | file number =>
      exact Line.reads_operand "mov" ["edi"] (by decide)
        (isOperand_toString _) (congrArg (Option.map file) (word?_toString hencodable))
  | noFile => exact ⟨by decide, rfl⟩
  | buffer => exact ⟨by decide, rfl⟩
  | bufferSize size =>
      exact Line.reads_operand "mov" ["edx"] (by decide)
        (isOperand_toString _) (congrArg (Option.map bufferSize) (word?_toString hencodable))
  | syscall => exact ⟨by decide, rfl⟩
  | jumpIfZero target =>
      exact Line.reads_operand "je" [] (by decide) hencodable rfl
  | jumpIfNonzero target =>
      exact Line.reads_operand "jne" [] (by decide) hencodable rfl

theorem encodable_op (operation : Op) : ∀ instr ∈ op operation, instr.Encodable := by
  cases operation with
  | add delta =>
      rw [op, add]
      split
      · simp
      · split
        · simp [Instr.Encodable]
        · simp [Instr.Encodable]
  | move delta =>
      rw [op, move]
      split
      · simp [Instr.Encodable]
      · simp [Instr.Encodable]
  | set value => simp [op, Instr.Encodable]
  | get => simp [op, transfer, Instr.Encodable, UInt32.size]
  | put => simp [op, transfer, Instr.Encodable, UInt32.size]

theorem forall₂_line {instrs : List Instr} (hencodable : ∀ instr ∈ instrs, instr.Encodable) :
    List.Forall₂ (Line.Reads instr?) (instrs.map Instr.line) (instrs.map .instr) :=
  Line.forall₂_reads fun instr hmem => Instr.reads_line (hencodable instr hmem)

/-! The pieces of the code work. -/

section Pieces

variable (base : UInt64) {mapped : UInt64 → Bool} {tape : Tape UInt64} {core : Core Registers}

theorem changeCell_holds (hholds : Holds Registers.rbx mapped tape core)
    (hmapped : mapped tape.pointer = true) (change : UInt8 → UInt8) :
    ∃ core', changeCell core change = some (.next core') ∧
      Holds Registers.rbx mapped (tape.write (change tape.cell)) core' := by
  obtain ⟨stored, hstore, hstored⟩ := hholds.store? hmapped (change tape.cell)
  refine ⟨{ stored with registers := { core.registers with zero := change tape.cell == 0 } }, ?_,
    hstored.withRegisters _ hholds.pointer⟩
  rw [changeCell, hholds.load? hmapped]
  simp only [Option.bind_eq_bind, Option.bind_some, hstore]
  rfl

theorem addToPointer_holds (hholds : Holds Registers.rbx mapped tape core) (distance : ℤ) :
    ∃ core', addToPointer core (.ofInt distance) = .next core' ∧
      Holds Registers.rbx mapped (tape.move distance) core' := by
  refine ⟨_, rfl, ?_, hholds.memory, hholds.input, hholds.output⟩
  change core.registers.rbx + .ofInt distance = distance +ᵥ tape.pointer
  rw [hholds.pointer, vadd_address]

theorem add_holds (hholds : Holds Registers.rbx mapped tape core)
    (hmapped : mapped tape.pointer = true) (amount : UInt8) :
    ∃ core', machine.run? base (add amount) core = some (.next core') ∧
      Holds Registers.rbx mapped (tape.write (tape.cell + amount)) core' := by
  unfold add
  split
  · next hzero =>
      refine ⟨core, rfl, ?_⟩
      rw [hzero, UInt8.add_zero, Tape.write_cell]
      exact hholds
  · split
    · obtain ⟨core', hchange, hholds'⟩ := changeCell_holds hholds hmapped (· + amount)
      exact ⟨core', Target.run?_singleton.trans hchange, hholds'⟩
    · obtain ⟨core', hchange, hholds'⟩ := changeCell_holds hholds hmapped (· - (0 - amount))
      refine ⟨core', Target.run?_singleton.trans hchange, ?_⟩
      have hround : tape.cell + amount = tape.cell - (0 - amount) := by
        rw [UInt8.zero_sub, UInt8.sub_neg]
      rw [hround]
      exact hholds'

theorem toInt_toInt32 {delta : Int64} (hlow : Int32.minValue.toInt ≤ delta.toInt)
    (hhigh : delta.toInt ≤ Int32.maxValue.toInt) : delta.toInt32.toInt = delta.toInt := by
  change -2 ^ 31 ≤ delta.toInt at hlow
  change delta.toInt ≤ 2 ^ 31 - 1 at hhigh
  rw [Int64.toInt_toInt32, Int.bmod_def]
  split <;> omega

theorem move_holds (hholds : Holds Registers.rbx mapped tape core) (delta : Int64) :
    ∃ core', machine.run? base (move delta) core = some (.next core') ∧
      Holds Registers.rbx mapped (tape.move delta.toInt) core' := by
  unfold move
  split
  · next hshort =>
      have hdistance : delta.toInt32.toInt64.toUInt64 = .ofInt delta.toInt := by
        rw [Op.toUInt64_eq_ofInt, Int32.toInt_toInt64, toInt_toInt32 hshort.1 hshort.2]
      obtain ⟨core', hadd, hholds'⟩ := addToPointer_holds hholds delta.toInt
      refine ⟨core', Target.run?_singleton.trans (congrArg some ?_), hholds'⟩
      exact (congrArg (addToPointer core) hdistance).trans hadd
  · have hloaded := hholds.withRegisters { core.registers with rax := delta.toUInt64 }
      hholds.pointer
    obtain ⟨core', hadd, hholds'⟩ := addToPointer_holds hloaded delta.toInt
    rw [← Op.toUInt64_eq_ofInt] at hadd
    refine ⟨core', (Target.run?_cons rfl).trans (Target.run?_singleton.trans ?_), hholds'⟩
    exact congrArg some hadd

def Registers.ready (registers : Registers) (number file : Nat) : Registers :=
  { registers with
    rax := .ofNat number, rdi := .ofNat file, rsi := registers.rbx, rdx := 1 }

theorem run?_transfer (number file : Nat) : machine.run? base (transfer number file) core =
    exec? base .syscall { core with registers := core.registers.ready number file } :=
  (Target.run?_cons rfl).trans <| (Target.run?_cons rfl).trans <| (Target.run?_cons rfl).trans <|
    (Target.run?_cons rfl).trans Target.run?_singleton

theorem op_holds (operation : Op) (hholds : Holds Registers.rbx mapped tape core)
    (hmapped : operation.touches tape = true → mapped tape.pointer = true) :
    ∃ core', machine.run? base (op operation) core = some (.next core') ∧
      Holds Registers.rbx mapped (operation.apply tape) core' := by
  cases operation with
  | add delta =>
      obtain ⟨core', hrun, hholds'⟩ := add_holds base hholds (hmapped rfl) (Op.cell delta)
      rw [Op.cell_eq_ofInt] at hholds'
      exact ⟨core', hrun, hholds'⟩
  | move delta => exact move_holds base hholds delta
  | set value =>
      obtain ⟨stored, hstore, hstored⟩ := hholds.store? (hmapped rfl) (Op.cell value)
      rw [Op.cell_eq_ofInt] at hstored
      refine ⟨stored, Target.run?_singleton.trans ?_, hstored⟩
      exact congrArg (Option.map Effect.next) hstore
  | get =>
      have hready := hholds.withRegisters (core.registers.ready 0 0) hholds.pointer
      obtain ⟨core', hcall, hholds'⟩ := hready.read hmapped
        (fun value => { core.registers.ready 0 0 with rax := value })
        fun _ => hholds.pointer
      exact ⟨core', (run?_transfer base 0 0).trans hcall, hholds'⟩
  | put =>
      have hready := hholds.withRegisters (core.registers.ready 1 1) hholds.pointer
      obtain ⟨core', hcall, hholds'⟩ := hready.write (hmapped rfl)
        (fun value => { core.registers.ready 1 1 with rax := value })
        fun _ => hholds.pointer
      exact ⟨core', (run?_transfer base 1 1).trans hcall, hholds'⟩

theorem testCell_holds (hholds : Holds Registers.rbx mapped tape core)
    (hmapped : mapped tape.pointer = true) :
    ∃ core', exec? base .testCell core = some (.next core') ∧
      core'.registers.zero = (tape.cell == 0) ∧ Holds Registers.rbx mapped tape core' := by
  exact ⟨_, congrArg (Option.map _) (hholds.load? hmapped), rfl,
    hholds.withRegisters _ hholds.pointer⟩

theorem branchIfZero_holds (name : String) (hholds : Holds Registers.rbx mapped tape core)
    (hmapped : mapped tape.pointer = true) :
    ∃ core', machine.run? base (branchIfZero name) core =
        some (if tape.cell = 0 then .jump name core' else .next core') ∧
      Holds Registers.rbx mapped tape core' := by
  obtain ⟨core', htest, hzero, hholds'⟩ := testCell_holds base hholds hmapped
  refine ⟨core', (Target.run?_cons htest).trans (Target.run?_singleton.trans ?_), hholds'⟩
  refine congrArg some ?_
  by_cases hcell : tape.cell = 0
  · simp [hcell, hzero]
  · simp [hcell, hzero]

theorem branchIfNonzero_holds (name : String) (hholds : Holds Registers.rbx mapped tape core)
    (hmapped : mapped tape.pointer = true) :
    ∃ core', machine.run? base (branchIfNonzero name) core =
        some (if tape.cell = 0 then .next core' else .jump name core') ∧
      Holds Registers.rbx mapped tape core' := by
  obtain ⟨core', htest, hzero, hholds'⟩ := testCell_holds base hholds hmapped
  refine ⟨core', (Target.run?_cons htest).trans (Target.run?_singleton.trans ?_), hholds'⟩
  refine congrArg some ?_
  by_cases hcell : tape.cell = 0
  · simp [hcell, hzero]
  · simp [hcell, hzero]

end Pieces

def code : Code backend machine where
  data :=
    [.directive ".intel_syntax" ["noprefix"],
      .directive ".section" [".note.GNU-stack", "\"\"", "@progbits"],
      .directive ".bss" [], .directive ".p2align" ["4"], .label "tape",
      .directive ".zero" [toString tapeSize], .directive ".text" [],
      .directive ".globl" ["_start"]]
  setUp := [.leaTape]
  op := op
  branchIfZero := branchIfZero
  branchIfNonzero := branchIfNonzero
  exit := exit
  pool := []
  reads_opening := by
    repeat' first | exact .nil | refine .cons ⟨by decide, rfl⟩ ?_
  reads_op := fun operation => forall₂_line (encodable_op operation)
  reads_branchIfZero := fun label => forall₂_line (by
    simp [branchIfZero, Instr.Encodable, label.isOperand_name])
  reads_branchIfNonzero := fun label => forall₂_line (by
    simp [branchIfNonzero, Instr.Encodable, label.isOperand_name])
  reads_exit := forall₂_line (by simp [exit, Instr.Encodable, UInt32.size])
  labels_data := rfl
  labels_pool := rfl
  reserves := fun rest => rfl

theorem works : code.Works Registers.rbx where
  setUp := fun base core => ⟨{ core.registers with rbx := base }, rfl, rfl⟩
  op := fun base => op_holds base
  branchIfZero := fun base => branchIfZero_holds base
  branchIfNonzero := fun base => branchIfNonzero_holds base
  exit := fun _ core => ⟨{ core.registers with rax := 60, rdi := 0, zero := true }, rfl⟩

/-- The text for x86-64 is accepted as a whole, and from `_start` on it does what the tree does,
wherever the symbol `tape` is and whatever the memory and the registers hold: it exits with status
zero if the tree ends, with its memory, rest of the input and output, and writes the same bytes if
it does not. -/
theorem x64_text_agrees (block : Block) (cells : UInt64 → UInt8) (base : UInt64)
    (registers : Registers) (input : Bytes) :
    ∃ listing program entry,
      Arch.x64.assemble block = .ok listing ∧
      assemble? machine.instr? listing.text = some program ∧
      machine.entry? program = some entry ∧
      Block.process.Agrees (machine.process base program)
        (fun final halt => halt =
          .exit 0 (fun address => some (final.cells address)) final.input final.output)
        (block.start ⟨cells, base, input, []⟩)
        (entry, ⟨registers, fun address => some (cells address), input, []⟩) := by
  refine ⟨backend.assemble block, code.program block, code.data.length, rfl,
    code.assemble?_assemble block, code.entry?_program block, ?_⟩
  exact works.agrees (fun _ => true) rfl rfl rfl rfl fun _ _ _ => rfl

end Brainfuck.Asm.X64
