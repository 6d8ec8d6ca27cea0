import Brainfuck.Compile
import Brainfuck.Proofs.Machine.Correctness

/-! The AArch64 machine, as far as the backend uses it, and the proof that the backend works on it.

`w9` is the lower half of `x9`; a result in `w9` clears the upper half. The immediates of additions
have 12 bits, those of moves 16, and neither has a sign. A system call returns in `x0` and keeps
the other registers. -/

namespace Brainfuck.Asm.AArch64

structure Registers where
  x0 : UInt64
  x1 : UInt64
  x2 : UInt64
  x8 : UInt64
  x9 : UInt64
  x19 : UInt64

def marked? (mark : String) (lowest highest : Int) (operand : String) : Option Int :=
  if mark.toList <+: operand.toList then
    immediate? lowest highest (.ofList (operand.toList.drop mark.length))
  else none

def byte? (operand : String) : Option UInt8 :=
  (marked? "#" 0 255 operand).map .ofInt

def amount? (operand : String) : Option (BitVec 12) :=
  (marked? "#" 0 4095 operand).map (.ofInt 12)

def value? (operand : String) : Option Nat :=
  (marked? "#" 0 65535 operand).map Int.toNat

def constant? (operand : String) : Option Int64 :=
  (marked? "=" (-2 ^ 63) (2 ^ 64 - 1) operand).map .ofInt

def instr? (word : String) (operands : List String) : Option Instr :=
  match word, operands with
  | "adrp", ["x19", "tape"] => some .tapePage
  | "ldrb", ["w9", "[x19]"] => some .loadCell
  | "strb", ["w9", "[x19]"] => some .storeCell
  | "add", ["w9", "w9", amount] => (byte? amount).map .addScratch
  | "add", ["x19", "x19", amount] =>
      if amount = ":lo12:tape" then some .tapeOffset
      else if amount = "x9" then some .addOffset
      else (amount? amount).map .addPointer
  | "sub", ["x19", "x19", amount] => (amount? amount).map .subPointer
  | "ldr", ["x9", amount] => (constant? amount).map .loadOffset
  | "mov", ["w9", value] => (byte? value).map .setScratch
  | "mov", ["x0", number] => (value? number).map .file
  | "mov", ["x1", "x19"] => some .buffer
  | "mov", ["x2", size] => (value? size).map .bufferSize
  | "mov", ["x8", number] => (value? number).map .call
  | "svc", ["#0"] => some .supervisor
  | "cbz", ["w9", target] => some (.branchZero target)
  | "cbnz", ["w9", target] => some (.branchNonzero target)
  | _, _ => none

def service? (number : UInt64) : Option Core.Service :=
  if number = 63 then some .read
  else if number = 64 then some .write
  else if number = 93 then some .exit
  else none

def exec? (tape : UInt64) (instr : Instr) (core : Core Registers) : Option (Effect Registers) :=
  let registers := core.registers
  match instr with
  | .tapePage => some (core.proceed { registers with x19 := tape - tape % 4096 })
  | .tapeOffset => some (core.proceed { registers with x19 := registers.x19 + tape % 4096 })
  | .loadCell =>
      (core.load? registers.x19).map fun (byte : UInt8) =>
        core.proceed { registers with x9 := byte.toUInt64 }
  | .storeCell => (core.store? registers.x19 registers.x9.toUInt8).map .next
  | .addScratch amount =>
      some (core.proceed
        { registers with x9 := (registers.x9.toUInt32 + amount.toUInt32).toUInt64 })
  | .setScratch value => some (core.proceed { registers with x9 := value.toUInt64 })
  | .addPointer amount =>
      some (core.proceed { registers with x19 := registers.x19 + .ofNat amount.toNat })
  | .subPointer amount =>
      some (core.proceed { registers with x19 := registers.x19 - .ofNat amount.toNat })
  | .loadOffset amount => some (core.proceed { registers with x9 := amount.toUInt64 })
  | .addOffset => some (core.proceed { registers with x19 := registers.x19 + registers.x9 })
  | .file number => some (core.proceed { registers with x0 := .ofNat number })
  | .buffer => some (core.proceed { registers with x1 := registers.x19 })
  | .bufferSize size => some (core.proceed { registers with x2 := .ofNat size })
  | .call number => some (core.proceed { registers with x8 := .ofNat number })
  | .supervisor => do
      core.call? (fun value => { registers with x0 := value }) registers.x0 registers.x1
        registers.x2 (← service? registers.x8)
  | .branchZero target =>
      some (if registers.x9.toUInt32 = 0 then .jump target core else .next core)
  | .branchNonzero target =>
      some (if registers.x9.toUInt32 = 0 then .next core else .jump target core)

theorem output_exec? {tape : UInt64} {instr : Instr} {core : Core Registers}
    {effect : Effect Registers} (hexec : exec? tape instr core = some effect) :
    core.output <+: effect.core.output := by
  cases instr with
  | loadCell =>
      obtain ⟨byte, -, rfl⟩ := Option.map_eq_some_iff.mp hexec
      exact List.prefix_refl _
  | storeCell =>
      obtain ⟨stored, hstore, rfl⟩ := Option.map_eq_some_iff.mp hexec
      exact Core.output_store? hstore ▸ List.prefix_refl _
  | supervisor =>
      obtain ⟨service, -, hcall⟩ := Option.bind_eq_some_iff.mp hexec
      exact Core.output_call? hcall
  | branchZero target =>
      cases hexec
      split <;> exact List.prefix_refl _
  | branchNonzero target =>
      cases hexec
      split <;> exact List.prefix_refl _
  | _ =>
      cases hexec
      exact List.prefix_refl _

abbrev machine : Target where
  Instr := Instr
  Registers := Registers
  instr? := instr?
  exec? := exec?
  output_exec? := output_exec?

/-! The machine reads the lines of the backend. -/

theorem marked?_append (mark : String) (lowest highest : Int) (text : String) :
    marked? mark lowest highest (mark ++ text) = immediate? lowest highest text := by
  have hdrop : (mark.toList ++ text.toList).drop mark.length = text.toList := by
    rw [← String.length_toList, List.drop_left]
  rw [marked?, String.toList_append, if_pos (List.prefix_append _ _), hdrop,
    String.ofList_toList]

theorem byte?_toString (value : UInt8) : byte? ("#" ++ toString value.toNat) = some value := by
  have hlt := value.toNat_lt
  rw [byte?, marked?_append, immediate?_toString (by omega) (by omega), Option.map_some,
    ofInt_toNat]

theorem amount?_toString (value : BitVec 12) :
    amount? ("#" ++ toString value.toNat) = some value := by
  have hlt := value.isLt
  rw [amount?, marked?_append, immediate?_toString (by omega) (by omega), Option.map_some]
  refine congrArg some (BitVec.eq_of_toNat_eq ?_)
  rw [BitVec.toNat_ofInt]
  omega

theorem value?_toString {value : Nat} (hvalue : value ≤ 65535) :
    value? ("#" ++ toString value) = some value := by
  rw [value?, marked?_append, immediate?_toString (by omega) (by omega), Option.map_some]
  rfl

theorem constant?_toString (value : Int64) :
    constant? ("=" ++ toString value.toInt) = some value := by
  have hlt := value.toInt_lt
  rw [constant?, marked?_append, immediate?_toString_int value.le_toInt (by omega),
    Option.map_some, Int64.ofInt_toInt]

theorem isOperand_marked (value : Nat) : IsOperand ("#" ++ toString value) := by
  have hmark : IsOperand "#" := by decide
  exact hmark.append (isOperand_toString value)

theorem marked_ne (text : String) {name : String} (hname : name.toList.head? ≠ some '#') :
    "#" ++ text ≠ name := by
  intro heq
  apply hname
  rw [← heq, String.toList_append]
  rfl

def Instr.Encodable : Instr → Prop
  | .file number => number ≤ 65535
  | .bufferSize size => size ≤ 65535
  | .call number => number ≤ 65535
  | .branchZero target => IsOperand target
  | .branchNonzero target => IsOperand target
  | _ => True

theorem Instr.reads_line {instr : Instr} (hencodable : instr.Encodable) :
    Line.Reads instr? instr.line (.instr instr) := by
  cases instr with
  | tapePage => exact ⟨by decide, rfl⟩
  | tapeOffset => exact ⟨by decide, rfl⟩
  | loadCell => exact ⟨by decide, rfl⟩
  | storeCell => exact ⟨by decide, rfl⟩
  | addScratch amount =>
      exact Line.reads_marked "add" ["w9", "w9"] "#" (by decide)
        (isOperand_marked _) (congrArg (Option.map addScratch) (byte?_toString amount))
  | setScratch value =>
      exact Line.reads_marked "mov" ["w9"] "#" (by decide)
        (isOperand_marked _) (congrArg (Option.map setScratch) (byte?_toString value))
  | addPointer amount =>
      have hsymbol : "#" ++ toString amount.toNat ≠ ":lo12:tape" := marked_ne _ (by decide)
      have hregister : "#" ++ toString amount.toNat ≠ "x9" := marked_ne _ (by decide)
      have hread : instr? "add" ["x19", "x19", "#" ++ toString amount.toNat] =
          some (.addPointer amount) := by
        change (if "#" ++ toString amount.toNat = ":lo12:tape" then some tapeOffset
          else if "#" ++ toString amount.toNat = "x9" then some addOffset
          else (amount? ("#" ++ toString amount.toNat)).map addPointer) = _
        rw [if_neg hsymbol, if_neg hregister, amount?_toString, Option.map_some]
      exact Line.reads_marked "add" ["x19", "x19"] "#" (by decide)
        (isOperand_marked _) hread
  | subPointer amount =>
      exact Line.reads_marked "sub" ["x19", "x19"] "#" (by decide)
        (isOperand_marked _) (congrArg (Option.map subPointer) (amount?_toString amount))
  | loadOffset amount =>
      have hmark : IsOperand "=" := by decide
      exact Line.reads_marked "ldr" ["x9"] "=" (by decide)
        (hmark.append (isOperand_toString_int _))
        (congrArg (Option.map loadOffset) (constant?_toString amount))
  | addOffset => exact ⟨by decide, rfl⟩
  | file number =>
      exact Line.reads_marked "mov" ["x0"] "#" (by decide)
        (isOperand_marked _) (congrArg (Option.map file) (value?_toString hencodable))
  | buffer => exact ⟨by decide, rfl⟩
  | bufferSize size =>
      exact Line.reads_marked "mov" ["x2"] "#" (by decide)
        (isOperand_marked _) (congrArg (Option.map bufferSize) (value?_toString hencodable))
  | call number =>
      exact Line.reads_marked "mov" ["x8"] "#" (by decide)
        (isOperand_marked _) (congrArg (Option.map call) (value?_toString hencodable))
  | supervisor => exact ⟨by decide, rfl⟩
  | branchZero target =>
      exact Line.reads_operand "cbz" ["w9"] (by decide) hencodable rfl
  | branchNonzero target =>
      exact Line.reads_operand "cbnz" ["w9"] (by decide) hencodable rfl

theorem encodable_op (operation : Op) : ∀ instr ∈ op operation, instr.Encodable := by
  cases operation with
  | add delta =>
      rw [op, add]
      split
      · simp
      · simp [Instr.Encodable]
  | move delta =>
      rw [op, move]
      split
      · simp [Instr.Encodable]
      · split
        · simp [Instr.Encodable]
        · simp [Instr.Encodable]
  | set value => simp [op, Instr.Encodable]
  | get => simp [op, transfer, Instr.Encodable]
  | put => simp [op, transfer, Instr.Encodable]

theorem forall₂_line {instrs : List Instr} (hencodable : ∀ instr ∈ instrs, instr.Encodable) :
    List.Forall₂ (Line.Reads instr?) (instrs.map Instr.line) (instrs.map .instr) :=
  Line.forall₂_reads fun instr hmem => Instr.reads_line (hencodable instr hmem)

/-! The pieces of the code work. -/

section Pieces

variable (base : UInt64) {mapped : UInt64 → Bool} {tape : Tape UInt64} {core : Core Registers}

theorem loadCell_holds (hholds : Holds Registers.x19 mapped tape core)
    (hmapped : mapped tape.pointer = true) :
    ∃ core', exec? base .loadCell core = some (.next core') ∧
      core'.registers.x9 = tape.cell.toUInt64 ∧ Holds Registers.x19 mapped tape core' :=
  ⟨_, congrArg (Option.map _) (hholds.load? hmapped), rfl,
    hholds.withRegisters _ hholds.pointer⟩

theorem storeCell_holds (hholds : Holds Registers.x19 mapped tape core)
    (hmapped : mapped tape.pointer = true) :
    ∃ core', exec? base .storeCell core = some (.next core') ∧
      Holds Registers.x19 mapped (tape.write core.registers.x9.toUInt8) core' := by
  obtain ⟨stored, hstore, hstored⟩ := hholds.store? hmapped core.registers.x9.toUInt8
  exact ⟨stored, congrArg (Option.map Effect.next) hstore, hstored⟩

/-- Added up in 32 bits and cut down to a byte, two bytes give their sum modulo 256. -/
theorem toUInt8_add (cell amount : UInt8) :
    (cell.toUInt64.toUInt32 + amount.toUInt32).toUInt64.toUInt8 = cell + amount := by
  apply UInt8.toNat_inj.mp
  simp

theorem add_holds (hholds : Holds Registers.x19 mapped tape core)
    (hmapped : mapped tape.pointer = true) (amount : UInt8) :
    ∃ core', machine.run? base (add amount) core = some (.next core') ∧
      Holds Registers.x19 mapped (tape.write (tape.cell + amount)) core' := by
  unfold add
  split
  · next hzero =>
      refine ⟨core, rfl, ?_⟩
      rw [hzero, UInt8.add_zero, Tape.write_cell]
      exact hholds
  · obtain ⟨loaded, hload, hscratch, hloaded⟩ := loadCell_holds base hholds hmapped
    have hadded := hloaded.withRegisters
      { loaded.registers with
        x9 := (loaded.registers.x9.toUInt32 + amount.toUInt32).toUInt64 } hloaded.pointer
    obtain ⟨core', hstore, hholds'⟩ := storeCell_holds base hadded hmapped
    refine ⟨core', (Target.run?_cons hload).trans ((Target.run?_cons rfl).trans
      (Target.run?_singleton.trans hstore)), ?_⟩
    simp only [hscratch, toUInt8_add] at hholds'
    exact hholds'

theorem ofNat_toNat_ofInt {distance : ℤ} (hlow : 0 ≤ distance) (hhigh : distance ≤ 4095) :
    UInt64.ofNat (BitVec.ofInt 12 distance).toNat = .ofInt distance := by
  rw [BitVec.toNat_ofInt, UInt64.ofInt]
  congr 1
  omega

theorem move_holds (hholds : Holds Registers.x19 mapped tape core) (delta : Int64) :
    ∃ core', machine.run? base (move delta) core = some (.next core') ∧
      Holds Registers.x19 mapped (tape.move delta.toInt) core' := by
  have hmoved : Holds Registers.x19 mapped (tape.move delta.toInt)
      { core with
        registers := { core.registers with
          x19 := core.registers.x19 + .ofInt delta.toInt } } := by
    refine ⟨?_, hholds.memory, hholds.input, hholds.output⟩
    change core.registers.x19 + .ofInt delta.toInt = delta.toInt +ᵥ tape.pointer
    rw [hholds.pointer, vadd_address]
  unfold move
  split
  · next hforward =>
      rw [← ofNat_toNat_ofInt hforward.1 hforward.2] at hmoved
      exact ⟨_, Target.run?_singleton, hmoved⟩
  · split
    · next hbackward =>
        have hdistance : UInt64.ofNat (BitVec.ofInt 12 (-delta.toInt)).toNat =
            -.ofInt delta.toInt := by
          rw [ofNat_toNat_ofInt (by omega) (by omega), UInt64.ofInt_neg]
        rw [← UInt64.sub_neg, ← hdistance] at hmoved
        exact ⟨_, Target.run?_singleton, hmoved⟩
    · rw [← Op.toUInt64_eq_ofInt] at hmoved
      have hrun : machine.run? base [.loadOffset delta, .addOffset] core =
          exec? base .addOffset
            { core with registers := { core.registers with x9 := delta.toUInt64 } } :=
        (Target.run?_cons rfl).trans Target.run?_singleton
      exact ⟨_, hrun, hmoved.pointer, hmoved.memory, hmoved.input, hmoved.output⟩

def Registers.ready (registers : Registers) (number file : Nat) : Registers :=
  { registers with
    x0 := .ofNat file, x1 := registers.x19, x2 := 1, x8 := .ofNat number }

theorem run?_transfer (number file : Nat) : machine.run? base (transfer number file) core =
    exec? base .supervisor { core with registers := core.registers.ready number file } :=
  (Target.run?_cons rfl).trans <| (Target.run?_cons rfl).trans <| (Target.run?_cons rfl).trans <|
    (Target.run?_cons rfl).trans Target.run?_singleton

theorem op_holds (operation : Op) (hholds : Holds Registers.x19 mapped tape core)
    (hmapped : operation.touches tape = true → mapped tape.pointer = true) :
    ∃ core', machine.run? base (op operation) core = some (.next core') ∧
      Holds Registers.x19 mapped (operation.apply tape) core' := by
  cases operation with
  | add delta =>
      obtain ⟨core', hrun, hholds'⟩ := add_holds base hholds (hmapped rfl) (Op.cell delta)
      rw [Op.cell_eq_ofInt] at hholds'
      exact ⟨core', hrun, hholds'⟩
  | move delta => exact move_holds base hholds delta
  | set value =>
      have hset := hholds.withRegisters
        { core.registers with x9 := (Op.cell value).toUInt64 } hholds.pointer
      obtain ⟨core', hstore, hholds'⟩ := storeCell_holds base hset (hmapped rfl)
      rw [UInt8.toUInt8_toUInt64, Op.cell_eq_ofInt] at hholds'
      exact ⟨core', (Target.run?_cons rfl).trans (Target.run?_singleton.trans hstore), hholds'⟩
  | get =>
      have hready := hholds.withRegisters (core.registers.ready 63 0) hholds.pointer
      obtain ⟨core', hcall, hholds'⟩ := hready.read hmapped
        (fun value => { core.registers.ready 63 0 with x0 := value })
        fun _ => hholds.pointer
      exact ⟨core', (run?_transfer base 63 0).trans hcall, hholds'⟩
  | put =>
      have hready := hholds.withRegisters (core.registers.ready 64 1) hholds.pointer
      obtain ⟨core', hcall, hholds'⟩ := hready.write (hmapped rfl)
        (fun value => { core.registers.ready 64 1 with x0 := value })
        fun _ => hholds.pointer
      exact ⟨core', (run?_transfer base 64 1).trans hcall, hholds'⟩

theorem toUInt32_eq_zero {scratch : UInt64} {cell : UInt8} (hscratch : scratch = cell.toUInt64) :
    scratch.toUInt32 = 0 ↔ cell = 0 := by
  rw [hscratch, ← UInt32.toNat_inj, ← UInt8.toNat_inj]
  simp

theorem branchIfZero_holds (name : String) (hholds : Holds Registers.x19 mapped tape core)
    (hmapped : mapped tape.pointer = true) :
    ∃ core', machine.run? base (branchIfZero name) core =
        some (if tape.cell = 0 then .jump name core' else .next core') ∧
      Holds Registers.x19 mapped tape core' := by
  obtain ⟨core', hload, hscratch, hholds'⟩ := loadCell_holds base hholds hmapped
  refine ⟨core', (Target.run?_cons hload).trans (Target.run?_singleton.trans ?_), hholds'⟩
  refine congrArg some ?_
  simp only [toUInt32_eq_zero hscratch]

theorem branchIfNonzero_holds (name : String) (hholds : Holds Registers.x19 mapped tape core)
    (hmapped : mapped tape.pointer = true) :
    ∃ core', machine.run? base (branchIfNonzero name) core =
        some (if tape.cell = 0 then .next core' else .jump name core') ∧
      Holds Registers.x19 mapped tape core' := by
  obtain ⟨core', hload, hscratch, hholds'⟩ := loadCell_holds base hholds hmapped
  refine ⟨core', (Target.run?_cons hload).trans (Target.run?_singleton.trans ?_), hholds'⟩
  refine congrArg some ?_
  simp only [toUInt32_eq_zero hscratch]

end Pieces

def code : Code backend machine where
  data :=
    [.blank, .directive ".section" [".note.GNU-stack", "\"\"", "%progbits"],
      .directive ".bss" [], .directive ".balign" ["16"], .label "tape",
      .directive ".zero" [toString tapeSize], .directive ".text" [],
      .directive ".globl" ["_start"]]
  setUp := [.tapePage, .tapeOffset]
  op := op
  branchIfZero := branchIfZero
  branchIfNonzero := branchIfNonzero
  exit := exit
  pool := [.directive ".ltorg" []]
  reads_opening := by
    repeat' first | exact .nil | refine .cons ⟨by decide, rfl⟩ ?_
  reads_op := fun operation => forall₂_line (encodable_op operation)
  reads_branchIfZero := fun label => forall₂_line (by
    simp [branchIfZero, Instr.Encodable, label.isOperand_name])
  reads_branchIfNonzero := fun label => forall₂_line (by
    simp [branchIfNonzero, Instr.Encodable, label.isOperand_name])
  reads_exit := List.rel_append (forall₂_line (by simp [exit, Instr.Encodable]))
    (.cons ⟨by decide, rfl⟩ .nil)
  labels_data := rfl
  labels_pool := rfl
  reserves := fun rest => rfl

theorem works : code.Works Registers.x19 where
  setUp := by
    intro base core
    refine ⟨_, rfl, ?_⟩
    change base - base % 4096 + base % 4096 = base
    exact UInt64.sub_add_cancel base _
  op := fun base => op_holds base
  branchIfZero := fun base => branchIfZero_holds base
  branchIfNonzero := fun base => branchIfNonzero_holds base
  exit := fun _ core => ⟨{ core.registers with x0 := 0, x8 := 93 }, rfl⟩

/-- The text for AArch64 is accepted as a whole, and from `_start` on it does what the tree does,
wherever the symbol `tape` is and whatever the memory and the registers hold: it exits with status
zero if the tree ends, with its memory, rest of the input and output, and writes the same bytes if
it does not. -/
theorem aarch64_text_agrees (block : Block) (cells : UInt64 → UInt8) (base : UInt64)
    (registers : Registers) (input : Bytes) :
    ∃ listing program entry,
      Arch.aarch64.assemble block = .ok listing ∧
      assemble? machine.instr? listing.text = some program ∧
      machine.entry? program = some entry ∧
      Block.process.Agrees (machine.process base program)
        (fun final halt => halt =
          .exit 0 (fun address => some (final.cells address)) final.input final.output)
        (block.start ⟨cells, base, input, []⟩)
        (entry, ⟨registers, fun address => some (cells address), input, []⟩) := by
  refine ⟨backend.assemble block, code.program block, code.data.length, rfl,
    code.assemble?_assemble block, code.entry?_program block, ?_⟩
  exact works.agrees (fun _ => true) rfl rfl rfl rfl fun _ _ _ => rfl

end Brainfuck.Asm.AArch64
