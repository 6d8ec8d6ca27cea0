import Brainfuck.Proofs.Machine.Lowering
import Brainfuck.Proofs.Window

/-! From the pieces of the code to the whole program.

`Works` lists what the pieces have to do on the machine: keep the tape in memory and its pointer in
one register, test the cell, and leave with status zero. From it, the machine that executes the
program of a tree agrees with the execution of the tree. No instruction maps or unmaps an address,
so the bytes at the start tell for all later tapes. -/

namespace Brainfuck

/-- The cells of a tape at the addresses that are mapped. -/
def Tape.memory (mapped : UInt64 → Bool) (tape : Tape UInt64) : Asm.Memory :=
  fun address => if mapped address then some (tape.cells address) else none

namespace Asm

namespace Memory

/-- A memory as a tape whose pointer is at the base address. -/
def tape (memory : Memory) (base : UInt64) (input : Bytes) : Tape UInt64 :=
  ⟨fun address => (memory address).getD 0, base, input, []⟩

theorem memory_tape (memory : Memory) (base : UInt64) (input : Bytes) :
    (memory.tape base input).memory (fun address => (memory address).isSome) = memory := by
  funext address
  cases hbyte : memory address with
  | none => simp [Tape.memory, hbyte]
  | some byte => simp [Tape.memory, tape, hbyte]

variable {memory : Memory} {base : UInt64} {size : Nat}

theorem zero_of_inWindow (hmemory : ∀ index < size, memory (base + .ofNat index) = some 0)
    {index : ℤ} (hindex : Tape.inWindow size index) : memory (index +ᵥ base) = some 0 := by
  obtain ⟨hlow, hhigh⟩ := hindex
  obtain ⟨distance, rfl⟩ := Int.eq_ofNat_of_zero_le hlow
  rw [vadd_natCast]
  exact hmemory distance (by omega)

theorem mirrors_tape (hmemory : ∀ index < size, memory (base + .ofNat index) = some 0)
    (input : Bytes) : Tape.Mirrors base size (.blank input) (memory.tape base input) := by
  refine ⟨?_, (zero_vadd ℤ base).symm, rfl, rfl⟩
  intro index hindex
  exact congrArg (Option.getD · 0) (zero_of_inWindow hmemory hindex)

end Memory

structure Holds {Registers : Type} (pointer : Registers → UInt64) (mapped : UInt64 → Bool)
    (tape : Tape UInt64) (core : Core Registers) : Prop where
  pointer : pointer core.registers = tape.pointer
  memory : core.memory = tape.memory mapped
  input : core.input = tape.input
  output : core.output = tape.output

namespace Holds

variable {Registers : Type} {pointer : Registers → UInt64} {mapped : UInt64 → Bool}
  {tape : Tape UInt64} {core : Core Registers}

theorem load? (hholds : Holds pointer mapped tape core) (hmapped : mapped tape.pointer = true) :
    core.load? (pointer core.registers) = some tape.cell := by
  rw [hholds.pointer, Core.load?, hholds.memory, Tape.memory, if_pos hmapped]
  rfl

theorem store? (hholds : Holds pointer mapped tape core) (hmapped : mapped tape.pointer = true)
    (value : UInt8) :
    ∃ stored, core.store? (pointer core.registers) value = some stored ∧
      Holds pointer mapped (tape.write value) stored := by
  have hload := hholds.load? hmapped
  rw [Core.load?] at hload
  refine ⟨_, congrArg (Option.map _) hload, hholds.pointer, ?_, hholds.input, hholds.output⟩
  funext address
  rw [hholds.pointer, hholds.memory]
  by_cases haddress : address = tape.pointer
  · subst haddress
    simp [Tape.memory, Tape.write, hmapped]
  · simp [Tape.memory, Tape.write, haddress]

theorem withRegisters (hholds : Holds pointer mapped tape core) (registers : Registers)
    (hpointer : pointer registers = tape.pointer) :
    Holds pointer mapped tape { core with registers } :=
  ⟨hpointer, hholds.memory, hholds.input, hholds.output⟩

/-! The two system calls that transfer a byte, with the tape pointer as the address of the
buffer. -/

theorem read (hholds : Holds pointer mapped tape core)
    (hmapped : Op.get.touches tape = true → mapped tape.pointer = true)
    (resume : UInt64 → Registers) (hresume : ∀ value, pointer (resume value) = tape.pointer) :
    ∃ core', core.call? resume 0 (pointer core.registers) 1 .read = some (.next core') ∧
      Holds pointer mapped tape.get core' := by
  have hinput := hholds.input
  cases hbytes : core.input with
  | nil =>
      have hget : tape.get = tape := by
        rw [Tape.get, ← hinput, hbytes]
      refine ⟨{ core with registers := resume 0 }, ?_, ?_⟩
      · simp [Core.call?, Core.read?, hbytes]
      · rw [hget]
        exact hholds.withRegisters _ (hresume 0)
  | cons byte rest =>
      have hget : tape.get = { tape.write byte with input := rest } := by
        rw [Tape.get, ← hinput, hbytes]
      have htouches := Op.touches_get (hinput.symm.trans hbytes)
      obtain ⟨stored, hstore, hstored⟩ := hholds.store? (hmapped htouches) byte
      refine ⟨{ stored with registers := resume 1, input := rest }, ?_, ?_⟩
      · simp [Core.call?, Core.read?, hbytes, hstore]
      · rw [hget]
        exact ⟨hresume 1, hstored.memory, rfl, hstored.output⟩

theorem write (hholds : Holds pointer mapped tape core) (hmapped : mapped tape.pointer = true)
    (resume : UInt64 → Registers) (hresume : ∀ value, pointer (resume value) = tape.pointer) :
    ∃ core', core.call? resume 1 (pointer core.registers) 1 .write = some (.next core') ∧
      Holds pointer mapped tape.put core' := by
  have houtput : core.output ++ [tape.cell] = tape.put.output := by
    rw [hholds.output]
    rfl
  refine ⟨{ core with registers := resume 1, output := core.output ++ [tape.cell] }, ?_,
    hresume 1, hholds.memory, hholds.input, houtput⟩
  simp [Core.call?, Core.write?, hholds.load? hmapped]

end Holds

namespace Code

variable {backend : Backend} {target : Target}

structure Works (code : Code backend target) (pointer : target.Registers → UInt64) : Prop where
  setUp : ∀ base core, ∃ registers,
    target.run? base code.setUp core = some (.next { core with registers }) ∧
      pointer registers = base
  op : ∀ base {mapped tape core} operation, Holds pointer mapped tape core →
    (operation.touches tape = true → mapped tape.pointer = true) →
    ∃ core', target.run? base (code.op operation) core = some (.next core') ∧
      Holds pointer mapped (operation.apply tape) core'
  branchIfZero : ∀ base {mapped tape core} name, Holds pointer mapped tape core →
    mapped tape.pointer = true →
    ∃ core', target.run? base (code.branchIfZero name) core =
        some (if tape.cell = 0 then .jump name core' else .next core') ∧
      Holds pointer mapped tape core'
  branchIfNonzero : ∀ base {mapped tape core} name, Holds pointer mapped tape core →
    mapped tape.pointer = true →
    ∃ core', target.run? base (code.branchIfNonzero name) core =
        some (if tape.cell = 0 then .next core' else .jump name core') ∧
      Holds pointer mapped tape core'
  exit : ∀ base core, ∃ registers,
    target.run? base code.exit core = some (.exit 0 { core with registers })

def Halts (mapped : UInt64 → Bool) (final : Tape UInt64) (halt : Halt) : Prop :=
  halt = .exit 0 (final.memory mapped) final.input final.output

section Whole

variable {code : Code backend target} {program : List (Item target.Instr)} {label origin : Nat}
  {body : Block}

theorem getElem?_first (hplaced : Placed program origin (code.layout.whole label body)) :
    ∃ line, program[line]? = some (.label (Label.name ⟨label⟩)) ∧
      line + 1 = origin + (code.layout.enter label).length := by
  have henter := (placed_append.mp (placed_append.mp hplaced).1).1
  obtain ⟨hitem, -⟩ := placed_cons.mp (placed_append.mp henter).2
  refine ⟨_, hitem, ?_⟩
  simp only [layout, List.length_append, List.length_singleton]
  omega

theorem getElem?_second (hplaced : Placed program origin (code.layout.whole label body)) :
    ∃ line, program[line]? = some (.label (Label.name ⟨label + 1⟩)) ∧
      line + 1 = origin + (code.layout.whole label body).length := by
  have hleave := (placed_append.mp hplaced).2
  obtain ⟨hitem, -⟩ := placed_cons.mp (placed_append.mp hleave).2
  refine ⟨_, hitem, ?_⟩
  simp only [Layout.whole, layout, List.length_append, List.length_singleton]
  omega

end Whole

namespace Works

variable {code : Code backend target} {pointer : target.Registers → UInt64} {base : UInt64}
  {mapped : UInt64 → Bool} {program : List (Item target.Instr)} {tape : Tape UInt64}
  {core : Core target.Registers} {label origin : Nat} {body : Block}

theorem enter (hworks : code.Works pointer) (hlabels : (program.filterMap Item.name?).Nodup)
    (hplaced : Placed program origin (code.layout.whole label body))
    (hholds : Holds pointer mapped tape core) (hmapped : mapped tape.pointer = true) :
    ∃ count core', (target.process base program).after (count + 1) (origin, core) =
        .next (code.layout.afterTest label body origin tape.cell, core') ∧
      Holds pointer mapped tape core' := by
  have henter := (placed_append.mp (placed_append.mp hplaced).1).1
  obtain ⟨core', hrun, hholds'⟩ :=
    hworks.branchIfZero base (Label.name ⟨label + 1⟩) hholds hmapped
  unfold Layout.afterTest
  by_cases hcell : tape.cell = 0
  · rw [if_pos hcell] at hrun ⊢
    obtain ⟨line, hline, hbehind⟩ := getElem?_second hplaced
    obtain ⟨count, hcount⟩ :=
      Target.after_jump hlabels (placed_append.mp henter).1 hrun hline
    exact ⟨count, core', hbehind ▸ hcount, hholds'⟩
  · rw [if_neg hcell] at hrun ⊢
    obtain ⟨count, hcount⟩ := Target.after_pass henter hrun
    exact ⟨count, core', hcount, hholds'⟩

theorem leave (hworks : code.Works pointer) (hlabels : (program.filterMap Item.name?).Nodup)
    (hplaced : Placed program origin (code.layout.whole label body))
    (hholds : Holds pointer mapped tape core) (hmapped : mapped tape.pointer = true) :
    ∃ count core', (target.process base program).after (count + 1)
        (origin + (code.layout.enter label ++ code.layout.code (label + 2) body).length, core) =
        .next (code.layout.afterTest label body origin tape.cell, core') ∧
      Holds pointer mapped tape core' := by
  have hleave := (placed_append.mp hplaced).2
  obtain ⟨core', hrun, hholds'⟩ :=
    hworks.branchIfNonzero base (Label.name ⟨label⟩) hholds hmapped
  unfold Layout.afterTest
  by_cases hcell : tape.cell = 0
  · rw [if_pos hcell] at hrun ⊢
    obtain ⟨count, hcount⟩ := Target.after_pass hleave hrun
    rw [Nat.add_assoc, ← List.length_append] at hcount
    exact ⟨count, core', hcount, hholds'⟩
  · rw [if_neg hcell] at hrun ⊢
    obtain ⟨line, hline, hinside⟩ := getElem?_first hplaced
    obtain ⟨count, hcount⟩ :=
      Target.after_jump hlabels (placed_append.mp hleave).1 hrun hline
    exact ⟨count, core', hinside ▸ hcount, hholds'⟩

theorem finish (hworks : code.Works pointer) {place : Nat}
    (hending : program.drop place = code.closing) (hholds : Holds pointer mapped tape core) :
    ∃ last halt, (target.process base program).Reaches (place, core) last ∧
      (target.process base program).output last =
        (target.process base program).output (place, core) ∧
      (target.process base program).step last = .stop halt ∧ Halts mapped tape halt := by
  have hplaced : Placed program place (code.exit.map .instr) := by
    rw [Placed, hending, closing, List.append_assoc]
    exact List.prefix_append _ _
  obtain ⟨registers, hrun⟩ := hworks.exit base core
  obtain ⟨last, hreaches, houtput, hstop⟩ := Target.stop_of_run? hplaced hrun rfl
  refine ⟨last, _, hreaches, houtput, hstop, ?_⟩
  rw [Halts, hholds.memory, hholds.input, hholds.output]

theorem implements (hworks : code.Works pointer) (base : UInt64) (mapped : UInt64 → Bool)
    (block : Block) :
    code.layout.Implements (code.program block) code.closing
      (target.process base (code.program block)) (Holds pointer mapped)
      (fun address => mapped address = true) (Halts mapped) where
  output := fun _ hholds => hholds.output
  op := by
    intro operation tape core place hplaced hholds hmapped
    obtain ⟨core', hrun, hholds'⟩ := hworks.op base operation hholds hmapped
    have hreaches := Target.reaches_of_run? hplaced hrun
    rw [← List.length_map (f := Item.instr)] at hreaches
    exact ⟨core', hreaches, hholds'⟩
  enter := hworks.enter (code.nodup_program block)
  leave := hworks.leave (code.nodup_program block)
  finish := hworks.finish

theorem reaches_start (hworks : code.Works pointer) (block : Block)
    (core : Core target.Registers) (hpointer : tape.pointer = base)
    (hmemory : core.memory = tape.memory mapped)
    (hinput : core.input = tape.input) (houtput : core.output = tape.output) :
    ∃ core', (target.process base (code.program block)).Reaches (code.data.length, core)
        (code.opening.length, core') ∧ Holds pointer mapped tape core' := by
  obtain ⟨registers, hrun, hregisters⟩ := hworks.setUp base core
  refine ⟨{ core with registers }, ?_, hregisters.trans hpointer.symm, hmemory, hinput, houtput⟩
  have hopening : Placed (code.program block) 0 code.opening := List.prefix_append _ _
  have hstart := (placed_append.mp hopening).2
  rw [Nat.zero_add] at hstart
  have hsetUp := (placed_cons.mp hstart).2
  have hlength : code.data.length + 1 + code.setUp.length = code.opening.length := by
    simp only [opening, List.length_append, List.length_cons, List.length_map]
    omega
  rw [← hlength]
  exact (Target.reaches_of_run? hsetUp hrun).head (Target.step_label (code.getElem?_start block))

/-- From the entry on, the machine agrees with the execution of the tree, which begins at the
symbol `tape` and touches mapped cells only. -/
theorem agrees (hworks : code.Works pointer) (mapped : UInt64 → Bool) {block : Block}
    (hpointer : tape.pointer = base) (hmemory : core.memory = tape.memory mapped)
    (hinput : core.input = tape.input) (houtput : core.output = tape.output)
    (hwithin : Block.process.Always
      (Block.Config.Within fun address => mapped address = true) (block.start tape)) :
    Block.process.Agrees (target.process base (code.program block)) (Halts mapped)
      (block.start tape) (code.data.length, core) := by
  obtain ⟨core', hreaches, hholds⟩ :=
    hworks.reaches_start block core hpointer hmemory hinput houtput
  exact .of_reaches hreaches
    ((hworks.implements base mapped block).simulation.agrees
      (Layout.Implements.tracks_start hholds hwithin))

/-- The same for a tree that runs on the unbounded tape and touches no cell outside of a window,
whose bytes are zero at first. Other addresses need not even have a byte. -/
theorem agrees_window (hworks : code.Works pointer) {block : Block} {size : Nat}
    (hsize : size ≤ UInt64.size) (registers : target.Registers) {memory : Memory}
    (hmemory : ∀ index < size, memory (base + .ofNat index) = some 0) {input : Bytes}
    (hwithin : Block.process.Always (Block.Config.Within (Tape.inWindow size))
      (block.start (.blank input))) :
    Block.process.Agrees (target.process base (code.program block))
      (fun final halt => ∃ memory', halt = .exit 0 memory' final.input final.output)
      (block.start (.blank input)) (code.data.length, ⟨registers, memory, input, []⟩) := by
  have hallowed : ∀ {tape : Tape ℤ} {image : Tape UInt64}, Tape.Mirrors base size tape image →
      Tape.inWindow size tape.pointer →
      (memory image.pointer).isSome = true ∧ image.cell = tape.cell := by
    intro tape image hmirrors hwindow
    refine ⟨?_, hmirrors.cell hwindow⟩
    rw [hmirrors.pointer, Memory.zero_of_inWindow hmemory hwindow]
    rfl
  have himplements :=
    (hworks.implements base (fun address => (memory address).isSome) block).transport
      Tape.Mirrors.output hallowed Tape.Mirrors.touches fun operation hmirrors =>
        hmirrors.apply hsize operation
  obtain ⟨core', hreaches, hholds⟩ :=
    hworks.reaches_start block ⟨registers, memory, input, []⟩ rfl
      (memory.memory_tape base input).symm rfl rfl
  refine .of_reaches hreaches ((himplements.simulation.agrees
    (Layout.Implements.tracks_start ⟨_, Memory.mirrors_tape hmemory input, hholds⟩
      hwithin)).mono ?_)
  intro final halt hrelated
  obtain ⟨image, hfinal, hhalt⟩ := hrelated
  rw [Halts, hfinal.input, hfinal.output] at hhalt
  exact ⟨_, hhalt⟩

/-- The text of a tree is accepted and sets the tape aside, and on that tape it does what the tree
does, as long as the tree stays on it. -/
theorem exists_program (hworks : code.Works pointer) (block : Block) :
    ∃ program entry,
      assemble? target.instr? (backend.assemble block).text = some program ∧
      target.entry? program = some entry ∧ reserved? program = some tapeSize ∧
      ∀ (base : UInt64) (registers : target.Registers) (memory : Memory) (input : Bytes),
        (∀ index < tapeSize, memory (base + .ofNat index) = some 0) →
        Block.process.Always (Block.Config.Within (Tape.inWindow tapeSize))
          (block.start (.blank input)) →
        Block.process.Agrees (target.process base program)
          (fun final halt => ∃ memory', halt = .exit 0 memory' final.input final.output)
          (block.start (.blank input)) (entry, ⟨registers, memory, input, []⟩) := by
  refine ⟨code.program block, code.data.length, code.assemble?_assemble block,
    code.entry?_program block, code.reserved?_program block, ?_⟩
  intro base registers memory input hmemory hwithin
  exact hworks.agrees_window (by decide) registers hmemory hwithin

end Works

end Code

end Asm

end Brainfuck
