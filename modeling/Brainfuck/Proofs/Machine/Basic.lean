import Mathlib.Logic.Function.Basic
import Brainfuck.Proofs.Layout
import Brainfuck.Proofs.Machine.Text

/-! Machines that execute assembly text.

A target says how the text of an instruction is read and what the instruction does to registers,
memory, input and output. The machine is at a line of the text; a branch sends it to the line that
defines the label. Whatever is not understood, or touches an address without a byte, is a fault. -/

namespace Brainfuck.Asm

/-- The bytes that may be touched. -/
abbrev Memory := UInt64 → Option UInt8

structure Core (Registers : Type) where
  registers : Registers
  memory : Memory
  input : Bytes
  output : Bytes

inductive Effect (Registers : Type) where
  | next (core : Core Registers)
  | jump (label : String) (core : Core Registers)
  | exit (status : UInt8) (core : Core Registers)

inductive Halt where
  | exit (status : UInt8) (memory : Memory) (input output : Bytes)
  | fault

def Effect.core {Registers : Type} : Effect Registers → Core Registers
  | .next core => core
  | .jump _ core => core
  | .exit _ core => core

namespace Core

variable {Registers : Type}

def load? (core : Core Registers) (address : UInt64) : Option UInt8 :=
  core.memory address

def store? (core : Core Registers) (address : UInt64) (value : UInt8) :
    Option (Core Registers) :=
  (core.memory address).map fun _ =>
    { core with memory := Function.update core.memory address (some value) }

def proceed (core : Core Registers) (registers : Registers) : Effect Registers :=
  .next { core with registers }

/-! The system calls. Only one byte is ever transferred at a time. -/

inductive Service where
  | read
  | write
  | exit

/-- Reads one byte of the input. At its end there is nothing to store. -/
def read? (core : Core Registers) (file address size : UInt64) :
    Option (UInt64 × Core Registers) :=
  if file = 0 ∧ size = 1 then
    match core.input with
    | [] => some (0, core)
    | byte :: rest =>
        (core.store? address byte).map fun stored => (1, { stored with input := rest })
  else none

def write? (core : Core Registers) (file address size : UInt64) :
    Option (UInt64 × Core Registers) :=
  if file = 1 ∧ size = 1 then
    (core.load? address).map fun byte => (1, { core with output := core.output ++ [byte] })
  else none

/-- A call with three arguments; `resume` are the registers after it returns with a value. -/
def call? (core : Core Registers) (resume : UInt64 → Registers) (first second third : UInt64) :
    Service → Option (Effect Registers)
  | .read =>
      (core.read? first second third).map fun (value, core) =>
        .next { core with registers := resume value }
  | .write =>
      (core.write? first second third).map fun (value, core) =>
        .next { core with registers := resume value }
  | .exit => some (.exit first.toUInt8 core)

theorem output_store? {core stored : Core Registers} {address : UInt64} {value : UInt8}
    (hstore : core.store? address value = some stored) : stored.output = core.output := by
  obtain ⟨byte, -, rfl⟩ := Option.map_eq_some_iff.mp hstore
  rfl

theorem output_call? {core : Core Registers} {resume : UInt64 → Registers}
    {first second third : UInt64} {service : Service} {effect : Effect Registers}
    (hcall : core.call? resume first second third service = some effect) :
    core.output <+: effect.core.output := by
  cases service with
  | read =>
      obtain ⟨⟨value, later⟩, hread, rfl⟩ := Option.map_eq_some_iff.mp hcall
      unfold read? at hread
      split at hread
      · split at hread
        · cases hread
          exact List.prefix_refl _
        · obtain ⟨stored, hstore, hlater⟩ := Option.map_eq_some_iff.mp hread
          cases hlater
          exact output_store? hstore ▸ List.prefix_refl _
      · contradiction
  | write =>
      obtain ⟨⟨value, later⟩, hwrite, rfl⟩ := Option.map_eq_some_iff.mp hcall
      unfold write? at hwrite
      split at hwrite
      · obtain ⟨byte, -, hlater⟩ := Option.map_eq_some_iff.mp hwrite
        cases hlater
        exact List.prefix_append _ _
      · contradiction
  | exit =>
      cases hcall
      exact List.prefix_refl _

end Core

/-- The number of zero bytes that are set aside behind the symbol `tape`. -/
def reserved? {Instr : Type} (program : List (Item Instr)) : Option Nat := do
  let line ← program.findIdx? (Item.defines "tape")
  match program[line + 1]? with
  | some (.directive ".zero" [size]) => (immediate? 0 (2 ^ 64 - 1) size).map Int.toNat
  | _ => none

structure Target where
  Instr : Type
  Registers : Type
  instr? : String → List String → Option Instr
  /-- What an instruction does, given the address of the symbol `tape`. -/
  exec? : UInt64 → Instr → Core Registers → Option (Effect Registers)
  output_exec? : ∀ {tape instr core effect}, exec? tape instr core = some effect →
    core.output <+: effect.core.output

namespace Target

variable (target : Target) (tape : UInt64) (program : List (Item target.Instr))

def entry? : Option Nat :=
  program.findIdx? (Item.defines "_start")

def follow (place : Nat) : Option (Effect target.Registers) →
    Turn (Nat × Core target.Registers) Halt
  | some (.next core) => .next (place + 1, core)
  | some (.jump label core) =>
      match program.findIdx? (Item.defines label) with
      | some line => .next (line, core)
      | none => .stop .fault
  | some (.exit status core) => .stop (.exit status core.memory core.input core.output)
  | none => .stop .fault

def step (place : Nat) (core : Core target.Registers) :
    Turn (Nat × Core target.Registers) Halt :=
  match program[place]? with
  | some .blank => .next (place + 1, core)
  | some (.label _) => .next (place + 1, core)
  | some (.instr instr) => target.follow program place (target.exec? tape instr core)
  | some (.directive _ _) => .stop .fault
  | none => .stop .fault

/-- The effect of instructions one after the other, up to the first that does not go on to the
next. -/
def run? : List target.Instr → Core target.Registers → Option (Effect target.Registers)
  | [], core => some (.next core)
  | instr :: instrs, core =>
      match target.exec? tape instr core with
      | some (.next core) => run? instrs core
      | effect => effect

variable {target tape program}

theorem core_of_follow {place : Nat} {effect : Option (Effect target.Registers)}
    {state : Nat × Core target.Registers}
    (hfollow : target.follow program place effect = .next state) :
    ∃ done, effect = some done ∧ state.2 = done.core := by
  unfold follow at hfollow
  split at hfollow
  · cases hfollow
    exact ⟨_, rfl, rfl⟩
  · split at hfollow
    · cases hfollow
      exact ⟨_, rfl, rfl⟩
    · contradiction
  · contradiction
  · contradiction

theorem output_step {place : Nat} {core : Core target.Registers}
    {state : Nat × Core target.Registers}
    (hstep : target.step tape program place core = .next state) :
    core.output <+: state.2.output := by
  unfold step at hstep
  split at hstep
  · cases hstep
    exact List.prefix_refl _
  · cases hstep
    exact List.prefix_refl _
  · obtain ⟨effect, heffect, hcore⟩ := core_of_follow hstep
    rw [hcore]
    exact target.output_exec? heffect
  · contradiction
  · contradiction

variable (target tape program) in
def process : Process (Nat × Core target.Registers) Halt where
  step state := target.step tape program state.1 state.2
  output state := state.2.output
  output_step := output_step

theorem run?_singleton {instr : target.Instr} {core : Core target.Registers} :
    target.run? tape [instr] core = target.exec? tape instr core := by
  rw [run?]
  split
  · next core' hexec => exact hexec.symm
  · rfl

theorem run?_cons {instr : target.Instr} {instrs : List target.Instr}
    {core core' : Core target.Registers}
    (hexec : target.exec? tape instr core = some (.next core')) :
    target.run? tape (instr :: instrs) core = target.run? tape instrs core' := by
  rw [run?, hexec]

section Run

variable {place : Nat} {core core' : Core target.Registers} {instrs : List target.Instr}

theorem step_label {name : String} (hitem : program[place]? = some (.label name)) :
    (target.process tape program).step (place, core) = .next (place + 1, core) := by
  change target.step tape program place core = _
  rw [step, hitem]

theorem step_instr {instr : target.Instr} (hitem : program[place]? = some (.instr instr)) :
    (target.process tape program).step (place, core) =
      target.follow program place (target.exec? tape instr core) := by
  change target.step tape program place core = _
  rw [step, hitem]

theorem reaches_of_run? (hplaced : Placed program place (instrs.map .instr))
    (hrun : target.run? tape instrs core = some (.next core')) :
    (target.process tape program).Reaches (place, core) (place + instrs.length, core') := by
  induction instrs generalizing place core with
  | nil =>
      cases hrun
      exact .refl _
  | cons instr instrs ih =>
      obtain ⟨hitem, hrest⟩ := placed_cons.mp hplaced
      rw [run?] at hrun
      split at hrun
      · next later hexec =>
          have hstep : (target.process tape program).step (place, core) =
              .next (place + 1, later) := by
            rw [step_instr hitem, hexec, follow]
          rw [List.length_cons, Nat.add_comm instrs.length, ← Nat.add_assoc]
          exact (ih hrest hrun).head hstep
      · next hother => exact absurd hrun (hother core')

/-- An effect other than going on is that of one of the instructions, after those before it. -/
theorem exists_of_run? {effect : Effect target.Registers}
    (hrun : target.run? tape instrs core = some effect) (hnext : ∀ core', effect ≠ .next core') :
    ∃ front instr back before, instrs = front ++ instr :: back ∧
      target.run? tape front core = some (.next before) ∧
      target.exec? tape instr before = some effect := by
  induction instrs generalizing core with
  | nil =>
      cases hrun
      exact absurd rfl (hnext core)
  | cons instr instrs ih =>
      rw [run?] at hrun
      split at hrun
      · next later hexec =>
          obtain ⟨front, last, back, before, rfl, hfront, hlast⟩ := ih hrun
          refine ⟨instr :: front, last, back, before, rfl, ?_, hlast⟩
          rw [run?, hexec]
          exact hfront
      · exact ⟨[], instr, instrs, core, rfl, rfl, hrun⟩

theorem step_of_run? {effect : Effect target.Registers}
    (hplaced : Placed program place (instrs.map .instr))
    (hrun : target.run? tape instrs core = some effect) (hnext : ∀ core', effect ≠ .next core') :
    ∃ last before, (target.process tape program).Reaches (place, core) (last, before) ∧
      (target.process tape program).step (last, before) =
        target.follow program last (some effect) ∧
      before.output <+: effect.core.output := by
  obtain ⟨front, instr, back, before, rfl, hfront, hlast⟩ := exists_of_run? hrun hnext
  rw [List.map_append, List.map_cons] at hplaced
  obtain ⟨hbefore, hrest⟩ := placed_append.mp hplaced
  obtain ⟨hitem, -⟩ := placed_cons.mp hrest
  rw [List.length_map] at hitem
  refine ⟨place + front.length, before, reaches_of_run? hbefore hfront, ?_,
    target.output_exec? hlast⟩
  rw [step_instr hitem, hlast]

/-- A label that is defined once is found where it stands. -/
theorem findIdx?_defines {name : String} (hlabels : (program.filterMap Item.name?).Nodup)
    (hitem : program[place]? = some (.label name)) :
    program.findIdx? (Item.defines name) = some place := by
  induction program generalizing place with
  | nil => cases hitem
  | cons item program ih =>
      cases place with
      | zero =>
          cases hitem
          simp [List.findIdx?_cons, Item.defines]
      | succ place =>
          rw [List.getElem?_cons_succ] at hitem
          have hmem : name ∈ program.filterMap Item.name? :=
            List.mem_filterMap.mpr ⟨_, List.mem_of_getElem? hitem, rfl⟩
          have hother : item.defines name = false := by
            cases item with
            | label other =>
                have hnot : other ∉ program.filterMap Item.name? := (List.nodup_cons.mp hlabels).1
                apply beq_eq_false_iff_ne.mpr
                rintro rfl
                exact hnot hmem
            | blank => rfl
            | directive name operands => rfl
            | instr instr => rfl
          have htail : (program.filterMap Item.name?).Nodup :=
            hlabels.sublist ((List.sublist_cons_self item program).filterMap _)
          rw [List.findIdx?_cons, hother, ih htail hitem]
          rfl

theorem after_jump {label : String} {line : Nat} (hlabels : (program.filterMap Item.name?).Nodup)
    (hplaced : Placed program place (instrs.map .instr))
    (hrun : target.run? tape instrs core = some (.jump label core'))
    (hlabel : program[line]? = some (.label label)) :
    ∃ count, (target.process tape program).after (count + 1) (place, core) =
      .next (line + 1, core') := by
  obtain ⟨last, before, ⟨count, hcount⟩, hlast, -⟩ := step_of_run? hplaced hrun (by simp)
  refine ⟨count + 1, ?_⟩
  have hjump : (target.process tape program).step (last, before) = .next (line, core') := by
    rw [hlast, follow, findIdx?_defines hlabels hlabel]
  rw [Nat.add_assoc, Process.after_add hcount, Process.after_succ_next hjump,
    Process.after_succ_next (step_label hlabel)]
  rfl

theorem after_pass {name : String}
    (hplaced : Placed program place (instrs.map .instr ++ [.label name]))
    (hrun : target.run? tape instrs core = some (.next core')) :
    ∃ count, (target.process tape program).after (count + 1) (place, core) =
      .next (place + (instrs.map Item.instr ++ [Item.label name]).length, core') := by
  obtain ⟨hinstrs, hlabel⟩ := placed_append.mp hplaced
  obtain ⟨hitem, -⟩ := placed_cons.mp hlabel
  obtain ⟨count, hcount⟩ := reaches_of_run? hinstrs hrun
  rw [List.length_map] at hitem
  refine ⟨count, ?_⟩
  rw [Process.after_add hcount, Process.after_succ_next (step_label hitem), List.length_append,
    List.length_map]
  rfl

theorem stop_of_run? {status : UInt8} (hplaced : Placed program place (instrs.map .instr))
    (hrun : target.run? tape instrs core = some (.exit status core'))
    (hquiet : core'.output = core.output) :
    ∃ last, (target.process tape program).Reaches (place, core) last ∧
      (target.process tape program).output last = core.output ∧
      (target.process tape program).step last =
        .stop (.exit status core'.memory core'.input core'.output) := by
  obtain ⟨last, before, hreaches, hlast, houtput⟩ := step_of_run? hplaced hrun (by simp)
  refine ⟨(last, before), hreaches, ?_, hlast⟩
  obtain ⟨count, hcount⟩ := hreaches
  have hgrows : core.output <+: before.output := Process.output_after hcount
  rw [Effect.core, hquiet] at houtput
  exact houtput.eq_of_length_le hgrows.length_le

end Run

end Target

end Brainfuck.Asm
