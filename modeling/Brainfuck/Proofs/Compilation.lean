import Brainfuck.Proofs.DirectRun
import Brainfuck.Proofs.Machine.AArch64
import Brainfuck.Proofs.Machine.X64
import Brainfuck.Proofs.Reading
import Brainfuck.Proofs.RunFolding

/-! The whole way from a source to the machine.

The commands that are visible in a source spell a tree, the tree is folded, and the folded tree is
written down for an architecture. Each stage keeps what can be seen of an execution, and none
touches a cell that the commands themselves do not touch. -/

namespace Brainfuck

/-- The commands of a source that count under some options. -/
def Options.visible (options : Options) (source : Bytes) : List Command :=
  Command.visible (!options.noComments) source

/-- A compilation that succeeds has built a tree, and has assembled that tree folded. -/
theorem exists_of_compile {options : Options} {arch : Asm.Arch} {source : Bytes}
    {listing : Asm.Listing} (hcompile : compile options arch source = .ok listing) :
    ∃ block : Block,
      block.words = (options.visible source).map Command.word ∧
        arch.assemble block.foldRuns = .ok listing := by
  unfold compile compileWith at hcompile
  simp only [pure_bind] at hcompile
  split at hcompile
  · cases hcompile
  · split at hcompile
    · cases hcompile
    · next block hblock =>
        split at hcompile
        · cases hcompile
        · next folded hfolded =>
            cases hcompile
            unfold Block.ofTokens at hblock
            split at hblock
            · next tree htree =>
                cases hblock
                refine ⟨block, ?_, hfolded⟩
                rw [Token.map_command_scan] at htree
                exact Block.words_of_ofWords? htree
            · cases hblock

def Asm.Arch.machine? : Asm.Arch → Option Asm.Target
  | .x64 => some Asm.X64.machine
  | .aarch64 => some Asm.AArch64.machine
  | .i386 => none
  | .arm32 => none

theorem Asm.Arch.agrees_of_assemble {arch : Arch} {block : Block} {listing : Listing}
    (hassemble : arch.assemble block = .ok listing) :
    ∃ target, arch.machine? = some target ∧ ∃ program entry,
      assemble? target.instr? listing.text = some program ∧
      target.entry? program = some entry ∧ reserved? program = some tapeSize ∧
      ∀ (base : UInt64) (registers : target.Registers) (memory : Memory) (input : Bytes),
        (∀ index < tapeSize, memory (base + .ofNat index) = some 0) →
        Block.process.Always (Block.Config.Within (Tape.inWindow tapeSize))
          (block.start (.blank input)) →
        Block.process.Agrees (target.process base program)
          (fun final halt => ∃ memory', halt = .exit 0 memory' final.input final.output)
          (block.start (.blank input)) (entry, ⟨registers, memory, input, []⟩) := by
  cases arch with
  | x64 =>
      cases hassemble
      exact ⟨X64.machine, rfl, X64.works.exists_program block⟩
  | aarch64 =>
      cases hassemble
      exact ⟨AArch64.machine, rfl, AArch64.works.exists_program block⟩
  | i386 => cases hassemble
  | arm32 => cases hassemble

abbrev Direct.run (commands : List Command) : Process (Nat × Tape ℤ) (Option (Tape ℤ)) :=
  Direct.process commands (Direct.partner? commands)

/-- If a source compiles, its text is accepted as a whole and sets 30000 zero bytes aside behind
the symbol `tape`. Executed from `_start` on, for any registers and any memory with these bytes in
it, it does what the visible commands of the source do, provided these touch only the cells 0 to
29999: it exits with status zero if and only if they end, with the same output and the same rest of
the input, and in any case writes the same sequence of bytes. -/
theorem compile_agrees {options : Options} {arch : Asm.Arch} {source : Bytes}
    {listing : Asm.Listing} {input : Bytes}
    (hcompile : compile options arch source = .ok listing)
    (hwithin : (Direct.run (options.visible source)).Always
      (Direct.Within (options.visible source) fun index => 0 ≤ index ∧ index < 30000)
      (0, .blank input)) :
    ∃ target, arch.machine? = some target ∧ ∃ program entry,
      Asm.assemble? target.instr? listing.text = some program ∧
      target.entry? program = some entry ∧ Asm.reserved? program = some 30000 ∧
      ∀ (base : UInt64) (registers : target.Registers) (memory : Asm.Memory),
        (∀ index < 30000, memory (base + .ofNat index) = some 0) →
        (Direct.run (options.visible source)).Agrees (target.process base program)
          (fun result halt => ∃ final memory', result = some final ∧
            halt = .exit 0 memory' final.input final.output)
          (0, .blank input) (entry, ⟨registers, memory, input, []⟩) := by
  obtain ⟨block, hwords, hassemble⟩ := exists_of_compile hcompile
  obtain ⟨target, hmachine, program, entry, htext, hentry, hreserved, hagrees⟩ :=
    Asm.Arch.agrees_of_assemble hassemble
  refine ⟨target, hmachine, program, entry, htext, hentry, hreserved, ?_⟩
  intro base registers memory hmemory
  have hpairs := Direct.pairs_partner? (options.visible source)
  have hrefines : Block.Refines ℤ block block.foldRuns := Block.refines_foldRuns block
  have hfolded : Block.process.Always (Block.Config.Within (Tape.inWindow 30000))
      (block.foldRuns.start (.blank input)) :=
    hrefines.within (Direct.tree_within hpairs hwords hwithin)
  have htree := (Direct.tree_agrees hpairs hwords (.blank input)).symm
  have hfold := hrefines.agrees (.blank input)
  have htext := hagrees base registers memory input hmemory hfolded
  refine (htree.trans (hfold.trans htext)).mono ?_
  intro result halt hrelated
  obtain ⟨tree, hresult, folded, rfl, memory', hhalt⟩ := hrelated
  exact ⟨tree, memory', hresult, hhalt⟩

/-- The text for `+[.-]` exits after it has written the byte 1. -/
theorem compile_agrees_single_pass :
    ∃ listing, compile .none .x64 [0x2B, 0x5B, 0x2E, 0x2D, 0x5D] = .ok listing ∧
      ∃ program entry,
        Asm.assemble? Asm.X64.machine.instr? listing.text = some program ∧
        Asm.X64.machine.entry? program = some entry ∧
        ∃ memory, (Asm.X64.machine.process 4096 program).Ends
          (entry, ⟨⟨0, 0, 0, 0, 0, false⟩, fun _ => some 0, [], []⟩) (.exit 0 memory [] [1]) := by
  have hcompile : ∃ listing,
      compile .none .x64 [0x2B, 0x5B, 0x2E, 0x2D, 0x5D] = .ok listing := ⟨_, rfl⟩
  have hwithin : (Direct.run (Options.none.visible [0x2B, 0x5B, 0x2E, 0x2D, 0x5D])).Always
      (Direct.Within (Options.none.visible [0x2B, 0x5B, 0x2E, 0x2D, 0x5D])
        fun index => 0 ≤ index ∧ index < 30000) (0, .blank []) := by
    refine .of_next rfl (fun _ _ _ => by decide) ?_
    refine .of_next rfl (fun _ _ _ => by decide) ?_
    refine .of_next rfl (fun _ _ _ => by decide) ?_
    refine .of_next rfl (fun _ _ _ => by decide) ?_
    refine .of_next rfl (fun _ _ _ => by decide) ?_
    exact .of_stop rfl fun _ _ _ => by decide
  obtain ⟨listing, hcompile⟩ := hcompile
  obtain ⟨target, hmachine, program, entry, htext, hentry, -, hagrees⟩ :=
    compile_agrees hcompile hwithin
  cases hmachine
  have hsame := hagrees 4096 ⟨0, 0, 0, 0, 0, false⟩ (fun _ => some 0) fun _ _ => rfl
  obtain ⟨halt, hhalt, final, memory, hfinal, rfl⟩ := hsame.ends ⟨6, rfl⟩
  cases hfinal
  exact ⟨listing, hcompile, program, entry, htext, hentry, memory, hhalt⟩

end Brainfuck
