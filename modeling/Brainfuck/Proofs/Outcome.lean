import Brainfuck.Proofs.Pairing
import Brainfuck.Proofs.Places

/-! What a compilation comes to.

The brackets of the visible commands decide first: one that cannot be paired is refused where it
stands. Then the architecture decides. Nothing else can go wrong, and in particular the tree is
always built. -/

namespace Brainfuck

/-- The commands of a source that count under some options, each with its place. -/
def Options.shown (options : Options) (source : Bytes) : List Token :=
  Token.shown (!options.noComments) source

section Stages

variable {options : Options} {source : Bytes}

theorem compile_of_bracketError {error : BracketError}
    (hmatching : Matching.ofTokens (options.shown source) = .error error) (arch : Asm.Arch) :
    compile options arch source = .error (.brackets error) := by
  rw [Options.shown, ← Token.scan_eq_shown] at hmatching
  unfold compile compileWith
  simp only [pure_bind, hmatching]
  rfl

theorem compile_of_spell {block : Block} (hspell : Token.Spell (options.shown source) block)
    (arch : Asm.Arch) : compile options arch source = arch.assemble block.foldRuns := by
  rw [Options.shown, ← Token.scan_eq_shown] at hspell
  unfold compile compileWith
  simp only [pure_bind, Matching.ofTokens_of_spell hspell, hspell.ofTokens_eq]
  cases arch.assemble block.foldRuns <;> rfl

end Stages

/-- The possible results of a compilation for `arch`, given the visible commands. -/
inductive Outcome (tokens : List Token) (arch : Asm.Arch) :
    Except CompileError Asm.Listing → Prop
  | extraClose {index : Nat} {close : Token} (hclose : tokens[index]? = some close)
      (hfirst : IsFirstOverrun (tokens.map Token.command) index) :
      Outcome tokens arch (.error (.brackets (.extraClose close.position)))
  | unclosed {index : Nat} {opening : Token} (hopening : tokens[index]? = some opening)
      (hlast : IsLastUnclosed (tokens.map Token.command) index)
      (hinside : ∀ count, ¬ Overrun ((tokens.map Token.command).take count))
      (hmore : (tokens.map Token.command).count .loopEnd <
        (tokens.map Token.command).count .loopStart) :
      Outcome tokens arch (.error (.brackets (.unclosed opening.position)))
  | unsupported (hnested : Nested (tokens.map Token.command))
      (harch : arch = .i386 ∨ arch = .arm32) :
      Outcome tokens arch (.error (.unsupported arch))
  | assembled {listing : Asm.Listing} (hnested : Nested (tokens.map Token.command))
      (harch : arch = .x64 ∨ arch = .aarch64) : Outcome tokens arch (.ok listing)

theorem outcome_compile (options : Options) (arch : Asm.Arch) (source : Bytes) :
    Outcome (options.shown source) arch (compile options arch source) := by
  have hverdict := Matching.verdict (options.shown source)
  generalize hmatching : Matching.ofTokens (options.shown source) = result at hverdict
  cases hverdict with
  | @extraClose front back close block htokens hfront hclose =>
      rw [compile_of_bracketError hmatching]
      have hfirst := hfront.isFirstOverrun hclose back
      rw [← htokens] at hfirst
      exact .extraClose (by simp [htokens]) hfirst
  | @unclosed front back opening block pending htokens hfront hopening hback =>
      rw [compile_of_bracketError hmatching]
      have hleaves := Token.Leaves.more hfront hopening hback
      have hlast := hback.isLastUnclosed hopening front
      rw [← htokens] at hleaves hlast
      have hcount := hleaves.count_eq
      rw [List.length_cons] at hcount
      exact .unclosed (by simp [htokens]) hlast hleaves.not_overrun (by omega)
  | paired hspell =>
      rw [compile_of_spell hspell]
      have hnested := Token.nested_iff.mpr ⟨_, hspell⟩
      cases arch with
      | x64 => exact .assembled hnested (.inl rfl)
      | aarch64 => exact .assembled hnested (.inr rfl)
      | i386 => exact .unsupported hnested (.inl rfl)
      | arm32 => exact .unsupported hnested (.inr rfl)

namespace Outcome

variable {tokens : List Token} {arch : Asm.Arch} {result : Except CompileError Asm.Listing}

theorem extraClose_at (houtcome : Outcome tokens arch result) {position : Position}
    (hresult : result = .error (.brackets (.extraClose position))) :
    ∃ index close, tokens[index]? = some close ∧ close.position = position ∧
      IsFirstOverrun (tokens.map Token.command) index := by
  cases houtcome with
  | extraClose hclose hfirst =>
      cases hresult
      exact ⟨_, _, hclose, rfl, hfirst⟩
  | _ => cases hresult

theorem extraClose_iff (houtcome : Outcome tokens arch result) :
    (∃ position, result = .error (.brackets (.extraClose position))) ↔
      ∃ count, Overrun ((tokens.map Token.command).take count) := by
  constructor
  · intro ⟨position, hresult⟩
    obtain ⟨index, close, -, -, hfirst⟩ := houtcome.extraClose_at hresult
    exact ⟨index + 1, hfirst.overrun⟩
  · intro ⟨count, hoverrun⟩
    cases houtcome with
    | extraClose _ _ => exact ⟨_, rfl⟩
    | unclosed _ _ hinside _ => exact absurd hoverrun (hinside count)
    | unsupported hnested _ => exact absurd hoverrun (hnested.not_overrun count)
    | assembled hnested _ => exact absurd hoverrun (hnested.not_overrun count)

theorem unclosed_at (houtcome : Outcome tokens arch result) {position : Position}
    (hresult : result = .error (.brackets (.unclosed position))) :
    ∃ index opening, tokens[index]? = some opening ∧ opening.position = position ∧
      IsLastUnclosed (tokens.map Token.command) index := by
  cases houtcome with
  | unclosed hopening hlast =>
      cases hresult
      exact ⟨_, _, hopening, rfl, hlast⟩
  | _ => cases hresult

theorem unclosed_iff (houtcome : Outcome tokens arch result) :
    (∃ position, result = .error (.brackets (.unclosed position))) ↔
      (∀ count, ¬ Overrun ((tokens.map Token.command).take count)) ∧
        (tokens.map Token.command).count .loopEnd <
          (tokens.map Token.command).count .loopStart := by
  constructor
  · intro ⟨position, hresult⟩
    cases houtcome with
    | unclosed _ _ hinside hmore => exact ⟨hinside, hmore⟩
    | _ => cases hresult
  · intro ⟨hinside, hmore⟩
    cases houtcome with
    | extraClose _ hfirst => exact absurd hfirst.overrun (hinside _)
    | unclosed _ _ _ _ => exact ⟨_, rfl⟩
    | unsupported hnested _ => exact absurd hnested.closed (Nat.ne_of_gt hmore)
    | assembled hnested _ => exact absurd hnested.closed (Nat.ne_of_gt hmore)

/-- Unless a bracket is at fault, the architecture alone decides. -/
theorem of_nested (houtcome : Outcome tokens arch result)
    (hnested : Nested (tokens.map Token.command)) :
    (arch = .i386 ∨ arch = .arm32) ∧ result = .error (.unsupported arch) ∨
      (arch = .x64 ∨ arch = .aarch64) ∧ ∃ listing, result = .ok listing := by
  cases houtcome with
  | extraClose _ hfirst => exact absurd hfirst.overrun (hnested.not_overrun _)
  | unclosed _ _ _ hmore => exact absurd hnested.closed (Nat.ne_of_gt hmore)
  | unsupported _ harch => exact .inl ⟨harch, rfl⟩
  | assembled _ harch => exact .inr ⟨harch, _, rfl⟩

theorem unsupported_iff (houtcome : Outcome tokens arch result) :
    (∃ error, result = .error error ∧
      error.diagnostic = ⟨.internal, arch.name ++ " generation not supported yet!", none⟩) ↔
      Nested (tokens.map Token.command) ∧ (arch = .i386 ∨ arch = .arm32) := by
  constructor
  · intro ⟨error, hresult, hdiagnostic⟩
    cases houtcome with
    | unsupported hnested harch => exact ⟨hnested, harch⟩
    | assembled _ _ => cases hresult
    | _ =>
        cases hresult
        cases congrArg Diagnostic.kind hdiagnostic
  · intro ⟨hnested, harch⟩
    rcases houtcome.of_nested hnested with ⟨-, hresult⟩ | ⟨hother, -⟩
    · exact ⟨_, hresult, rfl⟩
    · rcases harch with rfl | rfl <;> simp at hother

theorem assembled_iff (houtcome : Outcome tokens arch result) :
    (∃ listing, result = .ok listing) ↔
      Nested (tokens.map Token.command) ∧ (arch = .x64 ∨ arch = .aarch64) := by
  constructor
  · intro ⟨listing, hresult⟩
    cases houtcome with
    | assembled hnested harch => exact ⟨hnested, harch⟩
    | _ => cases hresult
  · intro ⟨hnested, harch⟩
    rcases houtcome.of_nested hnested with ⟨hother, -⟩ | ⟨-, hresult⟩
    · rcases harch with rfl | rfl <;> simp at hother
    · exact hresult

theorem diagnostic_ne (houtcome : Outcome tokens arch result) {error : CompileError}
    (hresult : result = .error error) :
    error.diagnostic ≠ ⟨.internal, "IR builder given unbalanced brackets", none⟩ := by
  intro hdiagnostic
  cases houtcome with
  | unsupported _ harch =>
      cases hresult
      have hmessage := congrArg Diagnostic.message hdiagnostic
      rcases harch with rfl | rfl <;> revert hmessage <;> decide
  | assembled _ _ => cases hresult
  | _ =>
      cases hresult
      cases congrArg Diagnostic.kind hdiagnostic

end Outcome

/-- What the visible commands and the architecture say about a result, and nothing is left open. -/
structure Decides (tokens : List Token) (arch : Asm.Arch)
    (result : Except CompileError Asm.Listing) : Prop where
  extraClose_iff : (∃ position, result = .error (.brackets (.extraClose position))) ↔
    ∃ count, Overrun ((tokens.map Token.command).take count)
  extraClose_at : ∀ position, result = .error (.brackets (.extraClose position)) →
    ∃ index close, tokens[index]? = some close ∧ close.position = position ∧
      IsFirstOverrun (tokens.map Token.command) index
  unclosed_iff : (∃ position, result = .error (.brackets (.unclosed position))) ↔
    (∀ count, ¬ Overrun ((tokens.map Token.command).take count)) ∧
      (tokens.map Token.command).count .loopEnd < (tokens.map Token.command).count .loopStart
  unclosed_at : ∀ position, result = .error (.brackets (.unclosed position)) →
    ∃ index opening, tokens[index]? = some opening ∧ opening.position = position ∧
      IsLastUnclosed (tokens.map Token.command) index
  unsupported_iff : (∃ error, result = .error error ∧
      error.diagnostic = ⟨.internal, arch.name ++ " generation not supported yet!", none⟩) ↔
    Nested (tokens.map Token.command) ∧ (arch = .i386 ∨ arch = .arm32)
  assembled_iff : (∃ listing, result = .ok listing) ↔
    Nested (tokens.map Token.command) ∧ (arch = .x64 ∨ arch = .aarch64)
  diagnostic_ne : ∀ error, result = .error error →
    error.diagnostic ≠ ⟨.internal, "IR builder given unbalanced brackets", none⟩

/-- Exactly what a compilation comes to. The first `]` by which more loops have ended than started
is refused where it stands. If there is none but loops stay open, the last `[` without an end is
refused where it stands. Otherwise an architecture without a backend is refused, and for any other
there is a listing. The tree is never found to be unbalanced. -/
theorem compile_outcome (options : Options) (arch : Asm.Arch) (source : Bytes) :
    Decides (options.shown source) arch (compile options arch source) := by
  have houtcome := outcome_compile options arch source
  exact ⟨houtcome.extraClose_iff, fun _ => houtcome.extraClose_at, houtcome.unclosed_iff,
    fun _ => houtcome.unclosed_at, houtcome.unsupported_iff, houtcome.assembled_iff,
    fun _ => houtcome.diagnostic_ne⟩

/-! In `+`, newline, `[[]` the last `[` has its end; the one in front of it has none. -/

example : compile .none .i386 [0x2B, 0x0A, 0x5B, 0x5B, 0x5D] =
    .error (.brackets (.unclosed ⟨2, 1⟩)) := rfl

end Brainfuck
