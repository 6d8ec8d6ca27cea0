import Brainfuck.Proofs.Pairing

/-! Trees read back as commands.

A tree is plain if every operation in it is that of a single command. Such a tree has a sequence of
commands, and it is the tree of just this sequence. -/

namespace Brainfuck

namespace Op

/-- The command that goes one step forward or backward, if that is the distance. -/
def unit? (forward backward : Command) (delta : Int64) : Option Command :=
  if delta = 1 then some forward else if delta = -1 then some backward else none

/-- The command that does what an operation does. -/
def command? : Op → Option Command
  | .add delta => unit? .increment .decrement delta
  | .move delta => unit? .right .left delta
  | .set _ => none
  | .get => some .input
  | .put => some .output

theorem unit?_eq_some {forward backward command : Command} {delta : Int64}
    (hunit : unit? forward backward delta = some command) :
    delta = 1 ∧ command = forward ∨ delta = -1 ∧ command = backward := by
  unfold unit? at hunit
  split at hunit
  · next hdelta => exact .inl ⟨hdelta, (Option.some.inj hunit).symm⟩
  · split at hunit
    · next hdelta => exact .inr ⟨hdelta, (Option.some.inj hunit).symm⟩
    · cases hunit

theorem command?_eq_some_iff {operation : Op} {command : Command} :
    operation.command? = some command ↔ command.word = .op operation := by
  constructor
  · intro hcommand
    cases operation with
    | add delta => obtain ⟨rfl, rfl⟩ | ⟨rfl, rfl⟩ := unit?_eq_some hcommand <;> rfl
    | move delta => obtain ⟨rfl, rfl⟩ | ⟨rfl, rfl⟩ := unit?_eq_some hcommand <;> rfl
    | set value => cases hcommand
    | get => cases hcommand; rfl
    | put => cases hcommand; rfl
  · intro hword
    cases command <;> cases hword <;> rfl

end Op

namespace Block

def isPlain : Block → Bool
  | .nil => true
  | .op operation rest => operation.command?.isSome && rest.isPlain
  | .loop body rest => body.isPlain && rest.isPlain

/-- The commands of a plain tree, in the order in which they are met. -/
def flatten : Block → List Command
  | .nil => []
  | .op operation rest => operation.command?.toList ++ rest.flatten
  | .loop body rest => .loopStart :: (body.flatten ++ .loopEnd :: rest.flatten)

theorem map_word_flatten {block : Block} (hplain : block.isPlain = true) :
    block.flatten.map Command.word = block.words := by
  induction block with
  | nil => simp [flatten]
  | op operation rest ih =>
      obtain ⟨hcommand, hrest⟩ := Bool.and_eq_true_iff.mp hplain
      obtain ⟨command, hcommand⟩ := Option.isSome_iff_exists.mp hcommand
      simp [flatten, hcommand, ih hrest, Op.command?_eq_some_iff.mp hcommand]
  | loop body rest ihBody ihRest =>
      obtain ⟨hbody, hrest⟩ := Bool.and_eq_true_iff.mp hplain
      simp [flatten, ihBody hbody, ihRest hrest, Command.word]

theorem flatten_of_spell {block : Block} {tokens : List Token}
    (hspell : Token.Spell tokens block) :
    block.isPlain = true ∧ block.flatten = tokens.map Token.command := by
  induction block generalizing tokens with
  | nil =>
      cases Token.eq_nil_of_spell hspell
      exact ⟨rfl, rfl⟩
  | op operation rest ih =>
      obtain ⟨token, back, rfl, hword, hback⟩ := Token.exists_of_spell_op hspell
      obtain ⟨hplain, hflatten⟩ := ih hback
      have hcommand : operation.command? = some token.command :=
        Op.command?_eq_some_iff.mpr hword
      simp [isPlain, flatten, hcommand, hplain, hflatten]
  | loop body rest ihBody ihRest =>
      obtain ⟨opening, inner, closing, back, rfl, hopening, hinner, hclosing, hback⟩ :=
        Token.exists_of_spell_loop hspell
      obtain ⟨hbody, hflattenBody⟩ := ihBody hinner
      obtain ⟨hrest, hflattenRest⟩ := ihRest hback
      simp [isPlain, flatten, hopening, hclosing, hbody, hrest, hflattenBody, hflattenRest]

/-- A tree is built from exactly the commands that it reads back as, wherever these stand in the
source, and only plain trees are built. -/
theorem ofTokens_eq_ok_iff_flatten (tokens : List Token) (block : Block) :
    (Block.ofTokens tokens = .ok block ↔
      block.isPlain = true ∧ block.flatten = tokens.map Token.command) ∧
    ∀ others : List Token, others.map Token.command = tokens.map Token.command →
      Block.ofTokens others = Block.ofTokens tokens := by
  refine ⟨⟨?_, ?_⟩, ?_⟩
  · intro hbuilt
    exact flatten_of_spell (Token.spell_of_ofTokens hbuilt)
  · intro ⟨hplain, hflatten⟩
    apply Token.Spell.ofTokens_eq
    rw [Token.Spell, ← Token.map_word, ← hflatten, map_word_flatten hplain]
  · intro others hcommands
    rw [Block.ofTokens, hcommands, Block.ofTokens]

end Block

end Brainfuck
