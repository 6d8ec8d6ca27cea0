import Mathlib.Order.Bounds.Basic
import Brainfuck.Proofs.Pairing

/-! The measures of a tree, and the commands from which it is built.

How deep a tree is and what it holds is said by recursion on the tree, and can be read off the
commands as well: at every place of the linear form as many loops are open as are around the place
in the tree, so the depth is the greatest number that are ever open at once. -/

namespace Brainfuck

namespace Block

def height : Block → Nat
  | .nil => 0
  | .op _ rest => rest.height
  | .loop body rest => max (body.height + 1) rest.height

def opTotal : Block → Nat
  | .nil => 0
  | .op _ rest => rest.opTotal + 1
  | .loop body rest => body.opTotal + rest.opTotal

def loopTotal : Block → Nat
  | .nil => 0
  | .op _ rest => rest.loopTotal
  | .loop body rest => body.loopTotal + rest.loopTotal + 1

theorem depth_eq_height (block : Block) : block.depth = block.height := by
  induction block with
  | nil => exact depth_nil
  | op operation rest ih => rw [depth_op, ih, height]
  | loop body rest ihBody ihRest => rw [depth_loop, ihBody, ihRest, height]

theorem opCount_eq_opTotal (block : Block) : block.opCount = block.opTotal := by
  induction block with
  | nil => exact opCount_nil
  | op operation rest ih => rw [opCount_op, ih, opTotal]
  | loop body rest ihBody ihRest => rw [opCount_loop, ihBody, ihRest, opTotal]

theorem loopCount_eq_loopTotal (block : Block) : block.loopCount = block.loopTotal := by
  induction block with
  | nil => exact loopCount_nil
  | op operation rest ih => rw [loopCount_op, ih, loopTotal]
  | loop body rest ihBody ihRest => rw [loopCount_loop, ihBody, ihRest, loopTotal]

end Block

/-! Open loops in the linear form. -/

namespace Word

def isOp : Word → Bool
  | .op _ => true
  | _ => false

/-- How many loops are entered and not left, less those that are left and not entered. -/
def balance (words : List Word) : ℤ :=
  words.count .enter - words.count .leave

@[simp] theorem balance_nil : balance [] = 0 := rfl

@[simp] theorem balance_op (operation : Op) (words : List Word) :
    balance (.op operation :: words) = balance words := by
  simp [balance]

@[simp] theorem balance_enter (words : List Word) :
    balance (.enter :: words) = balance words + 1 := by
  simp [balance]
  omega

@[simp] theorem balance_leave (words : List Word) :
    balance (.leave :: words) = balance words - 1 := by
  simp [balance]
  omega

@[simp] theorem balance_append (front back : List Word) :
    balance (front ++ back) = balance front + balance back := by
  simp [balance]
  omega

@[simp] theorem balance_words (block : Block) : balance block.words = 0 := by
  simp [balance, Direct.count_words]

end Word

namespace Block

open Word

/-- Up to the end of its body a loop is open, and behind that it counts no more. -/
theorem balance_take_loop (body rest : Block) (count : Nat) :
    balance ((loop body rest).words.take (count + 1)) =
      if count ≤ body.words.length then balance (body.words.take count) + 1
      else balance (rest.words.take (count - body.words.length - 1)) := by
  rw [words_loop, List.take_succ_cons, List.take_append, balance_enter, balance_append]
  split
  · next hinside =>
      rw [Nat.sub_eq_zero_of_le hinside, List.take_zero, balance_nil, Int.add_zero]
  · next hbeyond =>
      obtain ⟨later, hlater⟩ : ∃ later, count - body.words.length = later + 1 :=
        ⟨count - body.words.length - 1, by omega⟩
      rw [hlater, List.take_succ_cons, balance_leave, List.take_of_length_le (by omega),
        balance_words, Nat.add_sub_cancel]
      omega

theorem balance_take_le (block : Block) (count : Nat) :
    balance (block.words.take count) ≤ block.depth := by
  induction block generalizing count with
  | nil => simp
  | op operation rest ih =>
      cases count with
      | zero => simp
      | succ count => simpa using ih count
  | loop body rest ihBody ihRest =>
      cases count with
      | zero => simp
      | succ count =>
          rw [balance_take_loop, depth_loop]
          split
          · have hbody := ihBody count
            omega
          · have hrest := ihRest (count - body.words.length - 1)
            omega

theorem exists_balance_take (block : Block) :
    ∃ count ≤ block.words.length, balance (block.words.take count) = block.depth := by
  induction block with
  | nil => exact ⟨0, Nat.zero_le _, by simp⟩
  | op operation rest ih =>
      obtain ⟨count, hcount, hdeep⟩ := ih
      exact ⟨count + 1, by simpa using hcount, by simpa using hdeep⟩
  | loop body rest ihBody ihRest =>
      obtain ⟨inner, hinner, hbody⟩ := ihBody
      obtain ⟨later, hlater, hrest⟩ := ihRest
      have hlength : (loop body rest).words.length =
          body.words.length + rest.words.length + 2 := by
        simp
        omega
      rw [depth_loop, hlength]
      rcases Nat.le_total rest.depth (body.depth + 1) with hdeeper | hdeeper
      · refine ⟨inner + 1, by omega, ?_⟩
        rw [balance_take_loop, if_pos hinner, hbody]
        omega
      · refine ⟨body.words.length + 1 + later + 1, by omega, ?_⟩
        rw [balance_take_loop, if_neg (by omega), Nat.add_assoc, Nat.add_sub_cancel_left,
          Nat.add_sub_cancel_left, hrest]
        omega

theorem countP_isOp_words (block : Block) : block.words.countP Word.isOp = block.opCount := by
  induction block with
  | nil => simp
  | op operation rest ih => rw [words_op, List.countP_cons_of_pos rfl, ih, opCount_op]
  | loop body rest ihBody ihRest =>
      rw [words_loop, List.countP_cons_of_neg (by decide), List.countP_append, ihBody,
        List.countP_cons_of_neg (by decide), ihRest, opCount_loop]

theorem count_enter_words (block : Block) : block.words.count .enter = block.loopCount := by
  induction block with
  | nil => simp
  | op operation rest ih => simp [ih]
  | loop body rest ihBody ihRest => simp [ihBody, ihRest]

end Block

/-! The same in commands. -/

def Command.isBracket : Command → Bool
  | .loopStart => true
  | .loopEnd => true
  | _ => false

namespace Token

/-- How many more loops start than end. -/
def openLoops (tokens : List Token) : ℤ :=
  (tokens.map command).count .loopStart - (tokens.map command).count .loopEnd

theorem openLoops_eq_balance (tokens : List Token) :
    openLoops tokens = Word.balance (tokens.map word) := by
  rw [openLoops, count_loopStart, count_loopEnd, Word.balance]

theorem countP_not_isBracket (tokens : List Token) :
    tokens.countP (fun token => !token.command.isBracket) = (tokens.map word).countP Word.isOp := by
  rw [List.countP_map]
  apply List.countP_congr
  intro token _
  cases hcommand : token.command <;>
    simp [word, hcommand, Command.isBracket, Command.word, Word.isOp]

theorem isGreatest_depth {tokens : List Token} {block : Block} (hspell : Spell tokens block) :
    IsGreatest (Set.range fun count => openLoops (tokens.take count)) block.depth := by
  have htake : ∀ count,
      openLoops (tokens.take count) = Word.balance (block.words.take count) := by
    intro count
    rw [openLoops_eq_balance, List.map_take, hspell]
  constructor
  · obtain ⟨count, -, hdeep⟩ := block.exists_balance_take
    exact ⟨count, (htake count).trans hdeep⟩
  · rintro _ ⟨count, rfl⟩
    exact (htake count).trans_le (block.balance_take_le count)

end Token

/-- The depth of a tree and the counts of its operations and loops are what recursion on the tree
says. In the tokens from which it is built the depth is the greatest number of loops that are open
after any of them, every token but a bracket is an operation, and every `[` is a loop. -/
theorem Block.measures_mirror_tokens (block : Block) :
    (block.depth = block.height ∧ block.opCount = block.opTotal ∧
      block.loopCount = block.loopTotal) ∧
    ∀ tokens : List Token, Block.ofTokens tokens = .ok block →
      IsGreatest (Set.range fun count => Token.openLoops (tokens.take count)) block.depth ∧
      block.opCount = tokens.countP (fun token => !token.command.isBracket) ∧
      block.loopCount = (tokens.map Token.command).count .loopStart := by
  refine ⟨⟨block.depth_eq_height, block.opCount_eq_opTotal, block.loopCount_eq_loopTotal⟩, ?_⟩
  intro tokens hbuilt
  have hspell := Token.spell_of_ofTokens hbuilt
  refine ⟨Token.isGreatest_depth hspell, ?_, ?_⟩
  · rw [Token.countP_not_isBracket, hspell, countP_isOp_words]
  · rw [Token.count_loopStart, hspell, count_enter_words]

/-- In `+[[-]>[.[]<]]` three loops at most are open at once. -/
theorem Block.measures_mirror_tokens_nested_loops :
    let tokens := Token.scan true (.ofString "+[[-]>[.[]<]]")
    ∃ block, Block.ofTokens tokens = .ok block ∧
      IsGreatest (Set.range fun count => Token.openLoops (tokens.take count)) 3 ∧
      block.depth = 3 ∧ block.opCount = 5 ∧ block.loopCount = 4 := by
  intro tokens
  have hbuilt : ∃ block, Block.ofTokens tokens = .ok block ∧ block.height = 3 := ⟨_, rfl, rfl⟩
  obtain ⟨block, hbuilt, hheight⟩ := hbuilt
  obtain ⟨⟨hdepth, -, -⟩, hmirror⟩ := block.measures_mirror_tokens
  obtain ⟨hgreatest, hops, hloops⟩ := hmirror tokens hbuilt
  rw [hdepth.trans hheight] at hgreatest
  exact ⟨block, hbuilt, hgreatest, hdepth.trans hheight, hops, hloops⟩

end Brainfuck
