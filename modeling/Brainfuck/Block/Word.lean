import Brainfuck.Command
import Brainfuck.Block.Equality

/-! The linear form of a tree: its operations in order, with a word where each loop is entered and
one where it is left. Reading the linear form gives the tree back. -/

namespace Brainfuck

inductive Word where
  | op (operation : Op)
  | enter
  | leave
deriving DecidableEq, Repr

def Command.word : Command → Word
  | .increment => .op (.add 1)
  | .decrement => .op (.add (-1))
  | .right => .op (.move 1)
  | .left => .op (.move (-1))
  | .loopStart => .enter
  | .loopEnd => .leave
  | .output => .op .put
  | .input => .op .get

namespace Block

def writeWords : Traversal (List Word) Unit where
  op words operation := .op operation :: words
  enter words := ((), .enter :: words)
  leave _ words := .leave :: words

def words (block : Block) : List Word :=
  (block.walk writeWords []).reverse

/-! A block under construction: the innermost open level, then the levels around it. Every level
holds its instructions in reverse order. -/

structure Builder where
  level : Block
  outer : List Block

namespace Builder

def start : Builder := ⟨.nil, []⟩

def step? (builder : Builder) : Word → Option Builder
  | .op operation => some ⟨.op operation builder.level, builder.outer⟩
  | .enter => some ⟨.nil, builder.level :: builder.outer⟩
  | .leave =>
      match builder.outer with
      | [] => none
      | around :: outer => some ⟨.loop builder.level.reverse around, outer⟩

def finish? (builder : Builder) : Option Block :=
  match builder.outer with
  | [] => some builder.level.reverse
  | _ :: _ => none

end Builder

/-- The tree with the given linear form, if every loop in it is entered and left. -/
def ofWords? (words : List Word) : Option Block :=
  (words.foldlM Builder.step? .start).bind Builder.finish?

def ofCommands? (commands : List Command) : Option Block :=
  ofWords? (commands.map Command.word)

theorem fold_writeWords (block : Block) (words : List Word) :
    block.fold writeWords words = block.fold writeWords [] ++ words := by
  induction block generalizing words with
  | nil => rfl
  | op operation rest ih =>
      simp only [fold, writeWords] at ih ⊢
      rw [ih, ih [.op operation]]
      simp
  | loop body rest ihBody ihRest =>
      simp only [fold, writeWords] at ihBody ihRest ⊢
      rw [ihBody, ihRest, ihBody [.enter], ihRest (.leave :: _)]
      simp

@[simp] theorem words_nil : words nil = [] := by
  simp [words, walk_eq_fold, fold]

@[simp] theorem words_op (operation : Op) (rest : Block) :
    (op operation rest).words = .op operation :: rest.words := by
  simp only [words, walk_eq_fold]
  rw [fold, fold_writeWords]
  simp [writeWords]

@[simp] theorem words_loop (body rest : Block) :
    (loop body rest).words = .enter :: (body.words ++ .leave :: rest.words) := by
  simp only [words, walk_eq_fold]
  rw [fold, fold_writeWords]
  simp only [writeWords]
  rw [← writeWords, fold_writeWords body [.enter]]
  simp

theorem foldlM_words (block : Block) (builder : Builder) (rest : List Word) :
    (block.words ++ rest).foldlM Builder.step? builder =
      rest.foldlM Builder.step? ⟨block.reverse ++ builder.level, builder.outer⟩ := by
  induction block generalizing builder rest with
  | nil => simp
  | op operation tail ih =>
      simp [Builder.step?, ih, append_assoc]
  | loop body tail ihBody ihTail =>
      simp [Builder.step?, ihBody, ihTail, append_assoc]

@[simp] theorem ofWords?_words (block : Block) : ofWords? block.words = some block := by
  have h := foldlM_words block .start []
  simp only [List.append_nil, List.foldlM_nil] at h
  rw [ofWords?, h]
  simp [Builder.start, Builder.finish?]

theorem words_inj {left right : Block} : left.words = right.words ↔ left = right := by
  refine ⟨fun h => ?_, congrArg words⟩
  have hread := congrArg ofWords? h
  simpa using hread

end Block

end Brainfuck
