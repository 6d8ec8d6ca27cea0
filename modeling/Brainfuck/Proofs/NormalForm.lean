import Brainfuck.Proofs.Refolding

/-! The form of folded trees.

In no block of a folded tree is there an addition of zero or a move by zero, and no two additions
stand next to each other. If the moves of a tree are bounded, then no two moves do either. A tree of
this form is left as it is.

The linear form of a tree shows all its blocks at once: two operations follow each other there
exactly if they do in one of the blocks. -/

namespace Brainfuck

namespace Op

theorem isIdle_axis_zero (axis : Axis) : (axis.op 0).isIdle = true := by
  cases axis <;> rfl

theorem exists_of_isIdle {operation : Op} (hidle : operation.isIdle = true) :
    ∃ axis : Axis, operation = axis.op 0 := by
  cases operation with
  | add delta =>
      cases eq_of_beq hidle
      exact ⟨.cell, rfl⟩
  | move delta =>
      cases eq_of_beq hidle
      exact ⟨.pointer, rfl⟩
  | _ => cases hidle

theorem axis?_op (axis : Axis) (delta : Int64) : (axis.op delta).axis? = some axis := by
  cases axis <;> rfl

end Op

namespace Word

/-- A word that is no operation keeps what stands in front of it from what stands behind it. -/
theorem infix_append_leave {first second : Op} (front back : List Word) :
    [.op first, .op second] <:+: front ++ .leave :: back ↔
      [.op first, .op second] <:+: front ∨ [.op first, .op second] <:+: back := by
  induction front with
  | nil => simp [List.infix_cons_iff]
  | cons word front ih =>
      rw [List.cons_append, List.infix_cons_iff, ih, List.infix_cons_iff, or_assoc]
      cases front <;> simp

end Word

namespace Block

variable {block : Block}

/-! Blocks and their instructions. -/

section Instructions

variable {operation : Op} {body rest : Block} {first second : Op}

theorem exists_get?_op {instr : Instr} :
    (∃ index, (op operation rest).get? index = some instr) ↔
      .op operation = instr ∨ ∃ index, rest.get? index = some instr := by
  constructor
  · intro ⟨index, hget⟩
    cases index with
    | zero => exact .inl (Option.some.inj hget)
    | succ index => exact .inr ⟨index, hget⟩
  · rintro (rfl | ⟨index, hget⟩)
    · exact ⟨0, rfl⟩
    · exact ⟨index + 1, hget⟩

theorem exists_get?_loop :
    (∃ index, (loop body rest).get? index = some (.op first)) ↔
      ∃ index, rest.get? index = some (.op first) := by
  constructor
  · intro ⟨index, hget⟩
    cases index with
    | zero => cases hget
    | succ index => exact ⟨index, hget⟩
  · intro ⟨index, hget⟩
    exact ⟨index + 1, hget⟩

/-- Two operations of a block stand next to each other. -/
def Adjacent (block : Block) (first second : Op) : Prop :=
  ∃ index, block.get? index = some (.op first) ∧ block.get? (index + 1) = some (.op second)

theorem adjacent_op : (op operation rest).Adjacent first second ↔
    operation = first ∧ rest.get? 0 = some (.op second) ∨ rest.Adjacent first second := by
  constructor
  · intro ⟨index, hfirst, hsecond⟩
    cases index with
    | zero =>
        cases hfirst
        exact .inl ⟨rfl, hsecond⟩
    | succ index => exact .inr ⟨index, hfirst, hsecond⟩
  · rintro (⟨rfl, hsecond⟩ | ⟨index, hfirst, hsecond⟩)
    · exact ⟨0, rfl, hsecond⟩
    · exact ⟨index + 1, hfirst, hsecond⟩

theorem adjacent_loop :
    (loop body rest).Adjacent first second ↔ rest.Adjacent first second := by
  constructor
  · intro ⟨index, hfirst, hsecond⟩
    cases index with
    | zero => cases hfirst
    | succ index => exact ⟨index, hfirst, hsecond⟩
  · intro ⟨index, hfirst, hsecond⟩
    exact ⟨index + 1, hfirst, hsecond⟩

theorem prefix_words_iff :
    [.op operation] <+: rest.words ↔ rest.get? 0 = some (.op operation) := by
  cases rest <;> simp [get?, eq_comm]

end Instructions

section Levels

variable {property : Block → Prop} {body rest : Block}

theorem exists_levels_iff : (∃ level ∈ block.levels, property level) ↔
    property block ∨ ∃ inner ∈ block.bodies, property inner := by
  simp [levels]

theorem exists_levels_loop : (∃ level ∈ (loop body rest).levels, property level) ↔
    property (loop body rest) ∨ (∃ level ∈ body.levels, property level) ∨
      ∃ inner ∈ rest.bodies, property inner := by
  simp [levels, or_and_right, exists_or, or_assoc]

end Levels

/-- The operations of the linear form are those of the blocks. -/
theorem mem_words_iff {operation : Op} :
    .op operation ∈ block.words ↔
      ∃ level ∈ block.levels, ∃ index, level.get? index = some (.op operation) := by
  induction block with
  | nil => simp [levels, get?]
  | op first rest ih =>
      rw [words_op, List.mem_cons, ih, exists_levels_iff, exists_levels_iff, exists_get?_op,
        bodies_op, or_assoc]
      simp [eq_comm]
  | loop body rest ihBody ihRest =>
      rw [exists_levels_iff] at ihRest
      rw [exists_levels_loop, exists_get?_loop, ← ihBody, or_left_comm, ← ihRest, words_loop]
      simp

/-- Neighbours in the linear form are neighbours in one of the blocks. -/
theorem neighbours_iff {first second : Op} :
    block.Neighbours first second ↔ ∃ level ∈ block.levels, level.Adjacent first second := by
  unfold Neighbours
  induction block with
  | nil => simp [levels, Adjacent, get?]
  | op operation rest ih =>
      rw [words_op, List.infix_cons_iff, ih, List.cons_prefix_cons, prefix_words_iff,
        exists_levels_iff, exists_levels_iff, adjacent_op, bodies_op, or_assoc]
      simp [eq_comm]
  | loop body rest ihBody ihRest =>
      rw [exists_levels_iff] at ihRest
      rw [exists_levels_loop, adjacent_loop, ← ihBody, or_left_comm, ← ihRest,
        ← Word.infix_append_leave, words_loop, List.infix_cons_iff]
      simp

/-- No instruction of a block adds zero or moves by zero. -/
def NoIdle (level : Block) : Prop :=
  ∀ (axis : Axis) (index : Nat), level.get? index ≠ some (.op (axis.op 0))

/-- No two neighbours in a block are both additions, or both moves. -/
def NoPair (axis : Axis) (level : Block) : Prop :=
  ∀ left right : Int64, ¬ level.Adjacent (axis.op left) (axis.op right)

theorem spaced_iff_levels {axes : Axis → Prop} :
    Word.Spaced (Op.ApartOn axes) block.words.reverse ↔
      ∀ level ∈ block.levels, level.NoIdle ∧ ∀ axis, axes axis → level.NoPair axis := by
  rw [Word.spaced_reverse_iff]
  constructor
  · intro ⟨hbusy, hapart⟩ level hlevel
    constructor
    · intro axis index hget
      have hidle := hbusy (axis.op 0) (mem_words_iff.mpr ⟨level, hlevel, index, hget⟩)
      rw [Op.isIdle_axis_zero] at hidle
      contradiction
    · intro axis haxis left right hadjacent
      have hneighbours := neighbours_iff.mpr ⟨level, hlevel, hadjacent⟩
      exact hapart _ _ hneighbours axis haxis (Op.axis?_op axis left) (Op.axis?_op axis right)
  · intro hlevels
    constructor
    · intro operation hmem
      obtain ⟨level, hlevel, index, hget⟩ := mem_words_iff.mp hmem
      apply Bool.eq_false_iff.mpr
      intro hidle
      obtain ⟨axis, rfl⟩ := Op.exists_of_isIdle hidle
      exact (hlevels level hlevel).1 axis index hget
    · intro first second hinfix axis haxis hfirst hsecond
      obtain ⟨level, hlevel, hadjacent⟩ := neighbours_iff.mp hinfix
      obtain ⟨left, rfl⟩ := Op.exists_of_axis? hfirst
      obtain ⟨right, rfl⟩ := Op.exists_of_axis? hsecond
      exact (hlevels level hlevel).2 axis haxis left right hadjacent

/-- In the blocks of a folded tree nothing is added or moved by zero, and no two neighbours are both
additions. If in every block the moves together stay in the 64-bit range, as they do in a tree built
from fewer than `2 ^ 63` tokens, then no two neighbours are both moves. And folding changes nothing
in a tree that has none of these. -/
theorem foldRuns_normal_form (block : Block) :
    (∀ level ∈ block.foldRuns.levels, level.NoIdle ∧ level.NoPair .cell) ∧
      (block.Bounded → ∀ level ∈ block.foldRuns.levels, level.NoPair .pointer) ∧
      (∀ tokens, Block.ofTokens tokens = .ok block → tokens.length < 2 ^ 63 → block.Bounded) ∧
      ((∀ level ∈ block.levels, level.NoIdle ∧ level.NoPair .cell ∧ level.NoPair .pointer) →
        block.foldRuns = block) := by
  refine ⟨?_, ?_, ?_, ?_⟩
  · intro level hlevel
    obtain ⟨hidle, hpairs⟩ := spaced_iff_levels.mp block.spaced_foldRuns level hlevel
    exact ⟨hidle, hpairs .cell rfl⟩
  · intro hbounded level hlevel
    exact (spaced_iff_levels.mp hbounded.spaced_foldRuns level hlevel).2 .pointer trivial
  · intro tokens hbuilt hlength
    exact (Token.spell_of_ofTokens hbuilt).bounded hlength
  · intro hlevels
    apply foldRuns_eq_of_spaced
    refine spaced_iff_levels.mpr fun level hlevel => ?_
    obtain ⟨hidle, hcell, hpointer⟩ := hlevels level hlevel
    refine ⟨hidle, fun axis _ => ?_⟩
    cases axis with
    | cell => exact hcell
    | pointer => exact hpointer

end Block

end Brainfuck
