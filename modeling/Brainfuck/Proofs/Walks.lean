import Brainfuck.Block.Runs
import Brainfuck.Proofs.Machine.Lowering

/-! Walks and the recursions that they stand for.

A walk keeps the open loops on a list and takes one turn after the other. Whatever is done on the
way, it is at its end after one turn for each operation and two for each loop, and has come to the
state that recursion on the tree gives. For run folding this recursion is a fold over the
instructions of a block, for lowering it is the text of one instruction behind the other. -/

namespace Brainfuck

universe u v

/-! Turns. -/

/-- Where a walk stands: in front of `rest`, with the open loops in `pending`, innermost first. -/
structure Walk (State : Type u) (Frame : Type v) where
  state : State
  rest : Block
  pending : List (Frame × Block)

theorem Block.weight_eq (block : Block) :
    block.weight = block.opCount + 2 * block.loopCount + 1 := by
  induction block with
  | nil => simp [weight]
  | op operation rest ih =>
      rw [weight, ih, opCount_op, loopCount_op]
      omega
  | loop body rest ihBody ihRest =>
      rw [weight, ihBody, ihRest, opCount_loop, loopCount_loop]
      omega

namespace Traversal

variable {State : Type u} {Frame : Type v} (traversal : Traversal State Frame)

/-- Takes the next instruction, or leaves the innermost open block if there is none. -/
def turn : Walk State Frame → Turn (Walk State Frame) State
  | ⟨state, .nil, []⟩ => .stop state
  | ⟨state, .nil, (frame, rest) :: pending⟩ =>
      .next ⟨traversal.leave frame state, rest, pending⟩
  | ⟨state, .op operation rest, pending⟩ => .next ⟨traversal.op state operation, rest, pending⟩
  | ⟨state, .loop body rest, pending⟩ =>
      .next ⟨(traversal.enter state).2, body, ((traversal.enter state).1, rest) :: pending⟩

/-- The turns of a walk as a process, which writes nothing. -/
def turns : Process (Walk State Frame) State where
  step := traversal.turn
  output _ := []
  output_step _ := List.prefix_refl []

/-- A walk passes a block, whatever open loops are around it. -/
theorem exists_after_turns (block : Block) (state : State) (pending : List (Frame × Block)) :
    ∃ count, block.weight = count + 1 ∧
      traversal.turns.after count ⟨state, block, pending⟩ =
        .next ⟨block.fold traversal state, .nil, pending⟩ := by
  induction block generalizing state pending with
  | nil => exact ⟨0, rfl, rfl⟩
  | op operation rest ih =>
      obtain ⟨count, hweight, hrest⟩ := ih (traversal.op state operation) pending
      exact ⟨count + 1, congrArg (· + 1) hweight, hrest⟩
  | loop body rest ihBody ihRest =>
      have henter := ihBody (traversal.enter state).2 (((traversal.enter state).1, rest) :: pending)
      obtain ⟨inner, hinner, hbody⟩ := henter
      obtain ⟨later, hlater, hrest⟩ := ihRest
        (traversal.leave (traversal.enter state).1
          (body.fold traversal (traversal.enter state).2)) pending
      refine ⟨inner + (later + 1) + 1, ?_, ?_⟩
      · rw [Block.weight, hinner, hlater]
        omega
      · calc traversal.turns.after (inner + (later + 1) + 1) ⟨state, .loop body rest, pending⟩
          _ = traversal.turns.after (inner + (later + 1)) ⟨(traversal.enter state).2, body,
                ((traversal.enter state).1, rest) :: pending⟩ := rfl
          _ = traversal.turns.after (later + 1) ⟨body.fold traversal (traversal.enter state).2,
                .nil, ((traversal.enter state).1, rest) :: pending⟩ :=
              Process.after_add hbody (later + 1)
          _ = traversal.turns.after later ⟨traversal.leave (traversal.enter state).1
                (body.fold traversal (traversal.enter state).2), rest, pending⟩ := rfl
          _ = .next ⟨(Block.loop body rest).fold traversal state, .nil, pending⟩ := hrest

/-- The turns come to an end, with the state that the walk gives. -/
theorem after_turns (block : Block) (state : State) :
    traversal.turns.after (block.opCount + 2 * block.loopCount + 1) ⟨state, block, []⟩ =
      .stop (block.walk traversal state) := by
  obtain ⟨count, hweight, hafter⟩ := traversal.exists_after_turns block state []
  rw [← block.weight_eq, hweight, Process.after_add hafter, Block.walk_eq_fold]
  rfl

end Traversal

/-! Run folding. -/

namespace Block

def instrs : Block → List Instr
  | .nil => []
  | .op operation rest => .op operation :: rest.instrs
  | .loop body rest => .loop body :: rest.instrs

/-- Adds one instruction to a folded run, which stands in reverse order. A loop is folded by
itself. -/
def absorbInstr (done : Block) : Instr → Block
  | .op operation => done.absorb operation
  | .loop body => .loop body.foldRuns done

theorem fold_foldingRuns (block done : Block) :
    block.fold foldingRuns done = block.instrs.foldl absorbInstr done := by
  induction block generalizing done with
  | nil => rfl
  | op operation rest ih => exact ih (done.absorb operation)
  | loop body rest _ ihRest =>
      have hbody : foldingRuns.leave done (body.fold foldingRuns .nil) =
          absorbInstr done (.loop body) := by
        rw [absorbInstr, foldRuns, walk_eq_fold]
        rfl
      rw [instrs, List.foldl_cons, ← hbody]
      exact ihRest _

theorem foldRuns_eq_foldl (block : Block) :
    block.foldRuns = (block.instrs.foldl absorbInstr .nil).reverse := by
  rw [foldRuns, walk_eq_fold, fold_foldingRuns]

end Block

/-! Lowering. -/

namespace Asm

def Line.joined (lines : List Line) : String :=
  lines.foldl (fun text line => text ++ line.text) ""

theorem Line.joined_append (front back : List Line) :
    joined (front ++ back) = joined front ++ joined back := by
  apply String.toList_inj.mp
  simp only [joined, Text.toList_foldl_append, String.toList_append, List.flatMap_append]
  simp

theorem Listing.text_eq_joined (listing : Listing) :
    listing.text = Line.joined listing.lines.toList :=
  (Array.foldl_toList ..).symm

namespace Backend

variable (backend : Backend)

/-- The text of a tree and the number of the next label, given the number of the first. -/
def lowered : Nat → Block → String × Nat
  | label, .nil => ("", label)
  | label, .op operation rest =>
      let later := lowered label rest
      (Line.joined (backend.op operation) ++ later.1, later.2)
  | label, .loop body rest =>
      let first : Label := ⟨label⟩
      let second : Label := ⟨label + 1⟩
      let inner := lowered (label + 2) body
      let later := lowered inner.2 rest
      (Line.joined (backend.branchIfZero second.name ++ [.labelled first.name]) ++ inner.1 ++
        Line.joined (backend.branchIfNonzero first.name ++ [.labelled second.name]) ++ later.1,
        later.2)

theorem lowered_eq (label : Nat) (block : Block) :
    backend.lowered label block =
      (Line.joined (backend.layout.code label block), label + 2 * block.loopCount) := by
  induction block generalizing label with
  | nil => simp [lowered, Layout.code, Line.joined]
  | op operation rest ih =>
      rw [lowered, ih, Layout.code, Line.joined_append, Block.loopCount_op]
      rfl
  | loop body rest ihBody ihRest =>
      have hlabels : label + 2 + 2 * body.loopCount + 2 * rest.loopCount =
          label + 2 * (Block.loop body rest).loopCount := by
        rw [Block.loopCount_loop]
        omega
      rw [lowered, ihBody, ihRest, ← hlabels]
      simp only [Layout.code, layout, Line.joined_append]

theorem lower_eq_lowered (listing : Listing) (block : Block) :
    (backend.lower listing block).text = listing.text ++ (backend.lowered listing.labels block).1 ∧
      (backend.lower listing block).labels = (backend.lowered listing.labels block).2 := by
  obtain ⟨hlines, hlabels⟩ := backend.lower_eq listing block
  rw [lowered_eq, Listing.text_eq_joined, hlines, Line.joined_append, ← Listing.text_eq_joined]
  exact ⟨rfl, hlabels⟩

end Backend

end Asm

/-- What the two walks compute, and that they come to an end. Run folding is the fold over the
instructions of a block, from the first to the last, in which every loop stands with its body
folded. Lowering leaves the text in front as it is and appends the text of the recursion: a loop
takes the next two labels, its body goes on with those behind them, and what follows the loop goes
on behind the labels of the body. Both walks stop after one turn for each operation and two for each
loop, and one more. -/
theorem walks_compute_recursions (block : Block) :
    block.foldRuns = (block.instrs.foldl Block.absorbInstr .nil).reverse ∧
    (∀ (backend : Asm.Backend) (listing : Asm.Listing),
      (backend.lower listing block).text =
          listing.text ++ (backend.lowered listing.labels block).1 ∧
        (backend.lower listing block).labels = (backend.lowered listing.labels block).2) ∧
    let count := block.opCount + 2 * block.loopCount + 1
    (∃ done, Block.foldingRuns.turns.after count ⟨.nil, block, []⟩ = .stop done ∧
      done.reverse = block.foldRuns) ∧
    ∀ (backend : Asm.Backend) (listing : Asm.Listing),
      backend.lowering.turns.after count ⟨listing, block, []⟩ =
        .stop (backend.lower listing block) :=
  ⟨block.foldRuns_eq_foldl, fun backend listing => backend.lower_eq_lowered listing block,
    ⟨_, Block.foldingRuns.after_turns block .nil, rfl⟩,
    fun backend listing => backend.lowering.after_turns block listing⟩

end Brainfuck
