import Brainfuck.Proofs.Process
import Brainfuck.Proofs.Tape
import Brainfuck.Block.Walk

/-! The execution of trees.

`Block.process` runs a tree step by step: it keeps the loops that are open, and comes back to the
test of the innermost one when a body is done. `Runs` and `Visits` say the same by recursion over
the tree, for runs that end and for the points that a run comes to; `ends_iff_runs` and
`reaches_iff_visits` are the agreement. -/

namespace Brainfuck

namespace Block

variable {A : Type}

/-- A tree in execution: what is left of the innermost open block, and the open loops around it,
each with its body and what follows it. -/
structure Config (A : Type) where
  current : Block
  pending : List (Block × Block)
  tape : Tape A

def start (block : Block) (tape : Tape A) : Config A :=
  ⟨block, [], tape⟩

/-- Whether the first instruction of a block reads, tests or writes the cell at the pointer. -/
def touches (block : Block) (tape : Tape A) : Bool :=
  match block with
  | .nil => false
  | .op operation _ => operation.touches tape
  | .loop _ _ => true

/-- The cell that the next step touches, if it touches one, is an allowed one. -/
def Config.Within (allowed : A → Prop) (config : Config A) : Prop :=
  config.current.touches config.tape = true → allowed config.tape.pointer

variable [DecidableEq A] [AddAction ℤ A]

def step : Config A → Turn (Config A) (Tape A)
  | ⟨.nil, [], tape⟩ => .stop tape
  | ⟨.nil, (body, rest) :: pending, tape⟩ => .next ⟨.loop body rest, pending, tape⟩
  | ⟨.op operation rest, pending, tape⟩ => .next ⟨rest, pending, operation.apply tape⟩
  | ⟨.loop body rest, pending, tape⟩ =>
      if tape.cell = 0 then .next ⟨rest, pending, tape⟩
      else .next ⟨body, (body, rest) :: pending, tape⟩

theorem output_step {config config' : Config A} (hstep : step config = .next config') :
    config.tape.output <+: config'.tape.output := by
  obtain ⟨current, pending, tape⟩ := config
  cases current with
  | nil =>
      cases pending with
      | nil => cases hstep
      | cons opened pending =>
          cases hstep
          exact List.prefix_refl _
  | op operation rest =>
      cases hstep
      exact operation.output_apply tape
  | loop body rest =>
      rw [step] at hstep
      split at hstep <;> cases hstep <;> exact List.prefix_refl _

def process : Process (Config A) (Tape A) where
  step := step
  output config := config.tape.output
  output_step := output_step

section Step

variable (tape : Tape A) (body rest : Block) (pending : List (Block × Block))

theorem step_nil : process.step ⟨.nil, [], tape⟩ = .stop tape := rfl

theorem step_close :
    process.step ⟨.nil, (body, rest) :: pending, tape⟩ =
      .next ⟨.loop body rest, pending, tape⟩ := rfl

theorem step_op (operation : Op) :
    process.step ⟨.op operation rest, pending, tape⟩ =
      .next ⟨rest, pending, operation.apply tape⟩ := rfl

variable {tape}

theorem step_loop_zero (hcell : tape.cell = 0) :
    process.step ⟨.loop body rest, pending, tape⟩ = .next ⟨rest, pending, tape⟩ :=
  if_pos hcell

theorem step_loop_nonzero (hcell : tape.cell ≠ 0) :
    process.step ⟨.loop body rest, pending, tape⟩ =
      .next ⟨body, (body, rest) :: pending, tape⟩ :=
  if_neg hcell

end Step

/-! Executions by recursion over the tree. -/

inductive Runs : Block → Tape A → Tape A → Prop
  | nil {tape : Tape A} : Runs .nil tape tape
  | op {operation : Op} {rest : Block} {tape final : Tape A}
      (hrest : Runs rest (operation.apply tape) final) :
      Runs (.op operation rest) tape final
  | skip {body rest : Block} {tape final : Tape A} (hcell : tape.cell = 0)
      (hrest : Runs rest tape final) : Runs (.loop body rest) tape final
  | again {body rest : Block} {tape middle final : Tape A} (hcell : tape.cell ≠ 0)
      (hbody : Runs body tape middle) (hloop : Runs (.loop body rest) middle final) :
      Runs (.loop body rest) tape final

/-- `Visits block tape current now`: the execution of `block` on `tape` comes to a point where
`current` is next, on the tape `now`. -/
inductive Visits : Block → Tape A → Block → Tape A → Prop
  | here {block : Block} {tape : Tape A} : Visits block tape block tape
  | op {operation : Op} {rest current : Block} {tape now : Tape A}
      (hrest : Visits rest (operation.apply tape) current now) :
      Visits (.op operation rest) tape current now
  | skip {body rest current : Block} {tape now : Tape A} (hcell : tape.cell = 0)
      (hrest : Visits rest tape current now) : Visits (.loop body rest) tape current now
  | inside {body rest current : Block} {tape now : Tape A} (hcell : tape.cell ≠ 0)
      (hbody : Visits body tape current now) : Visits (.loop body rest) tape current now
  | again {body rest current : Block} {tape middle now : Tape A} (hcell : tape.cell ≠ 0)
      (hbody : Runs body tape middle) (hloop : Visits (.loop body rest) middle current now) :
      Visits (.loop body rest) tape current now

theorem Runs.visits_nil {block : Block} {tape final : Tape A} (hruns : Runs block tape final) :
    Visits block tape .nil final := by
  induction hruns with
  | nil => exact .here
  | op _ ih => exact .op ih
  | skip hcell _ ih => exact .skip hcell ih
  | again hcell hbody _ _ ih => exact .again hcell hbody ih

theorem Runs.reaches {block : Block} {tape final : Tape A} (hruns : Runs block tape final)
    (pending : List (Block × Block)) :
    process.Reaches ⟨block, pending, tape⟩ ⟨.nil, pending, final⟩ := by
  induction hruns generalizing pending with
  | nil => exact .refl _
  | op _ ih => exact (ih pending).head (step_op ..)
  | skip hcell _ ih => exact (ih pending).head (step_loop_zero _ _ _ hcell)
  | again hcell _ _ ihBody ihLoop =>
      exact .head (step_loop_nonzero _ _ _ hcell)
        ((ihBody _).trans ((ihLoop pending).head (step_close ..)))

theorem Visits.reaches {block current : Block} {tape now : Tape A}
    (hvisits : Visits block tape current now) (pending : List (Block × Block)) :
    ∃ pending', process.Reaches ⟨block, pending, tape⟩ ⟨current, pending', now⟩ := by
  induction hvisits generalizing pending with
  | here => exact ⟨pending, .refl _⟩
  | op _ ih =>
      obtain ⟨pending', hreaches⟩ := ih pending
      exact ⟨pending', hreaches.head (step_op ..)⟩
  | skip hcell _ ih =>
      obtain ⟨pending', hreaches⟩ := ih pending
      exact ⟨pending', hreaches.head (step_loop_zero _ _ _ hcell)⟩
  | inside hcell _ ih =>
      obtain ⟨pending', hreaches⟩ := ih _
      exact ⟨pending', hreaches.head (step_loop_nonzero _ _ _ hcell)⟩
  | again hcell hbody _ ih =>
      obtain ⟨pending', hreaches⟩ := ih pending
      exact ⟨pending', .head (step_loop_nonzero _ _ _ hcell)
        ((hbody.reaches _).trans (hreaches.head (step_close ..)))⟩

/-- A run of some length from a block inside open loops is still in the block, or has left it and
goes on with the loops. -/
theorem visits_or_runs (count : Nat) (block : Block) (pending : List (Block × Block))
    (tape : Tape A) :
    (∃ current pending' now,
      process.after count ⟨block, pending, tape⟩ = .next ⟨current, pending', now⟩ ∧
        Visits block tape current now) ∨
    ∃ final fewer, fewer ≤ count ∧ Runs block tape final ∧
      process.after count ⟨block, pending, tape⟩ =
        process.after fewer ⟨.nil, pending, final⟩ := by
  induction count using Nat.strongRecOn generalizing block pending tape with
  | ind count ih =>
      cases count with
      | zero => exact .inl ⟨block, pending, tape, rfl, .here⟩
      | succ count =>
          cases block with
          | nil => exact .inr ⟨tape, count + 1, Nat.le_refl _, .nil, rfl⟩
          | op operation rest =>
              rw [Process.after_succ_next (step_op ..)]
              rcases ih count (Nat.lt_succ_self count) rest pending (operation.apply tape) with
                ⟨current, pending', now, hafter, hvisits⟩ | ⟨final, fewer, hle, hruns, hafter⟩
              · exact .inl ⟨current, pending', now, hafter, .op hvisits⟩
              · exact .inr ⟨final, fewer, by omega, .op hruns, hafter⟩
          | loop body rest =>
              by_cases hcell : tape.cell = 0
              · rw [Process.after_succ_next (step_loop_zero _ _ _ hcell)]
                rcases ih count (Nat.lt_succ_self count) rest pending tape with
                  ⟨current, pending', now, hafter, hvisits⟩ | ⟨final, fewer, hle, hruns, hafter⟩
                · exact .inl ⟨current, pending', now, hafter, .skip hcell hvisits⟩
                · exact .inr ⟨final, fewer, by omega, .skip hcell hruns, hafter⟩
              · rw [Process.after_succ_next (step_loop_nonzero _ _ _ hcell)]
                rcases ih count (Nat.lt_succ_self count) body ((body, rest) :: pending) tape with
                  ⟨current, pending', now, hafter, hvisits⟩ | ⟨middle, fewer, hle, hbody, hafter⟩
                · exact .inl ⟨current, pending', now, hafter, .inside hcell hvisits⟩
                · rw [hafter]
                  cases fewer with
                  | zero =>
                      exact .inl ⟨.nil, (body, rest) :: pending, middle, rfl,
                        .inside hcell hbody.visits_nil⟩
                  | succ fewer =>
                      rw [Process.after_succ_next (step_close ..)]
                      rcases ih fewer (by omega) (.loop body rest) pending middle with
                        ⟨current, pending', now, hafter', hvisits⟩ |
                          ⟨final, least, hle', hruns, hafter'⟩
                      · exact .inl ⟨current, pending', now, hafter', .again hcell hbody hvisits⟩
                      · exact .inr ⟨final, least, by omega, .again hcell hbody hruns, hafter'⟩

theorem ends_iff_runs {block : Block} {tape final : Tape A} :
    process.Ends (block.start tape) final ↔ Runs block tape final := by
  constructor
  · rintro ⟨count, hstop⟩
    rcases visits_or_runs count block [] tape with
      ⟨current, pending', now, hafter, -⟩ | ⟨other, fewer, -, hruns, hafter⟩
    · rw [start, hafter] at hstop
      contradiction
    · rw [start, hafter] at hstop
      cases fewer with
      | zero => contradiction
      | succ fewer =>
          rw [Process.after_succ_stop (step_nil other)] at hstop
          cases hstop
          exact hruns
  · intro hruns
    exact (hruns.reaches []).ends (.of_stop (step_nil final))

theorem reaches_iff_visits {block current : Block} {tape now : Tape A} :
    (∃ pending, process.Reaches (block.start tape) ⟨current, pending, now⟩) ↔
      Visits block tape current now := by
  constructor
  · rintro ⟨pending, count, hnext⟩
    rcases visits_or_runs count block [] tape with
      ⟨current', pending', now', hafter, hvisits⟩ | ⟨final, fewer, -, hruns, hafter⟩
    · rw [start, hafter] at hnext
      cases hnext
      exact hvisits
    · rw [start, hafter] at hnext
      cases fewer with
      | zero =>
          cases hnext
          exact hruns.visits_nil
      | succ fewer =>
          rw [Process.after_succ_stop (step_nil final)] at hnext
          contradiction
  · intro hvisits
    exact hvisits.reaches []

end Block

end Brainfuck
