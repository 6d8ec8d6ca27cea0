import Brainfuck.Proofs.Execution
import Brainfuck.Block.Metrics

/-! Trees laid out as linear code.

A layout gives the code of each operation and of the two ends of a loop. A process that has a place
in such code follows the execution of the tree, whatever it runs on, as soon as it does so for the
single pieces: that is `Implements`, and `Implements.simulation` follows from it. No code stands for
the return from a body to its test, so there the tree alone takes a step. -/

namespace Brainfuck

variable {I : Type}

def Placed (program : List I) (place : Nat) (segment : List I) : Prop :=
  segment <+: program.drop place

section Placed

variable {program front back : List I} {place : Nat}

theorem placed_append :
    Placed program place (front ++ back) ↔
      Placed program place front ∧ Placed program (place + front.length) back := by
  unfold Placed
  rw [← List.drop_drop]
  constructor
  · rintro ⟨after, hafter⟩
    rw [← hafter]
    refine ⟨⟨back ++ after, (List.append_assoc ..).symm⟩, after, ?_⟩
    rw [List.append_assoc, List.drop_left]
  · rintro ⟨⟨after, hafter⟩, hback⟩
    rw [← hafter, List.drop_left] at hback
    rw [← hafter]
    exact (List.prefix_append_right_inj front).mpr hback

theorem placed_cons {item : I} :
    Placed program place (item :: back) ↔
      program[place]? = some item ∧ Placed program (place + 1) back := by
  rw [← List.singleton_append, placed_append, List.length_singleton]
  refine and_congr_left fun _ => ?_
  rw [Placed, List.singleton_prefix_iff_head?_eq_some]
  simp [List.head?_drop]

theorem Placed.map {J : Type} {segment : List I} (hplaced : Placed program place segment)
    (change : I → J) : Placed (program.map change) place (segment.map change) := by
  obtain ⟨after, hafter⟩ := hplaced
  exact ⟨after.map change, by rw [← List.map_drop, ← hafter, List.map_append]⟩

theorem Placed.extract_eq {segment : List I} (hplaced : Placed program place segment) :
    program.extract place (place + segment.length) = segment := by
  rw [List.extract_eq_take_drop, Nat.add_sub_cancel_left]
  exact (List.prefix_iff_eq_take.mp hplaced).symm

end Placed

structure Layout (I : Type) where
  op : Op → List I
  /-- The code at the start of a loop, given the number of its first label. -/
  enter : Nat → List I
  leave : Nat → List I

namespace Layout

/-- The code of a tree. A loop takes two labels; its body goes on with the next ones, and what
follows the loop goes on after all of the body. -/
def code (layout : Layout I) : Nat → Block → List I
  | _, .nil => []
  | label, .op operation rest => layout.op operation ++ layout.code label rest
  | label, .loop body rest =>
      layout.enter label ++ layout.code (label + 2) body ++ layout.leave label ++
        layout.code (label + 2 + 2 * body.loopCount) rest

def whole (layout : Layout I) (label : Nat) (body : Block) : List I :=
  layout.enter label ++ layout.code (label + 2) body ++ layout.leave label

/-- Where the test of a loop leads that stands at `origin`: behind it, or into its body. -/
def afterTest (layout : Layout I) (label : Nat) (body : Block) (origin : Nat) (cell : UInt8) :
    Nat :=
  origin + if cell = 0 then (layout.whole label body).length else (layout.enter label).length

/-- The place at which a body ends, with the open loops around it still to be gone on with. -/
def Follows (layout : Layout I) (program ending : List I) : Nat → List (Block × Block) → Prop
  | place, [] => program.drop place = ending
  | place, (body, rest) :: outer =>
      ∃ origin label next,
        place = origin + (layout.enter label ++ layout.code (label + 2) body).length ∧
        Placed program origin (layout.whole label body ++ layout.code next rest) ∧
        layout.Follows program ending
          (origin + (layout.whole label body ++ layout.code next rest).length) outer

/-- A place for a tree in execution: in front of the code of its current block, or, if that is a
loop which has been run through, at the test behind the body. -/
inductive Stands (layout : Layout I) (program ending : List I) :
    Block → List (Block × Block) → Nat → Prop
  | front {current : Block} {pending : List (Block × Block)} {place label : Nat}
      (hplaced : Placed program place (layout.code label current))
      (hfollows : layout.Follows program ending
        (place + (layout.code label current).length) pending) :
      Stands layout program ending current pending place
  | behind {body rest : Block} {pending : List (Block × Block)} {place : Nat}
      (hfollows : layout.Follows program ending place ((body, rest) :: pending)) :
      Stands layout program ending (.loop body rest) pending place

section Follows

variable {layout : Layout I} {program ending : List I} {place label next : Nat}
  {body rest : Block} {pending : List (Block × Block)}

theorem stands_body
    (hplaced : Placed program place (layout.whole label body ++ layout.code next rest))
    (hfollows : layout.Follows program ending
      (place + (layout.whole label body ++ layout.code next rest).length) pending) :
    layout.Stands program ending body ((body, rest) :: pending)
      (place + (layout.enter label).length) := by
  have hwhole := placed_append.mp hplaced
  have hbody := placed_append.mp (placed_append.mp hwhole.1).1
  refine .front hbody.2 ⟨place, label, next, ?_, hplaced, hfollows⟩
  rw [List.length_append, Nat.add_assoc]

theorem stands_rest
    (hplaced : Placed program place (layout.whole label body ++ layout.code next rest))
    (hfollows : layout.Follows program ending
      (place + (layout.whole label body ++ layout.code next rest).length) pending) :
    layout.Stands program ending rest pending (place + (layout.whole label body).length) := by
  have hrest := (placed_append.mp hplaced).2
  refine .front hrest ?_
  rwa [Nat.add_assoc, ← List.length_append]

theorem stands_afterTest
    (hplaced : Placed program place (layout.whole label body ++ layout.code next rest))
    (hfollows : layout.Follows program ending
      (place + (layout.whole label body ++ layout.code next rest).length) pending)
    (cell : UInt8) :
    (cell = 0 → layout.Stands program ending rest pending
      (layout.afterTest label body place cell)) ∧
    (cell ≠ 0 → layout.Stands program ending body ((body, rest) :: pending)
      (layout.afterTest label body place cell)) := by
  unfold afterTest
  constructor
  · intro hcell
    rw [if_pos hcell]
    exact stands_rest hplaced hfollows
  · intro hcell
    rw [if_neg hcell]
    exact stands_body hplaced hfollows

end Follows

end Layout

namespace Block.Config

variable {A : Type}

/-- The steps that can be taken before the next test of a loop. -/
def patience (config : Config A) : Nat :=
  config.current.weight +
    pendingWeight (config.pending.map fun (body, rest) => ((), loop body rest))

end Block.Config

namespace Layout

variable {A Core Result : Type} [DecidableEq A] [AddAction ℤ A]

/-- The pieces of a layout do on a process what they stand for. `holds` relates a tape to what the
process keeps beside its place, and `allowed` tells the cells that may be touched. -/
structure Implements (layout : Layout I) (program ending : List I)
    (process : Process (Nat × Core) Result) (holds : Tape A → Core → Prop)
    (allowed : A → Prop) (related : Tape A → Result → Prop) : Prop where
  output : ∀ {tape core} (place : Nat), holds tape core →
    process.output (place, core) = tape.output
  op : ∀ {operation tape core place}, Placed program place (layout.op operation) →
    holds tape core → (operation.touches tape = true → allowed tape.pointer) →
    ∃ core', process.Reaches (place, core) (place + (layout.op operation).length, core') ∧
      holds (operation.apply tape) core'
  enter : ∀ {label body tape core origin}, Placed program origin (layout.whole label body) →
    holds tape core → allowed tape.pointer →
    ∃ count core', process.after (count + 1) (origin, core) =
        .next (layout.afterTest label body origin tape.cell, core') ∧ holds tape core'
  leave : ∀ {label body tape core origin}, Placed program origin (layout.whole label body) →
    holds tape core → allowed tape.pointer →
    ∃ count core', process.after (count + 1)
        (origin + (layout.enter label ++ layout.code (label + 2) body).length, core) =
        .next (layout.afterTest label body origin tape.cell, core') ∧ holds tape core'
  finish : ∀ {tape core place}, program.drop place = ending → holds tape core →
    ∃ last result, process.Reaches (place, core) last ∧
      process.output last = process.output (place, core) ∧
      process.step last = .stop result ∧ related tape result

namespace Implements

variable {layout : Layout I} {program ending : List I} {process : Process (Nat × Core) Result}
  {holds : Tape A → Core → Prop} {allowed : A → Prop} {related : Tape A → Result → Prop}

structure Tracks (layout : Layout I) (program ending : List I) (holds : Tape A → Core → Prop)
    (allowed : A → Prop) (config : Block.Config A) (state : Nat × Core) : Prop where
  stands : layout.Stands program ending config.current config.pending state.1
  holds : holds config.tape state.2
  within : Block.process.Always (Block.Config.Within allowed) config

theorem loop_tracks {body rest : Block} {pending : List (Block × Block)} {tape : Tape A}
    {place origin label next : Nat} {core core' : Core} {config' : Block.Config A} {count : Nat}
    (htested : process.after (count + 1) (place, core) =
      .next (layout.afterTest label body origin tape.cell, core'))
    (hholds : holds tape core')
    (hplaced : Placed program origin (layout.whole label body ++ layout.code next rest))
    (hfollows : layout.Follows program ending
      (origin + (layout.whole label body ++ layout.code next rest).length) pending)
    (hstep : Block.process.step ⟨.loop body rest, pending, tape⟩ = .next config')
    (hwithin : Block.process.Always (Block.Config.Within allowed) config') :
    ∃ count state', process.after count (place, core) = .next state' ∧
      Tracks layout program ending holds allowed config' state' ∧
      (count = 0 → config'.patience <
        Block.Config.patience ⟨.loop body rest, pending, tape⟩) := by
  refine ⟨count + 1, _, htested, ?_, by simp⟩
  have hstands := stands_afterTest hplaced hfollows tape.cell
  by_cases hcell : tape.cell = 0
  · rw [Block.step_loop_zero _ _ _ hcell] at hstep
    cases hstep
    exact ⟨hstands.1 hcell, hholds, hwithin⟩
  · rw [Block.step_loop_nonzero _ _ _ hcell] at hstep
    cases hstep
    exact ⟨hstands.2 hcell, hholds, hwithin⟩

theorem next_tracks
    (himplements : layout.Implements program ending process holds allowed related)
    {config config' : Block.Config A} {state : Nat × Core}
    (htracks : Tracks layout program ending holds allowed config state)
    (hstep : Block.process.step config = .next config') :
    ∃ count state', process.after count state = .next state' ∧
      Tracks layout program ending holds allowed config' state' ∧
      (count = 0 → config'.patience < config.patience) := by
  obtain ⟨current, pending, tape⟩ := config
  obtain ⟨place, core⟩ := state
  obtain ⟨hstands, hholds, hwithin⟩ := htracks
  have hwithin' := hwithin.of_reaches (.single hstep)
  have hhere := hwithin.here
  cases current with
  | nil =>
      cases pending with
      | nil => cases hstep
      | cons opened pending =>
          obtain ⟨body, rest⟩ := opened
          cases hstep
          refine ⟨0, (place, core), rfl, ⟨?_, hholds, hwithin'⟩, fun _ => ?_⟩
          · cases hstands with
            | front _ hfollows => exact .behind hfollows
          · simp [Block.Config.patience, Block.pendingWeight, Block.weight]
  | op operation rest =>
      cases hstep
      cases hstands with
      | front hplaced hfollows =>
          obtain ⟨hop, hrest⟩ := placed_append.mp hplaced
          obtain ⟨core', ⟨count, hafter⟩, hholds'⟩ := himplements.op hop hholds hhere
          refine ⟨count, _, hafter, ⟨.front hrest ?_, hholds', hwithin'⟩, fun _ => ?_⟩
          · rwa [code, List.length_append, ← Nat.add_assoc] at hfollows
          · simp only [Block.Config.patience, Block.weight]
            omega
  | loop body rest =>
      cases hstands with
      | front hplaced hfollows =>
          obtain ⟨count, core', htested, hholds'⟩ :=
            himplements.enter (placed_append.mp hplaced).1 hholds (hhere rfl)
          exact loop_tracks htested hholds' hplaced hfollows hstep hwithin'
      | behind hfollows =>
          obtain ⟨origin, label, next, rfl, hplaced, hfollows⟩ := hfollows
          obtain ⟨count, core', htested, hholds'⟩ :=
            himplements.leave (placed_append.mp hplaced).1 hholds (hhere rfl)
          exact loop_tracks htested hholds' hplaced hfollows hstep hwithin'

theorem stop_tracks
    (himplements : layout.Implements program ending process holds allowed related)
    {config : Block.Config A} {state : Nat × Core} {final : Tape A}
    (htracks : Tracks layout program ending holds allowed config state)
    (hstep : Block.process.step config = .stop final) :
    ∃ last result, process.Reaches state last ∧ process.output last = process.output state ∧
      process.step last = .stop result ∧ related final result := by
  obtain ⟨current, pending, tape⟩ := config
  obtain ⟨place, core⟩ := state
  obtain ⟨hstands, hholds, -⟩ := htracks
  cases current with
  | nil =>
      cases pending with
      | nil =>
          cases hstep
          cases hstands with
          | front _ hfollows => exact himplements.finish hfollows hholds
      | cons opened pending => cases hstep
  | op operation rest => cases hstep
  | loop body rest =>
      by_cases hcell : tape.cell = 0
      · rw [Block.step_loop_zero _ _ _ hcell] at hstep
        contradiction
      · rw [Block.step_loop_nonzero _ _ _ hcell] at hstep
        contradiction

theorem simulation
    (himplements : layout.Implements program ending process holds allowed related) :
    Simulation Block.process process (Tracks layout program ending holds allowed) related
      Block.Config.patience where
  output := fun {_ state} htracks => (himplements.output state.1 htracks.holds).symm
  next := himplements.next_tracks
  stop := himplements.stop_tracks

theorem tracks_start {front : List I} {label : Nat} {block : Block} {tape : Tape A} {core : Core}
    (hholds : holds tape core)
    (hwithin : Block.process.Always (Block.Config.Within allowed) (block.start tape)) :
    Tracks layout (front ++ (layout.code label block ++ ending)) ending holds allowed
      (block.start tape) (front.length, core) := by
  have hplaced : Placed (front ++ (layout.code label block ++ ending)) front.length
      (layout.code label block) := by
    rw [Placed, List.drop_left]
    exact List.prefix_append _ _
  refine ⟨.front hplaced ?_, hholds, hwithin⟩
  rw [Block.start, Follows, ← List.drop_drop, List.drop_left, List.drop_left]

/-- What a process does for the tapes of one kind it does for another kind, if these are mirrored
in the first and every operation keeps them so. -/
theorem transport {B : Type} [DecidableEq B] [AddAction ℤ B] {mirrors : Tape B → Tape A → Prop}
    {allowed' : B → Prop}
    (himplements : layout.Implements program ending process holds allowed related)
    (houtput : ∀ {tape image}, mirrors tape image → image.output = tape.output)
    (hallowed : ∀ {tape image}, mirrors tape image → allowed' tape.pointer →
      allowed image.pointer ∧ image.cell = tape.cell)
    (htouches : ∀ {tape image}, mirrors tape image → ∀ operation : Op,
      operation.touches image = operation.touches tape)
    (hop : ∀ {tape image} (operation : Op), mirrors tape image →
      (operation.touches tape = true → allowed' tape.pointer) →
      mirrors (operation.apply tape) (operation.apply image)) :
    layout.Implements program ending process
      (fun tape core => ∃ image, mirrors tape image ∧ holds image core) allowed'
      (fun tape result => ∃ image, mirrors tape image ∧ related image result) where
  output := by
    intro tape core place hholds
    obtain ⟨image, hmirrors, hholds⟩ := hholds
    exact (himplements.output place hholds).trans (houtput hmirrors)
  op := by
    intro operation tape core place hplaced hholds hwithin
    obtain ⟨image, hmirrors, hholds⟩ := hholds
    obtain ⟨core', hreaches, hholds'⟩ := himplements.op hplaced hholds fun htouched =>
      (hallowed hmirrors (hwithin (htouches hmirrors operation ▸ htouched))).1
    exact ⟨core', hreaches, _, hop operation hmirrors hwithin, hholds'⟩
  enter := by
    intro label body tape core origin hplaced hholds hwithin
    obtain ⟨image, hmirrors, hholds⟩ := hholds
    obtain ⟨himage, hcell⟩ := hallowed hmirrors hwithin
    obtain ⟨count, core', hafter, hholds'⟩ := himplements.enter hplaced hholds himage
    exact ⟨count, core', hcell ▸ hafter, image, hmirrors, hholds'⟩
  leave := by
    intro label body tape core origin hplaced hholds hwithin
    obtain ⟨image, hmirrors, hholds⟩ := hholds
    obtain ⟨himage, hcell⟩ := hallowed hmirrors hwithin
    obtain ⟨count, core', hafter, hholds'⟩ := himplements.leave hplaced hholds himage
    exact ⟨count, core', hcell ▸ hafter, image, hmirrors, hholds'⟩
  finish := by
    intro tape core place hending hholds
    obtain ⟨image, hmirrors, hholds⟩ := hholds
    obtain ⟨last, result, hreaches, hquiet, hstop, hrelated⟩ := himplements.finish hending hholds
    exact ⟨last, result, hreaches, hquiet, hstop, image, hmirrors, hrelated⟩

end Implements

end Layout

end Brainfuck
