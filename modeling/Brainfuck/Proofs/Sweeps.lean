import Mathlib.Data.ZMod.Basic
import Brainfuck.Proofs.Loops
import Brainfuck.Proofs.RunFolding

/-! What the runs of a tree do, without looking at how they are written.

A run of additions and moves sweeps over the tape: it adds something at some of the offsets from its
start, and it leaves the pointer at another offset. Folding rewrites the runs, but each run of a
folded tree still sweeps as it did, and between the runs stands what has stood there before. -/

namespace Brainfuck

/-- What a run does to a tape: how far the pointer goes, which is exact, and what is added to the
cell at each offset from the start of the run, which counts modulo `2 ^ 64`. -/
structure Sweep where
  distance : ℤ
  added : ℤ → ZMod (2 ^ 64)

namespace Sweep

def still : Sweep := ⟨0, fun _ => 0⟩

/-- The sweep of a run with one more operation in front of it. -/
def before (operation : Op) (sweep : Sweep) : Sweep :=
  match operation with
  | .add delta =>
      ⟨sweep.distance, fun offset =>
        (if offset = 0 then (delta.toInt : ZMod (2 ^ 64)) else 0) + sweep.added offset⟩
  | .move delta =>
      ⟨delta.toInt + sweep.distance, fun offset => sweep.added (offset - delta.toInt)⟩
  | _ => sweep

def ofRun (run : List Op) : Sweep :=
  run.foldr before still

theorem intCast_toInt_add (left right : Int64) :
    ((left + right).toInt : ZMod (2 ^ 64)) = left.toInt + right.toInt := by
  rw [Int64.toInt_add, ← Int.cast_add]
  apply (ZMod.intCast_eq_intCast_iff _ _ _).mpr
  exact Int.bmod_emod

theorem before_of_isIdle {operation : Op} (hidle : operation.isIdle = true) (sweep : Sweep) :
    before operation sweep = sweep := by
  cases operation with
  | add delta =>
      cases eq_of_beq hidle
      simp [before]
  | move delta =>
      cases eq_of_beq hidle
      simp [before]
  | _ => cases hidle

theorem before_before_of_merge? {first second merged : Op}
    (hmerge : first.merge? second = some merged) (sweep : Sweep) :
    before first (before second sweep) = before merged sweep := by
  cases first with
  | add left =>
      cases second <;> cases hmerge
      simp only [before]
      congr 1
      funext offset
      by_cases hoffset : offset = 0
      · simp only [hoffset, if_true, intCast_toInt_add, add_assoc]
      · simp only [hoffset, if_false, zero_add]
  | move left =>
      cases second with
      | move right =>
          obtain ⟨total, hsum, rfl⟩ := Option.map_eq_some_iff.mp hmerge
          simp only [before, Op.toInt_of_sum? hsum, sub_sub, add_assoc]
      | _ => cases hmerge
  | _ => cases hmerge

end Sweep

/-- What stands between two runs: an operation other than an addition or a move, or a loop. -/
inductive Barrier where
  | op (operation : Op)
  | loop
deriving DecidableEq

namespace Op

def barrier? : Op → Option Barrier
  | .add _ => none
  | .move _ => none
  | operation => some (.op operation)

theorem barrier?_of_isIdle {operation : Op} (hidle : operation.isIdle = true) :
    operation.barrier? = none := by
  cases operation with
  | add delta => rfl
  | move delta => rfl
  | _ => cases hidle

theorem barrier?_of_merge? {first second merged : Op}
    (hmerge : first.merge? second = some merged) :
    first.barrier? = none ∧ second.barrier? = none ∧ merged.barrier? = none := by
  cases first with
  | add left =>
      cases second <;> cases hmerge
      exact ⟨rfl, rfl, rfl⟩
  | move left =>
      cases second with
      | move right =>
          obtain ⟨total, -, rfl⟩ := Option.map_eq_some_iff.mp hmerge
          exact ⟨rfl, rfl, rfl⟩
      | _ => cases hmerge
  | _ => cases hmerge

end Op

namespace Block

/-- The instructions of a block that end a run, in order. -/
def barriers : Block → List Barrier
  | .nil => []
  | .op operation rest => operation.barrier?.toList ++ rest.barriers
  | .loop _ rest => .loop :: rest.barriers

/-- The runs of a block, each up to the next barrier and the last one up to the end. -/
def segments : Block → List (List Op)
  | .nil => [[]]
  | .op operation rest =>
      match operation.barrier? with
      | some _ => [] :: rest.segments
      | none => rest.segments.modifyHead (operation :: ·)
  | .loop _ rest => [] :: rest.segments

/-- What a block does on its own level: its barriers, and the sweeps around them. -/
def summary (block : Block) : List Barrier × List Sweep :=
  (block.barriers, block.segments.map Sweep.ofRun)

/-- The loops of a tree and how they are nested, with nothing else. -/
def skeleton : Block → Block
  | .nil => .nil
  | .op _ rest => rest.skeleton
  | .loop body rest => .loop body.skeleton rest.skeleton

theorem depth_skeleton (block : Block) : block.skeleton.depth = block.depth := by
  induction block with
  | nil => rfl
  | op operation rest ih => rw [skeleton, ih, depth_op]
  | loop body rest ihBody ihRest => rw [skeleton, depth_loop, ihBody, ihRest, depth_loop]

theorem loopCount_skeleton (block : Block) : block.skeleton.loopCount = block.loopCount := by
  induction block with
  | nil => rfl
  | op operation rest ih => rw [skeleton, ih, loopCount_op]
  | loop body rest ihBody ihRest =>
      rw [skeleton, loopCount_loop, ihBody, ihRest, loopCount_loop]

section Summary

variable {operation : Op} (rest : Block)

theorem summary_op_none (hrun : operation.barrier? = none) :
    (op operation rest).summary =
      rest.summary.map id (List.modifyHead (Sweep.before operation)) := by
  simp only [summary, barriers, segments, hrun, Prod.map, id, Option.toList_none, List.nil_append]
  cases rest.segments <;> rfl

theorem summary_op_some {barrier : Barrier} (hbarrier : operation.barrier? = some barrier) :
    (op operation rest).summary =
      rest.summary.map (barrier :: ·) (Sweep.still :: ·) := by
  simp only [summary, barriers, segments, hbarrier]
  rfl

theorem summary_loop (body : Block) :
    (loop body rest).summary = rest.summary.map (.loop :: ·) (Sweep.still :: ·) := rfl

end Summary

namespace Simplifies

variable {block image : Block}

theorem summary_eq (hsimplifies : Simplifies block image) : image.summary = block.summary := by
  induction hsimplifies with
  | refl block => rfl
  | trans _ _ ihFirst ihSecond => exact ihSecond.trans ihFirst
  | @op operation rest rest' _ ih =>
      cases hbarrier : operation.barrier? with
      | none => rw [summary_op_none rest' hbarrier, ih, summary_op_none rest hbarrier]
      | some barrier => rw [summary_op_some rest' hbarrier, ih, summary_op_some rest hbarrier]
  | loop _ _ _ ihRest => rw [summary_loop, ihRest, summary_loop]
  | @drop operation hidle rest =>
      have hnothing : Sweep.before operation = id := funext (Sweep.before_of_isIdle hidle)
      rw [summary_op_none rest (Op.barrier?_of_isIdle hidle), hnothing, List.modifyHead_id]
      rfl
  | @merge first second merged hmerge rest =>
      have hsame : Sweep.before merged = Sweep.before first ∘ Sweep.before second :=
        funext fun sweep => (Sweep.before_before_of_merge? hmerge sweep).symm
      obtain ⟨hfirst, hsecond, hmerged⟩ := Op.barrier?_of_merge? hmerge
      rw [summary_op_none _ hfirst, summary_op_none _ hsecond, summary_op_none _ hmerged, hsame]
      simp only [Prod.map, id, List.modifyHead_modifyHead]

theorem map_summary_bodies (hsimplifies : Simplifies block image) :
    image.bodies.map summary = block.bodies.map summary := by
  induction hsimplifies with
  | refl block => rfl
  | trans _ _ ihFirst ihSecond => exact ihSecond.trans ihFirst
  | op operation _ ih => simpa only [bodies_op] using ih
  | loop hbody _ ihBody ihRest =>
      simp only [bodies_loop, List.map_cons, List.map_append, hbody.summary_eq, ihBody, ihRest]
  | drop _ rest => rw [bodies_op]
  | merge _ rest => simp only [bodies_op]

theorem skeleton_eq (hsimplifies : Simplifies block image) :
    image.skeleton = block.skeleton := by
  induction hsimplifies with
  | refl block => rfl
  | trans _ _ ihFirst ihSecond => exact ihSecond.trans ihFirst
  | op operation _ ih => exact ih
  | loop _ _ ihBody ihRest => rw [skeleton, ihBody, ihRest, skeleton]
  | drop _ rest => rfl
  | merge _ rest => rfl

end Simplifies

/-- Folding keeps the loops of a tree, and in each of its blocks the barriers in their order and the
sweep of every run between them: the exact distance that the pointer goes, and modulo `2 ^ 64` the
sum of the additions at every offset. There are never more operations than before, and if there are
as many, then nothing has changed. -/
theorem foldRuns_keeps_sweeps (block : Block) :
    block.foldRuns.skeleton = block.skeleton ∧
      block.foldRuns.levels.map summary = block.levels.map summary ∧
      block.foldRuns.depth = block.depth ∧
      block.foldRuns.loopCount = block.loopCount ∧
      block.foldRuns.opCount ≤ block.opCount ∧
      (block.foldRuns.opCount = block.opCount ↔ block.foldRuns = block) := by
  have hsimplifies := block.simplifies_foldRuns
  have hskeleton := hsimplifies.skeleton_eq
  refine ⟨hskeleton, ?_, ?_, ?_, hsimplifies.opCount_le, ?_⟩
  · rw [levels, levels, List.map_cons, List.map_cons, hsimplifies.summary_eq,
      hsimplifies.map_summary_bodies]
  · rw [← depth_skeleton, hskeleton, depth_skeleton]
  · rw [← loopCount_skeleton, hskeleton, loopCount_skeleton]
  · exact ⟨hsimplifies.eq_of_opCount_eq, congrArg opCount⟩

end Block

end Brainfuck
