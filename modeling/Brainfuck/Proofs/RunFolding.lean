import Brainfuck.Proofs.Execution
import Brainfuck.Proofs.Simplification

/-! Run folding keeps the meaning of a tree.

A block refines another if it ends on the same tapes, writes the same bytes and touches no cell that
the other leaves alone. Refinement passes through every context, so it is enough to look at the
operations that are merged or dropped. -/

namespace Brainfuck

namespace Op

variable {A : Type} [DecidableEq A] [AddAction ℤ A]

theorem cell_add (left right : Int64) : cell (left + right) = cell left + cell right := by
  simp [cell]

theorem toInt_of_sum? {left right total : Int64} (hsum : sum? left right = some total) :
    total.toInt = left.toInt + right.toInt := by
  simp only [sum?] at hsum
  split at hsum
  · next hrange =>
      cases hsum
      exact Int64.toInt_ofInt_of_le hrange.1 (Int.lt_add_one_of_le hrange.2)
  · contradiction

theorem apply_apply_of_merge? {first second merged : Op}
    (hmerge : first.merge? second = some merged) (tape : Tape A) :
    second.apply (first.apply tape) = merged.apply tape := by
  cases first with
  | add left =>
      cases second <;> cases hmerge
      simp only [apply, Tape.cell_write, Tape.write_write, ← cell_eq_ofInt, cell_add]
      rw [UInt8.add_assoc]
  | move left =>
      cases second with
      | move right =>
          obtain ⟨total, hsum, rfl⟩ := Option.map_eq_some_iff.mp hmerge
          simp only [apply, Tape.move_move, toInt_of_sum? hsum]
      | _ => cases hmerge
  | _ => cases hmerge

theorem output_of_merge? {first second merged : Op}
    (hmerge : first.merge? second = some merged) (tape : Tape A) :
    (first.apply tape).output = tape.output := by
  cases first with
  | add left => rfl
  | move left => rfl
  | _ => cases hmerge

omit [DecidableEq A] [AddAction ℤ A] in
theorem touches_of_merge? {first second merged : Op}
    (hmerge : first.merge? second = some merged) (tape : Tape A) :
    merged.touches tape = first.touches tape := by
  cases first with
  | add left =>
      cases second <;> cases hmerge
      rfl
  | move left =>
      cases second with
      | move right =>
          obtain ⟨total, -, rfl⟩ := Option.map_eq_some_iff.mp hmerge
          rfl
      | _ => cases hmerge
  | _ => cases hmerge

theorem apply_of_isIdle {operation : Op} (hidle : operation.isIdle = true) (tape : Tape A) :
    operation.apply tape = tape := by
  cases operation with
  | add delta =>
      cases eq_of_beq hidle
      change tape.write (tape.cell + 0) = tape
      rw [UInt8.add_zero, Tape.write_cell]
  | move delta =>
      cases eq_of_beq hidle
      exact tape.move_zero
  | _ => cases hidle

end Op

namespace Block

variable {A : Type} [DecidableEq A] [AddAction ℤ A]

/-- An execution comes to a point with a property: of the tape there, and of whether the cell at
the pointer is touched next. -/
def Meets (property : Bool → Tape A → Prop) (block : Block) (tape : Tape A) : Prop :=
  ∃ current now, Visits block tape current now ∧ property (current.touches now) now

def Writes (block : Block) (tape : Tape A) (index : Nat) (byte : UInt8) : Prop :=
  block.Meets (fun _ now => now.output[index]? = some byte) tape

def Accesses (block : Block) (tape : Tape A) (address : A) : Prop :=
  block.Meets (fun touched now => touched = true ∧ now.pointer = address) tape

section Meets

variable {property : Bool → Tape A → Prop} {tape : Tape A}

theorem Meets.here {block : Block} (hhere : property (block.touches tape) tape) :
    block.Meets property tape :=
  ⟨block, tape, .here, hhere⟩

theorem meets_op {operation : Op} {rest : Block} :
    (op operation rest).Meets property tape ↔
      property (operation.touches tape) tape ∨ rest.Meets property (operation.apply tape) := by
  constructor
  · rintro ⟨current, now, hvisits, hproperty⟩
    cases hvisits with
    | here => exact .inl hproperty
    | op hrest => exact .inr ⟨current, now, hrest, hproperty⟩
  · rintro (hhere | ⟨current, now, hrest, hproperty⟩)
    · exact .here hhere
    · exact ⟨current, now, .op hrest, hproperty⟩

theorem Meets.loop_mono {body body' rest rest' : Block}
    (hruns : ∀ {tape final : Tape A}, Runs body tape final → Runs body' tape final)
    (hbody : ∀ {tape : Tape A}, body.Meets property tape → body'.Meets property tape)
    (hrest : ∀ {tape : Tape A}, rest.Meets property tape → rest'.Meets property tape)
    (hmeets : (loop body rest).Meets property tape) :
    (loop body' rest').Meets property tape := by
  obtain ⟨current, now, hvisits, hproperty⟩ := hmeets
  generalize hblock : loop body rest = block at hvisits
  induction hvisits with
  | here =>
      cases hblock
      exact .here hproperty
  | op _ _ => cases hblock
  | skip hcell hvisits _ =>
      cases hblock
      obtain ⟨current', now', hvisits', hproperty'⟩ := hrest ⟨_, _, hvisits, hproperty⟩
      exact ⟨current', now', .skip hcell hvisits', hproperty'⟩
  | inside hcell hvisits _ =>
      cases hblock
      obtain ⟨current', now', hvisits', hproperty'⟩ := hbody ⟨_, _, hvisits, hproperty⟩
      exact ⟨current', now', .inside hcell hvisits', hproperty'⟩
  | again hcell hfirst _ ih =>
      cases hblock
      obtain ⟨current', now', hvisits', hproperty'⟩ := ih hproperty rfl
      exact ⟨current', now', .again hcell (hruns hfirst) hvisits', hproperty'⟩

theorem writes_op {operation : Op} {rest : Block} {index : Nat} {byte : UInt8} :
    (op operation rest).Writes tape index byte ↔
      tape.output[index]? = some byte ∨ rest.Writes (operation.apply tape) index byte :=
  meets_op

theorem Writes.of_output {block : Block} {index : Nat} {byte : UInt8}
    (hbyte : tape.output[index]? = some byte) : block.Writes tape index byte :=
  Meets.here hbyte

end Meets

theorem runs_op {operation : Op} {rest : Block} {tape final : Tape A} :
    Runs (op operation rest) tape final ↔ Runs rest (operation.apply tape) final := by
  constructor
  · intro hruns
    cases hruns with
    | op hrest => exact hrest
  · exact .op

theorem Runs.loop_mono {body body' rest rest' : Block} {tape final : Tape A}
    (hbody : ∀ {tape final : Tape A}, Runs body tape final → Runs body' tape final)
    (hrest : ∀ {tape final : Tape A}, Runs rest tape final → Runs rest' tape final)
    (hruns : Runs (loop body rest) tape final) : Runs (loop body' rest') tape final := by
  generalize hblock : loop body rest = block at hruns
  induction hruns with
  | nil => cases hblock
  | op _ _ => cases hblock
  | skip hcell hlast _ =>
      cases hblock
      exact .skip hcell (hrest hlast)
  | again hcell hfirst _ _ ih =>
      cases hblock
      exact .again hcell (hbody hfirst) (ih rfl)

theorem emits_iff_writes {block : Block} {tape : Tape A} {index : Nat} {byte : UInt8} :
    process.Emits (block.start tape) index byte ↔ block.Writes tape index byte := by
  constructor
  · rintro ⟨⟨current, pending, now⟩, hreaches, hbyte⟩
    exact ⟨current, now, reaches_iff_visits.mp ⟨pending, hreaches⟩, hbyte⟩
  · rintro ⟨current, now, hvisits, hbyte⟩
    obtain ⟨pending, hreaches⟩ := reaches_iff_visits.mpr hvisits
    exact ⟨⟨current, pending, now⟩, hreaches, hbyte⟩

/-- `image` does what `block` does, and touches no other cells. -/
structure Refines (A : Type) [DecidableEq A] [AddAction ℤ A] (block image : Block) : Prop where
  runs : ∀ {tape final : Tape A}, Runs block tape final ↔ Runs image tape final
  writes : ∀ {tape : Tape A} {index byte},
    block.Writes tape index byte ↔ image.Writes tape index byte
  accesses : ∀ {tape : Tape A} {address},
    image.Accesses tape address → block.Accesses tape address

namespace Refines

theorem refl (block : Block) : Refines A block block :=
  ⟨Iff.rfl, Iff.rfl, id⟩

theorem trans {first second third : Block} (hfirst : Refines A first second)
    (hsecond : Refines A second third) : Refines A first third where
  runs := hfirst.runs.trans hsecond.runs
  writes := hfirst.writes.trans hsecond.writes
  accesses := fun haccesses => hfirst.accesses (hsecond.accesses haccesses)

theorem op {rest rest' : Block} (hrest : Refines A rest rest') (operation : Op) :
    Refines A (.op operation rest) (.op operation rest') where
  runs := by
    intro tape final
    rw [runs_op, runs_op, hrest.runs]
  writes := by
    intro tape index byte
    rw [writes_op, writes_op, hrest.writes]
  accesses := fun haccesses => meets_op.mpr ((meets_op.mp haccesses).imp_right hrest.accesses)

theorem loop {body body' rest rest' : Block} (hbody : Refines A body body')
    (hrest : Refines A rest rest') : Refines A (.loop body rest) (.loop body' rest') where
  runs := ⟨Runs.loop_mono hbody.runs.mp hrest.runs.mp,
    Runs.loop_mono hbody.runs.mpr hrest.runs.mpr⟩
  writes := ⟨Meets.loop_mono hbody.runs.mp hbody.writes.mp hrest.writes.mp,
    Meets.loop_mono hbody.runs.mpr hbody.writes.mpr hrest.writes.mpr⟩
  accesses := Meets.loop_mono hbody.runs.mpr hbody.accesses hrest.accesses

theorem drop {operation : Op} (hidle : operation.isIdle = true) (rest : Block) :
    Refines A (.op operation rest) rest where
  runs := by
    intro tape final
    rw [runs_op, Op.apply_of_isIdle hidle]
  writes := by
    intro tape index byte
    rw [writes_op, Op.apply_of_isIdle hidle]
    exact or_iff_right_of_imp .of_output
  accesses := by
    intro tape address haccesses
    refine meets_op.mpr (.inr ?_)
    rwa [Op.apply_of_isIdle hidle]

theorem merge {first second merged : Op} (hmerge : first.merge? second = some merged)
    (rest : Block) : Refines A (.op first (.op second rest)) (.op merged rest) where
  runs := by
    intro tape final
    rw [runs_op, runs_op, runs_op, Op.apply_apply_of_merge? hmerge]
  writes := by
    intro tape index byte
    rw [writes_op, writes_op, writes_op, Op.apply_apply_of_merge? hmerge,
      Op.output_of_merge? hmerge, ← or_assoc, or_self]
  accesses := by
    intro tape address haccesses
    rcases meets_op.mp haccesses with hhere | hrest
    · rw [Op.touches_of_merge? hmerge] at hhere
      exact meets_op.mpr (.inl hhere)
    · rw [← Op.apply_apply_of_merge? hmerge] at hrest
      exact meets_op.mpr (.inr (meets_op.mpr (.inr hrest)))

theorem agrees {block image : Block} (hrefines : Refines A block image) (tape : Tape A) :
    process.Agrees process Eq (block.start tape) (image.start tape) where
  ends := by
    intro final hends
    rw [ends_iff_runs, hrefines.runs, ← ends_iff_runs] at hends
    exact ⟨final, hends, rfl⟩
  ends_back := by
    intro final hends
    rw [ends_iff_runs, ← hrefines.runs, ← ends_iff_runs] at hends
    exact ⟨final, hends, rfl⟩
  emits := by
    intro index byte
    rw [emits_iff_writes, emits_iff_writes, hrefines.writes]

theorem within {block image : Block} (hrefines : Refines A block image) {tape : Tape A}
    {allowed : A → Prop}
    (hwithin : process.Always (Config.Within allowed) (block.start tape)) :
    process.Always (Config.Within allowed) (image.start tape) := by
  intro config hreaches htouches
  obtain ⟨current, pending, now⟩ := config
  have hvisits := reaches_iff_visits.mp ⟨pending, hreaches⟩
  obtain ⟨current', now', hvisits', htouches', hpointer⟩ :=
    hrefines.accesses ⟨current, now, hvisits, htouches, rfl⟩
  obtain ⟨pending', hreaches'⟩ := reaches_iff_visits.mpr hvisits'
  have hallowed : allowed now'.pointer := hwithin _ hreaches' htouches'
  exact hpointer ▸ hallowed

end Refines

theorem Simplifies.refines {block image : Block} (hsimplifies : Simplifies block image) :
    Refines A block image := by
  induction hsimplifies with
  | refl block => exact .refl block
  | trans _ _ ihFirst ihSecond => exact ihFirst.trans ihSecond
  | op operation _ ih => exact ih.op operation
  | loop _ _ ihBody ihRest => exact ihBody.loop ihRest
  | drop hidle rest => exact .drop hidle rest
  | merge hmerge rest => exact .merge hmerge rest

theorem refines_foldRuns (block : Block) : Refines A block block.foldRuns :=
  block.simplifies_foldRuns.refines

/-- Folding the runs of a tree changes nothing that can be seen of its execution: neither the final
tape, pointer, output and remaining input, nor the bytes that an endless run writes. -/
theorem foldRuns_agrees (block : Block) (tape : Tape ℤ) :
    process.Agrees process Eq (block.start tape) (block.foldRuns.start tape) :=
  (refines_foldRuns block).agrees tape

end Block

end Brainfuck
