import Mathlib.Data.Int.Basic
import Mathlib.Data.List.Induction
import Mathlib.Logic.Relation
import Brainfuck.Proofs.Flattening

/-! Sequences of commands up to cancelling pairs.

`+-`, `-+`, `<>` and `><` may be put in and taken out anywhere. To decide whether this leads from
one sequence to another, each is read into syllables: a run of additions or of moves is one
syllable with an exact distance, and runs that come to nothing vanish. The syllables of a sequence
are a normal form for it (`form_eq_iff`). -/

namespace Brainfuck

namespace Command

def cancels : Command → Command → Bool
  | .increment, .decrement => true
  | .decrement, .increment => true
  | .right, .left => true
  | .left, .right => true
  | _, _ => false

/-- A cancelling pair is taken out. -/
inductive Deletion : List Command → List Command → Prop
  | pair (front back : List Command) {first second : Command}
      (hcancels : first.cancels second = true) :
      Deletion (front ++ first :: second :: back) (front ++ back)

/-- One sequence is turned into the other by taking cancelling pairs out and putting them in. -/
def Interchangeable : List Command → List Command → Prop :=
  Relation.ReflTransGen fun now next => Deletion now next ∨ Deletion next now

theorem Deletion.append {commands others : List Command} (hdeletion : Deletion commands others)
    (front back : List Command) :
    Deletion (front ++ commands ++ back) (front ++ others ++ back) := by
  cases hdeletion with
  | pair early late hcancels =>
      have hpair := Deletion.pair (front ++ early) (late ++ back) hcancels
      simpa using hpair

namespace Interchangeable

variable {commands others third : List Command}

theorem refl (commands : List Command) : Interchangeable commands commands :=
  Relation.ReflTransGen.refl

theorem trans (hfirst : Interchangeable commands others)
    (hsecond : Interchangeable others third) : Interchangeable commands third :=
  Relation.ReflTransGen.trans hfirst hsecond

theorem of_deletion (hdeletion : Deletion commands others) : Interchangeable commands others :=
  Relation.ReflTransGen.single (.inl hdeletion)

theorem symm (hsame : Interchangeable commands others) : Interchangeable others commands := by
  induction hsame with
  | refl => exact .refl _
  | tail _ hstep ih => exact ih.head hstep.symm

theorem append (hsame : Interchangeable commands others) (front back : List Command) :
    Interchangeable (front ++ commands ++ back) (front ++ others ++ back) := by
  induction hsame with
  | refl => exact .refl _
  | tail _ hstep ih =>
      refine ih.tail ?_
      rcases hstep with hdeletion | hinsertion
      · exact .inl (hdeletion.append front back)
      · exact .inr (hinsertion.append front back)

/-- A step that undoes the last one of a run. -/
theorem replicate {first second : Command} (hcancels : first.cancels second = true)
    (count : Nat) :
    Interchangeable (List.replicate (count + 1) first ++ [second]) (List.replicate count first) := by
  have hpair := Deletion.pair (List.replicate count first) [] hcancels
  rw [List.append_nil] at hpair
  rw [List.replicate_succ', List.append_assoc]
  exact .of_deletion hpair

end Interchangeable

end Command

/-- What a run changes: the cell, or the pointer. -/
inductive Axis where
  | cell
  | pointer
deriving DecidableEq

namespace Axis

def forward : Axis → Command
  | .cell => .increment
  | .pointer => .right

def backward : Axis → Command
  | .cell => .decrement
  | .pointer => .left

/-- The shortest run of commands over a distance. -/
def run (axis : Axis) (distance : ℤ) : List Command :=
  List.replicate distance.toNat axis.forward ++ List.replicate (-distance).toNat axis.backward

@[simp] theorem run_natCast (axis : Axis) (count : Nat) :
    axis.run count = List.replicate count axis.forward := by
  simp [run]

@[simp] theorem run_neg_natCast (axis : Axis) (count : Nat) :
    axis.run (-count) = List.replicate count axis.backward := by
  simp [run]

@[simp] theorem run_zero (axis : Axis) : axis.run 0 = [] := rfl

theorem cancels_forward (axis : Axis) : axis.backward.cancels axis.forward = true := by
  cases axis <;> rfl

theorem cancels_backward (axis : Axis) : axis.forward.cancels axis.backward = true := by
  cases axis <;> rfl

theorem run_forward (axis : Axis) (distance : ℤ) :
    Command.Interchangeable (axis.run distance ++ [axis.forward]) (axis.run (distance + 1)) := by
  obtain ⟨count, rfl | rfl⟩ := Int.eq_nat_or_neg distance
  · have hlonger : (count : ℤ) + 1 = (count + 1 : Nat) := by omega
    rw [hlonger, run_natCast, run_natCast, List.replicate_succ']
    exact .refl _
  · cases count with
    | zero => exact .refl _
    | succ count =>
        have hshorter : -((count + 1 : Nat) : ℤ) + 1 = -count := by omega
        rw [hshorter, run_neg_natCast, run_neg_natCast]
        exact .replicate axis.cancels_forward count

theorem run_backward (axis : Axis) (distance : ℤ) :
    Command.Interchangeable (axis.run distance ++ [axis.backward])
      (axis.run (distance + -1)) := by
  obtain ⟨count, rfl | rfl⟩ := Int.eq_nat_or_neg distance
  · cases count with
    | zero => exact .refl _
    | succ count =>
        have hshorter : ((count + 1 : Nat) : ℤ) + -1 = count := by omega
        rw [hshorter, run_natCast, run_natCast]
        exact .replicate axis.cancels_backward count
  · have hlonger : -(count : ℤ) + -1 = -(count + 1 : Nat) := by omega
    rw [hlonger, run_neg_natCast, run_neg_natCast, List.replicate_succ']
    exact .refl _

end Axis

/-! Syllables. Like the instructions of a run that is being folded, they stand in reverse order. -/

inductive Syllable where
  | shift (axis : Axis) (distance : ℤ)
  | other (word : Word)
deriving DecidableEq

def Word.syllable : Word → Syllable
  | .op (.add delta) => .shift .cell delta.toInt
  | .op (.move delta) => .shift .pointer delta.toInt
  | word => .other word

def Word.command? : Word → Option Command
  | .op operation => operation.command?
  | .enter => some .loopStart
  | .leave => some .loopEnd

namespace Syllable

def keep (axis : Axis) (distance : ℤ) (done : List Syllable) : List Syllable :=
  if distance = 0 then done else .shift axis distance :: done

def absorb (done : List Syllable) : Syllable → List Syllable
  | .shift axis distance =>
      match done with
      | .shift last before :: earlier =>
          if last = axis then keep axis (before + distance) earlier else keep axis distance done
      | _ => keep axis distance done
  | .other word => .other word :: done

/-- The syllables of a sequence. -/
def form (commands : List Command) : List Syllable :=
  commands.foldl (fun done command => absorb done command.word.syllable) []

def StartsOn (axis : Axis) (done : List Syllable) : Prop :=
  ∃ distance earlier, done = .shift axis distance :: earlier

/-- No shift comes to nothing, and neighbouring shifts are on different axes. -/
inductive Tidy : List Syllable → Prop
  | nil : Tidy []
  | shift {axis : Axis} {distance : ℤ} {done : List Syllable} (hdone : Tidy done)
      (hdistance : distance ≠ 0) (hapart : ¬ StartsOn axis done) :
      Tidy (.shift axis distance :: done)
  | other {word : Word} {done : List Syllable} (hdone : Tidy done) : Tidy (.other word :: done)

section Absorb

variable {axis : Axis} {distance : ℤ} {done earlier : List Syllable}

theorem absorb_same (before : ℤ) :
    absorb (.shift axis before :: earlier) (.shift axis distance) =
      keep axis (before + distance) earlier :=
  if_pos rfl

theorem absorb_apart (hapart : ¬ StartsOn axis done) :
    absorb done (.shift axis distance) = keep axis distance done := by
  cases done with
  | nil => rfl
  | cons last earlier =>
      cases last with
      | other word => rfl
      | shift last before =>
          refine if_neg fun hsame => hapart ⟨before, earlier, ?_⟩
          rw [hsame]

theorem absorb_keep (hapart : ¬ StartsOn axis done) (before : ℤ) :
    absorb (keep axis before done) (.shift axis distance) = keep axis (before + distance) done := by
  by_cases hbefore : before = 0
  · rw [hbefore, keep, if_pos rfl, zero_add, absorb_apart hapart]
  · rw [keep, if_neg hbefore, absorb_same]

theorem tidy_keep (hdone : Tidy done) (hapart : ¬ StartsOn axis done) (distance : ℤ) :
    Tidy (keep axis distance done) := by
  by_cases hdistance : distance = 0
  · rwa [keep, if_pos hdistance]
  · rw [keep, if_neg hdistance]
    exact .shift hdone hdistance hapart

theorem Tidy.absorb (hdone : Tidy done) (syllable : Syllable) :
    Tidy (Syllable.absorb done syllable) := by
  cases syllable with
  | other word => exact .other hdone
  | shift axis distance =>
      by_cases hstarts : StartsOn axis done
      · obtain ⟨before, earlier, rfl⟩ := hstarts
        cases hdone with
        | shift hearlier _ hapart =>
            rw [absorb_same]
            exact tidy_keep hearlier hapart _
      · rw [absorb_apart hstarts]
        exact tidy_keep hdone hstarts _

/-- Two shifts on one axis, one after the other, are one shift. -/
theorem Tidy.absorb_absorb (hdone : Tidy done) (axis : Axis) (first second : ℤ) :
    Syllable.absorb (Syllable.absorb done (.shift axis first)) (.shift axis second) =
      Syllable.absorb done (.shift axis (first + second)) := by
  by_cases hstarts : StartsOn axis done
  · obtain ⟨before, earlier, rfl⟩ := hstarts
    cases hdone with
    | shift _ _ hapart => rw [absorb_same, absorb_keep hapart, absorb_same, add_assoc]
  · rw [absorb_apart hstarts, absorb_keep hstarts, absorb_apart hstarts]

theorem Tidy.absorb_zero (hdone : Tidy done) (axis : Axis) :
    Syllable.absorb done (.shift axis 0) = done := by
  by_cases hstarts : StartsOn axis done
  · obtain ⟨before, earlier, rfl⟩ := hstarts
    cases hdone with
    | shift _ hbefore _ => rw [absorb_same, add_zero, keep, if_neg hbefore]
  · rw [absorb_apart hstarts, keep, if_pos rfl]

end Absorb

theorem tidy_foldl {done : List Syllable} (hdone : Tidy done) (commands : List Command) :
    Tidy (commands.foldl (fun done command => absorb done command.word.syllable) done) := by
  induction commands generalizing done with
  | nil => exact hdone
  | cons command rest ih => exact ih (hdone.absorb _)

theorem form_concat (commands : List Command) (command : Command) :
    form (commands ++ [command]) = absorb (form commands) command.word.syllable := by
  rw [form, List.foldl_append]
  rfl

theorem exists_shift_of_cancels {first second : Command} (hcancels : first.cancels second = true) :
    ∃ axis distance, first.word.syllable = .shift axis distance ∧
      second.word.syllable = .shift axis (-distance) := by
  cases first <;> cases second <;> first | exact ⟨_, _, rfl, rfl⟩ | cases hcancels

theorem form_eq_of_deletion {commands others : List Command}
    (hdeletion : Command.Deletion commands others) : form commands = form others := by
  cases hdeletion with
  | pair front back hcancels =>
      obtain ⟨axis, distance, hfirst, hsecond⟩ := exists_shift_of_cancels hcancels
      have htidy : Tidy (form front) := tidy_foldl .nil front
      unfold form at htidy ⊢
      rw [List.foldl_append, List.foldl_append, List.foldl_cons, List.foldl_cons, hfirst, hsecond,
        htidy.absorb_absorb, add_neg_cancel, htidy.absorb_zero]

theorem form_eq_of_interchangeable {commands others : List Command}
    (hsame : Command.Interchangeable commands others) : form commands = form others := by
  induction hsame with
  | refl => rfl
  | tail _ hstep ih =>
      rcases hstep with hdeletion | hinsertion
      · exact ih.trans (form_eq_of_deletion hdeletion)
      · exact ih.trans (form_eq_of_deletion hinsertion).symm

/-! Syllables written out as commands again. -/

def commands : Syllable → List Command
  | .shift axis distance => axis.run distance
  | .other word => word.command?.toList

def spell (done : List Syllable) : List Command :=
  done.reverse.flatMap commands

@[simp] theorem spell_cons (syllable : Syllable) (done : List Syllable) :
    spell (syllable :: done) = spell done ++ syllable.commands := by
  simp [spell]

theorem spell_keep (axis : Axis) (distance : ℤ) (done : List Syllable) :
    spell (keep axis distance done) = spell done ++ axis.run distance := by
  by_cases hdistance : distance = 0
  · rw [keep, if_pos hdistance, hdistance, Axis.run_zero, List.append_nil]
  · rw [keep, if_neg hdistance, spell_cons, commands]

/-- A command either makes one step on an axis or stands for itself. -/
theorem command_cases (command : Command) :
    (∃ axis, command = Axis.forward axis ∧ command.word.syllable = .shift axis 1) ∨
    (∃ axis, command = Axis.backward axis ∧ command.word.syllable = .shift axis (-1)) ∨
    ∃ word, command.word.syllable = .other word ∧ word.command? = some command := by
  cases command with
  | increment => exact .inl ⟨.cell, rfl, rfl⟩
  | right => exact .inl ⟨.pointer, rfl, rfl⟩
  | decrement => exact .inr (.inl ⟨.cell, rfl, rfl⟩)
  | left => exact .inr (.inl ⟨.pointer, rfl, rfl⟩)
  | _ => exact .inr (.inr ⟨_, rfl, rfl⟩)

theorem spell_absorb_shift (done : List Syllable) {axis : Axis} {command : Command} {step : ℤ}
    (hstep : ∀ distance, Command.Interchangeable (axis.run distance ++ [command])
      (axis.run (distance + step))) :
    Command.Interchangeable (spell done ++ [command])
      (spell (absorb done (.shift axis step))) := by
  by_cases hstarts : StartsOn axis done
  · obtain ⟨before, earlier, rfl⟩ := hstarts
    have hlast := (hstep before).append (spell earlier) []
    rw [absorb_same, spell_keep, spell_cons, commands]
    simpa using hlast
  · have hlast := (hstep 0).append (spell done) []
    rw [absorb_apart hstarts, spell_keep]
    simpa using hlast

theorem spell_absorb (done : List Syllable) (command : Command) :
    Command.Interchangeable (spell done ++ [command])
      (spell (absorb done command.word.syllable)) := by
  rcases command_cases command with ⟨axis, rfl, hsyllable⟩ | ⟨axis, rfl, hsyllable⟩ |
    ⟨word, hsyllable, hcommand⟩
  · rw [hsyllable]
    exact spell_absorb_shift done axis.run_forward
  · rw [hsyllable]
    exact spell_absorb_shift done axis.run_backward
  · rw [hsyllable, absorb, spell_cons, commands, hcommand]
    exact .refl _

theorem interchangeable_spell_form (commands : List Command) :
    Command.Interchangeable commands (spell (form commands)) := by
  induction commands using List.reverseRecOn with
  | nil => exact .refl _
  | append_singleton front command ih =>
      rw [form_concat]
      have hfront := ih.append [] [command]
      exact hfront.trans (spell_absorb (form front) command)

/-- Two sequences have the same syllables if and only if cancelling pairs make the difference. -/
theorem form_eq_iff {commands others : List Command} :
    form commands = form others ↔ Command.Interchangeable commands others := by
  constructor
  · intro hform
    have hothers := (interchangeable_spell_form others).symm
    rw [← hform] at hothers
    exact (interchangeable_spell_form commands).trans hothers
  · exact form_eq_of_interchangeable

end Syllable

end Brainfuck
