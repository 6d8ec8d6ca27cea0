import Mathlib.Algebra.Group.Nat.Defs
import Brainfuck.Proofs.Cancellation
import Brainfuck.Proofs.RunFolding

/-! Folded trees as canonical forms.

On the linear form, run folding is one pass that looks back at a single word and takes no notice of
the nesting. As long as no sum leaves the 64-bit range, the pass computes the syllables of the
commands, and so two trees fold to the same tree exactly if their commands are interchangeable. -/

namespace Brainfuck

/-! Folding on the linear form. The words in `done` stand in reverse order. -/

namespace Word

def keep (operation : Op) (done : List Word) : List Word :=
  if operation.isIdle then done else .op operation :: done

def absorb (done : List Word) : Word → List Word
  | .op operation =>
      match done with
      | .op last :: earlier =>
          match last.merge? operation with
          | some merged => keep merged earlier
          | none => keep operation done
      | _ => keep operation done
  | word => word :: done

theorem absorb_merge {last operation merged : Op} {earlier : List Word}
    (hmerge : last.merge? operation = some merged) :
    absorb (.op last :: earlier) (.op operation) = keep merged earlier := by
  simp only [absorb, hmerge]

theorem absorb_apart {operation : Op} {done : List Word}
    (hapart : ∀ last earlier, done = .op last :: earlier → last.merge? operation = none) :
    absorb done (.op operation) = keep operation done := by
  cases done with
  | nil => rfl
  | cons word earlier =>
      cases word with
      | op last => simp only [absorb, hapart last earlier rfl]
      | enter => rfl
      | leave => rfl

end Word

namespace Block

/-- The words of a block whose instructions stand in reverse order, last word first. -/
def backward (done : Block) : List Word :=
  done.reverse.words.reverse

@[simp] theorem backward_nil : backward nil = [] := by
  simp [backward]

@[simp] theorem backward_op (operation : Op) (done : Block) :
    (op operation done).backward = .op operation :: done.backward := by
  simp [backward, words_append]

@[simp] theorem backward_loop (body done : Block) :
    (loop body done).backward = .leave :: (body.words.reverse ++ .enter :: done.backward) := by
  simp [backward, words_append]

theorem backward_keep (operation : Op) (done : Block) (outer : List Word) :
    (keep operation done).backward ++ outer = Word.keep operation (done.backward ++ outer) := by
  unfold keep Word.keep
  split <;> simp

theorem backward_absorb (done : Block) (operation : Op) {outer : List Word}
    (houter : ∀ last earlier, outer ≠ .op last :: earlier) :
    (absorb done operation).backward ++ outer =
      Word.absorb (done.backward ++ outer) (.op operation) := by
  cases done with
  | nil =>
      change (keep operation .nil).backward ++ outer = _
      rw [backward_keep, backward_nil, List.nil_append, Word.absorb_apart]
      exact fun last earlier heq => absurd heq (houter last earlier)
  | op last earlier =>
      rw [backward_op, List.cons_append]
      cases hmerge : last.merge? operation with
      | some merged =>
          simp only [absorb, hmerge]
          rw [Word.absorb_merge hmerge, backward_keep]
      | none =>
          simp only [absorb, hmerge]
          rw [backward_keep, backward_op, List.cons_append, Word.absorb_apart]
          rintro _ _ ⟨⟩
          exact hmerge
  | loop body earlier =>
      change (keep operation (.loop body earlier)).backward ++ outer = _
      rw [backward_keep, backward_loop, List.cons_append, Word.absorb_apart]
      rintro _ _ ⟨⟩

theorem backward_fold (block done : Block) {outer : List Word}
    (houter : ∀ last earlier, outer ≠ .op last :: earlier) :
    (block.fold foldingRuns done).backward ++ outer =
      block.words.foldl Word.absorb (done.backward ++ outer) := by
  induction block generalizing done outer with
  | nil => rw [fold, words_nil, List.foldl_nil]
  | op operation rest ih =>
      rw [fold, words_op, List.foldl_cons, ← backward_absorb done operation houter]
      exact ih (absorb done operation) houter
  | loop body rest ihBody ihRest =>
      have hinner : ∀ last earlier,
          Word.enter :: (done.backward ++ outer) ≠ .op last :: earlier := by
        rintro last earlier ⟨⟩
      have hbody := ihBody .nil hinner
      rw [backward_nil, List.nil_append] at hbody
      rw [fold, ihRest _ houter, words_loop, List.foldl_cons, List.foldl_append, List.foldl_cons]
      change rest.words.foldl Word.absorb
          ((loop (body.fold foldingRuns .nil).reverse done).backward ++ outer) =
        rest.words.foldl Word.absorb
          (.leave :: body.words.foldl Word.absorb (.enter :: (done.backward ++ outer)))
      rw [← hbody, backward_loop, ← backward, List.cons_append, List.append_assoc,
        List.cons_append]

theorem words_foldRuns (block : Block) :
    block.foldRuns.words = (block.words.foldl Word.absorb []).reverse := by
  have houter : ∀ last earlier, ([] : List Word) ≠ .op last :: earlier := by
    rintro last earlier ⟨⟩
  have hfold := backward_fold block .nil houter
  rw [List.append_nil, backward_nil, List.append_nil] at hfold
  rw [← hfold, backward, List.reverse_reverse, foldRuns, walk_eq_fold]

end Block

/-! Distances. None is longer than the sequence that it comes from. -/

namespace Syllable

def reach : Syllable → Nat
  | .shift _ distance => distance.natAbs
  | .other _ => 0

theorem reach_keep {axis : Axis} {distance : ℤ} {done : List Syllable} {limit : Nat}
    (hdone : ∀ syllable ∈ done, syllable.reach ≤ limit) (hdistance : distance.natAbs ≤ limit) :
    ∀ syllable ∈ keep axis distance done, syllable.reach ≤ limit := by
  unfold keep
  split
  · exact hdone
  · exact List.forall_mem_cons.mpr ⟨hdistance, hdone⟩

theorem reach_absorb {done : List Syllable} {limit : Nat}
    (hdone : ∀ syllable ∈ done, syllable.reach ≤ limit) (next : Syllable) :
    ∀ syllable ∈ absorb done next, syllable.reach ≤ limit + next.reach := by
  have hlater : ∀ syllable ∈ done, syllable.reach ≤ limit + next.reach :=
    fun syllable hmem => Nat.le_add_right_of_le (hdone syllable hmem)
  cases next with
  | other word => exact List.forall_mem_cons.mpr ⟨Nat.zero_le _, hlater⟩
  | shift axis distance =>
      by_cases hstarts : StartsOn axis done
      · obtain ⟨before, earlier, rfl⟩ := hstarts
        have hbefore : before.natAbs ≤ limit := hdone _ List.mem_cons_self
        rw [absorb_same]
        refine reach_keep (fun syllable hmem => hlater syllable (List.mem_cons_of_mem _ hmem)) ?_
        simp only [reach]
        omega
      · rw [absorb_apart hstarts]
        exact reach_keep hlater (Nat.le_add_left _ _)

theorem reach_command (command : Command) : command.word.syllable.reach ≤ 1 := by
  cases command <;> decide

theorem reach_form (commands : List Command) :
    ∀ syllable ∈ form commands, syllable.reach ≤ commands.length := by
  induction commands using List.reverseRecOn with
  | nil => exact List.forall_mem_nil _
  | append_singleton front command ih =>
      intro syllable hmem
      rw [form_concat] at hmem
      have hreach := reach_absorb ih _ syllable hmem
      have hone := reach_command command
      rw [List.length_append, List.length_singleton]
      omega

end Syllable

namespace Axis

def op : Axis → Int64 → Op
  | .cell => .add
  | .pointer => .move

theorem syllable_op (axis : Axis) (delta : Int64) :
    Word.syllable (.op (axis.op delta)) = .shift axis delta.toInt := by
  cases axis <;> rfl

theorem isIdle_op (axis : Axis) (delta : Int64) :
    (axis.op delta).isIdle = true ↔ delta.toInt = 0 := by
  have hzero : (delta == 0) = true ↔ delta.toInt = 0 := by
    rw [beq_iff_eq, ← Int64.toInt_inj, Int64.toInt_zero]
  cases axis <;> exact hzero

/-- In the 64-bit range, neighbours on one axis have an exact sum. -/
theorem exists_merge?_op (axis : Axis) {left right : Int64}
    (hrange : left.toInt.natAbs + right.toInt.natAbs < 2 ^ 63) :
    ∃ total : Int64, (axis.op left).merge? (axis.op right) = some (axis.op total) ∧
      total.toInt = left.toInt + right.toInt := by
  cases axis with
  | cell =>
      refine ⟨left + right, rfl, ?_⟩
      rw [Int64.toInt_add, Int.bmod_eq_of_le] <;> omega
  | pointer =>
      have hleast : Int64.minValue.toInt = -2 ^ 63 := by decide
      have hgreatest : Int64.maxValue.toInt = 2 ^ 63 - 1 := by decide
      have hsum : Op.sum? left right = some (.ofInt (left.toInt + right.toInt)) :=
        if_pos ⟨by omega, by omega⟩
      exact ⟨_, congrArg (Option.map Op.move) hsum, Op.toInt_of_sum? hsum⟩

theorem exists_of_merge?_op {axis : Axis} {last merged : Op} {delta : Int64}
    (hmerge : last.merge? (axis.op delta) = some merged) : ∃ before, last = axis.op before := by
  cases axis <;> cases last <;> first | exact ⟨_, rfl⟩ | cases hmerge

theorem exists_of_syllable {axis : Axis} {word : Word} {distance : ℤ}
    (hsyllable : word.syllable = .shift axis distance) : ∃ before, word = .op (axis.op before) := by
  unfold Word.syllable at hsyllable
  split at hsyllable <;> cases hsyllable <;> exact ⟨_, rfl⟩

end Axis

namespace Word

theorem syllable_injective : Function.Injective syllable := by
  intro first second hsame
  unfold syllable at hsame
  split at hsame <;> split at hsame <;> simp_all [Int64.toInt_inj]

theorem absorb_other {word : Word} (hother : word.syllable = .other word) (done : List Word) :
    absorb done word = word :: done := by
  cases word with
  | enter => rfl
  | leave => rfl
  | op operation =>
      rw [absorb_apart fun last _ _ => ?_]
      · cases operation <;> first | rfl | cases hother
      · cases operation <;> first | (cases last <;> rfl) | cases hother

theorem map_keep (axis : Axis) (delta : Int64) (done : List Word) :
    (keep (axis.op delta) done).map syllable =
      Syllable.keep axis delta.toInt (done.map syllable) := by
  unfold keep Syllable.keep
  by_cases hdelta : delta.toInt = 0
  · rw [if_pos ((axis.isIdle_op delta).mpr hdelta), if_pos hdelta]
  · rw [if_neg (mt (axis.isIdle_op delta).mp hdelta), if_neg hdelta, List.map_cons,
      Axis.syllable_op]

theorem map_absorb_op (axis : Axis) {delta : Int64} {done : List Word}
    (hrange : ∀ word ∈ done, word.syllable.reach + delta.toInt.natAbs < 2 ^ 63) :
    (absorb done (.op (axis.op delta))).map syllable =
      Syllable.absorb (done.map syllable) (.shift axis delta.toInt) := by
  by_cases hsame : ∃ before earlier, done = .op (axis.op before) :: earlier
  · obtain ⟨before, earlier, rfl⟩ := hsame
    have hbefore := hrange _ List.mem_cons_self
    rw [axis.syllable_op] at hbefore
    obtain ⟨total, hmerge, htotal⟩ := axis.exists_merge?_op hbefore
    rw [absorb_merge hmerge, map_keep, List.map_cons, axis.syllable_op, Syllable.absorb_same,
      htotal]
  · have hwords : ∀ last earlier, done = .op last :: earlier →
        last.merge? (axis.op delta) = none := by
      intro last earlier hdone
      refine Option.eq_none_iff_forall_ne_some.mpr fun merged hmerge => hsame ?_
      obtain ⟨before, rfl⟩ := Axis.exists_of_merge?_op hmerge
      exact ⟨before, earlier, hdone⟩
    have hapart : ¬ Syllable.StartsOn axis (done.map syllable) := by
      rintro ⟨distance, later, hdone⟩
      obtain ⟨word, earlier, rfl, hword, -⟩ := List.map_eq_cons_iff.mp hdone
      obtain ⟨before, rfl⟩ := Axis.exists_of_syllable hword
      exact hsame ⟨before, earlier, rfl⟩
    rw [absorb_apart hwords, map_keep, Syllable.absorb_apart hapart]

theorem map_absorb {word : Word} {done : List Word}
    (hrange : ∀ last ∈ done, last.syllable.reach + word.syllable.reach < 2 ^ 63) :
    (absorb done word).map syllable = Syllable.absorb (done.map syllable) word.syllable := by
  cases hword : word.syllable with
  | other other =>
      have hother : other = word := by
        unfold syllable at hword
        split at hword <;> cases hword
        rfl
      subst hother
      rw [absorb_other hword, List.map_cons, hword, Syllable.absorb]
  | shift axis distance =>
      obtain ⟨delta, rfl⟩ := Axis.exists_of_syllable hword
      rw [axis.syllable_op] at hword hrange
      cases hword
      exact map_absorb_op axis hrange

/-- The folding of a sequence that is not too long computes its syllables. -/
theorem map_foldl_absorb {commands : List Command} (hlength : commands.length < 2 ^ 63) :
    ((commands.map Command.word).foldl absorb []).map syllable = Syllable.form commands := by
  induction commands using List.reverseRecOn with
  | nil => rfl
  | append_singleton front command ih =>
      rw [List.length_append, List.length_singleton] at hlength
      have hfront := ih (by omega)
      rw [List.map_append, List.foldl_append, Syllable.form_concat, ← hfront]
      apply map_absorb
      intro last hlast
      have hreach := Syllable.reach_form front last.syllable
        (hfront ▸ List.mem_map_of_mem hlast)
      have hone := Syllable.reach_command command
      omega

end Word

namespace Block

theorem foldRuns_eq_iff {tokens others : List Token} {block other : Block}
    (hspell : Token.Spell tokens block) (hother : Token.Spell others other)
    (hlength : tokens.length < 2 ^ 63) (hlength' : others.length < 2 ^ 63) :
    block.foldRuns = other.foldRuns ↔
      Command.Interchangeable (tokens.map Token.command) (others.map Token.command) := by
  have hform : (block.words.foldl Word.absorb []).map Word.syllable =
      Syllable.form (tokens.map Token.command) := by
    rw [← hspell, ← Token.map_word]
    exact Word.map_foldl_absorb (by rwa [List.length_map])
  have hform' : (other.words.foldl Word.absorb []).map Word.syllable =
      Syllable.form (others.map Token.command) := by
    rw [← hother, ← Token.map_word]
    exact Word.map_foldl_absorb (by rwa [List.length_map])
  rw [← words_inj, words_foldRuns, words_foldRuns, List.reverse_inj, ← Syllable.form_eq_iff,
    ← hform, ← hform', List.map_inj_right fun _ _ hsame => Word.syllable_injective hsame]

/-- Nested sequences of fewer than `2 ^ 63` tokens have trees, and these fold to one and the same
tree if and only if cancelling pairs, taken out and put in anywhere, turn the commands of one
sequence into those of the other. -/
theorem foldRuns_canonical {tokens others : List Token}
    (hnested : Nested (tokens.map Token.command)) (hnested' : Nested (others.map Token.command))
    (hlength : tokens.length < 2 ^ 63) (hlength' : others.length < 2 ^ 63) :
    ∃ block other, Block.ofTokens tokens = .ok block ∧ Block.ofTokens others = .ok other ∧
      (block.foldRuns = other.foldRuns ↔
        Command.Interchangeable (tokens.map Token.command) (others.map Token.command)) := by
  obtain ⟨block, hspell⟩ := Token.nested_iff.mp hnested
  obtain ⟨other, hother⟩ := Token.nested_iff.mp hnested'
  exact ⟨block, other, hspell.ofTokens_eq, hother.ofTokens_eq,
    foldRuns_eq_iff hspell hother hlength hlength'⟩

/-- `[+>+-<-]` folds to the same tree as `[]`: its pairs cancel from the inside. -/
theorem foldRuns_canonical_nested_pairs :
    ∃ block other,
      Block.ofTokens (Token.scan true [0x5B, 0x2B, 0x3E, 0x2B, 0x2D, 0x3C, 0x2D, 0x5D]) =
        .ok block ∧
      Block.ofTokens (Token.scan true [0x5B, 0x5D]) = .ok other ∧
      block.foldRuns = other.foldRuns := by
  have hnested : Nested ((Token.scan true
      [0x5B, 0x2B, 0x3E, 0x2B, 0x2D, 0x3C, 0x2D, 0x5D]).map Token.command) :=
    Token.nested_iff.mpr (Matching.exists_spell rfl)
  have hnested' : Nested ((Token.scan true [0x5B, 0x5D]).map Token.command) :=
    Token.nested_iff.mpr (Matching.exists_spell rfl)
  obtain ⟨block, other, hblock, hother, hiff⟩ :=
    foldRuns_canonical hnested hnested' (by decide) (by decide)
  refine ⟨block, other, hblock, hother, hiff.mpr ?_⟩
  have hinner : Command.Deletion
      [.loopStart, .increment, .right, .increment, .decrement, .left, .decrement, .loopEnd]
      [.loopStart, .increment, .right, .left, .decrement, .loopEnd] :=
    .pair [.loopStart, .increment, .right] _ rfl
  have hmiddle : Command.Deletion
      [.loopStart, .increment, .right, .left, .decrement, .loopEnd]
      [.loopStart, .increment, .decrement, .loopEnd] :=
    .pair [.loopStart, .increment] _ rfl
  have houter : Command.Deletion
      [.loopStart, .increment, .decrement, .loopEnd] [.loopStart, .loopEnd] :=
    .pair [.loopStart] _ rfl
  exact (Command.Interchangeable.of_deletion hinner).trans
    ((Command.Interchangeable.of_deletion hmiddle).trans (.of_deletion houter))

end Block

end Brainfuck
