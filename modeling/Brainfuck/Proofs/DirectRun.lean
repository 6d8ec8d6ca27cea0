import Mathlib.Data.List.Count
import Brainfuck.Proofs.Layout
import Brainfuck.Block.Word

/-! The direct execution of a sequence of commands.

A place in the sequence moves from command to command; a bracket may send it to the other bracket of
its pair. Which bracket that is can be told by counting alone (`Direct.partner?`), or be looked up
in a table, so the execution takes it as a parameter. It agrees with the execution of the tree that
the sequence spells. -/

namespace Brainfuck

namespace Direct

def balanced (commands : List Command) : Bool :=
  commands.count .loopStart == commands.count .loopEnd

/-- The first place after `start` up to which as many loops end as start. -/
def closing? (commands : List Command) (start : Nat) : Option Nat :=
  (List.range commands.length).find? fun stop =>
    start < stop && balanced (commands.extract start (stop + 1))

/-- The last place before `stop` from which on as many loops start as end. -/
def opening? (commands : List Command) (stop : Nat) : Option Nat :=
  (List.range stop).reverse.find? fun start => balanced (commands.extract start (stop + 1))

def partner? (commands : List Command) (place : Nat) : Option Nat :=
  match commands[place]? with
  | some .loopStart => closing? commands place
  | some .loopEnd => opening? commands place
  | _ => none

end Direct

namespace Command

variable {A : Type} [DecidableEq A] [AddAction ℤ A]

def act (command : Command) (tape : Tape A) : Tape A :=
  match command with
  | .increment => tape.write (tape.cell + 1)
  | .decrement => tape.write (tape.cell - 1)
  | .right => tape.move 1
  | .left => tape.move (-1)
  | .output => tape.put
  | .input => tape.get
  | .loopStart => tape
  | .loopEnd => tape

/-- Whether a command reads, tests or writes the cell at the pointer. At the end of the input
nothing is got. -/
def touches (command : Command) (tape : Tape A) : Bool :=
  match command with
  | .right => false
  | .left => false
  | .input => !tape.input.isEmpty
  | _ => true

theorem act_eq_apply {command : Command} {operation : Op} (hword : command.word = .op operation)
    (tape : Tape A) : command.act tape = operation.apply tape := by
  cases command with
  | decrement =>
      cases hword
      change tape.write (tape.cell - 1) = tape.write (tape.cell + -1)
      rw [UInt8.sub_eq_add_neg]
  | _ => cases hword <;> rfl

omit [DecidableEq A] [AddAction ℤ A] in
theorem touches_eq {command : Command} {operation : Op} (hword : command.word = .op operation)
    (tape : Tape A) : command.touches tape = operation.touches tape := by
  cases command <;> cases hword <;> rfl

theorem output_act (command : Command) (tape : Tape A) :
    tape.output <+: (command.act tape).output := by
  cases hword : command.word with
  | op operation =>
      rw [act_eq_apply hword]
      exact operation.output_apply tape
  | enter =>
      cases command <;> cases hword
      exact List.prefix_refl _
  | leave =>
      cases command <;> cases hword
      exact List.prefix_refl _

theorem word_injective : Function.Injective word := by
  intro first second hword
  cases first <;> cases second <;> first | rfl | cases hword

end Command

namespace Direct

variable {A : Type} [DecidableEq A] [AddAction ℤ A]

/-- The place behind the other bracket. There is no result if the bracket has no partner. -/
def jump (partner? : Nat → Option Nat) (place : Nat) (tape : Tape A) :
    Turn (Nat × Tape A) (Option (Tape A)) :=
  match partner? place with
  | some other => .next (other + 1, tape)
  | none => .stop none

def step (commands : List Command) (partner? : Nat → Option Nat) (place : Nat)
    (tape : Tape A) : Turn (Nat × Tape A) (Option (Tape A)) :=
  match commands[place]? with
  | none => .stop (some tape)
  | some .loopStart =>
      if tape.cell = 0 then jump partner? place tape else .next (place + 1, tape)
  | some .loopEnd =>
      if tape.cell = 0 then .next (place + 1, tape) else jump partner? place tape
  | some command => .next (place + 1, command.act tape)

omit [DecidableEq A] [AddAction ℤ A] in
theorem output_jump {partner? : Nat → Option Nat} {place : Nat} {tape : Tape A}
    {state : Nat × Tape A} (hjump : jump partner? place tape = .next state) :
    state.2 = tape := by
  unfold jump at hjump
  split at hjump <;> cases hjump
  rfl

theorem output_step {commands : List Command} {partner? : Nat → Option Nat} {place : Nat}
    {tape : Tape A} {state : Nat × Tape A}
    (hstep : step commands partner? place tape = .next state) :
    tape.output <+: state.2.output := by
  unfold step at hstep
  split at hstep
  · cases hstep
  · split at hstep
    · exact output_jump hstep ▸ List.prefix_refl _
    · cases hstep
      exact List.prefix_refl _
  · split at hstep
    · cases hstep
      exact List.prefix_refl _
    · exact output_jump hstep ▸ List.prefix_refl _
  · next command _ _ _ =>
      cases hstep
      exact command.output_act tape

def process (commands : List Command) (partner? : Nat → Option Nat) :
    Process (Nat × Tape A) (Option (Tape A)) where
  step state := step commands partner? state.1 state.2
  output state := state.2.output
  output_step := output_step

/-- The cell that the next command touches, if it touches one, is an allowed one. -/
def Within (commands : List Command) (allowed : A → Prop) (state : Nat × Tape A) : Prop :=
  ∀ command, commands[state.1]? = some command → command.touches state.2 = true →
    allowed state.2.pointer

/-! The linear form of a tree as a layout: one word for each operation and each end of a loop. -/

def layout : Layout Word where
  op operation := [.op operation]
  enter _ := [.enter]
  leave _ := [.leave]

theorem code_eq_words (label : Nat) (block : Block) :
    layout.code label block = block.words := by
  induction block generalizing label with
  | nil => rw [Layout.code, Block.words_nil]
  | op operation rest ih =>
      rw [Layout.code, ih, Block.words_op]
      rfl
  | loop body rest ihBody ihRest =>
      rw [Layout.code, ihBody, ihRest, Block.words_loop]
      simp [layout]

theorem whole_eq (label : Nat) (body : Block) :
    layout.whole label body = .enter :: (body.words ++ [.leave]) := by
  rw [Layout.whole, code_eq_words]
  rfl

theorem afterTest_eq (label : Nat) (body : Block) (origin : Nat) (cell : UInt8) :
    layout.afterTest label body origin cell =
      origin + if cell = 0 then body.words.length + 2 else 1 := by
  rw [Layout.afterTest, whole_eq]
  simp [layout]

/-- A way to look up partners that is right about every loop of a sequence. -/
def Pairs (commands : List Command) (partner? : Nat → Option Nat) : Prop :=
  ∀ (origin : Nat) (body : Block),
    Placed (commands.map Command.word) origin (.enter :: (body.words ++ [.leave])) →
      partner? origin = some (origin + body.words.length + 1) ∧
        partner? (origin + body.words.length + 1) = some origin


section Pairing

variable {commands : List Command} {partner? : Nat → Option Nat} {place : Nat} {word : Word}

theorem exists_command (hword : (commands.map Command.word)[place]? = some word) :
    ∃ command, commands[place]? = some command ∧ command.word = word := by
  rw [List.getElem?_map] at hword
  exact Option.map_eq_some_iff.mp hword

theorem getElem?_loopStart (hword : (commands.map Command.word)[place]? = some .enter) :
    commands[place]? = some .loopStart := by
  obtain ⟨command, hcommand, hword⟩ := exists_command hword
  cases command <;> first | exact hcommand | cases hword

theorem getElem?_loopEnd (hword : (commands.map Command.word)[place]? = some .leave) :
    commands[place]? = some .loopEnd := by
  obtain ⟨command, hcommand, hword⟩ := exists_command hword
  cases command <;> first | exact hcommand | cases hword

variable {tape : Tape A} {body : Block} {label origin : Nat}

theorem step_loopStart (hpairs : Pairs commands partner?)
    (hplaced : Placed (commands.map Command.word) origin (layout.whole label body)) :
    (process commands partner?).step (origin, tape) =
      .next (layout.afterTest label body origin tape.cell, tape) := by
  rw [whole_eq] at hplaced
  have hcommand := getElem?_loopStart (placed_cons.mp hplaced).1
  change step commands partner? origin tape = _
  rw [step, hcommand, afterTest_eq]
  by_cases hcell : tape.cell = 0
  · simp only [if_pos hcell, jump, (hpairs origin body hplaced).1, Nat.add_assoc]
  · simp only [if_neg hcell]

theorem step_loopEnd (hpairs : Pairs commands partner?)
    (hplaced : Placed (commands.map Command.word) origin (layout.whole label body)) :
    (process commands partner?).step
        (origin + (layout.enter label ++ layout.code (label + 2) body).length, tape) =
      .next (layout.afterTest label body origin tape.cell, tape) := by
  have hplace : origin + (layout.enter label ++ layout.code (label + 2) body).length =
      origin + body.words.length + 1 := by
    rw [code_eq_words, List.length_append, Nat.add_left_comm, Nat.add_comm]
    rfl
  rw [whole_eq] at hplaced
  have hleave := (placed_append.mp (placed_cons.mp hplaced).2).2
  rw [Nat.add_right_comm] at hleave
  have hcommand := getElem?_loopEnd (placed_cons.mp hleave).1
  change step commands partner? _ tape = _
  rw [hplace, step, hcommand, afterTest_eq]
  by_cases hcell : tape.cell = 0
  · simp only [if_pos hcell, Nat.add_assoc]
  · simp only [if_neg hcell, jump, (hpairs origin body hplaced).2]

theorem implements (hpairs : Pairs commands partner?) :
    layout.Implements (commands.map Command.word) [] (process commands partner?) Eq
      (fun _ : A => True) (fun tape result => result = some tape) where
  output := by
    rintro tape core place rfl
    rfl
  op := by
    rintro operation tape core place hplaced rfl -
    obtain ⟨command, hcommand, hword⟩ := exists_command (placed_cons.mp hplaced).1
    refine ⟨operation.apply tape, .single ?_, rfl⟩
    change step commands partner? place tape = .next (place + 1, operation.apply tape)
    rw [step, hcommand, ← Command.act_eq_apply hword]
    cases command <;> first | rfl | cases hword
  enter := by
    rintro label body tape core origin hplaced rfl -
    exact ⟨0, tape, Process.after_succ_next (step_loopStart hpairs hplaced) 0, rfl⟩
  leave := by
    rintro label body tape core origin hplaced rfl -
    exact ⟨0, tape, Process.after_succ_next (step_loopEnd hpairs hplaced) 0, rfl⟩
  finish := by
    rintro tape core place hend rfl
    refine ⟨(place, tape), some tape, .refl _, rfl, ?_, rfl⟩
    have hlength : commands.length ≤ place := by
      simpa using List.drop_eq_nil_iff.mp hend
    change step commands partner? place tape = .stop (some tape)
    rw [step, List.getElem?_eq_none hlength]

omit [DecidableEq A] [AddAction ℤ A] in
theorem exists_touching {program : List Word} (hprogram : program = commands.map Command.word)
    {current : Block} {pending : List (Block × Block)}
    (hstands : layout.Stands program [] current pending place)
    (htouches : current.touches tape = true) :
    ∃ command, commands[place]? = some command ∧ command.touches tape = true := by
  subst hprogram
  cases hstands with
  | front hplaced _ =>
      cases current with
      | nil => cases htouches
      | op operation rest =>
          obtain ⟨command, hcommand, hword⟩ := exists_command (placed_cons.mp hplaced).1
          exact ⟨command, hcommand, (Command.touches_eq hword tape).trans htouches⟩
      | loop body rest =>
          exact ⟨.loopStart, getElem?_loopStart (placed_cons.mp hplaced).1, rfl⟩
  | behind hfollows =>
      obtain ⟨origin, label, next, rfl, hplaced, -⟩ := hfollows
      rw [Layout.whole, List.append_assoc, List.append_assoc] at hplaced
      have hleave := (placed_append.mp (placed_append.mp hplaced).2).2
      rw [Nat.add_assoc, ← List.length_append] at hleave
      exact ⟨.loopEnd, getElem?_loopEnd (placed_cons.mp hleave).1, rfl⟩

end Pairing

/-! Counting finds the pairs: inside a loop, more loops have been started than ended at every
point, and more are yet to be ended than to be started. -/

theorem count_words (block : Block) :
    block.words.count .enter = block.words.count .leave := by
  induction block with
  | nil => simp
  | op operation rest ih => simpa using ih
  | loop body rest ihBody ihRest =>
      simp [ihBody, ihRest]
      omega

theorem count_take_words (block : Block) (count : Nat) :
    (block.words.take count).count .leave ≤ (block.words.take count).count .enter := by
  induction block generalizing count with
  | nil => simp
  | op operation rest ih =>
      cases count with
      | zero => simp
      | succ count => simpa using ih count
  | loop body rest ihBody ihRest =>
      cases count with
      | zero => simp
      | succ count =>
          have hbody := ihBody count
          have hwhole := count_words body
          simp only [Block.words_loop, List.take_succ_cons, List.take_append,
            List.count_cons, List.count_append]
          cases hrest : count - body.words.length with
          | zero =>
              simp
              omega
          | succ fewer =>
              have htake : body.words.take count = body.words :=
                List.take_of_length_le (by omega)
              have hlater := ihRest fewer
              simp [htake]
              omega

theorem count_drop_words (block : Block) (count : Nat) :
    (block.words.drop count).count .enter ≤ (block.words.drop count).count .leave := by
  have hwhole := count_words block
  have htake := count_take_words block count
  rw [← List.take_append_drop count block.words, List.count_append, List.count_append] at hwhole
  omega

theorem balanced_iff (commands : List Command) :
    balanced commands = true ↔
      (commands.map Command.word).count .enter = (commands.map Command.word).count .leave := by
  have hstart := List.count_map_of_injective commands _ Command.word_injective .loopStart
  have hend := List.count_map_of_injective commands _ Command.word_injective .loopEnd
  rw [balanced, beq_iff_eq, ← hstart, ← hend]
  rfl

theorem map_extract (commands : List Command) (start stop : Nat) :
    (commands.extract start stop).map Command.word =
      ((commands.map Command.word).drop start).take (stop - start) := by
  rw [List.extract_eq_take_drop, List.map_take, List.map_drop]

section Loop

variable {commands : List Command} {origin : Nat} {body : Block} {back : List Word}

theorem balanced_loop
    (hloop : (commands.map Command.word).drop origin =
      .enter :: (body.words ++ .leave :: back)) :
    balanced (commands.extract origin (origin + body.words.length + 1 + 1)) = true := by
  have hlength : origin + body.words.length + 1 + 1 - origin = body.words.length + 1 + 1 := by
    omega
  rw [balanced_iff, map_extract, hloop, hlength, List.take_succ_cons,
    List.take_length_add_append]
  simp [count_words]

theorem not_balanced_front
    (hloop : (commands.map Command.word).drop origin =
      .enter :: (body.words ++ .leave :: back)) {stop : Nat} (hstart : origin < stop)
    (hstop : stop < origin + body.words.length + 1) :
    balanced (commands.extract origin (stop + 1)) = false := by
  rw [← Bool.not_eq_true, balanced_iff, map_extract, hloop, Nat.succ_sub (Nat.le_of_lt hstart),
    List.take_succ_cons, List.take_append_of_le_length (by omega)]
  have hcount := count_take_words body (stop - origin)
  simp
  omega

theorem not_balanced_back
    (hloop : (commands.map Command.word).drop origin =
      .enter :: (body.words ++ .leave :: back)) {start : Nat} (hstart : origin < start)
    (hstop : start < origin + body.words.length + 1) :
    balanced (commands.extract start (origin + body.words.length + 1 + 1)) = false := by
  obtain ⟨inner, rfl⟩ : ∃ inner, start = origin + (inner + 1) := ⟨start - origin - 1, by omega⟩
  have hlength : origin + body.words.length + 1 + 1 - (origin + (inner + 1)) =
      (body.words.drop inner).length + 1 := by
    rw [List.length_drop]
    omega
  rw [← Bool.not_eq_true, balanced_iff, map_extract, ← List.drop_drop, hloop,
    List.drop_succ_cons, List.drop_append_of_le_length (by omega), hlength,
    List.take_length_add_append]
  have hcount := count_drop_words body inner
  simp
  omega

theorem closing?_eq
    (hloop : (commands.map Command.word).drop origin =
      .enter :: (body.words ++ .leave :: back)) :
    closing? commands origin = some (origin + body.words.length + 1) := by
  have hlength := congrArg List.length hloop
  simp only [List.length_drop, List.length_map, List.length_cons, List.length_append] at hlength
  rw [closing?, List.find?_range_eq_some]
  refine ⟨?_, List.mem_range.mpr (by omega), ?_⟩
  · rw [balanced_loop hloop, Bool.and_true]
    exact decide_eq_true (by omega)
  · intro stop hstop
    by_cases hstart : origin < stop
    · rw [not_balanced_front hloop hstart hstop, Bool.and_false]
      rfl
    · rw [decide_eq_false hstart]
      rfl

theorem opening?_eq
    (hloop : (commands.map Command.word).drop origin =
      .enter :: (body.words ++ .leave :: back)) :
    opening? commands (origin + body.words.length + 1) = some origin := by
  rw [opening?, List.find?_eq_some_iff_append]
  refine ⟨balanced_loop hloop,
    ((List.range body.words.length).map (origin + 1 + ·)).reverse, (List.range origin).reverse,
    ?_, ?_⟩
  · rw [Nat.add_right_comm, List.range_add, List.range_succ]
    simp
  · intro start hmem
    obtain ⟨inner, hinner, rfl⟩ := List.mem_map.mp (List.mem_reverse.mp hmem)
    have hbound := List.mem_range.mp hinner
    rw [not_balanced_back hloop (by omega) (by omega)]
    rfl

end Loop

theorem pairs_partner? (commands : List Command) : Pairs commands (partner? commands) := by
  intro origin body hplaced
  obtain ⟨back, hback⟩ := hplaced
  have hloop : (commands.map Command.word).drop origin =
      .enter :: (body.words ++ .leave :: back) := by
    rw [← hback]
    simp
  have hfirst : commands[origin]? = some .loopStart := by
    apply getElem?_loopStart
    rw [← List.head?_drop, hloop]
    rfl
  have hlast : commands[origin + body.words.length + 1]? = some .loopEnd := by
    apply getElem?_loopEnd
    rw [Nat.add_assoc, ← List.getElem?_drop, hloop]
    simp
  rw [partner?, partner?, hfirst, hlast]
  exact ⟨closing?_eq hloop, opening?_eq hloop⟩

section Agreement

variable {commands : List Command} {partner? : Nat → Option Nat} {block : Block}

theorem tracks_start (hwords : block.words = commands.map Command.word) (tape : Tape A) :
    Layout.Implements.Tracks layout (commands.map Command.word) [] Eq (fun _ : A => True)
      (block.start tape) (0, tape) := by
  have hcode : commands.map Command.word = [] ++ (layout.code 0 block ++ []) := by
    rw [code_eq_words, hwords, List.append_nil, List.nil_append]
  rw [hcode]
  exact Layout.Implements.tracks_start rfl fun _ _ _ => trivial

/-- The tree that a sequence of commands spells does what the sequence does. -/
theorem tree_agrees (hpairs : Pairs commands partner?)
    (hwords : block.words = commands.map Command.word) (tape : Tape A) :
    Block.process.Agrees (process commands partner?) (fun final result => result = some final)
      (block.start tape) (0, tape) :=
  (implements hpairs).simulation.agrees (tracks_start hwords tape)

theorem tree_within (hpairs : Pairs commands partner?)
    (hwords : block.words = commands.map Command.word) {tape : Tape A} {allowed : A → Prop}
    (hwithin : (process commands partner?).Always (Within commands allowed) (0, tape)) :
    Block.process.Always (Block.Config.Within allowed) (block.start tape) := by
  intro config hreaches htouches
  obtain ⟨⟨place, core⟩, himage, htracks⟩ :=
    (implements hpairs).simulation.reaches (tracks_start hwords tape) hreaches
  obtain ⟨command, hcommand, htouching⟩ := exists_touching rfl htracks.stands htouches
  have htape : config.tape = core := htracks.holds
  rw [htape] at htouching ⊢
  exact hwithin (place, core) himage command hcommand htouching

end Agreement

end Direct

end Brainfuck
