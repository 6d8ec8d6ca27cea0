import Brainfuck.Proofs.DirectRun
import Brainfuck.Proofs.Reading

/-! The nesting of loops in a sequence.

By counts alone: a sequence is nested if nowhere more loops have ended than started, and all are
ended. By structure: it spells a tree. What a sequence that is not nested looks like is told by
`Leaves`: between the loops that it leaves open, and behind the last of them, it spells trees. -/

namespace Brainfuck

/-- More loops end than start. -/
def Overrun (commands : List Command) : Prop :=
  commands.count .loopStart < commands.count .loopEnd

structure Nested (commands : List Command) : Prop where
  not_overrun : ∀ count, ¬ Overrun (commands.take count)
  closed : commands.count .loopStart = commands.count .loopEnd

/-- The shortest part, from the start on, in which more loops end than start has its last command
at `index`. -/
structure IsFirstOverrun (commands : List Command) (index : Nat) : Prop where
  loopEnd : commands[index]? = some .loopEnd
  overrun : Overrun (commands.take (index + 1))
  first : ∀ count ≤ index, ¬ Overrun (commands.take count)

/-- The loop that starts at `index` has no end, and it is the last such loop. -/
structure IsLastUnclosed (commands : List Command) (index : Nat) : Prop where
  loopStart : commands[index]? = some .loopStart
  unclosed : Direct.closing? commands index = none
  last : ∀ later, index < later → commands[later]? = some .loopStart →
    Direct.closing? commands later ≠ none

namespace Block

/-- Every loop of a tree has its end in the linear form. -/
theorem exists_loop {block : Block} {index : Nat} (henter : block.words[index]? = some .enter) :
    ∃ body back, block.words.drop index = .enter :: (Block.words body ++ .leave :: back) := by
  induction block generalizing index with
  | nil => simp at henter
  | op operation rest ih =>
      cases index with
      | zero => simp at henter
      | succ index =>
          simp only [words_op, List.getElem?_cons_succ] at henter
          simpa using ih henter
  | loop body rest ihBody ihRest =>
      cases index with
      | zero => exact ⟨body, rest.words, by simp⟩
      | succ index =>
          simp only [words_loop, List.getElem?_cons_succ, List.drop_succ_cons] at henter ⊢
          rcases Nat.lt_trichotomy index body.words.length with hinside | hend | hbehind
          · rw [List.getElem?_append_left hinside] at henter
            obtain ⟨inner, back, hdrop⟩ := ihBody henter
            refine ⟨inner, back ++ .leave :: rest.words, ?_⟩
            rw [List.drop_append_of_le_length (Nat.le_of_lt hinside), hdrop]
            simp
          · simp [hend] at henter
          · obtain ⟨beyond, rfl⟩ : ∃ beyond, index = body.words.length + (beyond + 1) :=
              ⟨index - body.words.length - 1, by omega⟩
            rw [List.getElem?_append_right (Nat.le_add_right _ _), Nat.add_sub_cancel_left,
              List.getElem?_cons_succ] at henter
            obtain ⟨inner, back, hdrop⟩ := ihRest henter
            refine ⟨inner, back, ?_⟩
            rw [← List.drop_drop, List.drop_left, List.drop_succ_cons, hdrop]

end Block

namespace Token

def word (token : Token) : Word :=
  token.command.word

/-- The commands of some tokens are the linear form of a tree. -/
def Spell (tokens : List Token) (block : Block) : Prop :=
  tokens.map word = block.words

theorem map_word (tokens : List Token) :
    (tokens.map command).map Command.word = tokens.map word :=
  List.map_map

section Spell

variable {tokens front back : List Token} {token opening closing : Token}
  {block later body rest : Block}

theorem spell_nil : Spell [] .nil :=
  Block.words_nil.symm

theorem Spell.append (hfront : Spell front block) (hback : Spell back later) :
    Spell (front ++ back) (block ++ later) := by
  rw [Spell, List.map_append, Block.words_append, hfront, hback]

theorem spell_op {operation : Op} (hword : token.word = .op operation) :
    Spell [token] (.op operation .nil) := by
  simp [Spell, hword]

theorem Spell.loop (hspell : Spell tokens block) (hopening : opening.command = .loopStart)
    (hclosing : closing.command = .loopEnd) :
    Spell (opening :: (tokens ++ [closing])) (.loop block .nil) := by
  have hopening : opening.word = .enter := congrArg Command.word hopening
  have hclosing : closing.word = .leave := congrArg Command.word hclosing
  simpa [Spell, hopening, hclosing] using hspell

theorem eq_nil_of_spell (hspell : Spell tokens .nil) : tokens = [] :=
  List.map_eq_nil_iff.mp (hspell.trans Block.words_nil)

theorem exists_of_spell_op {operation : Op} (hspell : Spell tokens (.op operation rest)) :
    ∃ token back, tokens = token :: back ∧ token.word = .op operation ∧ Spell back rest :=
  List.map_eq_cons_iff.mp (hspell.trans (Block.words_op ..))

theorem exists_of_spell_loop (hspell : Spell tokens (.loop body rest)) :
    ∃ opening inner closing back, tokens = opening :: (inner ++ closing :: back) ∧
      opening.command = .loopStart ∧ Spell inner body ∧
      closing.command = .loopEnd ∧ Spell back rest := by
  obtain ⟨opening, tail, rfl, hopening, htail⟩ :=
    List.map_eq_cons_iff.mp (hspell.trans (Block.words_loop ..))
  obtain ⟨inner, outer, rfl, hinner, houter⟩ := List.map_eq_append_iff.mp htail
  obtain ⟨closing, back, rfl, hclosing, hback⟩ := List.map_eq_cons_iff.mp houter
  exact ⟨opening, inner, closing, back, rfl, Command.word_injective hopening, hinner,
    Command.word_injective hclosing, hback⟩

end Spell

/-! Counts of loop starts and ends, in commands and in words. -/

theorem count_loopStart (tokens : List Token) :
    (tokens.map command).count .loopStart = (tokens.map word).count .enter := by
  rw [← map_word]
  exact (List.count_map_of_injective _ _ Command.word_injective .loopStart).symm

theorem count_loopEnd (tokens : List Token) :
    (tokens.map command).count .loopEnd = (tokens.map word).count .leave := by
  rw [← map_word]
  exact (List.count_map_of_injective _ _ Command.word_injective .loopEnd).symm

theorem Spell.count_eq {tokens : List Token} {block : Block} (hspell : Spell tokens block) :
    (tokens.map command).count .loopStart = (tokens.map command).count .loopEnd := by
  rw [count_loopStart, count_loopEnd, hspell, Direct.count_words]

theorem Spell.not_overrun {tokens : List Token} {block : Block} (hspell : Spell tokens block)
    (count : Nat) : ¬ Overrun ((tokens.map command).take count) := by
  rw [Overrun, ← List.map_take, count_loopStart, count_loopEnd, List.map_take, hspell]
  exact Nat.not_lt.mpr (Direct.count_take_words block count)

/-- `Leaves tokens pending`: the loops in `pending`, innermost first, start in `tokens` and do not
end there. Each comes with its index and its place in the source. -/
inductive Leaves : List Token → List (Nat × Position) → Prop
  | none {tokens : List Token} {block : Block} (hspell : Spell tokens block) : Leaves tokens []
  | more {front back : List Token} {opening : Token} {block : Block}
      {pending : List (Nat × Position)} (hfront : Leaves front pending)
      (hopening : opening.command = .loopStart) (hback : Spell back block) :
      Leaves (front ++ opening :: back) ((front.length, opening.position) :: pending)

namespace Leaves

variable {tokens more : List Token} {pending : List (Nat × Position)} {block : Block}

theorem append (hleaves : Leaves tokens pending) (hspell : Spell more block) :
    Leaves (tokens ++ more) pending := by
  cases hleaves with
  | none hfront => exact .none (hfront.append hspell)
  | more hfront hopening hback =>
      rw [List.append_assoc, List.cons_append]
      exact .more hfront hopening (hback.append hspell)

theorem index_lt (hleaves : Leaves tokens pending) :
    ∀ entry ∈ pending, entry.1 < tokens.length := by
  induction hleaves with
  | none _ => simp
  | more hfront _ _ ih =>
      intro entry hentry
      rw [List.length_append, List.length_cons]
      rcases List.mem_cons.mp hentry with rfl | houter
      · exact Nat.lt_add_of_pos_right (Nat.succ_pos _)
      · exact Nat.lt_add_right _ (ih entry houter)

theorem count_eq (hleaves : Leaves tokens pending) :
    (tokens.map command).count .loopStart =
      (tokens.map command).count .loopEnd + pending.length := by
  induction hleaves with
  | none hspell => exact hspell.count_eq
  | more _ hopening hback ih =>
      simp only [List.map_append, List.map_cons, List.count_append, List.count_cons, hopening,
        hback.count_eq, ih, List.length_cons]
      simp
      omega

theorem not_overrun (hleaves : Leaves tokens pending) (count : Nat) :
    ¬ Overrun ((tokens.map command).take count) := by
  induction hleaves generalizing count with
  | none hspell => exact hspell.not_overrun count
  | @more front back opening block pending hfront hopening hback ih =>
      rw [List.map_append, List.take_append]
      have hearly := ih count
      have hlate := hback.not_overrun (count - front.length - 1)
      cases hbeyond : count - front.length with
      | zero => simpa [hbeyond] using hearly
      | succ beyond =>
          rw [hbeyond, Nat.add_sub_cancel] at hlate
          unfold Overrun at hearly hlate ⊢
          simp only [List.length_map, hbeyond, List.map_cons, List.take_succ_cons,
            List.count_append, List.count_cons, hopening]
          simp
          omega

end Leaves

/-! The two kinds of faults, told by counts. -/

section Faults

variable {front back : List Token} {block : Block}

theorem Spell.isFirstOverrun {close : Token} (hspell : Spell front block)
    (hclose : close.command = .loopEnd) (back : List Token) :
    IsFirstOverrun ((front ++ close :: back).map command) front.length where
  loopEnd := by simp [hclose]
  overrun := by
    have hcount := hspell.count_eq
    rw [Overrun, List.map_append, List.take_append, List.length_map, Nat.add_sub_cancel_left,
      List.take_of_length_le (by simp)]
    simp [hclose, hcount]
  first := by
    intro count hcount
    rw [List.map_append, List.take_append_of_le_length (by simpa using hcount)]
    exact hspell.not_overrun count

theorem Spell.closing?_eq_none {opening : Token} (hback : Spell back block)
    (hopening : opening.command = .loopStart) (front : List Token) :
    Direct.closing? ((front ++ opening :: back).map command) front.length = none := by
  rw [Direct.closing?, List.find?_eq_none]
  intro stop _ hstop
  obtain ⟨hbehind, hbalanced⟩ := Bool.and_eq_true_iff.mp hstop
  obtain ⟨inner, rfl⟩ : ∃ inner, stop = front.length + (inner + 1) :=
    ⟨stop - front.length - 1, by have := of_decide_eq_true hbehind; omega⟩
  have hword : opening.word = .enter := congrArg Command.word hopening
  have hcount := Direct.count_take_words block (inner + 1)
  rw [Direct.balanced_iff, Direct.map_extract, map_word, ← List.map_drop, List.drop_left,
    Nat.add_assoc, Nat.add_sub_cancel_left, List.map_cons, List.take_succ_cons, hword,
    hback] at hbalanced
  simp at hbalanced
  omega

theorem Spell.isLastUnclosed {opening : Token} (hback : Spell back block)
    (hopening : opening.command = .loopStart) (front : List Token) :
    IsLastUnclosed ((front ++ opening :: back).map command) front.length where
  loopStart := by simp [hopening]
  unclosed := hback.closing?_eq_none hopening front
  last := by
    intro later hlater hstart
    obtain ⟨inner, rfl⟩ : ∃ inner, later = front.length + (inner + 1) :=
      ⟨later - front.length - 1, by omega⟩
    have henter : block.words[inner]? = some .enter := by
      rw [← hback, List.getElem?_map]
      rw [List.map_append, List.getElem?_append_right (by simp)] at hstart
      simp only [List.length_map, Nat.add_sub_cancel_left, List.map_cons,
        List.getElem?_cons_succ, List.getElem?_map] at hstart
      obtain ⟨token, htoken, hcommand⟩ := Option.map_eq_some_iff.mp hstart
      rw [htoken]
      exact congrArg some (congrArg Command.word hcommand)
    obtain ⟨body, rest, hdrop⟩ := Block.exists_loop henter
    have hloop : (((front ++ opening :: back).map command).map Command.word).drop
        (front.length + (inner + 1)) = .enter :: (body.words ++ .leave :: rest) := by
      rw [map_word, ← List.drop_drop, ← List.map_drop, List.drop_left, List.map_cons,
        List.drop_succ_cons, hback, hdrop]
    rw [Direct.closing?_eq hloop]
    exact Option.some_ne_none _

end Faults

end Token

end Brainfuck
