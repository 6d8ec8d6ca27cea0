import Brainfuck.Compile
import Brainfuck.Proofs.Nesting

/-! The table of partners.

For a sequence that spells a tree, the table is the one that the tree itself gives: each end of a
loop has the other end for its partner. For any other sequence there is an error. `Verdict` says
what can come out, and `verdict` that it does. -/

namespace Brainfuck

/-- The partners of the words of a tree, if its first word has the number `index`. -/
def Block.partners (index : Nat) : Block → List (Option Nat)
  | .nil => []
  | .op _ rest => none :: rest.partners (index + 1)
  | .loop body rest =>
      some (index + body.words.length + 1) ::
        (body.partners (index + 1) ++
          some index :: rest.partners (index + body.words.length + 2))

@[simp] theorem Block.length_partners (index : Nat) (block : Block) :
    (block.partners index).length = block.words.length := by
  induction block generalizing index with
  | nil => simp [partners]
  | op operation rest ih => simp [partners, ih]
  | loop body rest ihBody ihRest => simp [partners, ihBody, ihRest]

theorem exists_of_bind_eq_ok {Error Value Value' : Type} {first : Except Error Value}
    {next : Value → Except Error Value'} {result : Value'}
    (hbind : first >>= next = .ok result) :
    ∃ value, first = .ok value ∧ next value = .ok result := by
  cases first with
  | error error => cases hbind
  | ok value => exact ⟨value, rfl, hbind⟩

namespace Matching

namespace Progress

variable {progress progress' : Progress} {token : Token} {tokens : List Token}

theorem step_op {operation : Op} (hword : token.word = .op operation) (progress : Progress) :
    progress.step token = .ok ⟨progress.partners.push none, progress.pending⟩ := by
  obtain ⟨command, position⟩ := token
  cases command <;> first | rfl | cases hword

theorem step_enter (hcommand : token.command = .loopStart) (progress : Progress) :
    progress.step token =
      .ok ⟨progress.partners.push none,
        (progress.partners.size, token.position) :: progress.pending⟩ := by
  rw [step, hcommand]

theorem step_leave (hcommand : token.command = .loopEnd) {partners : Array (Option Nat)}
    {opening : Nat × Position} {outer : List (Nat × Position)} :
    step ⟨partners, opening :: outer⟩ token =
      .ok ⟨(partners.push (some opening.1)).setIfInBounds opening.1 (some partners.size),
        outer⟩ := by
  rw [step, hcommand]

theorem step_extra (hcommand : token.command = .loopEnd) {partners : Array (Option Nat)} :
    step ⟨partners, []⟩ token = .error (.extraClose token.position) := by
  rw [step, hcommand]

/-- What one token can do. -/
theorem step_cases (progress : Progress) (token : Token) :
    (∃ operation, token.word = .op operation ∧
      progress.step token = .ok ⟨progress.partners.push none, progress.pending⟩) ∨
    (token.command = .loopStart ∧
      progress.step token = .ok ⟨progress.partners.push none,
        (progress.partners.size, token.position) :: progress.pending⟩) ∨
    (token.command = .loopEnd ∧ progress.pending = [] ∧
      progress.step token = .error (.extraClose token.position)) ∨
    (token.command = .loopEnd ∧ ∃ opening outer, progress.pending = opening :: outer ∧
      progress.step token =
        .ok ⟨(progress.partners.push (some opening.1)).setIfInBounds opening.1
          (some progress.partners.size), outer⟩) := by
  obtain ⟨partners, pending⟩ := progress
  cases hword : token.word with
  | op operation => exact .inl ⟨operation, rfl, step_op hword _⟩
  | enter =>
      have hcommand : token.command = .loopStart := Command.word_injective hword
      exact .inr (.inl ⟨hcommand, step_enter hcommand _⟩)
  | leave =>
      have hcommand : token.command = .loopEnd := Command.word_injective hword
      cases pending with
      | nil => exact .inr (.inr (.inl ⟨hcommand, rfl, step_extra hcommand⟩))
      | cons opening outer =>
          exact .inr (.inr (.inr ⟨hcommand, opening, outer, rfl, step_leave hcommand⟩))

/-- Tokens that spell a tree add its table, and leave the open loops as they are. -/
theorem foldlM_spell {block : Block} (hspell : Token.Spell tokens block) (progress : Progress) :
    tokens.foldlM step progress =
      .ok ⟨progress.partners ++ block.partners progress.partners.size, progress.pending⟩ := by
  induction block generalizing tokens progress with
  | nil =>
      cases Token.eq_nil_of_spell hspell
      simp [Block.partners, pure, Except.pure]
  | op operation rest ih =>
      obtain ⟨token, back, rfl, hword, hback⟩ := Token.exists_of_spell_op hspell
      rw [List.foldlM_cons, step_op hword]
      change back.foldlM step _ = _
      rw [ih hback]
      simp [Block.partners]
  | loop body rest ihBody ihRest =>
      obtain ⟨opening, inner, closing, back, rfl, hopening, hinner, hclosing, hback⟩ :=
        Token.exists_of_spell_loop hspell
      rw [List.foldlM_cons, step_enter hopening]
      change (inner ++ closing :: back).foldlM step _ = _
      rw [List.foldlM_append, ihBody hinner]
      change (closing :: back).foldlM step _ = _
      rw [List.foldlM_cons, step_leave hclosing]
      change back.foldlM step _ = _
      rw [ihRest hback]
      have hsize : (progress.partners.push none ++
          body.partners (progress.partners.size + 1)).size =
            progress.partners.size + body.words.length + 1 := by
        simp [← Array.length_toList]
        omega
      congr 2
      apply Array.toList_inj.mp
      simp [Block.partners, hsize]

/-! What is known of the state after some tokens. -/

structure After (tokens : List Token) (progress : Progress) : Prop where
  size : progress.partners.size = tokens.length
  leaves : Token.Leaves tokens progress.pending

theorem after_start : After [] start :=
  ⟨rfl, .none Token.spell_nil⟩

theorem After.step (hafter : After tokens progress)
    (hstep : progress.step token = .ok progress') : After (tokens ++ [token]) progress' := by
  obtain ⟨hsize, hleaves⟩ := hafter
  rcases step_cases progress token with
    ⟨operation, hword, hstep'⟩ | ⟨hcommand, hstep'⟩ | ⟨hcommand, -, hstep'⟩ |
      ⟨hcommand, opening, outer, hpending, hstep'⟩
  · cases hstep'.symm.trans hstep
    exact ⟨by simp [hsize], hleaves.append (Token.spell_op hword)⟩
  · cases hstep'.symm.trans hstep
    refine ⟨by simp [hsize], ?_⟩
    rw [hsize]
    exact .more hleaves hcommand Token.spell_nil
  · cases hstep'.symm.trans hstep
  · cases hstep'.symm.trans hstep
    refine ⟨by simp [hsize], ?_⟩
    rw [hpending] at hleaves
    cases hleaves with
    | more hfront hopening hback =>
        rw [List.append_assoc, List.cons_append]
        exact hfront.append (hback.loop hopening hcommand)

theorem After.foldlM {front : List Token} (hafter : After front progress)
    (hfold : tokens.foldlM Progress.step progress = .ok progress') :
    After (front ++ tokens) progress' := by
  induction tokens generalizing front progress with
  | nil =>
      cases hfold
      rwa [List.append_nil]
  | cons token rest ih =>
      rw [List.foldlM_cons] at hfold
      obtain ⟨middle, hstep, hrest⟩ := exists_of_bind_eq_ok hfold
      rw [← List.singleton_append, ← List.append_assoc]
      exact ih (hafter.step hstep) hrest

/-- The run breaks off only at a loop end in front of which a tree is spelled. -/
theorem After.exists_extraClose {front : List Token} {error : BracketError}
    (hafter : After front progress)
    (hfold : tokens.foldlM Progress.step progress = .error error) :
    ∃ early close back block, front ++ tokens = early ++ close :: back ∧
      Token.Spell early block ∧ close.command = .loopEnd ∧
      error = .extraClose close.position := by
  induction tokens generalizing front progress with
  | nil => cases hfold
  | cons token rest ih =>
      rw [List.foldlM_cons] at hfold
      cases hstep : progress.step token with
      | ok middle =>
          rw [hstep] at hfold
          rw [← List.singleton_append, ← List.append_assoc]
          exact ih (hafter.step hstep) hfold
      | error error' =>
          rw [hstep] at hfold
          cases hfold
          rcases step_cases progress token with
            ⟨_, -, hstep'⟩ | ⟨-, hstep'⟩ | ⟨hcommand, hpending, hstep'⟩ | ⟨-, _, _, -, hstep'⟩
          · cases hstep'.symm.trans hstep
          · cases hstep'.symm.trans hstep
          · cases hstep'.symm.trans hstep
            have hleaves := hafter.leaves
            rw [hpending] at hleaves
            cases hleaves with
            | none hspell => exact ⟨front, token, rest, _, rfl, hspell, hcommand, rfl⟩
          · cases hstep'.symm.trans hstep

/-! An entry of the table stays as it is if it is there and no open loop waits for it. -/

structure Settled (progress : Progress) (index : Nat) : Prop where
  bound : index < progress.partners.size
  notPending : ∀ entry ∈ progress.pending, entry.1 ≠ index

theorem Settled.step {index : Nat} (hsettled : progress.Settled index)
    (hstep : progress.step token = .ok progress') :
    progress'.Settled index ∧ progress'.partners[index]? = progress.partners[index]? := by
  obtain ⟨hbound, hnotPending⟩ := hsettled
  have hne : progress.partners.size ≠ index := Nat.ne_of_gt hbound
  have hpush : ∀ partner?,
      (progress.partners.push partner?)[index]? = progress.partners[index]? := by
    intro partner?
    rw [Array.getElem?_push, if_neg hne.symm]
  rcases step_cases progress token with
    ⟨operation, -, hstep'⟩ | ⟨-, hstep'⟩ | ⟨-, -, hstep'⟩ | ⟨-, opening, outer, hpending, hstep'⟩
  · cases hstep'.symm.trans hstep
    exact ⟨⟨by simp; omega, hnotPending⟩, hpush none⟩
  · cases hstep'.symm.trans hstep
    refine ⟨⟨by simp; omega, ?_⟩, hpush none⟩
    exact List.forall_mem_cons.mpr ⟨hne, hnotPending⟩
  · cases hstep'.symm.trans hstep
  · cases hstep'.symm.trans hstep
    rw [hpending] at hnotPending
    obtain ⟨hopening, houter⟩ := List.forall_mem_cons.mp hnotPending
    refine ⟨⟨by simp; omega, houter⟩, ?_⟩
    rw [Array.getElem?_setIfInBounds_ne hopening, hpush]

theorem Settled.getElem?_foldlM {index : Nat} (hsettled : progress.Settled index)
    (hfold : tokens.foldlM Progress.step progress = .ok progress') :
    progress'.partners[index]? = progress.partners[index]? := by
  induction tokens generalizing progress with
  | nil =>
      cases hfold
      rfl
  | cons token rest ih =>
      rw [List.foldlM_cons] at hfold
      obtain ⟨middle, hstep, hrest⟩ := exists_of_bind_eq_ok hfold
      obtain ⟨hsettled', hsame⟩ := hsettled.step hstep
      exact (ih hsettled' hrest).trans hsame

end Progress

/-- What the pairing of a sequence can come to. -/
inductive Verdict (tokens : List Token) : Except BracketError Matching → Prop
  | extraClose {front back : List Token} {close : Token} {block : Block}
      (htokens : tokens = front ++ close :: back) (hfront : Token.Spell front block)
      (hclose : close.command = .loopEnd) :
      Verdict tokens (.error (.extraClose close.position))
  | unclosed {front back : List Token} {opening : Token} {block : Block}
      {pending : List (Nat × Position)} (htokens : tokens = front ++ opening :: back)
      (hfront : Token.Leaves front pending) (hopening : opening.command = .loopStart)
      (hback : Token.Spell back block) : Verdict tokens (.error (.unclosed opening.position))
  | paired {block : Block} (hspell : Token.Spell tokens block) :
      Verdict tokens (.ok ⟨(block.partners 0).toArray⟩)

theorem ofTokens_of_spell {tokens : List Token} {block : Block}
    (hspell : Token.Spell tokens block) :
    ofTokens tokens = .ok ⟨(block.partners 0).toArray⟩ := by
  rw [ofTokens, Progress.foldlM_spell hspell]
  simp [Progress.start, bind, Except.bind, Progress.finish]

theorem verdict (tokens : List Token) : Verdict tokens (ofTokens tokens) := by
  cases hfold : tokens.foldlM Progress.step .start with
  | error error =>
      obtain ⟨front, close, back, block, htokens, hspell, hclose, rfl⟩ :=
        Progress.after_start.exists_extraClose hfold
      rw [ofTokens, hfold]
      exact .extraClose htokens hspell hclose
  | ok progress =>
      have hafter := Progress.after_start.foldlM hfold
      have hleaves : Token.Leaves tokens progress.pending := hafter.leaves
      rw [ofTokens, hfold]
      change Verdict tokens progress.finish
      obtain ⟨partners, pending⟩ := progress
      cases hleaves with
      | none hspell =>
          have hpaired := ofTokens_of_spell hspell
          rw [ofTokens, hfold] at hpaired
          cases hpaired
          exact .paired hspell
      | more hfront hopening hback => exact .unclosed rfl hfront hopening hback

theorem exists_spell {tokens : List Token} {matching : Matching}
    (hmatching : ofTokens tokens = .ok matching) : ∃ block, Token.Spell tokens block := by
  have hverdict := verdict tokens
  rw [hmatching] at hverdict
  cases hverdict with
  | paired hspell => exact ⟨_, hspell⟩

/-- Inside of a sequence, a loop and its end are each other's partners, whatever stands around. -/
theorem partner?_loop {front segment back : List Token} {body : Block} {matching : Matching}
    (hsegment : Token.Spell segment (.loop body .nil))
    (hmatching : ofTokens (front ++ (segment ++ back)) = .ok matching) :
    matching.partner? front.length = some (front.length + body.words.length + 1) ∧
      matching.partner? (front.length + body.words.length + 1) = some front.length := by
  rw [ofTokens, List.foldlM_append] at hmatching
  obtain ⟨final, hfold, hfinish⟩ := exists_of_bind_eq_ok hmatching
  obtain ⟨before, hfront, hfold⟩ := exists_of_bind_eq_ok hfold
  obtain ⟨hsize, hleaves⟩ := Progress.after_start.foldlM hfront
  rw [List.nil_append] at hsize hleaves
  rw [List.foldlM_append, Progress.foldlM_spell hsegment] at hfold
  have hpartners : matching.partners = final.partners := by
    unfold Progress.finish at hfinish
    split at hfinish <;> cases hfinish
    rfl
  have hentry : ∀ offset, offset < body.words.length + 2 →
      matching.partner? (front.length + offset) =
        ((Block.loop body .nil).partners front.length)[offset]?.join := by
    intro offset hoffset
    have hsettled : Progress.Settled
        ⟨before.partners ++ (Block.loop body .nil).partners before.partners.size, before.pending⟩
        (front.length + offset) := by
      refine ⟨?_, fun entry hpending => ?_⟩
      · simp [← Array.length_toList]
        simp [hsize]
        omega
      · have hindex := hleaves.index_lt entry hpending
        omega
    have hlength : before.partners.toList.length = front.length := hsize
    rw [partner?, hpartners, hsettled.getElem?_foldlM hfold, ← Array.getElem?_toList,
      Array.toList_appendList, List.getElem?_append_right (by omega), hlength,
      Nat.add_sub_cancel_left, hsize]
  constructor
  · have hfirst := hentry 0 (by omega)
    simpa [Block.partners] using hfirst
  · have hlast := hentry (body.words.length + 1) (by omega)
    rw [Nat.add_assoc, hlast]
    simp [Block.partners]

theorem pairs_partner? {tokens : List Token} {matching : Matching}
    (hmatching : ofTokens tokens = .ok matching) :
    Direct.Pairs (tokens.map Token.command) matching.partner? := by
  intro origin body hplaced
  obtain ⟨after, hafter⟩ := hplaced
  rw [Token.map_word, ← List.map_drop] at hafter
  obtain ⟨segment, back, hdrop, hsegment, -⟩ := List.map_eq_append_iff.mp hafter.symm
  have hlength : (tokens.take origin).length = origin := by
    have hsize := congrArg List.length hafter
    simp at hsize
    rw [List.length_take]
    omega
  have hspell : Token.Spell segment (.loop body .nil) := by
    rw [Token.Spell, hsegment, Block.words_loop, Block.words_nil]
  rw [← List.take_append_drop origin tokens, hdrop] at hmatching
  have hpartner := partner?_loop hspell hmatching
  rwa [hlength] at hpartner

end Matching

namespace Token

theorem Spell.ofTokens_eq {tokens : List Token} {block : Block} (hspell : Spell tokens block) :
    Block.ofTokens tokens = .ok block := by
  rw [Block.ofTokens, Block.ofCommands?, map_word, hspell, Block.ofWords?_words]

theorem spell_of_ofTokens {tokens : List Token} {block : Block}
    (hbuilt : Block.ofTokens tokens = .ok block) : Spell tokens block := by
  unfold Block.ofTokens at hbuilt
  split at hbuilt
  · next tree htree =>
      cases hbuilt
      rw [Spell, ← map_word, Block.words_of_ofWords? htree]
  · cases hbuilt

/-- By counts and by structure, the same sequences are well nested. -/
theorem nested_iff {tokens : List Token} :
    Nested (tokens.map command) ↔ ∃ block, Spell tokens block := by
  constructor
  · intro hnested
    have hverdict := Matching.verdict tokens
    generalize Matching.ofTokens tokens = result at hverdict
    cases hverdict with
    | extraClose htokens hfront hclose =>
        subst htokens
        exact absurd (hfront.isFirstOverrun hclose _).overrun (hnested.not_overrun _)
    | unclosed htokens hfront hopening hback =>
        subst htokens
        have hcount := (Leaves.more hfront hopening hback).count_eq
        rw [hnested.closed, List.length_cons] at hcount
        omega
    | paired hspell => exact ⟨_, hspell⟩
  · intro ⟨block, hspell⟩
    exact ⟨hspell.not_overrun, hspell.count_eq⟩

end Token

/-- If the brackets of a sequence can be paired, then it has a tree, and the sequence executed by
jumps between partners does what the tree does: one ends if and only if the other does, with the
same tape, pointer, output and rest of the input, and both write the same bytes in any case. -/
theorem Matching.jumps_agree {A : Type} [DecidableEq A] [AddAction ℤ A] {tokens : List Token}
    {matching : Matching} (hmatching : Matching.ofTokens tokens = .ok matching) :
    ∃ block, Block.ofTokens tokens = .ok block ∧ ∀ tape : Tape A,
      (Direct.process (tokens.map Token.command) matching.partner?).Agrees Block.process
        (fun result final => result = some final) (0, tape) (block.start tape) := by
  obtain ⟨block, hspell⟩ := Matching.exists_spell hmatching
  refine ⟨block, hspell.ofTokens_eq, ?_⟩
  intro tape
  have hwords : block.words = (tokens.map Token.command).map Command.word := by
    rw [Token.map_word, hspell]
  exact (Direct.tree_agrees (Matching.pairs_partner? hmatching) hwords tape).symm

/-- The tree of `+[[-.]>]` ends one cell to the right and writes a zero, for so do the jumps. -/
theorem Matching.jumps_agree_nested_loops :
    ∃ matching block, ∃ final : Tape ℤ,
      Matching.ofTokens (Token.scan true [0x2B, 0x5B, 0x5B, 0x2D, 0x2E, 0x5D, 0x3E, 0x5D]) =
        .ok matching ∧
      matching.pairs = [(1, 7), (2, 5)] ∧
      Block.ofTokens (Token.scan true [0x2B, 0x5B, 0x5B, 0x2D, 0x2E, 0x5D, 0x3E, 0x5D]) =
        .ok block ∧
      Block.process.Ends (block.start (.blank [])) final ∧
      final.pointer = 1 ∧ final.output = [0] := by
  have hmatching : ∃ matching,
      Matching.ofTokens (Token.scan true [0x2B, 0x5B, 0x5B, 0x2D, 0x2E, 0x5D, 0x3E, 0x5D]) =
        .ok matching ∧ matching.pairs = [(1, 7), (2, 5)] := ⟨_, rfl, rfl⟩
  obtain ⟨matching, hmatching, hpairs⟩ := hmatching
  obtain ⟨block, hblock, hagrees⟩ := Matching.jumps_agree (A := ℤ) hmatching
  cases hmatching
  obtain ⟨final, hends, hfinal⟩ := (hagrees (.blank [])).ends ⟨9, rfl⟩
  cases hfinal
  exact ⟨_, block, _, rfl, hpairs, hblock, hends, rfl, rfl⟩

end Brainfuck
