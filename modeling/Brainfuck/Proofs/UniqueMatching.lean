import Mathlib.Order.Bounds.Defs
import Brainfuck.Proofs.LoopPairs

/-! The one way to match the brackets of a sequence.

A matching is well nested if it gives each bracket one of the other kind, on its right side, and if
no two of its pairs cross. There is at most one such matching of a sequence: among the loop starts,
taken from the last one on, none leaves a choice. The table of partners is such a matching. -/

namespace Brainfuck

structure WellNested (commands : List Command) (partner? : Nat → Option Nat) : Prop where
  /-- Exactly the brackets have partners. -/
  none_iff : ∀ index, partner? index = none ↔
    commands[index]? ≠ some .loopStart ∧ commands[index]? ≠ some .loopEnd
  of_start : ∀ {start stop}, commands[start]? = some .loopStart → partner? start = some stop →
    start < stop ∧ commands[stop]? = some .loopEnd ∧ partner? stop = some start
  of_stop : ∀ {start stop}, commands[stop]? = some .loopEnd → partner? stop = some start →
    start < stop ∧ commands[start]? = some .loopStart ∧ partner? start = some stop
  uncrossed : ∀ {first firstStop second secondStop},
    commands[first]? = some .loopStart → partner? first = some firstStop →
    commands[second]? = some .loopStart → partner? second = some secondStop →
    ¬ (first < second ∧ second < firstStop ∧ firstStop < secondStop)

namespace WellNested

variable {commands : List Command} {partner? other? : Nat → Option Nat}

theorem exists_partner (hnested : WellNested commands partner?) {index : Nat}
    (hbracket : commands[index]? = some .loopStart ∨ commands[index]? = some .loopEnd) :
    ∃ partner, partner? index = some partner := by
  refine Option.ne_none_iff_exists'.mp fun hnone => ?_
  obtain ⟨hnotStart, hnotEnd⟩ := (hnested.none_iff index).mp hnone
  exact hbracket.elim hnotStart hnotEnd

/-- If all later loops have the same ends in two matchings, then a loop cannot end earlier in the
first than in the second: the second would have no loop left for that end. -/
theorem not_lt (hnested : WellNested commands partner?) (hother : WellNested commands other?)
    {start stop otherStop : Nat} (hstart : commands[start]? = some .loopStart)
    (hstop : partner? start = some stop) (hotherStop : other? start = some otherStop)
    (hlater : ∀ later, start < later → commands[later]? = some .loopStart →
      partner? later = other? later) : ¬ stop < otherStop := by
  intro hlt
  obtain ⟨hinside, hend, hback⟩ := hnested.of_start hstart hstop
  obtain ⟨opening, hopening⟩ := hother.exists_partner (.inr hend)
  obtain ⟨-, hopeningStart, hforth⟩ := hother.of_stop hend hopening
  rcases Nat.lt_trichotomy opening start with hbefore | rfl | hbehind
  · exact hother.uncrossed hopeningStart hforth hstart hotherStop ⟨hbefore, hinside, hlt⟩
  · cases hforth.symm.trans hotherStop
    exact Nat.lt_irrefl _ hlt
  · have hsame := (hlater opening hbehind hopeningStart).trans hforth
    obtain ⟨-, -, hback'⟩ := hnested.of_start hopeningStart hsame
    cases hback.symm.trans hback'
    exact Nat.lt_irrefl _ hbehind

theorem eq_of_loopStart (hnested : WellNested commands partner?)
    (hother : WellNested commands other?) (start : Nat)
    (hstart : commands[start]? = some .loopStart) : partner? start = other? start := by
  induction hrest : commands.length - start using Nat.strongRecOn generalizing start with
  | ind rest ih =>
      have hbound : start < commands.length := (List.getElem?_eq_some_iff.mp hstart).1
      have hlater : ∀ later, start < later → commands[later]? = some .loopStart →
          partner? later = other? later := by
        intro later hbehind hlaterStart
        exact ih (commands.length - later) (by omega) later hlaterStart rfl
      obtain ⟨stop, hstop⟩ := hnested.exists_partner (.inl hstart)
      obtain ⟨otherStop, hotherStop⟩ := hother.exists_partner (.inl hstart)
      have hnotBefore := hnested.not_lt hother hstart hstop hotherStop hlater
      have hnotBehind := hother.not_lt hnested hstart hotherStop hstop
        fun later hbehind hlaterStart => (hlater later hbehind hlaterStart).symm
      rw [hstop, hotherStop, Nat.le_antisymm (Nat.not_lt.mp hnotBehind) (Nat.not_lt.mp hnotBefore)]

/-- A sequence has at most one well-nested matching. -/
theorem unique (hnested : WellNested commands partner?) (hother : WellNested commands other?) :
    partner? = other? := by
  funext index
  by_cases hstart : commands[index]? = some .loopStart
  · exact hnested.eq_of_loopStart hother index hstart
  by_cases hend : commands[index]? = some .loopEnd
  · obtain ⟨opening, hopening⟩ := hnested.exists_partner (.inr hend)
    obtain ⟨-, hopeningStart, hforth⟩ := hnested.of_stop hend hopening
    rw [hnested.eq_of_loopStart hother opening hopeningStart] at hforth
    rw [hopening, (hother.of_start hopeningStart hforth).2.2]
  · rw [(hnested.none_iff index).mpr ⟨hstart, hend⟩, (hother.none_iff index).mpr ⟨hstart, hend⟩]

end WellNested

/-- Of two loops, the later one ends inside the earlier one, or starts behind it. -/
theorem Direct.pairs_apart {first second : Site} (harranged : layout.Arranged first second) :
    first.pair.1 < second.pair.1 ∧
      (second.pair.2 < first.pair.2 ∨ first.pair.2 < second.pair.1) := by
  cases harranged with
  | inside _ horigin hstop =>
      rw [stop_eq, stop_eq, Nat.succ_lt_succ_iff] at hstop
      exact ⟨horigin, .inl hstop⟩
  | behind _ _ horigin =>
      rw [stop_eq] at horigin
      have hordered : first.pair.1 < first.pair.2 := by
        simp only [Site.pair]
        omega
      exact ⟨Nat.lt_trans hordered horigin, .inr horigin⟩

/-! The brackets of a sequence that spells a tree are the ends of its loops. -/

namespace Token.Spell

variable {tokens : List Token} {block : Block} (hspell : Spell tokens block) {index : Nat}

include hspell

theorem part_of_getElem? {command : Command}
    (hcommand : (tokens.map Token.command)[index]? = some command) :
    Direct.layout.Part (Direct.layout.sites 0 0 0 block) index command.word := by
  have hword : block.words[index]? = some command.word := by
    rw [← hspell, ← map_word, List.getElem?_map, hcommand, Option.map_some]
  rw [← Direct.code_eq_words 0] at hword
  have hpart := Layout.part_of_getElem? 0 0 hword
  rwa [Nat.zero_add] at hpart

theorem exists_site_of_loopStart
    (hstart : (tokens.map Token.command)[index]? = some .loopStart) :
    ∃ site ∈ Direct.layout.sites 0 0 0 block, site.pair.1 = index := by
  cases hspell.part_of_getElem? hstart with
  | op hitem => cases List.mem_singleton.mp hitem
  | @enter site offset hsite hitem hplace =>
      obtain rfl : offset = 0 := Nat.lt_one_iff.mp (List.getElem?_eq_some_iff.mp hitem).1
      exact ⟨site, hsite, hplace.symm⟩
  | leave _ hitem _ => cases List.mem_singleton.mp (List.mem_of_getElem? hitem)

theorem exists_site_of_loopEnd
    (hend : (tokens.map Token.command)[index]? = some .loopEnd) :
    ∃ site ∈ Direct.layout.sites 0 0 0 block, site.pair.2 = index := by
  cases hspell.part_of_getElem? hend with
  | op hitem => cases List.mem_singleton.mp hitem
  | enter _ hitem _ => cases List.mem_singleton.mp (List.mem_of_getElem? hitem)
  | @leave site offset hsite hitem hplace =>
      obtain rfl : offset = 0 := Nat.lt_one_iff.mp (List.getElem?_eq_some_iff.mp hitem).1
      refine ⟨site, hsite, ?_⟩
      rw [hplace, Direct.code_eq_words]
      exact Nat.add_right_comm ..

theorem placed_of_mem_sites {site : Site} (hsite : site ∈ Direct.layout.sites 0 0 0 block) :
    Placed ((tokens.map Token.command).map Command.word) site.origin
      (.enter :: (site.loop.body.words ++ [.leave])) := by
  rw [map_word, hspell, ← Direct.whole_eq site.label]
  exact Layout.placed_of_mem_sites (Direct.placed_words block) hsite

end Token.Spell

namespace Matching

/-- In the table of a tree exactly the operations are without a partner. -/
theorem forall₂_partners (index : Nat) (block : Block) :
    List.Forall₂ (fun word entry => entry = none ↔ ∃ operation, word = .op operation)
      block.words (block.partners index) := by
  induction block generalizing index with
  | nil =>
      rw [Block.words_nil]
      exact .nil
  | op operation rest ih =>
      rw [Block.words_op]
      exact .cons (iff_of_true rfl ⟨operation, rfl⟩) (ih _)
  | loop body rest ihBody ihRest =>
      rw [Block.words_loop]
      exact .cons (by simp) (List.rel_append (ihBody _) (.cons (by simp) (ihRest _)))

section Table

variable {tokens : List Token} {matching : Matching} (hmatching : ofTokens tokens = .ok matching)

include hmatching

theorem partner?_eq_none_iff (index : Nat) :
    matching.partner? index = none ↔
      (tokens.map Token.command)[index]? ≠ some .loopStart ∧
        (tokens.map Token.command)[index]? ≠ some .loopEnd := by
  obtain ⟨block, hspell⟩ := exists_spell hmatching
  cases (ofTokens_of_spell hspell).symm.trans hmatching
  obtain ⟨hlength, hentries⟩ := List.forall₂_iff_get.mp (forall₂_partners 0 block)
  have hwords : block.words[index]? = (tokens.map Token.command)[index]?.map Command.word := by
    rw [← hspell, ← Token.map_word, List.getElem?_map]
  rw [partner?, List.getElem?_toArray]
  rcases Nat.lt_or_ge index block.words.length with hinside | houtside
  · have hentry := hentries index hinside (hlength ▸ hinside)
    rw [List.getElem?_eq_getElem hinside] at hwords
    obtain ⟨command, hcommand, hword⟩ := Option.map_eq_some_iff.mp hwords.symm
    rw [List.getElem?_eq_getElem (hlength ▸ hinside), Option.join_some, hcommand]
    refine hentry.trans ?_
    rw [List.get_eq_getElem, ← hword]
    cases command <;> simp [Command.word]
  · rw [List.getElem?_eq_none (hlength ▸ houtside)]
    rw [List.getElem?_eq_none houtside, eq_comm, Option.map_eq_none_iff] at hwords
    simp [hwords]

variable {block : Block} (hspell : Token.Spell tokens block) {site : Site}
  (hsite : site ∈ Direct.layout.sites 0 0 0 block)

include hspell

theorem pairs_of_spell : matching.pairs = (Direct.layout.sites 0 0 0 block).map Site.pair := by
  cases (ofTokens_of_spell hspell).symm.trans hmatching
  exact pairs_partners block

theorem pairs_increasing : matching.pairs.Pairwise fun first second => first.1 < second.1 := by
  rw [pairs_of_spell hmatching hspell, List.pairwise_map]
  refine (Layout.arranged_sites Direct.layout_guarded 0 0 0 block).imp ?_
  exact fun harranged => (Direct.pairs_apart harranged).1

include hsite

theorem partner?_pair :
    matching.partner? site.pair.1 = some site.pair.2 ∧
      matching.partner? site.pair.2 = some site.pair.1 :=
  pairs_partner? hmatching _ _ (hspell.placed_of_mem_sites hsite)

omit hmatching in
theorem isLeast_pair :
    IsLeast {stop | site.pair.1 < stop ∧
      Direct.balanced ((tokens.map Token.command).extract site.pair.1 (stop + 1))}
      site.pair.2 := by
  obtain ⟨back, hback⟩ := hspell.placed_of_mem_sites hsite
  have hloop : ((tokens.map Token.command).map Command.word).drop site.origin =
      .enter :: (site.loop.body.words ++ .leave :: back) := by
    rw [← hback]
    simp
  refine ⟨⟨(spans_pair hspell hsite).ordered, Direct.balanced_loop hloop⟩, ?_⟩
  rintro stop ⟨hbehind, hbalanced⟩
  by_contra hearly
  have hunbalanced := Direct.not_balanced_front hloop hbehind (Nat.not_le.mp hearly)
  cases hbalanced.symm.trans hunbalanced

end Table

theorem wellNested_partner? {tokens : List Token} {matching : Matching}
    (hmatching : ofTokens tokens = .ok matching) :
    WellNested (tokens.map Token.command) matching.partner? := by
  obtain ⟨block, hspell⟩ := exists_spell hmatching
  refine ⟨partner?_eq_none_iff hmatching, ?_, ?_, ?_⟩
  · intro start stop hstart hstop
    obtain ⟨site, hsite, rfl⟩ := hspell.exists_site_of_loopStart hstart
    obtain ⟨hforth, hback⟩ := partner?_pair hmatching hspell hsite
    cases hforth.symm.trans hstop
    have hspans := spans_pair hspell hsite
    exact ⟨hspans.ordered, hspans.closing, hback⟩
  · intro start stop hend hstart
    obtain ⟨site, hsite, rfl⟩ := hspell.exists_site_of_loopEnd hend
    obtain ⟨hforth, hback⟩ := partner?_pair hmatching hspell hsite
    cases hback.symm.trans hstart
    have hspans := spans_pair hspell hsite
    exact ⟨hspans.ordered, hspans.opening, hforth⟩
  · intro first firstStop second secondStop hfirst hfirstStop hsecond hsecondStop
    obtain ⟨outer, houter, rfl⟩ := hspell.exists_site_of_loopStart hfirst
    obtain ⟨inner, hinner, rfl⟩ := hspell.exists_site_of_loopStart hsecond
    cases (partner?_pair hmatching hspell houter).1.symm.trans hfirstStop
    cases (partner?_pair hmatching hspell hinner).1.symm.trans hsecondStop
    rintro ⟨hbehind, hinside, hcrossed⟩
    rcases Layout.arranged_of_mem_sites Direct.layout_guarded houter hinner with
      rfl | harranged | harranged
    · exact Nat.lt_irrefl _ hbehind
    · have hapart := Direct.pairs_apart harranged
      omega
    · have hapart := Direct.pairs_apart harranged
      omega

theorem mem_pairs {tokens : List Token} {matching : Matching}
    (hmatching : ofTokens tokens = .ok matching) {start stop : Nat} :
    (start, stop) ∈ matching.pairs ↔
      (tokens.map Token.command)[start]? = some .loopStart ∧
        matching.partner? start = some stop := by
  obtain ⟨block, hspell⟩ := exists_spell hmatching
  rw [pairs_of_spell hmatching hspell, List.mem_map]
  constructor
  · rintro ⟨site, hsite, hpair⟩
    obtain ⟨rfl, rfl⟩ := Prod.mk.inj hpair
    exact ⟨(spans_pair hspell hsite).opening, (partner?_pair hmatching hspell hsite).1⟩
  · rintro ⟨hstart, hstop⟩
    obtain ⟨site, hsite, rfl⟩ := hspell.exists_site_of_loopStart hstart
    cases (partner?_pair hmatching hspell hsite).1.symm.trans hstop
    exact ⟨site, hsite, rfl⟩

/-- If the brackets of a sequence can be paired, then the table has an entry for each token, it is
the only well-nested matching, the partner of a loop start is the first place up to which as many
loops end as start, and the pairs are listed once each, in the order of their starts. -/
theorem table_is_unique_matching {tokens : List Token} {matching : Matching}
    (hmatching : ofTokens tokens = .ok matching) :
    matching.size = tokens.length ∧
    WellNested (tokens.map Token.command) matching.partner? ∧
    (∀ other?, WellNested (tokens.map Token.command) other? → other? = matching.partner?) ∧
    (∀ start, (tokens.map Token.command)[start]? = some .loopStart →
      ∃ stop, matching.partner? start = some stop ∧
        IsLeast {stop | start < stop ∧
          ((tokens.map Token.command).extract start (stop + 1)).count .loopStart =
            ((tokens.map Token.command).extract start (stop + 1)).count .loopEnd} stop) ∧
    matching.pairs.Pairwise (fun first second => first.1 < second.1) ∧
    ∀ start stop, (start, stop) ∈ matching.pairs ↔
      (tokens.map Token.command)[start]? = some .loopStart ∧
        matching.partner? start = some stop := by
  obtain ⟨block, hspell⟩ := exists_spell hmatching
  have hnested := wellNested_partner? hmatching
  refine ⟨?_, hnested, fun _ hother => hother.unique hnested, ?_,
    pairs_increasing hmatching hspell, fun _ _ => mem_pairs hmatching⟩
  · cases (ofTokens_of_spell hspell).symm.trans hmatching
    rw [size, List.size_toArray, Block.length_partners, ← hspell, List.length_map]
  · intro start hstart
    obtain ⟨site, hsite, rfl⟩ := hspell.exists_site_of_loopStart hstart
    refine ⟨site.pair.2, (partner?_pair hmatching hspell hsite).1, ?_⟩
    have hleast := isLeast_pair hspell hsite
    simpa only [Direct.balanced, beq_iff_eq] using hleast

/-- The brackets of `[[][]]` have one matching only. -/
theorem table_is_unique_matching_two_inner_loops :
    ∃ matching,
      ofTokens (Token.scan true [0x5B, 0x5B, 0x5D, 0x5B, 0x5D, 0x5D]) = .ok matching ∧
      matching.pairs = [(0, 5), (1, 2), (3, 4)] ∧
      ∀ other?,
        WellNested [.loopStart, .loopStart, .loopEnd, .loopStart, .loopEnd, .loopEnd] other? →
          other? = matching.partner? := by
  have hmatching : ∃ matching,
      ofTokens (Token.scan true [0x5B, 0x5B, 0x5D, 0x5B, 0x5D, 0x5D]) = .ok matching ∧
        matching.pairs = [(0, 5), (1, 2), (3, 4)] := ⟨_, rfl, rfl⟩
  obtain ⟨matching, hmatching, hpairs⟩ := hmatching
  exact ⟨matching, hmatching, hpairs, (table_is_unique_matching hmatching).2.2.1⟩

end Matching

end Brainfuck
