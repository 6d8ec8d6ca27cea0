import Mathlib.Data.List.Forall2
import Brainfuck.Proofs.Flattening
import Brainfuck.Proofs.Loops

/-! The pairs of brackets and the loops of the tree.

The brackets are paired and the tree is built in two passes that know nothing of each other. They
accept the same sequences, and the pairs that one finds are the loops that the other builds, in the
same order and with the same nesting. -/

namespace Brainfuck

/-- The numbers of the two words at the ends of a loop. -/
def Site.pair (site : Site) : Nat × Nat :=
  (site.origin, site.origin + site.loop.body.words.length + 1)

theorem Direct.stop_eq (site : Site) : Direct.layout.stop site = site.pair.2 + 1 := by
  rw [Layout.stop, whole_eq, Site.pair]
  simp
  omega

theorem Direct.layout_guarded (label : Nat) : layout.enter label ≠ [] ∧ layout.leave label ≠ [] :=
  ⟨List.cons_ne_nil _ _, List.cons_ne_nil _ _⟩

theorem Direct.placed_words (block : Block) : Placed block.words 0 (layout.code 0 block) := by
  rw [code_eq_words]
  exact List.prefix_refl _

namespace Matching

/-- The pair that starts at an entry of the table. -/
def started? : Option Nat × Nat → Option (Nat × Nat)
  | (some other, index) => if index < other then some (index, other) else none
  | (none, _) => none

theorem pairs_eq (matching : Matching) :
    matching.pairs = matching.partners.toList.zipIdx.filterMap started? := by
  refine List.filterMap_congr ?_
  rintro ⟨_ | other, index⟩ - <;> rfl

/-- The table of a tree has the pairs of its loops. -/
theorem filterMap_partners (number label place : Nat) (block : Block) :
    ((block.partners place).zipIdx place).filterMap started? =
      (Direct.layout.sites number label place block).map Site.pair := by
  induction block generalizing number label place with
  | nil => rfl
  | op operation rest ih =>
      rw [Block.partners, List.zipIdx_cons, List.filterMap_cons]
      exact ih ..
  | loop body rest ihBody ihRest =>
      have hopening : started? (some (place + body.words.length + 1), place) =
          some (place, place + body.words.length + 1) :=
        if_pos (by omega)
      have hclosing : started? (some place, place + 1 + body.words.length) = none :=
        if_neg (by omega)
      have hwhole : (Direct.layout.whole label body).length = body.words.length + 2 := by
        rw [Direct.whole_eq]
        simp
      rw [Block.partners, List.zipIdx_cons, List.filterMap_cons, hopening, List.zipIdx_append,
        List.filterMap_append, ihBody 0 (label + 2), Block.length_partners, List.zipIdx_cons,
        List.filterMap_cons, hclosing, Layout.sites, List.map_cons, List.map_append, List.map_map,
        hwhole, ← Nat.add_assoc]
      have hnext : place + 1 + body.words.length + 1 = place + body.words.length + 2 := by omega
      simp only [hnext, ihRest (number + 1) (label + 2 + 2 * body.loopCount)]
      rfl

theorem pairs_partners (block : Block) :
    Matching.pairs ⟨(block.partners 0).toArray⟩ =
      (Direct.layout.sites 0 0 0 block).map Site.pair := by
  rw [pairs_eq]
  exact filterMap_partners 0 0 0 block

/-- A pair of numbers has the brackets of a loop, and between them the commands of its body. -/
structure Spans (tokens : List Token) (pair : Nat × Nat) (loop : Loop) : Prop where
  ordered : pair.1 < pair.2
  opening : (tokens.map Token.command)[pair.1]? = some .loopStart
  closing : (tokens.map Token.command)[pair.2]? = some .loopEnd
  inside : (tokens.map Token.command).extract (pair.1 + 1) pair.2 = loop.body.flatten

theorem spans_pair {tokens : List Token} {block : Block} {site : Site}
    (hspell : Token.Spell tokens block)
    (hsite : site ∈ Direct.layout.sites 0 0 0 block) : Spans tokens site.pair site.loop := by
  obtain ⟨after, hafter⟩ := Layout.placed_of_mem_sites (Direct.placed_words block) hsite
  rw [Direct.whole_eq, ← hspell, ← List.map_drop] at hafter
  obtain ⟨segment, back, hdrop, hsegment, -⟩ := List.map_eq_append_iff.mp hafter.symm
  have hloop : Token.Spell segment (.loop site.loop.body .nil) := by
    rw [Token.Spell, hsegment, Block.words_loop, Block.words_nil]
  obtain ⟨opening, inner, closing, rest, rfl, hopening, hinner, hclosing, hrest⟩ :=
    Token.exists_of_spell_loop hloop
  cases Token.eq_nil_of_spell hrest
  have hcommands : Placed (tokens.map Token.command) site.origin
      (.loopStart :: (site.loop.body.flatten ++ [.loopEnd])) := by
    rw [Placed, ← List.map_drop, hdrop, (Block.flatten_of_spell hinner).2]
    exact ⟨back.map Token.command, by simp [hopening, hclosing]⟩
  have hlength : site.loop.body.flatten.length = site.loop.body.words.length := by
    rw [(Block.flatten_of_spell hinner).2, List.length_map, ← hinner, List.length_map]
  obtain ⟨hfirst, hrest⟩ := placed_cons.mp hcommands
  obtain ⟨hinside, hlast⟩ := placed_append.mp hrest
  have hpair : site.pair.2 = site.origin + 1 + site.loop.body.flatten.length := by
    rw [hlength, Site.pair, Nat.add_right_comm]
  refine ⟨?_, hfirst, ?_, ?_⟩
  · rw [hpair]
    change site.origin < _
    omega
  · rw [hpair]
    exact (placed_cons.mp hlast).1
  · rw [hpair]
    exact hinside.extract_eq

/-- What a table of pairs and a tree have in common. -/
structure Mirrors (tokens : List Token) (matching : Matching) (block : Block) : Prop where
  /-- All loops of the tree are listed. -/
  complete : ∀ loop, loop ∈ block.loops ↔
    loop.path ≠ [] ∧ block.bodyAt? loop.path = some loop.body
  distinct : (block.loops.map Loop.path).Nodup
  spans : List.Forall₂ (Spans tokens) matching.pairs block.loops
  nesting : ∀ outer ∈ matching.pairs.zip block.loops, ∀ inner ∈ matching.pairs.zip block.loops,
    outer.2.Encloses inner.2 ↔ outer.1.1 < inner.1.1 ∧ inner.1.2 < outer.1.2

theorem mirrors_of_spell {tokens : List Token} {block : Block}
    (hspell : Token.Spell tokens block) :
    Mirrors tokens ⟨(block.partners 0).toArray⟩ block := by
  have hloops : block.loops = (Direct.layout.sites 0 0 0 block).map Site.loop :=
    (Direct.layout.map_loop_sites 0 0 0 block).symm
  refine ⟨fun _ => Block.mem_loops, ?_, ?_, ?_⟩
  · rw [hloops, List.map_map, List.Nodup, List.pairwise_map]
    refine (Layout.arranged_sites Direct.layout_guarded 0 0 0 block).imp ?_
    intro first second harranged (heq : first.loop.path = second.loop.path)
    cases harranged with
    | inside hencloses _ _ => exact hencloses.2 heq
    | behind hpath _ _ => exact hpath (heq ▸ List.prefix_refl _)
  · rw [pairs_partners, hloops, List.forall₂_map_left_iff, List.forall₂_map_right_iff, List.forall₂_same]
    exact fun _ hsite => spans_pair hspell hsite
  · rw [pairs_partners, hloops, List.zip_map']
    intro outer houter inner hinner
    obtain ⟨first, hfirst, rfl⟩ := List.mem_map.mp houter
    obtain ⟨second, hsecond, rfl⟩ := List.mem_map.mp hinner
    have hencloses := Layout.encloses_iff_of_mem_sites Direct.layout_guarded hfirst hsecond
    rw [Direct.stop_eq, Direct.stop_eq, Nat.succ_lt_succ_iff] at hencloses
    exact hencloses

/-- The brackets of a sequence can be paired exactly if it has a tree. The pairs are then the loops
of the tree in the order in which they are met: each pair has the commands of the loop's body
between it, and one loop encloses another exactly if its pair does. -/
theorem pairs_mirror_loops (tokens : List Token) :
    (∃ matching block, Matching.ofTokens tokens = .ok matching ∧
      Block.ofTokens tokens = .ok block ∧ Mirrors tokens matching block) ∨
    ∃ bracketError error, Matching.ofTokens tokens = .error bracketError ∧
      Block.ofTokens tokens = .error error := by
  by_cases hspell : ∃ block, Token.Spell tokens block
  · obtain ⟨block, hspell⟩ := hspell
    exact .inl ⟨_, block, ofTokens_of_spell hspell, hspell.ofTokens_eq, mirrors_of_spell hspell⟩
  · right
    cases hmatching : Matching.ofTokens tokens with
    | ok matching => exact absurd (exists_spell hmatching) hspell
    | error bracketError =>
        cases hblock : Block.ofTokens tokens with
        | ok block => exact absurd ⟨block, Token.spell_of_ofTokens hblock⟩ hspell
        | error error => exact ⟨bracketError, error, rfl, rfl⟩

end Matching

end Brainfuck
