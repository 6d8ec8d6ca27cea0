import Mathlib.Data.List.Infix
import Brainfuck.Proofs.CanonicalForm
import Brainfuck.Proofs.Loops

/-! Folding what has been folded.

A step of folding either puts a word behind the others as it is, or makes their number no greater.
So folding leaves a tree alone exactly if each of its words is put down as it is: no operation is
idle, and none is taken up by the one before it.

Folded trees have no idle operations and no neighbouring additions, but neighbouring moves may be
left: a sum that was out of range when two moves met may come into range with what the second one
takes up later. As long as the moves of a block do not go too far, none are left. -/

namespace Brainfuck

namespace Op

/-- What an operation changes by a distance. -/
def axis? : Op → Option Axis
  | .add _ => some .cell
  | .move _ => some .pointer
  | _ => none

/-- Two neighbours that stay two. -/
def Apart (first second : Op) : Prop :=
  first.merge? second = none

def ApartOn (axes : Axis → Prop) (first second : Op) : Prop :=
  ∀ axis, axes axis → first.axis? = some axis → second.axis? ≠ some axis

/-- How far an operation moves the pointer. -/
def distance : Op → Nat
  | .move delta => delta.toInt.natAbs
  | _ => 0

section Merge

variable {last operation merged : Op}

theorem axis?_of_merge? (hmerge : last.merge? operation = some merged) :
    merged.axis? = last.axis? := by
  cases last with
  | add left =>
      cases operation <;> cases hmerge
      rfl
  | move left =>
      cases operation with
      | move right =>
          obtain ⟨total, -, rfl⟩ := Option.map_eq_some_iff.mp hmerge
          rfl
      | _ => cases hmerge
  | _ => cases hmerge

theorem distance_of_merge? (hmerge : last.merge? operation = some merged) :
    merged.distance ≤ last.distance + operation.distance := by
  cases last with
  | add left =>
      cases operation <;> cases hmerge
      exact Nat.zero_le _
  | move left =>
      cases operation with
      | move right =>
          obtain ⟨total, hsum, rfl⟩ := Option.map_eq_some_iff.mp hmerge
          change total.toInt.natAbs ≤ left.toInt.natAbs + right.toInt.natAbs
          rw [toInt_of_sum? hsum]
          exact Int.natAbs_add_le _ _
      | _ => cases hmerge
  | _ => cases hmerge

theorem exists_of_axis? {axis : Axis} (haxis : operation.axis? = some axis) :
    ∃ delta, operation = axis.op delta := by
  cases operation <;> cases haxis <;> exact ⟨_, rfl⟩

/-- Additions always merge. -/
theorem Apart.apartOn_cell (hapart : last.Apart operation) :
    last.ApartOn (· = .cell) operation := by
  rintro _ rfl hlast hoperation
  obtain ⟨left, rfl⟩ := exists_of_axis? hlast
  obtain ⟨right, rfl⟩ := exists_of_axis? hoperation
  cases hapart

/-- Within the 64-bit range, moves merge as well. -/
theorem Apart.apartOn (hapart : last.Apart operation)
    (hdistance : last.distance + operation.distance < 2 ^ 63) :
    last.ApartOn (fun _ => True) operation := by
  intro axis _ hlast hoperation
  cases axis with
  | cell => exact hapart.apartOn_cell .cell rfl hlast hoperation
  | pointer =>
      obtain ⟨left, rfl⟩ := exists_of_axis? hlast
      obtain ⟨right, rfl⟩ := exists_of_axis? hoperation
      obtain ⟨total, hmerge, -⟩ := Axis.exists_merge?_op .pointer hdistance
      cases hapart.symm.trans hmerge

/-- Operations that are not on one axis never merge. -/
theorem ApartOn.apart (hapart : last.ApartOn (fun _ => True) operation) :
    last.Apart operation := by
  refine Option.eq_none_iff_forall_ne_some.mpr fun merged hmerge => ?_
  cases last with
  | add left => cases operation <;> first | exact hapart .cell trivial rfl rfl | cases hmerge
  | move left =>
      cases operation <;> first | exact hapart .pointer trivial rfl rfl | cases hmerge
  | _ => cases hmerge

end Merge

end Op

/-! Words in their places. As in a run that is being folded, they stand in reverse order. -/

namespace Word

/-- A word may stand behind `done`. If it is an operation, it is not idle, and it is apart from an
operation right in front of it. -/
def Fits (apart : Op → Op → Prop) (done : List Word) : Word → Prop
  | .op operation => operation.isIdle = false ∧
      ∀ last earlier, done = .op last :: earlier → apart last operation
  | _ => True

def Spaced (apart : Op → Op → Prop) : List Word → Prop
  | [] => True
  | word :: done => Fits apart done word ∧ Spaced apart done

theorem length_keep_le (operation : Op) (done : List Word) :
    (keep operation done).length ≤ done.length + 1 := by
  unfold keep
  split
  · exact Nat.le_succ _
  · exact Nat.le_refl _

/-- A word is put down as it is, or it makes the words no more. -/
theorem absorb_cases (done : List Word) (word : Word) :
    (Fits Op.Apart done word ∧ absorb done word = word :: done) ∨
      (¬ Fits Op.Apart done word ∧ (absorb done word).length ≤ done.length) := by
  cases word with
  | enter => exact .inl ⟨trivial, rfl⟩
  | leave => exact .inl ⟨trivial, rfl⟩
  | op operation =>
      by_cases hapart : ∀ last earlier, done = .op last :: earlier → last.Apart operation
      · rw [absorb_apart hapart, keep]
        cases hidle : operation.isIdle with
        | false => exact .inl ⟨⟨hidle, hapart⟩, rfl⟩
        | true =>
            refine .inr ⟨?_, Nat.le_refl _⟩
            intro hfits
            cases hidle.symm.trans hfits.1
      · refine .inr ⟨fun hfits => hapart hfits.2, ?_⟩
        push Not at hapart
        obtain ⟨last, earlier, rfl, hmerges⟩ := hapart
        obtain ⟨merged, hmerge⟩ := Option.ne_none_iff_exists'.mp hmerges
        rw [absorb_merge hmerge]
        exact length_keep_le merged earlier

theorem length_absorb_le (done : List Word) (word : Word) :
    (absorb done word).length ≤ done.length + 1 := by
  rcases absorb_cases done word with ⟨-, hkept⟩ | ⟨-, hshorter⟩
  · rw [hkept, List.length_cons]
  · exact Nat.le_succ_of_le hshorter

theorem length_foldl_absorb_le (words done : List Word) :
    (words.foldl absorb done).length ≤ done.length + words.length := by
  induction words generalizing done with
  | nil => exact Nat.le_refl _
  | cons word words ih =>
      have hstep := length_absorb_le done word
      have hrest := ih (absorb done word)
      rw [List.foldl_cons, List.length_cons]
      omega

/-- Folding leaves a sequence alone exactly if no step takes anything up. -/
theorem foldl_absorb_eq_reverse_iff (words : List Word) :
    words.foldl absorb [] = words.reverse ↔ Spaced Op.Apart words.reverse := by
  induction words using List.reverseRecOn with
  | nil => exact iff_of_true rfl trivial
  | append_singleton words word ih =>
      rw [List.foldl_append, List.foldl_cons, List.foldl_nil, List.reverse_append,
        List.reverse_singleton, List.singleton_append]
      constructor
      · intro hsame
        rcases absorb_cases (words.foldl absorb []) word with ⟨hfits, hkept⟩ | ⟨-, hshorter⟩
        · have hwords := List.tail_eq_of_cons_eq (hkept.symm.trans hsame)
          exact ⟨hwords ▸ hfits, ih.mp hwords⟩
        · have hlength := length_foldl_absorb_le words []
          rw [hsame, List.length_cons, List.length_reverse] at hshorter
          rw [List.length_nil] at hlength
          omega
      · intro ⟨hfits, hspaced⟩
        rw [ih.mpr hspaced]
        rcases absorb_cases words.reverse word with ⟨-, hkept⟩ | ⟨hnot, -⟩
        · exact hkept
        · exact absurd hfits hnot

/-- Spacing, told without an order of reading. -/
theorem spaced_reverse_iff {apart : Op → Op → Prop} {words : List Word} :
    Spaced apart words.reverse ↔
      (∀ operation, .op operation ∈ words → operation.isIdle = false) ∧
        ∀ first second, [.op first, .op second] <:+: words → apart first second := by
  induction words using List.reverseRecOn with
  | nil => simp [Spaced]
  | append_singleton words word ih =>
      have hlast : ∀ first second : Op, [.op first, .op second] <:+ words ++ [word] ↔
          word = .op second ∧ ∃ earlier, words.reverse = .op first :: earlier := by
        intro first second
        rw [← List.reverse_prefix, List.reverse_append]
        refine List.cons_prefix_cons.trans (and_congr eq_comm ?_)
        exact exists_congr fun earlier => eq_comm
      rw [List.reverse_append, List.reverse_singleton, List.singleton_append, Spaced, ih]
      simp only [List.mem_append, List.mem_singleton, List.infix_concat_iff, hlast]
      constructor
      · rintro ⟨hfits, hbusy, hapart⟩
        refine ⟨?_, ?_⟩
        · rintro operation (hmem | rfl)
          · exact hbusy operation hmem
          · exact hfits.1
        · rintro first second (⟨rfl, earlier, hwords⟩ | hinside)
          · exact hfits.2 first earlier hwords
          · exact hapart first second hinside
      · intro ⟨hbusy, hapart⟩
        refine ⟨?_, fun operation hmem => hbusy operation (.inl hmem),
          fun first second hinside => hapart first second (.inr hinside)⟩
        cases word with
        | op operation =>
            exact ⟨hbusy operation (.inr rfl),
              fun last earlier hwords => hapart last operation (.inl ⟨rfl, earlier, hwords⟩)⟩
        | enter => trivial
        | leave => trivial

section Spaced

variable {axes : Axis → Prop} {done : List Word}

theorem Spaced.keep {operation : Op} (hdone : Spaced (Op.ApartOn axes) done)
    (hapart : ∀ last earlier, done = .op last :: earlier → last.ApartOn axes operation) :
    Spaced (Op.ApartOn axes) (Word.keep operation done) := by
  unfold Word.keep
  split
  · exact hdone
  · next hbusy => exact ⟨⟨Bool.eq_false_iff.mpr hbusy, hapart⟩, hdone⟩

/-- What is merged stays on its axis, so it is apart from what stands before it. -/
theorem Spaced.absorb {word : Word} (hdone : Spaced (Op.ApartOn axes) done)
    (hrefused : ∀ last earlier operation, done = .op last :: earlier → word = .op operation →
      last.Apart operation → last.ApartOn axes operation) :
    Spaced (Op.ApartOn axes) (Word.absorb done word) := by
  cases word with
  | enter => exact ⟨trivial, hdone⟩
  | leave => exact ⟨trivial, hdone⟩
  | op operation =>
      by_cases hapart : ∀ last earlier, done = .op last :: earlier → last.Apart operation
      · rw [absorb_apart hapart]
        refine hdone.keep fun last earlier hwords => ?_
        exact hrefused last earlier operation hwords rfl (hapart last earlier hwords)
      · push Not at hapart
        obtain ⟨last, earlier, rfl, hmerges⟩ := hapart
        obtain ⟨merged, hmerge⟩ := Option.ne_none_iff_exists'.mp hmerges
        obtain ⟨⟨-, hbefore⟩, hearlier⟩ := hdone
        rw [absorb_merge hmerge]
        refine hearlier.keep fun before rest hwords axis haxis hlast => ?_
        rw [Op.axis?_of_merge? hmerge]
        exact hbefore before rest hwords axis haxis hlast

theorem Spaced.append_enter {apart : Op → Op → Prop} {inner done : List Word}
    (hinner : Spaced apart inner) (hdone : Spaced apart done) :
    Spaced apart (inner ++ .enter :: done) := by
  induction inner with
  | nil => exact ⟨trivial, hdone⟩
  | cons word inner ih =>
      obtain ⟨hfits, hinner⟩ := hinner
      refine ⟨?_, ih hinner⟩
      cases word with
      | enter => trivial
      | leave => trivial
      | op operation =>
          refine ⟨hfits.1, ?_⟩
          intro last earlier hwords
          cases inner with
          | nil => cases hwords
          | cons word inner =>
              cases hwords
              exact hfits.2 last inner rfl

end Spaced

/-- However far the moves go, no two additions become neighbours. -/
theorem spaced_foldl_absorb {words done : List Word}
    (hdone : Spaced (Op.ApartOn (· = .cell)) done) :
    Spaced (Op.ApartOn (· = .cell)) (words.foldl absorb done) := by
  induction words generalizing done with
  | nil => exact hdone
  | cons word words ih =>
      exact ih (hdone.absorb fun _ _ _ _ _ hapart => hapart.apartOn_cell)

end Word

namespace Block

/-- Two operations stand next to each other somewhere in a tree. -/
def Neighbours (block : Block) (first second : Op) : Prop :=
  [.op first, .op second] <:+: block.words

/-- How far the moves of a block go together, those in its loops apart. -/
def travel : Block → Nat
  | .nil => 0
  | .op operation rest => operation.distance + rest.travel
  | .loop _ rest => rest.travel

/-- In no block of a tree do the moves go farther than a 64-bit distance. -/
def Bounded (block : Block) : Prop :=
  block.travel < 2 ^ 63 ∧ ∀ loop ∈ block.loops, loop.body.travel < 2 ^ 63

theorem foldRuns_eq_self_iff (block : Block) :
    block.foldRuns = block ↔ Word.Spaced Op.Apart block.words.reverse := by
  rw [← words_inj, words_foldRuns, List.reverse_eq_iff, Word.foldl_absorb_eq_reverse_iff]

theorem spaced_foldRuns (block : Block) :
    Word.Spaced (Op.ApartOn (· = .cell)) block.foldRuns.words.reverse := by
  rw [words_foldRuns, List.reverse_reverse]
  exact Word.spaced_foldl_absorb trivial

/-- A folded tree is a fixed point exactly if its neighbouring moves cannot be merged. -/
theorem foldRuns_foldRuns_eq_iff (block : Block) :
    block.foldRuns.foldRuns = block.foldRuns ↔
      ∀ left right, block.foldRuns.Neighbours (.move left) (.move right) →
        Op.sum? left right = none := by
  obtain ⟨hbusy, hcells⟩ := Word.spaced_reverse_iff.mp block.spaced_foldRuns
  rw [foldRuns_eq_self_iff, Word.spaced_reverse_iff]
  constructor
  · intro ⟨_, hapart⟩ left right hneighbours
    exact Option.map_eq_none_iff.mp (hapart _ _ hneighbours)
  · intro hmoves
    refine ⟨hbusy, ?_⟩
    intro first second hneighbours
    by_cases hpointer : first.axis? = some .pointer ∧ second.axis? = some .pointer
    · obtain ⟨left, rfl⟩ := Op.exists_of_axis? hpointer.1
      obtain ⟨right, rfl⟩ := Op.exists_of_axis? hpointer.2
      exact Option.map_eq_none_iff.mpr (hmoves left right hneighbours)
    · refine Op.ApartOn.apart fun axis _ hfirst hsecond => ?_
      cases axis with
      | cell => exact hcells first second hneighbours .cell rfl hfirst hsecond
      | pointer => exact hpointer ⟨hfirst, hsecond⟩

/-! Bounded moves. -/

theorem travel_keep_le (operation : Op) (done : Block) :
    (keep operation done).travel ≤ operation.distance + done.travel := by
  unfold keep
  split
  · exact Nat.le_add_left _ _
  · exact Nat.le_refl _

theorem travel_absorb_le (done : Block) (operation : Op) :
    (absorb done operation).travel ≤ done.travel + operation.distance := by
  unfold absorb
  split
  · next last earlier =>
      split
      · next merged hmerge =>
          have hkeep := travel_keep_le merged earlier
          have hmerged := Op.distance_of_merge? hmerge
          rw [travel]
          omega
      · have hkeep := travel_keep_le operation (.op last earlier)
        omega
  · have hkeep := travel_keep_le operation done
    omega

theorem spaced_backward_nil (apart : Op → Op → Prop) : Word.Spaced apart (backward nil) := by
  rw [backward_nil]
  trivial

/-- If the moves of a block do not go too far, then no sum of them is refused. -/
theorem spaced_fold (index : Nat) (block done : Block)
    (hdone : Word.Spaced (Op.ApartOn fun _ => True) done.backward)
    (htravel : done.travel + block.travel < 2 ^ 63)
    (hloops : ∀ loop ∈ block.loopsFrom index, loop.body.travel < 2 ^ 63) :
    Word.Spaced (Op.ApartOn fun _ => True) (block.fold foldingRuns done).backward := by
  induction block generalizing index done with
  | nil => exact hdone
  | op operation rest ih =>
      have hnothing : ∀ last earlier, ([] : List Word) ≠ .op last :: earlier := by
        rintro last earlier ⟨⟩
      have habsorb := backward_absorb done operation hnothing
      have hlonger := travel_absorb_le done operation
      rw [List.append_nil, List.append_nil] at habsorb
      rw [travel] at htravel
      refine ih (index + 1) (absorb done operation) ?_ (by omega) hloops
      rw [habsorb]
      refine hdone.absorb ?_
      rintro last earlier _ hwords ⟨⟩ hapart
      refine hapart.apartOn ?_
      cases done with
      | nil => simp at hwords
      | op last' earlier' =>
          rw [backward_op] at hwords
          cases hwords
          rw [travel] at htravel
          omega
      | loop body earlier' => simp at hwords
  | loop body rest ihBody ihRest =>
      obtain ⟨hbody, hinner, hlater⟩ := (forall_loopsFrom_loop (·.travel < 2 ^ 63)).mp hloops
      have hfolded := ihBody 0 .nil (spaced_backward_nil _) (by simpa [travel] using hbody) hinner
      refine ihRest (index + 1) (.loop (body.fold foldingRuns .nil).reverse done) ?_ htravel hlater
      rw [backward_loop, ← backward]
      exact ⟨trivial, hfolded.append_enter hdone⟩

theorem Bounded.spaced_foldRuns {block : Block} (hbounded : block.Bounded) :
    Word.Spaced (Op.ApartOn fun _ => True) block.foldRuns.words.reverse := by
  have hspaced := spaced_fold 0 block .nil (spaced_backward_nil _)
    (by simpa [travel] using hbounded.1) hbounded.2
  rwa [backward, ← walk_eq_fold, ← foldRuns] at hspaced

theorem foldRuns_eq_of_spaced {block : Block}
    (hspaced : Word.Spaced (Op.ApartOn fun _ => True) block.words.reverse) :
    block.foldRuns = block := by
  rw [Word.spaced_reverse_iff] at hspaced
  rw [foldRuns_eq_self_iff, Word.spaced_reverse_iff]
  exact ⟨hspaced.1, fun first second hneighbours => (hspaced.2 first second hneighbours).apart⟩

theorem Bounded.foldRuns_foldRuns_eq {block : Block} (hbounded : block.Bounded) :
    block.foldRuns.foldRuns = block.foldRuns :=
  foldRuns_eq_of_spaced hbounded.spaced_foldRuns

end Block

namespace Token

theorem distance_word {token : Token} {operation : Op} (hword : token.word = .op operation) :
    operation.distance ≤ 1 := by
  obtain ⟨command, position⟩ := token
  cases command <;> cases hword <;> decide

/-- The moves of a tree go no farther than the tree has tokens. -/
theorem Spell.travel_le {tokens : List Token} {block : Block} (hspell : Spell tokens block)
    (index : Nat) :
    block.travel ≤ tokens.length ∧
      ∀ loop ∈ block.loopsFrom index, loop.body.travel ≤ tokens.length := by
  induction block generalizing index tokens with
  | nil => exact ⟨Nat.zero_le _, List.forall_mem_nil _⟩
  | op operation rest ih =>
      obtain ⟨token, back, rfl, hword, hback⟩ := exists_of_spell_op hspell
      obtain ⟨htravel, hloops⟩ := ih hback (index + 1)
      have hdistance := distance_word hword
      rw [Block.travel, List.length_cons]
      exact ⟨by omega, fun loop hloop => Nat.le_succ_of_le (hloops loop hloop)⟩
  | loop body rest ihBody ihRest =>
      obtain ⟨opening, inner, closing, back, rfl, -, hinner, -, hback⟩ :=
        exists_of_spell_loop hspell
      obtain ⟨hbody, hinnerLoops⟩ := ihBody hinner 0
      obtain ⟨hrest, hlaterLoops⟩ := ihRest hback (index + 1)
      have hlength : (opening :: (inner ++ closing :: back)).length =
          inner.length + back.length + 2 := by
        simp
        omega
      rw [hlength, Block.travel]
      refine ⟨by omega, (Block.forall_loopsFrom_loop (·.travel ≤ _)).mpr ⟨by omega, ?_, ?_⟩⟩
      · intro loop hloop
        have hinside := hinnerLoops loop hloop
        omega
      · intro loop hloop
        have hbehind := hlaterLoops loop hloop
        omega

theorem Spell.bounded {tokens : List Token} {block : Block} (hspell : Spell tokens block)
    (hlength : tokens.length < 2 ^ 63) : block.Bounded := by
  obtain ⟨htravel, hloops⟩ := hspell.travel_le 0
  exact ⟨by omega, fun loop hloop => Nat.lt_of_le_of_lt (hloops loop hloop) hlength⟩

end Token

namespace Block

/-- Folding a tree twice is folding it once exactly if the folded tree has no neighbouring moves
whose sum is in the 64-bit range. That is so if the moves of no block go farther than that range
taken together, and in particular for every tree that is built from fewer than `2 ^ 63` tokens. -/
theorem refolding_changes_nothing_iff (block : Block) :
    (block.foldRuns.foldRuns = block.foldRuns ↔
      ∀ left right, block.foldRuns.Neighbours (.move left) (.move right) →
        Op.sum? left right = none) ∧
    (block.Bounded → block.foldRuns.foldRuns = block.foldRuns) ∧
    ∀ tokens, Block.ofTokens tokens = .ok block → tokens.length < 2 ^ 63 →
      block.foldRuns.foldRuns = block.foldRuns := by
  refine ⟨block.foldRuns_foldRuns_eq_iff, Bounded.foldRuns_foldRuns_eq, ?_⟩
  intro tokens hbuilt hlength
  exact ((Token.spell_of_ofTokens hbuilt).bounded hlength).foldRuns_foldRuns_eq

/-- The first two of three moves cannot be merged, so the third goes into the second. Then the sum
of the two that are left is in range, and a second folding merges them. -/
theorem refolding_merges_moves :
    (op (.move Int64.maxValue) (op (.move 1) (op (.move (-5)) nil))).foldRuns =
        op (.move Int64.maxValue) (op (.move (-4)) nil) ∧
      (op (.move Int64.maxValue) (op (.move 1) (op (.move (-5)) nil))).foldRuns.foldRuns =
        op (.move 9223372036854775803) nil ∧
      (op (.move Int64.maxValue) (op (.move 1) (op (.move (-5)) nil))).foldRuns.foldRuns ≠
        (op (.move Int64.maxValue) (op (.move 1) (op (.move (-5)) nil))).foldRuns := by
  have hfirst : (op (.move Int64.maxValue) (op (.move 1) (op (.move (-5)) nil))).foldRuns =
      op (.move Int64.maxValue) (op (.move (-4)) nil) := by
    rw [foldRuns, walk_eq_fold]
    rfl
  have hsecond : (op (.move Int64.maxValue) (op (.move (-4)) nil)).foldRuns =
      op (.move 9223372036854775803) nil := by
    rw [foldRuns, walk_eq_fold]
    rfl
  rw [hfirst, hsecond]
  exact ⟨rfl, rfl, by simp⟩

end Block

end Brainfuck
