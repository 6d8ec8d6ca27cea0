import Brainfuck.Block.Walk

/-! Equality and copies of trees.

Two trees are compared level by level. The instructions of two levels, if there are equally many,
are compared in order and without a look into loops; the bodies of two loops that stand in the same
place wait on a list, and the pair put there last is compared next. A difference inside a loop is
therefore found only after everything around the loop has been found equal, and `sameAll_iff` speaks
of all pairs that wait. -/

namespace Brainfuck

/-- Whether two instructions are the same but for what loops hold. -/
def Instr.alike : Instr → Instr → Bool
  | .op (.add left), .op (.add right) => left == right
  | .op (.move left), .op (.move right) => left == right
  | .op (.set left), .op (.set right) => left == right
  | .op .get, .op .get => true
  | .op .put, .op .put => true
  | .loop _, .loop _ => true
  | _, _ => false

theorem Instr.alike_op_iff (left right : Op) :
    alike (.op left) (.op right) = true ↔ left = right := by
  cases left <;> cases right <;> simp [alike]

namespace Block

/-- Compares two levels as far as both of them go. If they are alike, the bodies of their loops are
put in front of the pairs in `pending`. -/
def compareLevels : Block → Block → List (Block × Block) → Option (List (Block × Block))
  | .op left leftRest, .op right rightRest, pending =>
      if Instr.alike (.op left) (.op right) then
        compareLevels leftRest rightRest pending
      else
        none
  | .loop leftBody leftRest, .loop rightBody rightRest, pending =>
      compareLevels leftRest rightRest ((leftBody, rightBody) :: pending)
  | .op _ _, .loop _ _, _ => none
  | .loop _ _, .op _ _, _ => none
  | .nil, _, pending => some pending
  | _, .nil, pending => some pending

theorem pendingWeight_compareLevels {left right : Block} {pending found : List (Block × Block)}
    (hfound : compareLevels left right pending = some found) :
    pendingWeight found < right.weight + pendingWeight pending := by
  fun_induction compareLevels left right pending with
  | case1 left leftRest right rightRest pending _ ih =>
      have hrest := ih hfound
      simp only [weight]
      omega
  | case2 => contradiction
  | case3 leftBody leftRest rightBody rightRest pending ih =>
      have hrest := ih hfound
      simp only [weight, pendingWeight] at hrest ⊢
      omega
  | case4 => contradiction
  | case5 => contradiction
  | case6 right pending =>
      cases hfound
      exact Nat.lt_add_of_pos_left right.weight_pos
  | case7 left pending =>
      cases hfound
      exact Nat.lt_add_of_pos_left nil.weight_pos

def sameAll : List (Block × Block) → Bool
  | [] => true
  | (left, right) :: pending =>
      if left.length = right.length then
        match _hfound : compareLevels left right pending with
        | some found => sameAll found
        | none => false
      else
        false
termination_by pending => pendingWeight pending
decreasing_by exact pendingWeight_compareLevels _hfound

instance : BEq Block where
  beq left right := sameAll [(left, right)]

def Coincide (pairs : List (Block × Block)) : Prop :=
  ∀ pair ∈ pairs, pair.1 = pair.2

theorem coincide_nil : Coincide [] :=
  List.forall_mem_nil _

theorem coincide_cons {left right : Block} {pairs : List (Block × Block)} :
    Coincide ((left, right) :: pairs) ↔ left = right ∧ Coincide pairs :=
  List.forall_mem_cons

/-- Going through two levels of one length leaves the question as it was: whether they and all
pending pairs are the same. -/
theorem compareLevels_iff {left right : Block} (hlength : left.length = right.length)
    (pending : List (Block × Block)) :
    (∃ found, compareLevels left right pending = some found ∧ Coincide found) ↔
      left = right ∧ Coincide pending := by
  fun_induction compareLevels left right pending with
  | case1 left leftRest right rightRest pending halike ih =>
      rw [length_op, length_op, Nat.add_right_cancel_iff] at hlength
      rw [Instr.alike_op_iff] at halike
      rw [ih hlength, op.injEq, halike]
      simp
  | case2 left leftRest right rightRest pending halike =>
      rw [Instr.alike_op_iff] at halike
      simp [halike]
  | case3 leftBody leftRest rightBody rightRest pending ih =>
      rw [length_loop, length_loop, Nat.add_right_cancel_iff] at hlength
      rw [ih hlength, coincide_cons, loop.injEq, and_left_comm, and_assoc]
  | case4 => simp
  | case5 => simp
  | case6 right pending => cases right <;> simp at hlength ⊢
  | case7 left pending => cases left <;> simp at hlength ⊢

theorem sameAll_iff (pairs : List (Block × Block)) : sameAll pairs = true ↔ Coincide pairs := by
  fun_induction sameAll pairs with
  | case1 => simp [coincide_nil]
  | case2 left right pending hlength found hfound ih =>
      rw [ih, coincide_cons, ← compareLevels_iff hlength, hfound]
      simp
  | case3 left right pending hlength hfound =>
      rw [coincide_cons, ← compareLevels_iff hlength, hfound]
      simp
  | case4 left right pending hlength =>
      rw [coincide_cons]
      refine iff_of_false Bool.false_ne_true ?_
      intro ⟨hsame, _⟩
      exact hlength (congrArg length hsame)

theorem beq_iff {left right : Block} : (left == right) = true ↔ left = right := by
  change sameAll [(left, right)] = true ↔ left = right
  rw [sameAll_iff, coincide_cons]
  exact and_iff_left coincide_nil

instance : LawfulBEq Block where
  eq_of_beq := beq_iff.mp
  rfl := beq_iff.mpr rfl

instance : DecidableEq Block :=
  fun left right => decidable_of_iff ((left == right) = true) beq_iff

/-- Builds a block anew, instruction by instruction. -/
def rebuild : Traversal Block Block where
  op done operation := .op operation done
  enter done := (done, .nil)
  leave around done := .loop done.reverse around

def copy (block : Block) : Block :=
  (block.walk rebuild .nil).reverse

theorem fold_rebuild (block done : Block) :
    block.fold rebuild done = block.reverse ++ done := by
  induction block generalizing done with
  | nil => rfl
  | op operation rest ih =>
      simp only [fold, ih]
      simp [rebuild, append_assoc]
  | loop body rest ihBody ihRest =>
      simp only [fold, ihBody, ihRest]
      simp [rebuild, append_assoc]

@[simp] theorem copy_eq (block : Block) : block.copy = block := by
  simp [copy, walk_eq_fold, fold_rebuild]

end Block

namespace Instr

instance : BEq Instr where
  beq
    | .loop left, .loop right => left == right
    | left, right => left.alike right

theorem beq_iff {left right : Instr} : (left == right) = true ↔ left = right := by
  cases left with
  | op left =>
      cases right with
      | op right =>
          rw [op.injEq]
          exact alike_op_iff left right
      | loop body => cases left <;> exact iff_of_false Bool.false_ne_true nofun
  | loop body =>
      cases right with
      | op right => exact iff_of_false Bool.false_ne_true nofun
      | loop other =>
          rw [loop.injEq]
          exact Block.beq_iff

instance : LawfulBEq Instr where
  eq_of_beq := beq_iff.mp
  rfl := beq_iff.mpr rfl

instance : DecidableEq Instr :=
  fun left right => decidable_of_iff ((left == right) = true) beq_iff

end Instr

end Brainfuck
