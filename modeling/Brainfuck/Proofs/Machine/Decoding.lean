import Brainfuck.Block.Word
import Brainfuck.Proofs.Machine.AArch64
import Brainfuck.Proofs.Machine.X64

/-! The tree that a text was assembled from.

A cell takes no more from an operand than its residue modulo 256, and an addition of zero leaves no
trace in the text. All the rest can be read back: the instructions at the front of the code tell
which piece of it they belong to, the pieces spell the linear form of the reduced tree, and the
linear form gives the tree. -/

namespace Brainfuck

namespace Op

/-- The operand from 0 to 255 that is congruent to the given one modulo 256. -/
def residue (operand : Int64) : Int64 :=
  .ofInt (operand.toInt % 256)

/-- An addition of zero is dropped. -/
def reduce? : Op → Option Op
  | .add delta => if delta.toInt % 256 = 0 then none else some (.add (residue delta))
  | .set value => some (.set (residue value))
  | operation => some operation

theorem toNat_cell (operand : Int64) : ((cell operand).toNat : ℤ) = operand.toInt % 256 := by
  rw [cell_eq_ofInt, UInt8.ofInt, UInt8.toNat_ofNat']
  omega

theorem cell_eq_zero_iff (operand : Int64) : cell operand = 0 ↔ operand.toInt % 256 = 0 := by
  rw [← toNat_cell, ← UInt8.toNat_inj, UInt8.toNat_zero, Int.natCast_eq_zero]

theorem residue_eq_cell (operand : Int64) : residue operand = .ofInt (cell operand).toNat := by
  rw [toNat_cell, residue]

theorem cell_residue (operand : Int64) : cell (residue operand) = cell operand := by
  have hlt := (cell operand).toNat_lt
  have hround : (residue operand).toInt = (cell operand).toNat := by
    rw [residue_eq_cell, Int64.toInt_ofInt_of_le (by omega) (by omega)]
  apply UInt8.toNat_inj.mp
  have hresidue := toNat_cell (residue operand)
  rw [hround] at hresidue
  omega

theorem cell_of_reduce?_none {operation : Op} (hreduce : operation.reduce? = none) :
    ∃ delta, operation = .add delta ∧ cell delta = 0 := by
  cases operation with
  | add delta =>
      rw [reduce?] at hreduce
      split at hreduce
      · next hzero => exact ⟨delta, rfl, (cell_eq_zero_iff delta).mpr hzero⟩
      · cases hreduce
  | _ => cases hreduce

theorem eq_of_reduce?_add {delta : Int64} {reduced : Op}
    (hreduce : (add delta).reduce? = some reduced) :
    cell delta ≠ 0 ∧ reduced = .add (residue delta) := by
  rw [reduce?] at hreduce
  split at hreduce
  · cases hreduce
  · next hnonzero =>
      cases hreduce
      exact ⟨mt (cell_eq_zero_iff delta).mp hnonzero, rfl⟩

/-- Code for the operations that shows of an operand no more than a cell does. -/
structure Coarse {I : Type} (code : Op → List I) : Prop where
  add : ∀ {first second}, cell first = cell second → code (.add first) = code (.add second)
  set : ∀ {first second}, cell first = cell second → code (.set first) = code (.set second)
  idle : ∀ {delta}, cell delta = 0 → code (.add delta) = []

namespace Coarse

variable {I : Type} {code : Op → List I} {operation reduced : Op}

theorem map {J : Type} (hcoarse : Coarse code) (change : I → J) :
    Coarse fun operation => (code operation).map change where
  add := fun hcell => congrArg (List.map change) (hcoarse.add hcell)
  set := fun hcell => congrArg (List.map change) (hcoarse.set hcell)
  idle := fun hcell => congrArg (List.map change) (hcoarse.idle hcell)

theorem eq_of_reduce?_some (hcoarse : Coarse code) (hreduce : operation.reduce? = some reduced) :
    code reduced = code operation := by
  cases operation with
  | add delta =>
      obtain ⟨-, rfl⟩ := eq_of_reduce?_add hreduce
      exact hcoarse.add (cell_residue delta)
  | set value =>
      cases hreduce
      exact hcoarse.set (cell_residue value)
  | _ =>
      cases hreduce
      rfl

theorem eq_nil_of_reduce?_none (hcoarse : Coarse code) (hreduce : operation.reduce? = none) :
    code operation = [] := by
  obtain ⟨delta, rfl, hcell⟩ := cell_of_reduce?_none hreduce
  exact hcoarse.idle hcell

end Coarse

end Op

namespace Block

/-- At every level, operands of additions and settings become residues and additions of zero
disappear. -/
def reduce : Block → Block
  | .nil => .nil
  | .op operation rest =>
      match operation.reduce? with
      | some reduced => .op reduced rest.reduce
      | none => rest.reduce
  | .loop body rest => .loop body.reduce rest.reduce

example : (op (.add 257) (op (.add (-256)) (loop (op (.set (-1)) nil) nil))).reduce =
    op (.add 1) (loop (op (.set 255) nil) nil) := by
  rfl

theorem reduce_op_some {operation reduced : Op} (hreduce : operation.reduce? = some reduced)
    (rest : Block) : (op operation rest).reduce = op reduced rest.reduce := by
  rw [reduce, hreduce]

theorem reduce_op_none {operation : Op} (hreduce : operation.reduce? = none) (rest : Block) :
    (op operation rest).reduce = rest.reduce := by
  rw [reduce, hreduce]

theorem loopCount_reduce (block : Block) : block.reduce.loopCount = block.loopCount := by
  induction block with
  | nil => rfl
  | op operation rest ih =>
      rw [loopCount_op]
      cases hreduce : operation.reduce? with
      | some reduced => rw [reduce_op_some hreduce, loopCount_op, ih]
      | none => rw [reduce_op_none hreduce, ih]
  | loop body rest ihBody ihRest => rw [reduce, loopCount_loop, loopCount_loop, ihBody, ihRest]

end Block

theorem Layout.code_reduce {I : Type} {layout : Layout I} (hcoarse : Op.Coarse layout.op)
    (label : Nat) (block : Block) : layout.code label block.reduce = layout.code label block := by
  induction block generalizing label with
  | nil => rfl
  | op operation rest ih =>
      cases hreduce : operation.reduce? with
      | some reduced =>
          rw [Block.reduce_op_some hreduce, code, code, hcoarse.eq_of_reduce?_some hreduce, ih]
      | none =>
          rw [Block.reduce_op_none hreduce, code, hcoarse.eq_nil_of_reduce?_none hreduce,
            List.nil_append, ih]
  | loop body rest ihBody ihRest =>
      rw [Block.reduce, code, code, ihBody, ihRest, Block.loopCount_reduce]

/-- Takes the piece of code that stands for a word from the front of a sequence. -/
structure Reader (I : Type) where
  read? : List I → Option (Word × List I)
  shorter : ∀ {items word rest}, read? items = some (word, rest) → rest.length < items.length

namespace Reader

variable {I : Type} {reader : Reader I}

/-- The words in front of the first item that belongs to none. -/
def words (reader : Reader I) (items : List I) : List Word :=
  match hread : reader.read? items with
  | some (word, rest) =>
      have := reader.shorter hread
      word :: reader.words rest
  | none => []
termination_by items.length

theorem words_some {items rest : List I} {word : Word}
    (hread : reader.read? items = some (word, rest)) :
    reader.words items = word :: reader.words rest := by
  rw [words]
  split
  · next hread' =>
      rw [hread] at hread'
      cases hread'
      rfl
  · next hread' =>
      rw [hread] at hread'
      cases hread'

theorem words_none {items : List I} (hread : reader.read? items = none) :
    reader.words items = [] := by
  rw [words]
  split
  · next hread' =>
      rw [hread] at hread'
      cases hread'
  · rfl

/-- Whatever follows it, each piece of a layout is read as the word that it stands for. -/
structure Reads (reader : Reader I) (layout : Layout I) : Prop where
  op : ∀ {operation reduced} rest, operation.reduce? = some reduced →
    reader.read? (layout.op operation ++ rest) = some (.op reduced, rest)
  enter : ∀ label rest, reader.read? (layout.enter label ++ rest) = some (.enter, rest)
  leave : ∀ label rest, reader.read? (layout.leave label ++ rest) = some (.leave, rest)

theorem Reads.words_code {layout : Layout I} (hreads : reader.Reads layout)
    (hcoarse : Op.Coarse layout.op) (label : Nat) (block : Block) (rest : List I) :
    reader.words (layout.code label block ++ rest) = block.reduce.words ++ reader.words rest := by
  induction block generalizing label rest with
  | nil => rw [Layout.code, Block.reduce, Block.words_nil, List.nil_append, List.nil_append]
  | op operation tail ih =>
      rw [Layout.code, List.append_assoc]
      cases hreduce : operation.reduce? with
      | some reduced =>
          rw [words_some (hreads.op _ hreduce), ih, Block.reduce_op_some hreduce,
            Block.words_op, List.cons_append]
      | none =>
          rw [hcoarse.eq_nil_of_reduce?_none hreduce, List.nil_append, ih,
            Block.reduce_op_none hreduce]
  | loop body tail ihBody ihTail =>
      rw [Layout.code, List.append_assoc, List.append_assoc, List.append_assoc,
        words_some (hreads.enter label _), ihBody, words_some (hreads.leave label _), ihTail,
        Block.reduce, Block.words_loop, List.cons_append, List.append_assoc, List.cons_append]

end Reader

namespace Asm

namespace Code

variable {backend : Backend} {target : Target}

/-- Reads the code behind the opening of a text, up to the exit. -/
def decode? (code : Code backend target) (reader : Reader (Item target.Instr)) (text : String) :
    Option Block :=
  (assemble? target.instr? text).bind fun items =>
    Block.ofWords? (reader.words (items.drop code.opening.length))

/-- The text of a tree shows what there is in the reduced tree, and nothing else. -/
structure Decodes (code : Code backend target) (reader : Reader (Item target.Instr)) : Prop where
  coarse_lines : Op.Coarse backend.layout.op
  coarse_items : Op.Coarse code.layout.op
  reads : reader.Reads code.layout
  closing : reader.read? code.closing = none

namespace Decodes

variable {code : Code backend target} {reader : Reader (Item target.Instr)}

theorem decode?_text (hdecodes : code.Decodes reader) (block : Block) :
    code.decode? reader (backend.assemble block).text = some block.reduce := by
  rw [decode?, code.assemble?_assemble, Option.bind_some, program, List.drop_left,
    hdecodes.reads.words_code hdecodes.coarse_items, Reader.words_none hdecodes.closing,
    List.append_nil, Block.ofWords?_words]

theorem lines_reduce (hdecodes : code.Decodes reader) (block : Block) :
    (backend.assemble block.reduce).lines = (backend.assemble block).lines := by
  apply Array.toList_inj.mp
  rw [Backend.lines_assemble, Backend.lines_assemble, Layout.code_reduce hdecodes.coarse_lines]

theorem text_eq_iff (hdecodes : code.Decodes reader) (first second : Block) :
    (backend.assemble first).text = (backend.assemble second).text ↔
      first.reduce = second.reduce := by
  constructor
  · intro htext
    have hdecode := congrArg (code.decode? reader) htext
    rwa [hdecodes.decode?_text, hdecodes.decode?_text, Option.some_inj] at hdecode
  · intro hreduce
    rw [Listing.text, Listing.text, ← hdecodes.lines_reduce, hreduce, hdecodes.lines_reduce]

end Decodes

end Code

namespace X64

/-- The names of labels do not matter: they follow from the places of the loops. -/
def read? : List (Item Instr) → Option (Word × List (Item Instr))
  | .instr (.addCell amount) :: rest => some (.op (.add (.ofInt amount.toNat)), rest)
  | .instr (.subCell amount) :: rest => some (.op (.add (.ofInt (0 - amount).toNat)), rest)
  | .instr (.storeCell value) :: rest => some (.op (.set (.ofInt value.toNat)), rest)
  | .instr (.addPointer amount) :: rest => some (.op (.move amount.toInt64), rest)
  | .instr (.loadOffset amount) :: .instr .addOffset :: rest => some (.op (.move amount), rest)
  | .instr (.call number) :: .instr (.file _) :: .instr .buffer :: .instr (.bufferSize _) ::
      .instr .syscall :: rest => some (.op (if number = 0 then .get else .put), rest)
  | .instr .testCell :: .instr (.jumpIfZero _) :: .label _ :: rest => some (.enter, rest)
  | .instr .testCell :: .instr (.jumpIfNonzero _) :: .label _ :: rest => some (.leave, rest)
  | _ => none

def reader : Reader (Item Instr) where
  read? := read?
  shorter := by
    intro items word rest hread
    unfold read? at hread
    split at hread <;> cases hread <;> simp only [List.length_cons] <;> omega

theorem read?_op {operation reduced : Op} (hreduce : operation.reduce? = some reduced)
    (rest : List (Item Instr)) :
    read? ((op operation).map .instr ++ rest) = some (.op reduced, rest) := by
  cases operation with
  | add delta =>
      obtain ⟨hcell, rfl⟩ := Op.eq_of_reduce?_add hreduce
      rw [op, add, if_neg hcell, Op.residue_eq_cell]
      split
      · rfl
      · change some (Word.op (.add (.ofInt (0 - (0 - Op.cell delta)).toNat)), rest) = _
        rw [UInt8.zero_sub, UInt8.zero_sub, UInt8.neg_neg]
  | move delta =>
      cases hreduce
      rw [op, move]
      split
      · next hshort =>
          have hround : delta.toInt32.toInt64 = delta := by
            apply Int64.toInt_inj.mp
            rw [Int32.toInt_toInt64, toInt_toInt32 hshort.1 hshort.2]
          change some (Word.op (.move delta.toInt32.toInt64), rest) = _
          rw [hround]
      · rfl
  | set value =>
      cases hreduce
      rw [Op.residue_eq_cell]
      rfl
  | get =>
      cases hreduce
      rfl
  | put =>
      cases hreduce
      rfl

theorem coarse_op : Op.Coarse op where
  add := fun hcell => congrArg add hcell
  set := fun hcell => congrArg (fun value => [Instr.storeCell value]) hcell
  idle := fun hcell => if_pos hcell

theorem decodes : code.Decodes reader where
  coarse_lines := coarse_op.map Instr.line
  coarse_items := coarse_op.map Item.instr
  reads :=
    { op := fun rest hreduce => read?_op hreduce rest
      enter := fun _ _ => rfl
      leave := fun _ _ => rfl }
  closing := rfl

end X64

namespace AArch64

/-- A piece is told by its second instruction where others begin in the same way. -/
def read? : List (Item Instr) → Option (Word × List (Item Instr))
  | .instr .loadCell :: .instr (.addScratch amount) :: .instr .storeCell :: rest =>
      some (.op (.add (.ofInt amount.toNat)), rest)
  | .instr (.setScratch value) :: .instr .storeCell :: rest =>
      some (.op (.set (.ofInt value.toNat)), rest)
  | .instr (.addPointer amount) :: rest => some (.op (.move (.ofInt amount.toNat)), rest)
  | .instr (.subPointer amount) :: rest => some (.op (.move (.ofInt (-amount.toNat))), rest)
  | .instr (.loadOffset amount) :: .instr .addOffset :: rest => some (.op (.move amount), rest)
  | .instr (.file number) :: .instr .buffer :: .instr (.bufferSize _) :: .instr (.call _) ::
      .instr .supervisor :: rest => some (.op (if number = 0 then .get else .put), rest)
  | .instr .loadCell :: .instr (.branchZero _) :: .label _ :: rest => some (.enter, rest)
  | .instr .loadCell :: .instr (.branchNonzero _) :: .label _ :: rest => some (.leave, rest)
  | _ => none

def reader : Reader (Item Instr) where
  read? := read?
  shorter := by
    intro items word rest hread
    unfold read? at hread
    split at hread <;> cases hread <;> simp only [List.length_cons] <;> omega

theorem toNat_amount {value : ℤ} (hlow : 0 ≤ value) (hhigh : value ≤ 4095) :
    ((BitVec.ofInt 12 value).toNat : ℤ) = value := by
  rw [BitVec.toNat_ofInt]
  omega

theorem read?_op {operation reduced : Op} (hreduce : operation.reduce? = some reduced)
    (rest : List (Item Instr)) :
    read? ((op operation).map .instr ++ rest) = some (.op reduced, rest) := by
  cases operation with
  | add delta =>
      obtain ⟨hcell, rfl⟩ := Op.eq_of_reduce?_add hreduce
      rw [op, add, if_neg hcell, Op.residue_eq_cell]
      rfl
  | move delta =>
      cases hreduce
      rw [op, move]
      split
      · next hforward =>
          change some (Word.op (.move (.ofInt (BitVec.ofInt 12 delta.toInt).toNat)), rest) = _
          rw [toNat_amount hforward.1 hforward.2, Int64.ofInt_toInt]
      · split
        · next hbackward =>
            change some (Word.op (.move (.ofInt (-(BitVec.ofInt 12 (-delta.toInt)).toNat))), rest) =
              _
            rw [toNat_amount (by omega) (by omega), Int.neg_neg, Int64.ofInt_toInt]
        · rfl
  | set value =>
      cases hreduce
      rw [Op.residue_eq_cell]
      rfl
  | get =>
      cases hreduce
      rfl
  | put =>
      cases hreduce
      rfl

theorem coarse_op : Op.Coarse op where
  add := fun hcell => congrArg add hcell
  set := fun hcell => congrArg (fun value => [Instr.setScratch value, .storeCell]) hcell
  idle := fun hcell => if_pos hcell

theorem decodes : code.Decodes reader where
  coarse_lines := coarse_op.map Instr.line
  coarse_items := coarse_op.map Item.instr
  reads :=
    { op := fun rest hreduce => read?_op hreduce rest
      enter := fun _ _ => rfl
      leave := fun _ _ => rfl }
  closing := rfl

end AArch64

/-- Two trees have the same text exactly if they are the same once their operands are reduced modulo
256 and additions of zero are dropped, for each architecture with a backend. -/
theorem Arch.text_eq_iff_reduce_eq (first second : Block) :
    (∃ one two, Arch.x64.assemble first = .ok one ∧ Arch.x64.assemble second = .ok two ∧
      (one.text = two.text ↔ first.reduce = second.reduce)) ∧
    ∃ one two, Arch.aarch64.assemble first = .ok one ∧ Arch.aarch64.assemble second = .ok two ∧
      (one.text = two.text ↔ first.reduce = second.reduce) :=
  ⟨⟨_, _, rfl, rfl, X64.decodes.text_eq_iff first second⟩,
    ⟨_, _, rfl, rfl, AArch64.decodes.text_eq_iff first second⟩⟩

end Asm

end Brainfuck
