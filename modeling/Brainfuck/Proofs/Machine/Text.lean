import Mathlib.Data.List.Forall2
import Brainfuck.Asm.Listing
import Brainfuck.Proofs.TextLines

/-! Assembly text as an assembler sees it: line by line, a label, a directive or an instruction with
its operands. What the instructions are is left to the target machine.

A listing is read back from its text, line for line, if each of its lines is. -/

namespace Brainfuck.Asm

/-- A numeral that fits a field of an instruction. -/
def immediate? (lowest highest : Int) (text : String) : Option Int :=
  (Text.numeral? text).filter fun value => lowest ≤ value && value ≤ highest

/-! Lines. -/

inductive Item (Instr : Type) where
  | blank
  | label (name : String)
  | directive (name : String) (operands : List String)
  | instr (instr : Instr)

def fields (line : List Char) : List Char × List String :=
  let body := line.dropWhile (· == ' ')
  let rest := body.dropWhile (· != ' ')
  (body.takeWhile (· != ' '),
    if rest.isEmpty then []
    else (rest.splitOn ',').map fun operand => .ofList (operand.dropWhile (· == ' ')))

namespace Item

variable {Instr : Type}

/-- Reads one line. A word with `:` at its end is a label and stands alone; a word with `.` at its
front is a directive; `//` starts a comment. -/
def read? (instr? : String → List String → Option Instr) (line : List Char) :
    Option (Item Instr) :=
  let (word, operands) := fields line
  if word = [] ∨ word = ['/', '/'] then some .blank
  else if word.getLast? = some ':' then
    if operands = [] then some (.label (.ofList word.dropLast)) else none
  else if word.head? = some '.' then some (.directive (.ofList word) operands)
  else (instr? (.ofList word) operands).map .instr

def name? : Item Instr → Option String
  | .label name => some name
  | _ => none

def defines (name : String) : Item Instr → Bool
  | .label other => other == name
  | _ => false

end Item

/-- Reads a text. Every line must be understood, and no label may be defined twice. -/
def assemble? {Instr : Type} (instr? : String → List String → Option Instr) (text : String) :
    Option (List (Item Instr)) :=
  ((text.toList.splitOn '\n').mapM (Item.read? instr?)).filter fun items =>
    (items.filterMap Item.name?).Nodup

theorem immediate?_toString {lowest highest : Int} {value : Nat} (hlowest : lowest ≤ value)
    (hhighest : value ≤ highest) :
    immediate? lowest highest (toString value) = some (value : Int) := by
  rw [immediate?, Text.numeral?_toString]
  simp [hlowest, hhighest]

theorem immediate?_toString_int {lowest highest value : Int} (hlowest : lowest ≤ value)
    (hhighest : value ≤ highest) :
    immediate? lowest highest (toString value) = some value := by
  rw [immediate?, Text.numeral?_toString_int]
  simp [hlowest, hhighest]

theorem ofInt_toNat (value : UInt8) : UInt8.ofInt value.toNat = value := by
  have hlt := value.toNat_lt
  apply UInt8.toNat_inj.mp
  rw [UInt8.ofInt, UInt8.toNat_ofNat']
  omega

/-! Statements are read as they are written. -/

def IsOperand (text : String) : Prop :=
  ',' ∉ text.toList ∧ '\n' ∉ text.toList ∧ text.toList.head? ≠ some ' '

instance (text : String) : Decidable (IsOperand text) :=
  inferInstanceAs (Decidable (_ ∧ _))

def IsMnemonic (word : String) : Prop :=
  word.toList ≠ [] ∧ word.toList.all Char.isLower = true

instance (word : String) : Decidable (IsMnemonic word) :=
  inferInstanceAs (Decidable (_ ∧ _))

theorem IsMnemonic.not_mem {word : String} (hword : IsMnemonic word) {char : Char}
    (hchar : char.isLower = false) : char ∉ word.toList := by
  intro hmem
  have hlower := List.all_eq_true.mp hword.2 char hmem
  rw [hchar] at hlower
  contradiction

theorem isOperand_toString (value : Nat) : IsOperand (toString value) :=
  ⟨Text.not_mem_toString (by decide) value, Text.not_mem_toString (by decide) value,
    fun hhead => Text.not_mem_toString (by decide) value (List.mem_of_head? hhead)⟩

theorem IsOperand.append {front back : String} (hfront : IsOperand front)
    (hback : IsOperand back) : IsOperand (front ++ back) := by
  refine ⟨Text.not_mem_append hfront.1 hback.1, Text.not_mem_append hfront.2.1 hback.2.1, ?_⟩
  rw [String.toList_append]
  cases hchars : front.toList with
  | nil => exact hback.2.2
  | cons first rest =>
      have hhead := hfront.2.2
      rw [hchars] at hhead
      exact hhead

theorem isOperand_toString_int (value : Int) : IsOperand (toString value) := by
  cases value with
  | ofNat magnitude => exact isOperand_toString magnitude
  | negSucc magnitude =>
      have hminus : IsOperand "-" := by decide
      exact hminus.append (isOperand_toString (magnitude + 1))

def statement (word : String) (operands : List String) : List Char :=
  word.toList ++ [','].intercalate (operands.map fun operand => ' ' :: operand.toList)

theorem statement_append_singleton (word : String) (operands : List String) (last : String) :
    statement word (operands ++ [last]) =
      word.toList ++ ((operands.flatMap fun operand => ' ' :: operand.toList ++ [',']) ++
        ' ' :: last.toList) := by
  unfold statement
  induction operands with
  | nil => simp
  | cons operand operands ih =>
      rw [List.append_cancel_left_eq] at ih ⊢
      rw [List.cons_append, List.map_cons, List.intercalate_cons_of_ne_nil (by simp), ih]
      simp

theorem not_mem_statement {word : String} {operands : List String} (hword : IsMnemonic word)
    (hoperands : ∀ operand ∈ operands, IsOperand operand) : '\n' ∉ statement word operands := by
  rw [statement, List.mem_append]
  intro hmem
  rcases hmem with hmem | hmem
  · exact hword.not_mem (by decide) hmem
  · induction operands with
    | nil => cases hmem
    | cons operand operands ih =>
        have hoperand := (hoperands operand List.mem_cons_self).2.1
        have hothers := ih fun other hother => hoperands other (List.mem_cons_of_mem operand hother)
        cases operands with
        | nil =>
            apply hoperand
            simpa [List.intercalate] using hmem
        | cons other operands =>
            rw [List.map_cons, List.map_cons, List.intercalate_cons_cons] at hmem
            simp only [List.mem_append, List.mem_cons, List.not_mem_nil, or_false] at hmem
            rcases hmem with ((hblank | hmem) | hcomma) | hmem
            · exact absurd hblank (by decide)
            · exact hoperand hmem
            · exact absurd hcomma (by decide)
            · exact hothers hmem

theorem takeWhile_word {word rest : List Char} (hword : ' ' ∉ word)
    (hrest : rest = [] ∨ rest.head? = some ' ') :
    (word ++ rest).takeWhile (· != ' ') = word ∧ (word ++ rest).dropWhile (· != ' ') = rest := by
  have hchars : ∀ char ∈ word, (char != ' ') = true := by
    intro char hmem
    apply bne_iff_ne.mpr
    rintro rfl
    exact hword hmem
  rw [List.takeWhile_append_of_pos hchars, List.dropWhile_append_of_pos hchars]
  rcases hrest with rfl | hblank
  · simp
  · obtain ⟨tail, rfl⟩ := List.head?_eq_some_iff.mp hblank
    simp

theorem fields_statement {word : String} {operands : List String}
    (hword : ' ' ∉ word.toList) (hnonempty : word.toList ≠ [])
    (hoperands : ∀ operand ∈ operands, IsOperand operand) :
    fields ("    ".toList ++ statement word operands) = (word.toList, operands) := by
  have hhead : (statement word operands).head? ≠ some ' ' := by
    obtain ⟨first, rest, hchars⟩ := List.exists_cons_of_ne_nil hnonempty
    rw [statement, hchars]
    intro hblank
    cases hblank
    exact hword (hchars ▸ List.mem_cons_self)
  have hbody : ("    ".toList ++ statement word operands).dropWhile (· == ' ') =
      statement word operands :=
    Eq.trans rfl (Text.dropWhile_blank hhead)
  unfold fields
  rw [hbody, statement]
  cases operands with
  | nil =>
      obtain ⟨htake, hdrop⟩ := takeWhile_word hword (.inl rfl)
      simp only [List.map_nil, List.intercalate_nil, htake, hdrop]
      rfl
  | cons operand operands =>
      have hblank : ([','].intercalate
          ((operand :: operands).map fun operand => ' ' :: operand.toList)).head? = some ' ' := by
        cases operands <;> simp [List.intercalate]
      obtain ⟨htake, hdrop⟩ := takeWhile_word hword (.inr hblank)
      have hcomma : ∀ chars ∈ (operand :: operands).map fun operand => ' ' :: operand.toList,
          ',' ∉ chars := by
        intro chars hmem
        obtain ⟨text, htext, rfl⟩ := List.mem_map.mp hmem
        simpa using (hoperands text htext).1
      have hsome : ([','].intercalate
          ((operand :: operands).map fun operand => ' ' :: operand.toList)).isEmpty = false := by
        cases hchars : [','].intercalate
            ((operand :: operands).map fun operand => ' ' :: operand.toList) with
        | nil =>
            rw [hchars] at hblank
            contradiction
        | cons first rest => rfl
      simp only [htake, hdrop, hsome, Bool.false_eq_true, if_false,
        List.splitOn_intercalate ',' hcomma (List.cons_ne_nil _ _), List.map_map]
      refine congrArg (Prod.mk word.toList) ((List.map_congr_left ?_).trans (List.map_id _))
      intro text htext
      have htrim : (' ' :: text.toList).dropWhile (· == ' ') = text.toList :=
        Eq.trans rfl (Text.dropWhile_blank (hoperands text htext).2.2)
      simp only [Function.comp_apply, htrim, String.ofList_toList, id_eq]

theorem Item.read?_statement {Instr : Type} {instr? : String → List String → Option Instr}
    {word : String} {operands : List String} (hword : IsMnemonic word)
    (hoperands : ∀ operand ∈ operands, IsOperand operand) :
    Item.read? instr? ("    ".toList ++ statement word operands) =
      (instr? word operands).map .instr := by
  have hnonempty := hword.1
  have hcomment : word.toList ≠ ['/', '/'] := by
    intro hword'
    exact hword.not_mem rfl (hword' ▸ List.mem_cons_self)
  have hlabel : word.toList.getLast? ≠ some ':' :=
    fun hlast => hword.not_mem (by decide) (List.mem_of_getLast? hlast)
  have hdirective : word.toList.head? ≠ some '.' :=
    fun hhead => hword.not_mem (by decide) (List.mem_of_head? hhead)
  unfold read?
  rw [fields_statement (hword.not_mem (by decide)) hnonempty hoperands]
  simp only [hnonempty, hcomment, hlabel, hdirective, or_self, if_false, String.ofList_toList]

theorem Item.read?_label {Instr : Type} {instr? : String → List String → Option Instr}
    {name : String} (hname : ' ' ∉ name.toList) :
    Item.read? instr? (name.toList ++ [':']) = some (.label name) := by
  have hblank : ' ' ∉ name.toList ++ [':'] := by
    simpa using hname
  have hhead : (name.toList ++ [':']).head? ≠ some ' ' := by
    intro hhead
    exact hblank (List.mem_of_head? hhead)
  have hfields : fields (name.toList ++ [':']) = (name.toList ++ [':'], []) := by
    obtain ⟨htake, hdrop⟩ := takeWhile_word hblank (.inl rfl)
    rw [List.append_nil] at htake hdrop
    rw [fields, Text.dropWhile_blank hhead, htake, hdrop]
    rfl
  have hslash : name.toList ++ [':'] ≠ ['/', '/'] := by
    intro hslash
    have hlast := congrArg List.getLast? hslash
    simp at hlast
  unfold read?
  rw [hfields]
  simp [hslash]

/-! The lines of a listing. -/

namespace Line

def body : Line → List Char
  | .flush text => text.toList
  | .indented text => "    ".toList ++ text.toList

theorem toList_text (line : Line) : line.text.toList = line.body ++ ['\n'] := by
  cases line <;> simp [text, body]

structure Reads {Instr : Type} (instr? : String → List String → Option Instr) (line : Line)
    (item : Item Instr) : Prop where
  single : '\n' ∉ line.body
  read : Item.read? instr? line.body = some item

theorem reads_statement {Instr : Type} {instr? : String → List String → Option Instr}
    {text word : String} {operands : List String} {instr : Instr}
    (htext : text.toList = statement word operands) (hword : IsMnemonic word)
    (hoperands : ∀ operand ∈ operands, IsOperand operand)
    (hinstr : instr? word operands = some instr) :
    Reads instr? (.indented text) (.instr instr) := by
  refine ⟨?_, ?_⟩
  · rw [body, htext, List.mem_append]
    intro hmem
    rcases hmem with hmem | hmem
    · exact absurd hmem (by decide)
    · exact not_mem_statement hword hoperands hmem
  · rw [body, htext, Item.read?_statement hword hoperands, hinstr, Option.map_some]

/-- `front` is what stands before the variable part of the last operand of an instruction. -/
def Opens (front word : String) (operands : List String) (mark : String) : Prop :=
  front.toList =
      word.toList ++ (operands.flatMap fun operand => ' ' :: operand.toList ++ [',']) ++
        ' ' :: mark.toList ∧
    IsMnemonic word ∧ ∀ operand ∈ operands, IsOperand operand

instance (front word : String) (operands : List String) (mark : String) :
    Decidable (Opens front word operands mark) :=
  inferInstanceAs (Decidable (_ ∧ _))

theorem reads_marked {Instr : Type} {instr? : String → List String → Option Instr}
    {front last : String} {instr : Instr} (word : String) (operands : List String) (mark : String)
    (hopens : Opens front word operands mark) (hlast : IsOperand (mark ++ last))
    (hinstr : instr? word (operands ++ [mark ++ last]) = some instr) :
    Reads instr? (.indented (front ++ last)) (.instr instr) := by
  obtain ⟨hfront, hword, hoperands⟩ := hopens
  refine reads_statement ?_ hword ?_ hinstr
  · rw [String.toList_append, hfront, statement_append_singleton, String.toList_append]
    simp only [List.append_assoc, List.cons_append]
  · intro operand hmem
    rcases List.mem_append.mp hmem with hmem | hmem
    · exact hoperands operand hmem
    · exact List.mem_singleton.mp hmem ▸ hlast

theorem reads_operand {Instr : Type} {instr? : String → List String → Option Instr}
    {front last : String} {instr : Instr} (word : String) (operands : List String)
    (hopens : Opens front word operands "") (hlast : IsOperand last)
    (hinstr : instr? word (operands ++ [last]) = some instr) :
    Reads instr? (.indented (front ++ last)) (.instr instr) := by
  rw [← String.empty_append (s := last)] at hlast hinstr
  exact reads_marked word operands "" hopens hlast hinstr

theorem forall₂_reads {Instr : Type} {instr? : String → List String → Option Instr}
    {line : Instr → Line} {instrs : List Instr}
    (hreads : ∀ instr ∈ instrs, Reads instr? (line instr) (.instr instr)) :
    List.Forall₂ (Reads instr?) (instrs.map line) (instrs.map .instr) := by
  rw [List.forall₂_map_left_iff, List.forall₂_map_right_iff, List.forall₂_same]
  exact hreads

end Line

theorem Listing.toList_text (listing : Listing) :
    listing.text.toList = listing.lines.toList.flatMap fun line => line.body ++ ['\n'] := by
  rw [Listing.text, ← Array.foldl_toList, Text.toList_foldl_append]
  simp only [Line.toList_text]
  rfl

theorem mapM_read?_of_reads {Instr : Type} {instr? : String → List String → Option Instr}
    {lines : List Line} {items : List (Item Instr)}
    (hreads : List.Forall₂ (Line.Reads instr?) lines items) :
    ((lines.flatMap fun line => line.body ++ ['\n']).splitOn '\n').mapM (Item.read? instr?) =
      some (items ++ [.blank]) := by
  induction hreads with
  | nil => rfl
  | cons hread _ ih =>
      rw [List.flatMap_cons, List.append_assoc, List.singleton_append,
        List.splitOn_append_cons_self_of_not_mem hread.single, List.mapM_cons, hread.read, ih]
      rfl

/-- The text of a listing is read as its lines are, with an empty line after the last newline. -/
theorem assemble?_text {Instr : Type} {instr? : String → List String → Option Instr}
    {listing : Listing} {items : List (Item Instr)}
    (hreads : List.Forall₂ (Line.Reads instr?) listing.lines.toList items)
    (hlabels : (items.filterMap Item.name?).Nodup) :
    assemble? instr? listing.text = some (items ++ [.blank]) := by
  have hdistinct : ((items ++ [Item.blank]).filterMap Item.name?).Nodup := by
    rw [List.filterMap_append]
    exact (List.append_nil _).symm ▸ hlabels
  rw [assemble?, Listing.toList_text, mapM_read?_of_reads hreads]
  simp only [Option.filter_some, hdistinct, decide_true, if_true]

end Brainfuck.Asm
