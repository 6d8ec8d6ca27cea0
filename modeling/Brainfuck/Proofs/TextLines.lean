import Mathlib.Data.List.Basic

/-! Texts that are made of pieces, lines and numerals. -/

namespace Brainfuck.Text

variable {A : Type} {char : Char}

theorem toList_pushn (text : String) (char : Char) (count : Nat) :
    (text.pushn char count).toList = text.toList ++ List.replicate count char := by
  induction count with
  | zero => simp [String.pushn, Nat.repeat]
  | succ count ih =>
      have hpush : text.pushn char (count + 1) = (text.pushn char count).push char := rfl
      rw [hpush, String.toList_push, ih, List.append_assoc, List.replicate_succ']

theorem toList_foldl_append (text : A → String) (items : List A) (front : String) :
    (items.foldl (fun joined item => joined ++ text item) front).toList =
      front.toList ++ items.flatMap fun item => (text item).toList := by
  induction items generalizing front with
  | nil => simp
  | cons item items ih =>
      rw [List.foldl_cons, ih, String.toList_append, List.flatMap_cons, List.append_assoc]

/-- Lines that are ended by newlines are found again, with an empty one behind the last newline. -/
theorem splitOn_flatMap {line : A → List Char} {items : List A}
    (hsingle : ∀ item ∈ items, '\n' ∉ line item) :
    (items.flatMap fun item => line item ++ ['\n']).splitOn '\n' = items.map line ++ [[]] := by
  induction items with
  | nil => rfl
  | cons item items ih =>
      obtain ⟨hitem, hitems⟩ := List.forall_mem_cons.mp hsingle
      rw [List.flatMap_cons, List.append_assoc, List.singleton_append,
        List.splitOn_append_cons_self_of_not_mem hitem, ih hitems]
      rfl

theorem not_mem_append {front back : String} (hfront : char ∉ front.toList)
    (hback : char ∉ back.toList) : char ∉ (front ++ back).toList := by
  rw [String.toList_append, List.mem_append]
  exact not_or.mpr ⟨hfront, hback⟩

theorem dropWhile_blank {chars : List Char} (hhead : chars.head? ≠ some ' ') :
    chars.dropWhile (· == ' ') = chars := by
  cases chars with
  | nil => rfl
  | cons first rest =>
      have hfirst : (first == ' ') = false := by
        apply beq_eq_false_iff_ne.mpr
        rintro rfl
        exact hhead rfl
      rw [List.dropWhile_cons, hfirst]
      rfl

/-! Decimal numerals are read as they are written. -/

def natural? (digits : List Char) : Option Nat :=
  if digits ≠ [] ∧ digits.all Char.isDigit then some (Nat.ofDigitChars 10 digits 0) else none

def numeral? (text : String) : Option Int :=
  match text.toList with
  | '-' :: digits => (natural? digits).map fun value => -(value : Int)
  | digits => (natural? digits).map fun value => (value : Int)

theorem not_mem_toDigits (hchar : char.isDigit = false) (value : Nat) :
    char ∉ Nat.toDigits 10 value := by
  intro hmem
  rw [Nat.isDigit_of_mem_toDigits (by decide) (by decide) hmem] at hchar
  contradiction

theorem not_mem_toString (hchar : char.isDigit = false) (value : Nat) :
    char ∉ (toString value).toList := by
  have hlist : (toString value).toList = Nat.toDigits 10 value := by simp
  rw [hlist]
  exact not_mem_toDigits hchar value

theorem not_mem_toString_int (hchar : char.isDigit = false) (hminus : char ∉ "-".toList)
    (value : Int) : char ∉ (toString value).toList := by
  cases value with
  | ofNat magnitude => exact not_mem_toString hchar magnitude
  | negSucc magnitude => exact not_mem_append hminus (not_mem_toString hchar (magnitude + 1))

theorem natural?_toDigits (value : Nat) : natural? (Nat.toDigits 10 value) = some value := by
  have hdigits : (Nat.toDigits 10 value).all Char.isDigit = true :=
    List.all_eq_true.mpr fun digit hmem =>
      Nat.isDigit_of_mem_toDigits (by decide) (by decide) hmem
  rw [natural?, if_pos ⟨Nat.toDigits_ne_nil, hdigits⟩, Nat.ofDigitChars_ten_toDigits]

theorem numeral?_toString (value : Nat) : numeral? (toString value) = some (value : Int) := by
  have hlist : (toString value).toList = Nat.toDigits 10 value := by simp
  unfold numeral?
  rw [hlist]
  split
  · next digits hminus =>
      have hmem : '-' ∈ Nat.toDigits 10 value := hminus ▸ List.mem_cons_self
      exact absurd hmem (not_mem_toDigits (by decide) value)
  · rw [natural?_toDigits]
    rfl

theorem numeral?_toString_int (value : Int) : numeral? (toString value) = some value := by
  cases value with
  | ofNat magnitude => exact numeral?_toString magnitude
  | negSucc magnitude =>
      have hlist : (toString (Int.negSucc magnitude)).toList =
          '-' :: Nat.toDigits 10 (magnitude + 1) := by
        rw [Int.toString_eq_repr, Int.repr]
        simp
      rw [numeral?, hlist]
      simp only [natural?_toDigits]
      rfl

theorem toString_int_injective : Function.Injective (toString : Int → String) := by
  intro left right htext
  have hread := congrArg numeral? htext
  rw [numeral?_toString_int, numeral?_toString_int] at hread
  exact Option.some.inj hread

end Brainfuck.Text
