import Mathlib.Algebra.Group.Nat.Defs
import Mathlib.Data.List.Chain
import Mathlib.Data.List.Infix
import Brainfuck.Text.Utf8

/-! Bytes read as text.

Reading goes on from one sequence to the next, each of at least one byte. A byte of the ASCII range
belongs to no longer sequence, so the text can be cut there: what stands in front of the byte and
what stands behind it are read on their own. -/

namespace Brainfuck.Text.Utf8

/-- A byte that is a character of its own. -/
def IsAscii (byte : UInt8) : Prop := byte < 0x80

instance (byte : UInt8) : Decidable (IsAscii byte) :=
  inferInstanceAs (Decidable (byte < 0x80))

/-- A byte asks for a further one, and `next` is one that it asks for. -/
def Joins (byte next : UInt8) : Prop :=
  ∃ lead ∈ lead? byte, ∃ range ∈ lead.trail.head?, range.1 ≤ next ∧ next ≤ range.2

/-- No byte joins the one in front of it. -/
def Apart (bytes : Bytes) : Prop :=
  bytes.IsChain fun byte next => ¬ Joins byte next

def asciiChar (byte : UInt8) : Char := Char.ofNat byte.toNat

/-- A leading byte stands alone, or it asks for bytes beyond the ASCII range and announces a code
point beyond it. -/
theorem lead?_cases {byte : UInt8} {lead : Lead} (hlead : lead? byte = some lead) :
    (IsAscii byte ∧ lead = ⟨byte.toNat, []⟩) ∨
      (∀ range ∈ lead.trail, ¬ IsAscii range.1) ∧
        ∃ low high ranges, lead.trail = (low, high) :: ranges ∧
          128 ≤ (lead.bits * 64 + (low.toNat - 0x80)) * 64 ^ ranges.length := by
  simp only [lead?, ite_eq_iff, reduceCtorEq, and_false, false_or, or_false,
    Option.some.injEq] at hlead
  rcases hlead with ⟨halone, rfl⟩ | ⟨-, hstart, hlead⟩
  · exact .inl ⟨UInt8.lt_of_le_of_lt halone (by decide), rfl⟩
  rcases hlead with ⟨-, rfl⟩ | ⟨htwo, ⟨-, rfl⟩ | ⟨hlow, ⟨-, rfl⟩ | ⟨-, ⟨-, rfl⟩ |
    ⟨hthree, ⟨-, rfl⟩ | ⟨hlow, ⟨-, rfl⟩ | ⟨-, -, rfl⟩⟩⟩⟩⟩⟩
  all_goals refine .inr ⟨by simp [IsAscii, continuation], _, _, _, rfl, ?_⟩
  · have hbyte : 194 ≤ byte.toNat := UInt8.le_iff_toNat_le.mp (UInt8.not_lt.mp hstart)
    change 128 ≤ ((byte.toNat - 192) * 64 + 0) * 1
    omega
  · decide
  · decide
  · have hbyte : 223 < byte.toNat := UInt8.lt_iff_toNat_lt.mp (UInt8.not_le.mp htwo)
    have hnext : byte.toNat ≠ 224 := fun heq => hlow (UInt8.toNat_inj.mp heq)
    change 128 ≤ ((byte.toNat - 224) * 64 + 0) * 64
    omega
  · decide
  · have hbyte : 239 < byte.toNat := UInt8.lt_iff_toNat_lt.mp (UInt8.not_le.mp hthree)
    have hnext : byte.toNat ≠ 240 := fun heq => hlow (UInt8.toNat_inj.mp heq)
    change 128 ≤ ((byte.toNat - 240) * 64 + 0) * 4096
    omega
  · decide

section ReadTrail

variable {ranges : List (UInt8 × UInt8)} {byte : UInt8}

/-- A byte of the ASCII range ends a sequence as the end of the bytes does. -/
theorem readTrail_append (hranges : ∀ range ∈ ranges, ¬ IsAscii range.1) (hbyte : IsAscii byte)
    (bits : Nat) (front back : Bytes) :
    readTrail bits ranges (front ++ byte :: back) =
      (readTrail bits ranges front).map id (· ++ byte :: back) := by
  induction ranges generalizing bits front with
  | nil => rfl
  | cons range ranges ih =>
      obtain ⟨low, high⟩ := range
      obtain ⟨hlow, hranges⟩ := List.forall_mem_cons.mp hranges
      cases front with
      | nil =>
          have hout : ¬ (low ≤ byte ∧ byte ≤ high) :=
            fun hin => hlow (UInt8.lt_of_le_of_lt hin.1 hbyte)
          exact if_neg hout
      | cons next front =>
          rw [List.cons_append, readTrail, readTrail]
          split
          · exact ih hranges _ front
          · rfl

theorem readTrail_suffix (bits : Nat) (bytes : Bytes) :
    (readTrail bits ranges bytes).2 <:+ bytes := by
  induction ranges generalizing bits bytes with
  | nil => exact List.suffix_refl bytes
  | cons range ranges ih =>
      cases bytes with
      | nil => exact List.suffix_refl []
      | cons next bytes =>
          rw [readTrail]
          split
          · exact (ih _ bytes).trans (List.suffix_cons next bytes)
          · exact List.suffix_refl _

theorem exists_of_readTrail {bits : Nat} {bytes : Bytes} {char : Char}
    (hread : (readTrail bits ranges bytes).1 = some char) :
    ∃ code, char = Char.ofNat code ∧ bits * 64 ^ ranges.length ≤ code := by
  induction ranges generalizing bits bytes with
  | nil =>
      cases hread
      exact ⟨bits, rfl, Nat.le_of_eq (by simp)⟩
  | cons range ranges ih =>
      cases bytes with
      | nil => cases hread
      | cons next bytes =>
          rw [readTrail] at hread
          split at hread
          · obtain ⟨code, hchar, hcode⟩ := ih hread
            refine ⟨code, hchar, Nat.le_trans ?_ hcode⟩
            rw [List.length_cons, Nat.pow_succ', ← Nat.mul_assoc]
            exact Nat.mul_le_mul_right _ (Nat.le_add_right _ _)
          · cases hread

end ReadTrail

section ReadChar

variable {byte : UInt8}

theorem readChar_ascii (hbyte : IsAscii byte) (rest : Bytes) :
    readChar byte rest = (some (asciiChar byte), rest) := by
  have hrange : byte ≤ 0x7f := by
    rw [IsAscii, UInt8.lt_iff_toNat_lt] at hbyte
    exact UInt8.le_iff_toNat_le.mpr (Nat.le_of_lt_succ hbyte)
  rw [readChar, lead?, if_pos hrange]
  rfl

theorem readChar_append {next : UInt8} (hnext : IsAscii next) (byte : UInt8)
    (front back : Bytes) :
    readChar byte (front ++ next :: back) = (readChar byte front).map id (· ++ next :: back) := by
  unfold readChar
  cases hlead : lead? byte with
  | none => rfl
  | some lead =>
      refine readTrail_append ?_ hnext lead.bits front back
      rcases lead?_cases hlead with ⟨-, rfl⟩ | ⟨htrail, -⟩
      · exact List.forall_mem_nil _
      · exact htrail

theorem readChar_suffix (byte : UInt8) (rest : Bytes) : (readChar byte rest).2 <:+ rest := by
  unfold readChar
  split
  · exact readTrail_suffix _ rest
  · exact List.suffix_refl rest

theorem readTrail_ne (bits : Nat) (ranges : List (UInt8 × UInt8)) (next : UInt8) (rest : Bytes) :
    (readTrail bits ranges rest).2 ≠ next :: rest := by
  intro hrest
  have hlength := length_readTrail_le bits ranges rest
  rw [hrest, List.length_cons] at hlength
  exact Nat.not_succ_le_self _ hlength

/-- A sequence ends with its first byte where the next one does not join it. -/
theorem readChar_rest_iff (byte : UInt8) (rest : Bytes) :
    (readChar byte rest).2 = rest ↔ ∀ next ∈ rest.head?, ¬ Joins byte next := by
  cases rest with
  | nil =>
      refine iff_of_true (List.suffix_nil.mp (readChar_suffix byte [])) ?_
      rintro next ⟨⟩
  | cons next rest =>
      simp only [List.head?_cons, Option.mem_some_iff, forall_eq']
      unfold readChar Joins
      cases lead? byte with
      | none => simp
      | some lead =>
          obtain ⟨bits, trail⟩ := lead
          cases trail with
          | nil => simp [readTrail]
          | cons range ranges =>
              simp only [readTrail, Option.mem_some_iff, List.head?_cons, exists_eq_left']
              split
              · next hin => exact iff_of_false (readTrail_ne _ _ next rest) (not_not_intro hin)
              · next hout => exact iff_of_true rfl hout

theorem not_joins_of_ascii (hbyte : IsAscii byte) (next : UInt8) : ¬ Joins byte next := by
  have hrest := (readChar_rest_iff byte [next]).mp (by rw [readChar_ascii hbyte])
  exact hrest next rfl

theorem apart_of_ascii {bytes : Bytes} (hbytes : ∀ byte ∈ bytes, IsAscii byte) : Apart bytes := by
  induction bytes with
  | nil => exact .nil
  | cons byte rest ih =>
      obtain ⟨hbyte, hrest⟩ := List.forall_mem_cons.mp hbytes
      exact List.isChain_cons.mpr ⟨fun next _ => not_joins_of_ascii hbyte next, ih hrest⟩

theorem eq_ten_of_ofNat {code : Nat} (hchar : '\n' = Char.ofNat code) : code = 10 := by
  unfold Char.ofNat at hchar
  by_cases hvalid : code.isValidChar
  · rw [dif_pos hvalid] at hchar
    exact (congrArg Char.toNat hchar).symm
  · rw [dif_neg hvalid] at hchar
    exact absurd hchar (by decide)

theorem eq_newline_of_readChar {rest : Bytes} (hread : (readChar byte rest).1 = some '\n') :
    byte = Bytes.newline := by
  unfold readChar at hread
  cases hlead : lead? byte with
  | none =>
      rw [hlead] at hread
      cases hread
  | some lead =>
      rw [hlead] at hread
      rcases lead?_cases hlead with ⟨-, rfl⟩ | ⟨-, low, high, ranges, htrail, hbits⟩
      · exact UInt8.toNat_inj.mp (eq_ten_of_ofNat (Option.some.inj hread).symm)
      · simp only [htrail] at hread
        cases rest with
        | nil => cases hread
        | cons next rest =>
            rw [readTrail] at hread
            split at hread
            · next hin =>
                obtain ⟨code, hchar, hcode⟩ := exists_of_readTrail hread
                have hten := eq_ten_of_ofNat hchar
                have hlow := UInt8.le_iff_toNat_le.mp hin.1
                have hmore : lead.bits * 64 + (low.toNat - 0x80) ≤
                    lead.bits * 64 + (next.toNat - 0x80) := by omega
                have hless := Nat.mul_le_mul_right (64 ^ ranges.length) hmore
                omega
            · cases hread

end ReadChar

/-- What holds of no bytes, and of bytes whenever it holds of those behind the first sequence, holds
of all bytes. -/
theorem reading_induction {motive : Bytes → Prop} (nil : motive [])
    (cons : ∀ byte rest, motive (readChar byte rest).2 → motive (byte :: rest)) :
    ∀ bytes, motive bytes
  | [] => nil
  | byte :: rest => cons byte rest (reading_induction nil cons (readChar byte rest).2)
termination_by bytes => bytes.length
decreasing_by exact Nat.lt_succ_of_le (length_readChar_le byte rest)

theorem toList_decodeOnto (text : String) (bytes : Bytes) :
    (decodeOnto text bytes).toList = text.toList ++ (decode bytes).toList := by
  unfold decode
  induction bytes using reading_induction generalizing text with
  | nil => simp [decodeOnto]
  | cons byte rest ih =>
      rw [decodeOnto, decodeOnto, ih, ih ("".push _)]
      simp

@[simp] theorem decode_nil : decode [] = "" := by
  rw [decode, decodeOnto]

theorem toList_decode_cons (byte : UInt8) (rest : Bytes) :
    (decode (byte :: rest)).toList =
      (readChar byte rest).1.getD replacement :: (decode (readChar byte rest).2).toList := by
  rw [decode, decodeOnto, toList_decodeOnto]
  simp

/-- A text can be cut at a byte of the ASCII range. -/
theorem toList_decode_append {byte : UInt8} (hbyte : IsAscii byte) (front back : Bytes) :
    (decode (front ++ byte :: back)).toList =
      (decode front).toList ++ asciiChar byte :: (decode back).toList := by
  induction front using reading_induction with
  | nil => simp [toList_decode_cons, readChar_ascii hbyte]
  | cons first rest ih =>
      rw [List.cons_append, toList_decode_cons, readChar_append hbyte, toList_decode_cons]
      simp [ih]

theorem length_decode_le (bytes : Bytes) : (decode bytes).toList.length ≤ bytes.length := by
  induction bytes using reading_induction with
  | nil => simp
  | cons byte rest ih =>
      rw [toList_decode_cons, List.length_cons, List.length_cons]
      exact Nat.succ_le_succ (Nat.le_trans ih (length_readChar_le byte rest))

/-- There is a character for each byte if no byte joins the one in front of it. -/
theorem length_decode_iff (bytes : Bytes) :
    (decode bytes).toList.length = bytes.length ↔ Apart bytes := by
  unfold Apart
  induction bytes using reading_induction with
  | nil => simp
  | cons byte rest ih =>
      rw [toList_decode_cons, List.length_cons, List.length_cons, Nat.succ_inj, List.isChain_cons,
        ← readChar_rest_iff]
      by_cases hrest : (readChar byte rest).2 = rest
      · rw [hrest] at ih ⊢
        rw [ih, and_iff_right rfl]
      · refine iff_of_false (fun hlength => ?_) (fun hboth => hrest hboth.1)
        refine hrest ((readChar_suffix byte rest).eq_of_length_le ?_)
        exact hlength ▸ length_decode_le _

theorem not_mem_decode {bytes : Bytes} (hbytes : Bytes.newline ∉ bytes) :
    '\n' ∉ (decode bytes).toList := by
  induction bytes using reading_induction with
  | nil => simp
  | cons byte rest ih =>
      rw [toList_decode_cons, List.mem_cons]
      rintro (hfirst | hlater)
      · cases hread : (readChar byte rest).1 with
        | none =>
            rw [hread] at hfirst
            exact absurd hfirst (by decide)
        | some char =>
            rw [hread] at hfirst
            cases hfirst
            exact hbytes (eq_newline_of_readChar hread ▸ List.mem_cons_self)
      · refine ih (fun hmem => hbytes ?_) hlater
        exact List.mem_cons_of_mem byte ((readChar_suffix byte rest).mem hmem)

end Brainfuck.Text.Utf8
