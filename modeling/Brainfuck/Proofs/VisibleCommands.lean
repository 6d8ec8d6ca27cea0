import Mathlib.Data.List.Forall2
import Brainfuck.Options
import Brainfuck.Proofs.Places
import Brainfuck.Proofs.Reading

/-! The visible commands, one token for each and at its place.

Which commands are visible is a matter of the source and the options alone. The scan gives each of
them one token, in the order of the bytes, and in the lines of the source the byte is found again at
the line and column of its token. -/

namespace Brainfuck

/-! The lines of a source. -/

namespace Bytes

theorem length_splitOn (source : Bytes) :
    (source.splitOn newline).length = source.count newline + 1 := by
  induction source with
  | nil => rfl
  | cons byte rest ih =>
      rw [List.splitOn_cons_eq_if_modifyHead, List.count_cons]
      split
      · rw [List.length_cons, ih]
      · rw [List.length_modifyHead, ih]

theorem not_mem_line {source line : Bytes} (hline : line ∈ source.splitOn newline) :
    newline ∉ line := by
  induction source generalizing line with
  | nil =>
      rw [List.mem_singleton.mp hline]
      exact List.not_mem_nil
  | cons byte rest ih =>
      rw [List.splitOn_cons_eq_if_modifyHead] at hline
      split at hline
      · rcases List.mem_cons.mp hline with rfl | hlater
        · exact List.not_mem_nil
        · exact ih hlater
      · next hbyte =>
          cases hrows : rest.splitOn newline with
          | nil => exact absurd hrows (List.splitOn_ne_nil _ _)
          | cons row rows =>
              rw [hrows] at hline ih
              rcases List.mem_cons.mp hline with rfl | hlater
              · have hfirst : newline ≠ byte := by
                  rintro rfl
                  exact hbyte BEq.rfl
                exact List.not_mem_cons_of_ne_of_not_mem hfirst (ih List.mem_cons_self)
              · exact ih (List.mem_cons_of_mem row hlater)

theorem head?_splitOn {byte : UInt8} (hbyte : byte ≠ newline) (rest : Bytes) :
    ((byte :: rest).splitOn newline).head? =
      (rest.splitOn newline).head?.map (byte :: ·) := by
  rw [List.splitOn_cons_eq_if_modifyHead, if_neg (by simpa using hbyte), List.head?_modifyHead]

/-- As many lines further on as there are newlines in `front`, its last line is continued. -/
theorem getElem?_splitOn (front rest : Bytes) :
    ((front ++ rest).splitOn newline)[front.count newline]? =
      (rest.splitOn newline).head?.map (front.rtakeWhile (· != newline) ++ ·) := by
  induction front using List.reverseRecOn generalizing rest with
  | nil => simp [List.head?_eq_getElem?]
  | append_singleton front byte ih =>
      rw [List.append_assoc, List.singleton_append]
      by_cases hbyte : byte = newline
      · subst hbyte
        rw [List.splitOn_append_cons_self, List.count_append, List.count_singleton_self,
          ← length_splitOn, List.getElem?_append_right (Nat.le_refl _), Nat.sub_self,
          ← List.head?_eq_getElem?, List.rtakeWhile_concat_neg _ _ _ (by simp)]
        simp
      · rw [List.count_append, List.count_singleton, if_neg (by simpa using hbyte), Nat.add_zero,
          ih, head?_splitOn hbyte, List.rtakeWhile_concat_pos _ _ _ (by simpa using hbyte)]
        simp [Function.comp_def]

/-- A byte stands on its line behind what stands in front of it there. -/
theorem exists_line {source : Bytes} {index : Nat} {byte : UInt8}
    (hbyte : source[index]? = some byte) (hnewline : byte ≠ newline) :
    ∃ rest, (source.splitOn newline)[(source.take index).count newline]? =
      some (lineBefore source index ++ byte :: rest) := by
  obtain ⟨hindex, rfl⟩ := List.getElem?_eq_some_iff.mp hbyte
  have hline := getElem?_splitOn (source.take index) (source[index] :: source.drop (index + 1))
  rw [← List.drop_eq_getElem_cons, List.take_append_drop, List.drop_eq_getElem_cons hindex,
    head?_splitOn hnewline] at hline
  obtain ⟨row, hrow⟩ : ∃ row, ((source.drop (index + 1)).splitOn newline).head? = some row :=
    ⟨_, List.head?_eq_some_head (List.splitOn_ne_nil _ _)⟩
  rw [hrow] at hline
  exact ⟨row, hline⟩

theorem getElem?_line {source : Bytes} {index : Nat} {byte : UInt8}
    (hbyte : source[index]? = some byte) (hnewline : byte ≠ newline) :
    ((source.splitOn newline)[(source.take index).count newline]?).bind
      (·[(lineBefore source index).length]?) = some byte := by
  obtain ⟨rest, hline⟩ := exists_line hbyte hnewline
  rw [hline, Option.bind_some, List.getElem?_append_right (Nat.le_refl _), Nat.sub_self]
  rfl

end Bytes

theorem Command.ofByte?_eq_some_iff {byte : UInt8} {command : Command} :
    ofByte? byte = some command ↔ byte = command.byte := by
  constructor
  · intro hread
    have hround : (Char.ofUInt8 byte).toUInt8 = byte := UInt8.toUInt8_toUInt32 byte
    unfold ofByte? at hread
    split at hread <;> cases hread
    all_goals
      next hchar =>
        rw [← hround, hchar]
        rfl
  · rintro rfl
    exact ofByte?_byte command

theorem Command.ne_newline {byte : UInt8} {command : Command}
    (hread : ofByte? byte = some command) : byte ≠ Bytes.newline := by
  rintro rfl
  cases ofByte?_newline.symm.trans hread

namespace Token

/-- A byte at `index` spells a command, and no comment covers it. -/
def Visible (options : Options) (source : Bytes) (index : Nat) : Prop :=
  (∃ command : Command, source[index]? = some command.byte) ∧
    (options.noComments = false → Bytes.semicolon ∉ Bytes.lineBefore source index)

/-- A token stands for the byte at `index`. -/
structure Marks (source : Bytes) (index : Nat) (token : Token) : Prop where
  command : source[index]?.bind Command.ofByte? = some token.command
  line : token.position.line = 1 + (source.take index).count Bytes.newline
  column : token.position.column = 1 + (Bytes.lineBefore source index).length
  /-- In the lines of the source, the byte is found at the place of the token. -/
  found : ((source.splitOn Bytes.newline)[token.position.line - 1]?).bind
    (·[token.position.column - 1]?) = source[index]?

theorem isSome_shown? {options : Options} {source : Bytes} {index : Nat} :
    (shown? (!options.noComments) source index).isSome = true ↔ Visible options source index := by
  have hcommand : (source[index]?.bind Command.ofByte?).isSome = true ↔
      ∃ command : Command, source[index]? = some command.byte := by
    simp only [Option.isSome_iff_exists, Option.bind_eq_some_iff, Command.ofByte?_eq_some_iff]
    exact exists_congr fun command => exists_eq_right
  unfold shown? Visible
  split
  · next hcovered =>
      refine iff_of_false Bool.false_ne_true ?_
      rintro ⟨-, hopen⟩
      exact hopen (by simpa using hcovered.1) hcovered.2
  · next hopen =>
      rw [Option.isSome_map, hcommand]
      refine (and_iff_left ?_).symm
      intro hcomments hmem
      exact hopen ⟨by simpa using hcomments, hmem⟩

theorem marks_of_shown? {comments : Bool} {source : Bytes} {index : Nat} {token : Token}
    (hshown : shown? comments source index = some token) : Marks source index token := by
  unfold shown? at hshown
  split at hshown
  · cases hshown
  obtain ⟨command, hcommand, rfl⟩ := Option.map_eq_some_iff.mp hshown
  obtain ⟨byte, hbyte, hread⟩ := Option.bind_eq_some_iff.mp hcommand
  refine ⟨hcommand, Nat.add_comm .., Nat.add_comm .., ?_⟩
  rw [hbyte]
  exact Bytes.getElem?_line hbyte (Command.ne_newline hread)

theorem forall₂_filterMap {A B : Type} (find? : A → Option B) (items : List A) :
    List.Forall₂ (fun item found => find? item = some found)
      (items.filter fun item => (find? item).isSome) (items.filterMap find?) := by
  induction items with
  | nil => exact .nil
  | cons item items ih =>
      cases hfind : find? item with
      | none =>
          rw [List.filterMap_cons_none hfind, List.filter_cons_of_neg (by simp [hfind])]
          exact ih
      | some found =>
          rw [List.filterMap_cons_some hfind, List.filter_cons_of_pos (by simp [hfind])]
          exact .cons hfind ih

/-- The scan gives one token to each visible command, in the order of the bytes, and to nothing
else. -/
theorem scan_marks_visible (options : Options) (source : Bytes) :
    ∃ indices : List Nat, indices.Pairwise (· < ·) ∧
      (∀ index, index ∈ indices ↔ Visible options source index) ∧
      List.Forall₂ (Marks source) indices (scan (!options.noComments) source) := by
  refine ⟨(List.range source.length).filter fun index =>
    (shown? (!options.noComments) source index).isSome, ?_, ?_, ?_⟩
  · exact List.pairwise_lt_range.filter _
  · intro index
    rw [List.mem_filter, isSome_shown?, List.mem_range, and_iff_right_iff_imp]
    rintro ⟨⟨command, hbyte⟩, -⟩
    exact (List.getElem?_eq_some_iff.mp hbyte).1
  · rw [scan_eq_shown]
    exact (forall₂_filterMap (shown? _ source) _).imp fun _ _ hshown => marks_of_shown? hshown

end Token

end Brainfuck
