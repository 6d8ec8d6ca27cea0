import Brainfuck.Proofs.LossyText
import Brainfuck.Proofs.Outcome
import Brainfuck.Proofs.TextLines
import Brainfuck.Proofs.VisibleCommands

/-! The caret of a diagnostic and the bracket that it is about.

A bracket that is refused stands in the source at the place of its error. The diagnostic quotes the
line as text, and under it the caret stands behind one blank for each byte in front of the bracket.
Between the two lie the sequences of several bytes: where there are none the caret is under the
bracket, and each of them puts it further to the right. -/

namespace Brainfuck

namespace BracketError

def position : BracketError → Position
  | .extraClose position => position
  | .unclosed position => position

def command : BracketError → Command
  | .extraClose _ => .loopEnd
  | .unclosed _ => .loopStart

def bracket : BracketError → Char
  | .extraClose _ => ']'
  | .unclosed _ => '['

theorem isAscii_byte (error : BracketError) : Text.Utf8.IsAscii error.command.byte := by
  cases error with
  | extraClose position => exact (by decide : Text.Utf8.IsAscii Command.loopEnd.byte)
  | unclosed position => exact (by decide : Text.Utf8.IsAscii Command.loopStart.byte)

theorem asciiChar_byte (error : BracketError) :
    Text.Utf8.asciiChar error.command.byte = error.bracket := by
  cases error <;> rfl

theorem position?_diagnostic (error : BracketError) :
    error.diagnostic.position? = some error.position := by
  cases error <;> rfl

end BracketError

/-! Where the bracket stands. -/

theorem Matching.exists_token {tokens : List Token} {error : BracketError}
    (hmatching : ofTokens tokens = .error error) :
    ∃ token ∈ tokens, token.position = error.position ∧ token.command = error.command := by
  have hverdict := verdict tokens
  rw [hmatching] at hverdict
  cases hverdict with
  | extraClose htokens _ hclose => exact ⟨_, by simp [htokens], rfl, hclose⟩
  | unclosed htokens _ hopening _ => exact ⟨_, by simp [htokens], rfl, hopening⟩

theorem Token.exists_line {options : Options} {source : Bytes} {token : Token}
    (hshown : token ∈ options.shown source) :
    ∃ index front back, token.position = ⟨index + 1, front.length + 1⟩ ∧
      (source.splitOn Bytes.newline)[index]? = some (front ++ token.command.byte :: back) := by
  obtain ⟨place, -, hplace⟩ := List.mem_filterMap.mp hshown
  have hmarks := marks_of_shown? hplace
  obtain ⟨byte, hbyte, hread⟩ := Option.bind_eq_some_iff.mp hmarks.command
  obtain ⟨back, hline⟩ := Bytes.exists_line hbyte (Command.ne_newline hread)
  rw [Command.ofByte?_eq_some_iff.mp hread] at hline
  refine ⟨_, _, back, ?_, hline⟩
  exact congrArg₂ Position.mk (hmarks.line.trans (Nat.add_comm ..))
    (hmarks.column.trans (Nat.add_comm ..))

section Errors

variable {options : Options} {arch : Asm.Arch} {error : BracketError}

theorem ofTokens_of_compile {source : Bytes}
    (hcompile : compile options arch source = .error (.brackets error)) :
    Matching.ofTokens (options.shown source) = .error error := by
  cases hmatching : Matching.ofTokens (options.shown source) with
  | error other =>
      rw [compile_of_bracketError hmatching] at hcompile
      cases hcompile
      rfl
  | ok matching =>
      obtain ⟨block, hspell⟩ := Matching.exists_spell hmatching
      rw [compile_of_spell hspell] at hcompile
      cases arch <;> cases hcompile

theorem BracketError.exists_line {source : Bytes}
    (hcompile : compile options arch source = .error (.brackets error)) :
    ∃ index front back, error.position = ⟨index + 1, front.length + 1⟩ ∧
      (source.splitOn Bytes.newline)[index]? = some (front ++ error.command.byte :: back) := by
  have hmatching := ofTokens_of_compile hcompile
  obtain ⟨token, hshown, hposition, hcommand⟩ := Matching.exists_token hmatching
  have hline := Token.exists_line hshown
  rwa [hposition, hcommand] at hline

end Errors

namespace Diagnostic

/-- Two gutters of one width: of a quoted line, and of the caret below it. -/
structure Gutters where
  line : List Char
  caret : List Char
  width : line.length = caret.length
  single : '\n' ∉ line ∧ '\n' ∉ caret
  unmarked : '^' ∉ caret

namespace Gutters

def ofMargin (margin : String) (hmargin : '\n' ∉ margin.toList) : Gutters where
  line := (gutter margin).toList
  caret := (gutter ("".pushn ' ' margin.length)).toList
  width := by simp [gutter, Text.toList_pushn, String.length_toList]
  single := by simp [gutter, Text.toList_pushn, hmargin]
  unmarked := by simp [gutter, Text.toList_pushn]

/-- The text with a quoted line and a caret that stands `offset` characters into it. -/
def exhibit (gutters : Gutters) (headline quoted : List Char) (offset : Nat) : List Char :=
  headline ++ '\n' :: (gutters.line ++ quoted ++
    '\n' :: (gutters.caret ++ List.replicate offset ' ' ++ ['^'] ++ ['\n']))

end Gutters

/-- The character over the caret, where the last line of a text holds one. -/
def aboveCaret? (text : List Char) : Option Char :=
  match (text.splitOn '\n').reverse with
  | [] :: caret :: quoted :: _ => quoted[caret.idxOf '^']?
  | _ => none

section Exhibit

variable (gutters : Gutters) (headline : List Char) {quoted : List Char}

theorem splitOn_exhibit (hquoted : '\n' ∉ quoted) (offset : Nat) :
    (gutters.exhibit headline quoted offset).splitOn '\n' =
      headline.splitOn '\n' ++
        [gutters.line ++ quoted, gutters.caret ++ List.replicate offset ' ' ++ ['^'], []] := by
  have hline : '\n' ∉ gutters.line ++ quoted := by
    simp [gutters.single.1, hquoted]
  have hcaret : '\n' ∉ gutters.caret ++ List.replicate offset ' ' ++ ['^'] := by
    simp [gutters.single.2]
  rw [Gutters.exhibit, List.splitOn_append_cons_self,
    List.splitOn_append_cons_self_of_not_mem hline, List.splitOn_append_cons_self_of_not_mem hcaret,
    List.splitOn_nil]

theorem aboveCaret?_exhibit (hquoted : '\n' ∉ quoted) (offset : Nat) :
    aboveCaret? (gutters.exhibit headline quoted offset) = quoted[offset]? := by
  have hblanks : '^' ∉ gutters.caret ++ List.replicate offset ' ' := by
    simp [gutters.unmarked]
  unfold aboveCaret?
  rw [splitOn_exhibit gutters headline hquoted, List.reverse_append]
  change (gutters.line ++ quoted)[
    (gutters.caret ++ List.replicate offset ' ' ++ ['^']).idxOf '^']? = _
  rw [List.idxOf_append_of_notMem hblanks, List.length_append, ← gutters.width,
    List.length_replicate, List.idxOf_cons_self, Nat.add_zero,
    List.getElem?_append_right (Nat.le_add_right _ _), Nat.add_sub_cancel_left]

end Exhibit

theorem render_eq_exhibit {source : Source} {diagnostic : Diagnostic} {position : Position}
    {text : String} (hposition : diagnostic.position? = some position)
    (htext : source.line? position.line = some text) :
    ∃ gutters headline, (diagnostic.render false (some source)).toList =
      Gutters.exhibit gutters headline text.toList (position.column - 1) := by
  refine ⟨.ofMargin (toString position.line) (Text.not_mem_toString (by decide) position.line),
    (source.name ++ position.bracketed ++ ": " ++ diagnostic.kind.code ++
      (": " ++ diagnostic.message)).toList, ?_⟩
  unfold render
  rw [hposition]
  simp [headline, quotedRow, caretRow, htext, Gutters.exhibit, Gutters.ofMargin, Text.Style.apply,
    Text.toList_pushn]

end Diagnostic

open Text.Utf8 (decode Apart IsAscii)

namespace BracketError

def rendering (error : BracketError) (source : Source) : List Char :=
  (error.diagnostic.render false (some source)).toList

/-- How an error is displayed if its bracket is in the line at `index`, between `front` and
`back`. -/
structure DisplayedAt (error : BracketError) (source : Source) (index : Nat)
    (front back : Bytes) : Prop where
  position_eq : error.position = ⟨index + 1, front.length + 1⟩
  line_eq : (source.bytes.splitOn Bytes.newline)[index]? =
    some (front ++ error.command.byte :: back)
  rendering_eq : ∃ gutters headline, error.rendering source =
    Diagnostic.Gutters.exhibit gutters headline
      (decode (front ++ error.command.byte :: back)).toList front.length
  quoted_eq : (decode (front ++ error.command.byte :: back)).toList =
    (decode front).toList ++ error.bracket :: (decode back).toList
  aboveCaret?_eq : Diagnostic.aboveCaret? (error.rendering source) =
    (decode (front ++ error.command.byte :: back)).toList[front.length]?
  length_le : (decode front).toList.length ≤ front.length
  length_eq_iff : (decode front).toList.length = front.length ↔ Apart front
  above_of_apart : Apart front →
    Diagnostic.aboveCaret? (error.rendering source) = some error.bracket
  above_of_ascii : (∀ byte ∈ front, IsAscii byte) →
    Diagnostic.aboveCaret? (error.rendering source) = some error.bracket

end BracketError

/-- Where the caret of a bracket error stands. The line of the bracket is quoted as text, the caret
stands as many characters into it as there are bytes in front of the bracket, and the gutters of the
two are equally wide. So the caret is under the bracket if those bytes are as many characters, which
is if they are read apart, and further to the right in all other cases. -/
theorem caret_under_bracket {options : Options} {arch : Asm.Arch} {source : Source}
    {error : BracketError}
    (hcompile : compile options arch source.bytes = .error (.brackets error)) :
    ∃ index front back, error.DisplayedAt source index front back := by
  obtain ⟨index, front, back, hposition, hline⟩ := BracketError.exists_line hcompile
  have hdecode : source.line? error.position.line =
      some (decode (front ++ error.command.byte :: back)) := by
    rw [hposition, Source.line?, hline, Option.map_some]
  obtain ⟨gutters, headline, htext⟩ :=
    Diagnostic.render_eq_exhibit error.position?_diagnostic hdecode
  rw [hposition, Nat.add_sub_cancel] at htext
  have hcut := Text.Utf8.toList_decode_append error.isAscii_byte front back
  rw [error.asciiChar_byte] at hcut
  have hquoted := Text.Utf8.not_mem_decode (Bytes.not_mem_line (List.mem_of_getElem? hline))
  have habove := Diagnostic.aboveCaret?_exhibit gutters headline hquoted front.length
  rw [← htext] at habove
  have hlength := Text.Utf8.length_decode_iff front
  have hunder : Apart front →
      Diagnostic.aboveCaret? (error.rendering source) = some error.bracket := by
    intro hapart
    rw [BracketError.rendering, habove, hcut, ← hlength.mpr hapart]
    simp
  exact ⟨index, front, back, hposition, hline, ⟨gutters, headline, htext⟩, hcut, habove,
    Text.Utf8.length_decode_le front, hlength, hunder, hunder ∘ Text.Utf8.apart_of_ascii⟩

/-- A byte that starts no sequence is a character, and the caret is under the bracket behind it. -/
theorem caret_under_bracket_stray_byte :
    let source : Source := ⟨.ofString "prog.bf", [0xC3, 0xA9, 0x0A, 0xFF, 0x2B, 0x5B]⟩
    let error : BracketError := .unclosed ⟨2, 3⟩
    compile .none .x64 source.bytes = .error (.brackets error) ∧
      Diagnostic.aboveCaret? (error.rendering source) = some '[' := by
  intro source error
  have hcompile : compile .none .x64 source.bytes = .error (.brackets error) := rfl
  obtain ⟨index, front, back, hdisplayed⟩ := caret_under_bracket hcompile
  obtain ⟨hindex, hlength⟩ := Position.mk.inj hdisplayed.position_eq
  obtain rfl : index = 1 := by omega
  have hrow : [0xFF, 0x2B] ++ [0x5B] = front ++ 0x5B :: back :=
    Option.some.inj hdisplayed.line_eq
  obtain rfl := (List.append_inj hrow (Nat.succ.inj hlength)).1
  have hapart : Apart [0xFF, 0x2B] := by
    simp [Apart, Text.Utf8.Joins, Text.Utf8.lead?]
  exact ⟨hcompile, hdisplayed.above_of_apart hapart⟩

/-- In the line `é]` the caret stands behind the end. -/
theorem caret_beyond_bracket :
    let source : Source := ⟨.ofString "prog.bf", [0xC3, 0xA9, 0x5D]⟩
    let error : BracketError := .extraClose ⟨1, 3⟩
    compile .none .x64 source.bytes = .error (.brackets error) ∧
      source.line? 1 = some "é]" ∧
      Diagnostic.aboveCaret? (error.rendering source) = none := by
  intro source error
  have hline : source.line? 1 = some "é]" := by
    have hread : Text.Utf8.readChar 0xC3 [0xA9, 0x5D] = (some 'é', [0x5D]) := rfl
    have hascii : IsAscii 0x5D := by decide
    have htext : (decode [0xC3, 0xA9, 0x5D]).toList = ['é', ']'] := by
      rw [Text.Utf8.toList_decode_cons, hread, Text.Utf8.toList_decode_cons,
        Text.Utf8.readChar_ascii hascii, Text.Utf8.decode_nil]
      rfl
    exact congrArg some (String.toList_inj.mp htext)
  obtain ⟨gutters, headline, htext⟩ :=
    Diagnostic.render_eq_exhibit error.position?_diagnostic hline
  refine ⟨rfl, hline, ?_⟩
  rw [BracketError.rendering, htext, Diagnostic.aboveCaret?_exhibit gutters headline (by decide)]
  rfl

end Brainfuck
