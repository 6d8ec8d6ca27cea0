import Brainfuck.Asm.Arch
import Brainfuck.Block.Outline
import Brainfuck.Path
import Brainfuck.Text.Style

/-! The log of a compilation: what can happen, and how it is written down. -/

namespace Brainfuck.Log

inductive Level where
  | error
  | warn
  | info
  | debug
  | trace
deriving DecidableEq, Repr

namespace Level

/-- Greater ranks are more verbose. -/
def rank : Level → Nat
  | .error => 1
  | .warn => 2
  | .info => 3
  | .debug => 4
  | .trace => 5

/-- Names are padded to five places. -/
def label : Level → String
  | .error => "ERROR"
  | .warn => " WARN"
  | .info => " INFO"
  | .debug => "DEBUG"
  | .trace => "TRACE"

end Level

inductive Event where
  | scanned (bytes tokens : Nat)
  | balanced (loops : Nat)
  | built (instructions depth : Nat)
  | folded (before after : Nat)
  | optimized (tree : Block)
  | assembled (arch : Asm.Arch) (ops labels bytes : Nat)
  | stored (path : Path)
  | discarded

namespace Event

def level : Event → Level
  | .discarded => .warn
  | _ => .debug

/-- The part of the program that speaks. -/
def target : Event → String
  | .scanned .. => "bfc::lexer"
  | .balanced .. => "bfc::jumptable"
  | .built .. => "bfc::bfir"
  | .folded .. => "bfc::peephole"
  | .optimized .. => "bfc::driver"
  | .assembled .. => "bfc::codegen"
  | .stored .. => "bfc::driver"
  | .discarded => "bfc::driver"

def message : Event → String
  | .scanned .. => "lexed source"
  | .balanced .. => "brackets balanced"
  | .built .. => "built IR"
  | .folded .. => "folded runs"
  | .optimized tree => "optimized IR:\n" ++ tree.outline
  | .assembled .. => "generated assembly"
  | .stored .. => "wrote assembly"
  | .discarded => "no output file given, assembly discarded"

def fields : Event → List (String × String)
  | .scanned bytes tokens => [("bytes", toString bytes), ("tokens", toString tokens)]
  | .balanced loops => [("loops", toString loops)]
  | .built instructions depth =>
      [("instructions", toString instructions), ("depth", toString depth)]
  | .folded before after => [("before", toString before), ("after", toString after)]
  | .optimized _ => []
  | .assembled arch ops labels bytes =>
      [("arch", arch.name), ("ops", toString ops), ("labels", toString labels),
        ("bytes", toString bytes)]
  | .stored path => [("output", path.text)]
  | .discarded => []

end Event

structure Settings where
  /-- The most verbose level shown; nothing is shown without one. -/
  threshold? : Option Level
  styled : Bool
deriving DecidableEq, Repr

namespace Settings

def silent : Settings := ⟨none, false⟩

def shows (settings : Settings) (level : Level) : Bool :=
  match settings.threshold? with
  | some threshold => level.rank ≤ threshold.rank
  | none => false

def levelText (settings : Settings) (level : Level) : String :=
  match level with
  | .warn => Text.Style.yellow.apply settings.styled level.label
  | _ => Text.Style.blue.apply settings.styled level.label

def fieldText (settings : Settings) (name value : String) : String :=
  Text.Style.italic.apply settings.styled name ++
    Text.Style.dim.apply settings.styled "=" ++ value

/-- The compilation that an event belongs to, shown if informative messages are. -/
def spanText (settings : Settings) : Option Path → String
  | some path =>
      if settings.shows .info then
        Text.Style.bold.apply settings.styled "compile" ++
          Text.Style.bold.apply settings.styled "\x7b" ++
          settings.fieldText "file" path.text ++
          Text.Style.bold.apply settings.styled "\x7d" ++
          Text.Style.dim.apply settings.styled ":" ++ " "
      else
        ""
  | none => ""

def targetText (settings : Settings) (target : String) : String :=
  Text.Style.dim.apply settings.styled target ++
    Text.Style.dim.apply settings.styled ":" ++ " "

/-- The written line of an event in the compilation of `file?`, if its level is shown. -/
def render? (settings : Settings) (file? : Option Path) (event : Event) : Option String :=
  if settings.shows event.level then
    some <|
      settings.levelText event.level ++ " " ++ settings.spanText file? ++
        settings.targetText event.target ++ event.message ++
        String.join (event.fields.map fun (name, value) =>
          " " ++ settings.fieldText name value) ++
        "\n"
  else
    none

end Settings

end Brainfuck.Log
