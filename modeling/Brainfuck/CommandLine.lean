import Brainfuck.Diagnostic
import Brainfuck.Options
import Brainfuck.Text.ControlSequence

/-! The command line: an input file, output files after `-o`, and two switches.

A value is kept pending until the next option, or the end, settles that nothing else follows; only
then is an empty or missing value refused. -/

namespace Brainfuck.CommandLine

structure Request where
  input : Path
  outputs : List Path
  options : Options
deriving DecidableEq, Repr

inductive Invocation where
  | help
  | compile (request : Request)
deriving DecidableEq, Repr

def helpLines : List String :=
  ["OVERVIEW: bfc Brainfuck compiler",
    "",
    "Usage: bfc [options] <file.bf>",
    "",
    "Arguments:",
    "  <file.bf>  Source file to compile",
    "",
    "Options:",
    "  -o <file>           Write output to <file>",
    "  -S                  Only run compilation steps",
    "      --fno-comments  Do not treat text after ';' as a comment (for compatibility)",
    "  -h, --help          Print help"]

def helpText : String :=
  String.join (helpLines.map (· ++ "\n"))

/-- What takes a value. -/
inductive Slot where
  | input
  | output
deriving DecidableEq, Repr

def Slot.label : Slot → String
  | .input => "<file.bf>"
  | .output => "-o <file>"

inductive Switch where
  | compileOnly
  | noComments
deriving DecidableEq, Repr

def Switch.label : Switch → String
  | .compileOnly => "-S"
  | .noComments => "--fno-comments"

inductive UsageError where
  | unexpectedArgument (argument : String)
  | unexpectedValue (value option : String)
  | repeated (switch : Switch)
  | valueRequired (slot : Slot)
  | inputRequired
deriving DecidableEq, Repr

/-- The text before the first newline, without a carriage return right in front of that. -/
def firstLine (text : String) : String :=
  let line := text.toList.takeWhile (· != '\n')
  if line.length < text.length ∧ line.getLast? = some '\r' then
    .ofList line.dropLast
  else
    .ofList line

/-- What was typed, without anything that a terminal would obey. -/
def quoted (typed : String) : String :=
  "'" ++ Text.ControlSequence.strip typed ++ "'"

namespace UsageError

def fullMessage : UsageError → String
  | .unexpectedArgument argument => "unexpected argument " ++ quoted argument ++ " found"
  | .unexpectedValue value option =>
      "unexpected value " ++ quoted value ++ " for " ++ quoted option ++
        " found; no more were expected"
  | .repeated switch => "the argument '" ++ switch.label ++ "' cannot be used multiple times"
  | .valueRequired slot =>
      "a value is required for '" ++ slot.label ++ "' but none was supplied"
  | .inputRequired => "the following required arguments were not provided:"

def diagnostic (error : UsageError) : Diagnostic :=
  ⟨.usage, firstLine error.fullMessage, none⟩

end UsageError

/-- Why reading ends before the last argument. -/
inductive Stop where
  | help
  | error (error : UsageError)
deriving DecidableEq, Repr

/-! What is known after some of the arguments. -/

structure Progress where
  /-- Everything that follows is an input. -/
  onlyInputs : Bool
  pending : Option (Slot × Option Bytes)
  input? : Option Path
  /-- In reverse order. -/
  outputs : List Path
  options : Options
deriving DecidableEq, Repr

namespace Progress

def start : Progress := ⟨false, none, none, [], .none⟩

def hasInput (progress : Progress) : Bool :=
  progress.input?.isSome ||
    match progress.pending with
    | some (.input, _) => true
    | _ => false

/-- Settles the pending value. -/
def resolve (progress : Progress) : Except Stop Progress :=
  match progress.pending with
  | none => .ok progress
  | some (slot, value?) =>
      match slot, value?.getD [] with
      | slot, [] => .error (.error (.valueRequired slot))
      | .input, value => .ok { progress with pending := none, input? := some value }
      | .output, value =>
          .ok { progress with pending := none, outputs := value :: progress.outputs }

def switchOn (progress : Progress) : Switch → Except Stop Progress
  | .compileOnly =>
      if progress.options.compileOnly then
        .error (.error (.repeated .compileOnly))
      else
        .ok { progress with options := { progress.options with compileOnly := true } }
  | .noComments =>
      if progress.options.noComments then
        .error (.error (.repeated .noComments))
      else
        .ok { progress with options := { progress.options with noComments := true } }

def unexpected (argument : String) : Except Stop Progress :=
  .error (.error (.unexpectedArgument argument))

/-- The value written in the same argument as `-o`, after an optional equals sign. -/
def outputValue (progress : Progress) : Bytes → Except Stop Progress
  | [] => .ok { progress with pending := some (.output, none) }
  | byte :: rest =>
      if byte = Bytes.equals then
        match rest with
        | [] => .error (.error (.valueRequired .output))
        | _ => .ok { progress with pending := some (.output, some rest) }
      else
        .ok { progress with pending := some (.output, some (byte :: rest)) }

/-- The letters of an argument that starts with a single dash. -/
def letters (progress : Progress) : Bytes → Except Stop Progress
  | [] => .ok progress
  | byte :: rest =>
      match Char.ofUInt8 byte with
      | 'h' => do
          let _ ← progress.resolve
          .error .help
      | 'S' => do
          let progress ← progress.resolve
          let progress ← progress.switchOn .compileOnly
          progress.letters rest
      | 'o' => do
          let progress ← progress.resolve
          progress.outputValue rest
      | _ =>
          match (Text.Utf8.readChar byte rest).1 with
          | some letter => unexpected ("-" ++ letter.toString)
          | none => unexpected ("-" ++ Text.Utf8.decode (byte :: rest))

/-- The name after two dashes, and the value after an equals sign. -/
def splitLong (body : Bytes) : Bytes × Option Bytes :=
  let name := body.takeWhile (· != Bytes.equals)
  match body.drop name.length with
  | [] => (name, none)
  | _ :: value => (name, some value)

def long (progress : Progress) (body : Bytes) : Except Stop Progress :=
  let (name, value?) := splitLong body
  let option := "--" ++ Text.Utf8.decode name
  if name = Bytes.ofString "help" ∨ name = Bytes.ofString "fno-comments" then
    match value? with
    | some value => .error (.error (.unexpectedValue (Text.Utf8.decode value) option))
    | none => do
        let progress ← progress.resolve
        if name = Bytes.ofString "help" then .error .help else progress.switchOn .noComments
  else
    unexpected option

def inputValue (progress : Progress) (argument : Bytes) : Except Stop Progress :=
  if progress.hasInput then
    unexpected (Text.Utf8.decode argument)
  else do
    let progress ← progress.resolve
    .ok { progress with pending := some (.input, some argument) }

/-- An argument that is no option: the value that `-o` waits for, or the input. -/
def value (progress : Progress) (argument : Bytes) : Except Stop Progress :=
  match progress.pending with
  | some (.output, none) => .ok { progress with pending := some (.output, some argument) }
  | _ => progress.inputValue argument

def step (progress : Progress) (argument : Bytes) : Except Stop Progress :=
  if progress.onlyInputs then
    progress.inputValue argument
  else
    match argument with
    | first :: second :: rest =>
        if first = Bytes.dash then
          if second = Bytes.dash then
            if rest = [] then .ok { progress with onlyInputs := true } else progress.long rest
          else
            progress.letters (second :: rest)
        else
          progress.value argument
    | _ => progress.value argument

def finish (progress : Progress) : Except Stop Request := do
  let progress ← progress.resolve
  match progress.input? with
  | some input => .ok ⟨input, progress.outputs.reverse, progress.options⟩
  | none => .error (.error .inputRequired)

end Progress

/-- Reads an argument list; its first entry is the program's own name. -/
def parse (arguments : List Bytes) : Except UsageError Invocation :=
  match (arguments.drop 1).foldlM Progress.step .start >>= Progress.finish with
  | .ok request => .ok (.compile request)
  | .error .help => .ok .help
  | .error (.error error) => .error error

end Brainfuck.CommandLine
