import Brainfuck.CommandLine
import Brainfuck.Compile
import Brainfuck.Run.Host
import Brainfuck.Run.Settings

/-! A run of the compiler as a command: read the arguments, load the input, compile it, and deliver
the listing. The first failure is reported on standard error and ends the run with status one. -/

namespace Brainfuck.Run

inductive Failure where
  | usage (error : CommandLine.UsageError)
  | file (error : FileError)
  | compile (error : CompileError)
deriving DecidableEq, Repr

def Failure.diagnostic : Failure → Diagnostic
  | .usage error => error.diagnostic
  | .file error => error.diagnostic
  | .compile error => error.diagnostic

variable {m : Type → Type} [Monad m]

def logTo (host : Host m) (settings : Settings) (file? : Option Path) (event : Log.Event) :
    m Unit :=
  match settings.log.render? file? event with
  | some line => host.complain line
  | none => pure ()

/-- Stores the text at every path in turn, up to the first that fails. -/
def storeAll (host : Host m) (log : Log.Event → m Unit) (text : Bytes) :
    List Path → m (Except FileError Unit)
  | [] => return .ok ()
  | path :: rest => do
      if ← host.store path text then
        log (.stored path)
        storeAll host log text rest
      else
        return .error (.store path)

/-- Without output files the text is printed if it is all that was asked for, and otherwise
dropped. -/
def deliver (host : Host m) (log : Log.Event → m Unit) (request : CommandLine.Request)
    (text : String) : m (Except FileError Unit) :=
  match request.outputs with
  | [] => do
      if request.options.compileOnly then
        if ← host.print text then return .ok () else return .error .standardOutput
      else
        log .discarded
        return .ok ()
  | outputs => storeAll host log (Bytes.ofString text) outputs

def compileFile (host : Host m) (settings : Settings) (request : CommandLine.Request)
    (source : Source) : m (Except Failure Unit) := do
  let log := logTo host settings (some source.path)
  match ← compileWith log request.options .host source.bytes with
  | .error error => return .error (.compile error)
  | .ok listing =>
      match ← deliver host log request listing.text with
      | .error error => return .error (.file error)
      | .ok () => return .ok ()

def fail (host : Host m) (settings : Settings) (source? : Option Source)
    (failure : Failure) : m UInt32 := do
  host.complain (failure.diagnostic.render settings.styled source?)
  return 1

/-- Runs the compiler on an argument list and gives its exit status. -/
def run (host : Host m) (settings : Settings) (arguments : List Bytes) : m UInt32 := do
  match CommandLine.parse arguments with
  | .error error => fail host settings none (.usage error)
  | .ok .help =>
      let _ ← host.print CommandLine.helpText
      return 0
  | .ok (.compile request) =>
      match ← host.load request.input with
      | .error error => fail host settings none (.file (.load request.input error))
      | .ok bytes =>
          let source : Source := ⟨request.input, bytes⟩
          match ← compileFile host settings request source with
          | .error failure => fail host settings (some source) failure
          | .ok () => return 0

end Brainfuck.Run
