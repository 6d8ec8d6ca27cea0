import Brainfuck.Block.Metrics
import Brainfuck.Block.Runs
import Brainfuck.Block.Word
import Brainfuck.Diagnostic
import Brainfuck.Log
import Brainfuck.Matching
import Brainfuck.Options

/-! From a source to a listing, stopping at the first error. -/

namespace Brainfuck

inductive CompileError where
  | brackets (error : BracketError)
  | unbalanced
  | unsupported (arch : Asm.Arch)
deriving DecidableEq, Repr

def BracketError.diagnostic : BracketError → Diagnostic
  | .extraClose position =>
      ⟨.extraClose, "Found an extra ']' at line " ++ toString position.line ++ ".",
        some position⟩
  | .unclosed position =>
      ⟨.unclosed,
        "Missing a closing bracket ']' for opening bracket '[' at line " ++
          toString position.line ++ ".",
        some position⟩

def CompileError.diagnostic : CompileError → Diagnostic
  | .brackets error => error.diagnostic
  | .unbalanced => ⟨.internal, "IR builder given unbalanced brackets", none⟩
  | .unsupported arch => ⟨.internal, arch.name ++ " generation not supported yet!", none⟩

def Block.ofTokens (tokens : List Token) : Except CompileError Block :=
  match Block.ofCommands? (tokens.map Token.command) with
  | some tree => .ok tree
  | none => .error .unbalanced

def Asm.Arch.backend (arch : Asm.Arch) : Except CompileError Asm.Backend :=
  match arch.backend? with
  | some backend => .ok backend
  | none => .error (.unsupported arch)

def Asm.Arch.assemble (arch : Asm.Arch) (tree : Block) : Except CompileError Asm.Listing := do
  let backend ← arch.backend
  return backend.assemble tree

/-- The compilation of `source`, telling `log` about each stage. -/
def compileWith {m : Type → Type} [Monad m] (log : Log.Event → m Unit)
    (options : Options) (arch : Asm.Arch) (source : Bytes) :
    m (Except CompileError Asm.Listing) := do
  let tokens := Token.scan (!options.noComments) source
  log (.scanned source.length tokens.length)
  match Matching.ofTokens tokens with
  | .error error => return .error (.brackets error)
  | .ok matching =>
      log (.balanced matching.pairs.length)
      match Block.ofTokens tokens with
      | .error error => return .error error
      | .ok tree =>
          log (.built tree.opCount tree.depth)
          let folded := tree.foldRuns
          log (.folded tree.opCount folded.opCount)
          log (.optimized folded)
          match arch.assemble folded with
          | .error error => return .error error
          | .ok listing =>
              log (.assembled arch listing.ops listing.labels listing.byteSize)
              return .ok listing

def compile (options : Options) (arch : Asm.Arch) (source : Bytes) :
    Except CompileError Asm.Listing :=
  Id.run (compileWith (fun _ => pure ()) options arch source)

end Brainfuck
