import Brainfuck.Diagnostic

/-! Files as the compiler meets them: contents to load, places to store to. -/

namespace Brainfuck.Files

/-- Why a file cannot be loaded. -/
inductive LoadError where
  | absent
  | unopenable
  | unmeasured
  | oversized
  | outOfMemory
  | unreadable
deriving DecidableEq, Repr

/-- An open file, as far as its system tells: the size, whether memory can be had for that, and the
contents. -/
structure Opened where
  size? : Option Nat
  fits : Bool
  contents? : Option Bytes
deriving DecidableEq, Repr

/-- The greatest size that a file is loaded at. -/
def sizeLimit : Nat := 0x7FFFFFFFFFFFFFFF

namespace Opened

def holding (contents : Bytes) : Opened := ⟨some contents.length, true, some contents⟩

/-- Takes everything out of an open file. The size is looked at first, then memory is asked for. -/
def load (file : Opened) : Except LoadError Bytes :=
  match file.size? with
  | none => .error .unmeasured
  | some size =>
      if sizeLimit < size then
        .error .oversized
      else if !file.fits then
        .error .outOfMemory
      else
        match file.contents? with
        | none => .error .unreadable
        | some contents => .ok contents

end Opened

/-- A state in which every path has contents to load, or a reason why not, and in which storing to a
path gives the next state, or fails. -/
class Store (Disk : Type) where
  load : Disk → Path → Except LoadError Bytes
  store? : Disk → Path → Bytes → Option Disk

end Brainfuck.Files

namespace Brainfuck

inductive FileError where
  | load (path : Path) (error : Files.LoadError)
  | store (path : Path)
  | standardOutput
deriving DecidableEq, Repr

namespace FileError

def message : FileError → String
  | .load path .absent => "No such file or directory: '" ++ path.text ++ "'"
  | .load path .unopenable => "Unable to open file '" ++ path.text ++ "'!"
  | .load _ .unmeasured => "Unable to seek the end of file!"
  | .load _ .oversized => "Invalid file size!"
  | .load _ .outOfMemory => "Memory allocation failure!"
  | .load path .unreadable => "Unable to read from file '" ++ path.text ++ "'!"
  | .store path => "Unable to write to file '" ++ path.text ++ "'!"
  | .standardOutput => "Unable to write to stdout!"

def kind : FileError → ErrorKind
  | .load _ .outOfMemory => .memory
  | _ => .io

def diagnostic (error : FileError) : Diagnostic :=
  ⟨error.kind, error.message, none⟩

end FileError

end Brainfuck
