import Brainfuck.Asm.AArch64
import Brainfuck.Asm.X64

/-! The architectures that can be asked for, and the backends there are. -/

namespace Brainfuck.Asm

inductive Arch where
  | x64
  | i386
  | aarch64
  | arm32
deriving DecidableEq, Repr

namespace Arch

/-- The architecture that the command line compiles for. -/
def host : Arch := .x64

def name : Arch → String
  | .x64 => "x86_64"
  | .i386 => "i386"
  | .aarch64 => "aarch64"
  | .arm32 => "arm32"

def backend? : Arch → Option Backend
  | .x64 => some X64.backend
  | .aarch64 => some AArch64.backend
  | .i386 => none
  | .arm32 => none

end Arch

end Brainfuck.Asm
