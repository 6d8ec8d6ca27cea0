import Brainfuck.Asm.Backend

/-! The AArch64 backend, for Linux. `x19` holds the tape pointer and `w9` is scratch. -/

namespace Brainfuck.Asm.AArch64

inductive Instr where
  | tapePage
  | tapeOffset
  | loadCell
  | storeCell
  | addScratch (amount : UInt8)
  | setScratch (value : UInt8)
  | addPointer (amount : BitVec 12)
  | subPointer (amount : BitVec 12)
  | loadOffset (amount : Int64)
  | addOffset
  | file (number : Nat)
  | buffer
  | bufferSize (size : Nat)
  | call (number : Nat)
  | supervisor
  | branchZero (target : String)
  | branchNonzero (target : String)
deriving DecidableEq, Repr

namespace Instr

def text : Instr → String
  | .tapePage => "adrp x19, tape"
  | .tapeOffset => "add x19, x19, :lo12:tape"
  | .loadCell => "ldrb w9, [x19]"
  | .storeCell => "strb w9, [x19]"
  | .addScratch amount => "add w9, w9, #" ++ toString amount.toNat
  | .setScratch value => "mov w9, #" ++ toString value.toNat
  | .addPointer amount => "add x19, x19, #" ++ toString amount.toNat
  | .subPointer amount => "sub x19, x19, #" ++ toString amount.toNat
  | .loadOffset amount => "ldr x9, =" ++ toString amount.toInt
  | .addOffset => "add x19, x19, x9"
  | .file number => "mov x0, #" ++ toString number
  | .buffer => "mov x1, x19"
  | .bufferSize size => "mov x2, #" ++ toString size
  | .call number => "mov x8, #" ++ toString number
  | .supervisor => "svc #0"
  | .branchZero target => "cbz w9, " ++ target
  | .branchNonzero target => "cbnz w9, " ++ target

def line (instr : Instr) : Line :=
  .indented instr.text

end Instr

def add (amount : UInt8) : List Instr :=
  if amount = 0 then [] else [.loadCell, .addScratch amount, .storeCell]

/-- An immediate has 12 bits and no sign; a longer way goes through the literal pool. -/
def move (delta : Int64) : List Instr :=
  if 0 ≤ delta.toInt ∧ delta.toInt ≤ 4095 then
    [.addPointer (.ofInt 12 delta.toInt)]
  else if -4095 ≤ delta.toInt ∧ delta.toInt < 0 then
    [.subPointer (.ofInt 12 (-delta.toInt))]
  else
    [.loadOffset delta, .addOffset]

/-- System call `number` on one byte at the tape pointer. -/
def transfer (number file : Nat) : List Instr :=
  [.file file, .buffer, .bufferSize 1, .call number, .supervisor]

def op : Op → List Instr
  | .add delta => add (Op.cell delta)
  | .move delta => move delta
  | .set value => [.setScratch (Op.cell value), .storeCell]
  | .get => transfer 63 0
  | .put => transfer 64 1

def branchIfZero (target : String) : List Instr :=
  [.loadCell, .branchZero target]

def branchIfNonzero (target : String) : List Instr :=
  [.loadCell, .branchNonzero target]

def exit : List Instr :=
  [.file 0, .call 93, .supervisor]

def backend : Backend where
  header :=
    [.flush "// bfc output for aarch64-linux",
      .indented ".section .note.GNU-stack,\"\",%progbits"]
  data :=
    [.indented ".bss", .indented ".balign 16", .labelled "tape",
      .indented (".zero " ++ toString tapeSize)]
  entry :=
    [.indented ".text", .indented ".globl _start", .labelled "_start",
      Instr.line .tapePage, Instr.line .tapeOffset]
  exit := exit.map Instr.line ++ [.indented ".ltorg"]
  op operation := (op operation).map Instr.line
  branchIfZero target := (branchIfZero target).map Instr.line
  branchIfNonzero target := (branchIfNonzero target).map Instr.line

end Brainfuck.Asm.AArch64
