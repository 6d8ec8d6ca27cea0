import Brainfuck.Asm.Backend

/-! The x86-64 backend, for Linux. `rbx` holds the tape pointer. -/

namespace Brainfuck.Asm.X64

inductive Instr where
  | leaTape
  | addCell (amount : UInt8)
  | subCell (amount : UInt8)
  | storeCell (value : UInt8)
  | testCell
  | addPointer (amount : Int32)
  | loadOffset (amount : Int64)
  | addOffset
  | call (number : Nat)
  | file (number : Nat)
  | noFile
  | buffer
  | bufferSize (size : Nat)
  | syscall
  | jumpIfZero (target : String)
  | jumpIfNonzero (target : String)
deriving DecidableEq, Repr

namespace Instr

def text : Instr → String
  | .leaTape => "lea rbx, [rip + tape]"
  | .addCell amount => "add byte ptr [rbx], " ++ toString amount.toNat
  | .subCell amount => "sub byte ptr [rbx], " ++ toString amount.toNat
  | .storeCell value => "mov byte ptr [rbx], " ++ toString value.toNat
  | .testCell => "cmp byte ptr [rbx], 0"
  | .addPointer amount => "add rbx, " ++ toString amount.toInt
  | .loadOffset amount => "movabs rax, " ++ toString amount.toInt
  | .addOffset => "add rbx, rax"
  | .call number => "mov eax, " ++ toString number
  | .file number => "mov edi, " ++ toString number
  | .noFile => "xor edi, edi"
  | .buffer => "mov rsi, rbx"
  | .bufferSize size => "mov edx, " ++ toString size
  | .syscall => "syscall"
  | .jumpIfZero target => "je " ++ target
  | .jumpIfNonzero target => "jne " ++ target

def line (instr : Instr) : Line :=
  .indented instr.text

end Instr

/-- Above 128, subtracting the complement is the shorter way round. -/
def add (amount : UInt8) : List Instr :=
  if amount = 0 then []
  else if amount ≤ 128 then [.addCell amount]
  else [.subCell (0 - amount)]

/-- An immediate of `add` has 32 bits; a longer way goes through a register. -/
def move (delta : Int64) : List Instr :=
  if Int32.minValue.toInt ≤ delta.toInt ∧ delta.toInt ≤ Int32.maxValue.toInt then
    [.addPointer delta.toInt32]
  else
    [.loadOffset delta, .addOffset]

/-- System call `number` on one byte at the tape pointer. -/
def transfer (number file : Nat) : List Instr :=
  [.call number, .file file, .buffer, .bufferSize 1, .syscall]

def op : Op → List Instr
  | .add delta => add (Op.cell delta)
  | .move delta => move delta
  | .set value => [.storeCell (Op.cell value)]
  | .get => transfer 0 0
  | .put => transfer 1 1

def branchIfZero (target : String) : List Instr :=
  [.testCell, .jumpIfZero target]

def branchIfNonzero (target : String) : List Instr :=
  [.testCell, .jumpIfNonzero target]

def exit : List Instr :=
  [.call 60, .noFile, .syscall]

def backend : Backend where
  header :=
    [.indented ".intel_syntax noprefix",
      .indented ".section .note.GNU-stack,\"\",@progbits"]
  data :=
    [.indented ".bss", .indented ".p2align 4", .labelled "tape",
      .indented (".zero " ++ toString tapeSize)]
  entry :=
    [.indented ".text", .indented ".globl _start", .labelled "_start", Instr.line .leaTape]
  exit := exit.map Instr.line
  op operation := (op operation).map Instr.line
  branchIfZero target := (branchIfZero target).map Instr.line
  branchIfNonzero target := (branchIfNonzero target).map Instr.line

end Brainfuck.Asm.X64
