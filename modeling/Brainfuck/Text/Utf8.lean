import Brainfuck.Bytes

/-! Reading bytes as UTF-8 when they may be ill-formed.

A leading byte fixes the range of each byte that must follow it. A sequence that breaks off, or that
no leading byte starts, is read as one replacement character, and reading goes on at the byte that
did not fit. -/

namespace Brainfuck.Text.Utf8

/-- What a leading byte announces: its share of the code point, and the range of each byte that
must follow. -/
structure Lead where
  bits : Nat
  trail : List (UInt8 × UInt8)

def continuation : UInt8 × UInt8 := (0x80, 0xbf)

def lead? (byte : UInt8) : Option Lead :=
  if byte ≤ 0x7f then
    some ⟨byte.toNat, []⟩
  else if byte < 0xc2 then
    none
  else if byte ≤ 0xdf then
    some ⟨byte.toNat - 0xc0, [continuation]⟩
  else if byte = 0xe0 then
    some ⟨0, [(0xa0, 0xbf), continuation]⟩
  else if byte = 0xed then
    some ⟨0xd, [(0x80, 0x9f), continuation]⟩
  else if byte ≤ 0xef then
    some ⟨byte.toNat - 0xe0, [continuation, continuation]⟩
  else if byte = 0xf0 then
    some ⟨0, [(0x90, 0xbf), continuation, continuation]⟩
  else if byte ≤ 0xf3 then
    some ⟨byte.toNat - 0xf0, [continuation, continuation, continuation]⟩
  else if byte = 0xf4 then
    some ⟨4, [(0x80, 0x8f), continuation, continuation]⟩
  else
    none

/-- Reads the bytes after a leading byte; the second part is what is left over. -/
def readTrail (bits : Nat) : List (UInt8 × UInt8) → Bytes → Option Char × Bytes
  | [], rest => (some (Char.ofNat bits), rest)
  | _ :: _, [] => (none, [])
  | (low, high) :: ranges, byte :: rest =>
      if low ≤ byte ∧ byte ≤ high then
        readTrail (bits * 64 + (byte.toNat - 0x80)) ranges rest
      else
        (none, byte :: rest)

/-- Reads one character, or one ill-formed sequence, that starts with `byte`. -/
def readChar (byte : UInt8) (rest : Bytes) : Option Char × Bytes :=
  match lead? byte with
  | some lead => readTrail lead.bits lead.trail rest
  | none => (none, rest)

theorem length_readTrail_le (bits : Nat) (ranges : List (UInt8 × UInt8)) (bytes : Bytes) :
    (readTrail bits ranges bytes).2.length ≤ bytes.length := by
  induction ranges generalizing bits bytes with
  | nil => simp [readTrail]
  | cons range ranges ih =>
      cases bytes with
      | nil => simp [readTrail]
      | cons byte rest =>
          rw [readTrail]
          split
          · exact Nat.le_succ_of_le (ih _ rest)
          · exact Nat.le_refl _

theorem length_readChar_le (byte : UInt8) (rest : Bytes) :
    (readChar byte rest).2.length ≤ rest.length := by
  rw [readChar]
  split
  · exact length_readTrail_le _ _ rest
  · exact Nat.le_refl _

def replacement : Char := '\ufffd'

def decodeOnto (text : String) : Bytes → String
  | [] => text
  | byte :: rest =>
      let read := readChar byte rest
      decodeOnto (text.push (read.1.getD replacement)) read.2
termination_by bytes => bytes.length
decreasing_by exact Nat.lt_succ_of_le (length_readChar_le byte rest)

/-- The text of `bytes`, with one replacement character for each ill-formed sequence. -/
def decode (bytes : Bytes) : String :=
  decodeOnto "" bytes

end Brainfuck.Text.Utf8
