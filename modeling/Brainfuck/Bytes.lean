/-! Raw byte strings: sources, file contents, paths and arguments need not be text. -/

namespace Brainfuck

abbrev Bytes := List UInt8

namespace Bytes

def ofString (text : String) : Bytes :=
  text.toUTF8.data.toList

def newline : UInt8 := 0x0a
def semicolon : UInt8 := 0x3b
def dash : UInt8 := 0x2d
def slash : UInt8 := 0x2f
def equals : UInt8 := 0x3d

end Bytes

end Brainfuck
