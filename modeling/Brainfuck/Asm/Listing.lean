/-! Assembly listings: lines of text, and the labels handed out while they are written. -/

namespace Brainfuck.Asm

inductive Line where
  | flush (text : String)
  | indented (text : String)
deriving DecidableEq, Repr

namespace Line

def text : Line → String
  | .flush text => text ++ "\n"
  | .indented text => "    " ++ text ++ "\n"

def labelled (name : String) : Line :=
  .flush (name ++ ":")

end Line

structure Label where
  index : Nat
deriving DecidableEq, Repr

def Label.name (label : Label) : String :=
  ".Lbf" ++ toString label.index

structure Listing where
  lines : Array Line
  labels : Nat
  ops : Nat
deriving DecidableEq, Repr

namespace Listing

def empty : Listing := ⟨#[], 0, 0⟩

def emit (listing : Listing) (lines : List Line) : Listing :=
  { listing with lines := listing.lines ++ lines }

def freshLabel (listing : Listing) : Label × Listing :=
  (⟨listing.labels⟩, { listing with labels := listing.labels + 1 })

def countOp (listing : Listing) : Listing :=
  { listing with ops := listing.ops + 1 }

def text (listing : Listing) : String :=
  listing.lines.foldl (fun text line => text ++ line.text) ""

/-- The length of the text in bytes. -/
def byteSize (listing : Listing) : Nat :=
  listing.text.utf8ByteSize

end Listing

end Brainfuck.Asm
