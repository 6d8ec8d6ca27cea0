/-! Switches that change how a program is compiled. -/

namespace Brainfuck

structure Options where
  /-- A `;` is an ordinary inert byte. -/
  noComments : Bool
  /-- The listing is the result. -/
  compileOnly : Bool
deriving DecidableEq, Repr

def Options.none : Options := ⟨false, false⟩

end Brainfuck
