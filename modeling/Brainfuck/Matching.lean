import Brainfuck.Token

/-! The pairing of loop brackets in a token sequence.

Tokens are numbered from zero. The first `]` without an open `[` is refused where it stands; if
brackets stay open to the end, the innermost of them is refused. -/

namespace Brainfuck

inductive BracketError where
  | extraClose (position : Position)
  | unclosed (position : Position)
deriving DecidableEq, Repr

/-- The partner of every token that is a bracket. -/
structure Matching where
  partners : Array (Option Nat)
deriving DecidableEq, Repr

namespace Matching

def size (matching : Matching) : Nat := matching.partners.size

def isEmpty (matching : Matching) : Bool := matching.partners.isEmpty

def partner? (matching : Matching) (index : Nat) : Option Nat :=
  matching.partners[index]?.join

/-- The pairs `(start, stop)`, in the order of their starts. -/
def pairs (matching : Matching) : List (Nat × Nat) :=
  matching.partners.toList.zipIdx.filterMap fun (partner, index) =>
    match partner with
    | some other => if index < other then some (index, other) else none
    | none => none

/-! The state after part of a sequence: the partners known so far, and the open brackets, innermost
first. -/

structure Progress where
  partners : Array (Option Nat)
  pending : List (Nat × Position)

namespace Progress

def start : Progress := ⟨#[], []⟩

def step (progress : Progress) (token : Token) : Except BracketError Progress :=
  let index := progress.partners.size
  match token.command with
  | .loopStart =>
      .ok ⟨progress.partners.push none, (index, token.position) :: progress.pending⟩
  | .loopEnd =>
      match progress.pending with
      | [] => .error (.extraClose token.position)
      | (opening, _) :: outer =>
          .ok ⟨(progress.partners.push (some opening)).setIfInBounds opening (some index), outer⟩
  | _ => .ok ⟨progress.partners.push none, progress.pending⟩

def finish (progress : Progress) : Except BracketError Matching :=
  match progress.pending with
  | [] => .ok ⟨progress.partners⟩
  | (_, position) :: _ => .error (.unclosed position)

end Progress

def ofTokens (tokens : List Token) : Except BracketError Matching := do
  let progress ← tokens.foldlM Progress.step .start
  progress.finish

end Matching

end Brainfuck
