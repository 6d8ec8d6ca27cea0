import Brainfuck.Files.Store

/-! A tree of directories, files and two devices, in which paths are followed part by part.

A relative path starts in the home directory. Every part but the last must lead to a directory; an
empty part and `.` stay where they are, and `..` goes up. -/

namespace Brainfuck.Files

inductive Device where
  /-- Takes everything and holds nothing. -/
  | null
  /-- Takes nothing. -/
  | full
deriving DecidableEq, Repr

inductive Entry where
  | directory
  | file (contents : Bytes)
  | device (device : Device)
deriving DecidableEq, Repr

/-- What opening an entry gives. -/
def Entry.opened : Entry → Opened
  | .file contents => .holding contents
  | .device .null => .holding []
  | .directory | .device .full => ⟨some 0, true, none⟩

/-- The names from an entry up to the root. -/
abbrev Place := List Bytes

structure Tree where
  entries : List (Place × Entry)
deriving DecidableEq, Repr

/-- The end of a path: a place, and the entry there if there is one. -/
structure Spot where
  place : Place
  entry? : Option Entry
deriving DecidableEq, Repr

namespace Tree

def home : Place := [Bytes.ofString "home"]

/-- The greatest number of bytes in a name. -/
def nameLimit : Nat := 255

/-- A path is shorter than this. -/
def pathLimit : Nat := 4096

def entry? (tree : Tree) (place : Place) : Option Entry :=
  tree.entries.lookup place

def put (tree : Tree) (place : Place) (entry : Entry) : Tree :=
  ⟨(place, entry) :: tree.entries⟩

def follow (tree : Tree) (place : Place) : List Bytes → Except LoadError Spot
  | [] => .ok ⟨place, tree.entry? place⟩
  | part :: rest =>
      match tree.entry? place with
      | some .directory =>
          if part = [] ∨ part = Path.here then
            tree.follow place rest
          else if part = Path.above then
            tree.follow place.tail rest
          else if nameLimit < part.length then
            .error .unopenable
          else
            tree.follow (part :: place) rest
      | some _ => .error .unopenable
      | none => .error .absent

/-- No path is empty, holds a zero byte, or reaches the length limit. -/
def locate (tree : Tree) (path : Path) : Except LoadError Spot :=
  if path = [] then
    .error .absent
  else if path.contains 0 ∨ pathLimit ≤ path.length then
    .error .unopenable
  else
    tree.follow (if path.isAbsolute then [] else home) path.parts

def spot? (tree : Tree) (path : Path) : Option Spot :=
  (tree.locate path).toOption

def load (tree : Tree) (path : Path) : Except LoadError Bytes :=
  match tree.locate path with
  | .ok ⟨_, some entry⟩ => entry.opened.load
  | .ok ⟨_, none⟩ => .error .absent
  | .error error => .error error

/-- Writes a file where a path ends. -/
def write? (tree : Tree) (spot : Spot) (contents : Bytes) : Option Tree :=
  match spot.entry? with
  | none | some (.file _) => some (tree.put spot.place (.file contents))
  | some (.device .null) => some tree
  | some .directory | some (.device .full) => none

def store? (tree : Tree) (path : Path) (contents : Bytes) : Option Tree :=
  (tree.spot? path).bind (tree.write? · contents)

/-- The bytes that a path leads to. -/
def contents? (tree : Tree) (path : Path) : Option Bytes :=
  (tree.spot? path).bind fun spot => spot.entry?.bind (·.opened.contents?)

instance : Store Tree where
  load := load
  store? := store?

end Tree

end Brainfuck.Files
