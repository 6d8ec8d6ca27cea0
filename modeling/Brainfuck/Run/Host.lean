import Brainfuck.Files.Store

/-! What a run of the compiler asks of its surroundings, and surroundings kept as plain data. -/

namespace Brainfuck.Run

structure Host (m : Type → Type) where
  load : Path → m (Except Files.LoadError Bytes)
  /-- Replaces a file's contents; `false` if that fails. -/
  store : Path → Bytes → m Bool
  /-- Writes to standard output; `false` if that fails. -/
  print : String → m Bool
  /-- Writes to standard error. -/
  complain : String → m Unit

/-- Files, the two output streams so far, and whether standard output takes anything. -/
structure Session (Disk : Type) where
  files : Disk
  outputFull : Bool
  output : String
  errors : String

namespace Session

variable {Disk : Type}

def start (files : Disk) (outputFull : Bool) : Session Disk :=
  ⟨files, outputFull, "", ""⟩

def print (text : String) (session : Session Disk) : Bool × Session Disk :=
  if session.outputFull then
    (false, session)
  else
    (true, { session with output := session.output ++ text })

def complain (text : String) (session : Session Disk) : Unit × Session Disk :=
  ((), { session with errors := session.errors ++ text })

variable [Files.Store Disk]

def load (path : Path) (session : Session Disk) :
    Except Files.LoadError Bytes × Session Disk :=
  (Files.Store.load session.files path, session)

def store (path : Path) (contents : Bytes) (session : Session Disk) :
    Bool × Session Disk :=
  match Files.Store.store? session.files path contents with
  | some files => (true, { session with files })
  | none => (false, session)

def host : Host (StateM (Session Disk)) where
  load := load
  store := store
  print := print
  complain := complain

end Session

end Brainfuck.Run
