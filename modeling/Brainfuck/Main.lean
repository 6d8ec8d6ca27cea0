import Brainfuck.Run.Basic

/-! The compiler as an executable. -/

namespace Brainfuck

def pathString (path : Path) : Option String :=
  if path.contains 0 then none else String.fromUTF8? path.toByteArray

def openFile (name : String) : IO (Except Files.LoadError IO.FS.Handle) := do
  try
    return .ok (← IO.FS.Handle.mk name .read)
  catch
    | .noFileOrDirectory .. => return .error .absent
    | _ => return .error .unopenable

def loadFile (path : Path) : IO (Except Files.LoadError Bytes) := do
  match pathString path with
  | none => return .error .unopenable
  | some name =>
      match ← openFile name with
      | .error error => return .error error
      | .ok handle =>
          try
            let contents ← handle.readBinToEnd
            return (Files.Opened.holding contents.data.toList).load
          catch _ => return .error .unreadable

def storeFile (path : Path) (contents : Bytes) : IO Bool := do
  match pathString path with
  | none => return false
  | some name =>
      try
        IO.FS.writeBinFile name contents.toByteArray
        return true
      catch _ => return false

def printText (text : String) : IO Bool := do
  try
    let stdout ← IO.getStdout
    stdout.putStr text
    stdout.flush
    return true
  catch _ => return false

def machine : Run.Host IO where
  load := loadFile
  store := storeFile
  print := printText
  complain text := do
    let stderr ← IO.getStderr
    stderr.putStr text

end Brainfuck

def main (arguments : List String) : IO UInt32 := do
  let log ← IO.getEnv "BFC_LOG"
  let plain ← IO.getEnv "NO_COLOR"
  let forced ← IO.getEnv "CLICOLOR_FORCE"
  let settings := Brainfuck.Run.Settings.ofEnvironment fun
    | "BFC_LOG" => log
    | "NO_COLOR" => plain
    | "CLICOLOR_FORCE" => forced
    | _ => none
  Brainfuck.Run.run Brainfuck.machine settings
    (Brainfuck.Bytes.ofString "bfc" :: arguments.map Brainfuck.Bytes.ofString)
