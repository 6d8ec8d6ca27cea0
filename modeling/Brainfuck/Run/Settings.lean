import Brainfuck.Log

/-! The settings that a run takes from its environment variables. -/

namespace Brainfuck.Run

structure Settings where
  /-- Diagnostics are styled. -/
  styled : Bool
  log : Log.Settings
deriving DecidableEq, Repr

/-- The level that a name stands for; `off` shows nothing, and any other name the warnings. -/
def thresholdOfName? : String → Option Log.Level
  | "off" => none
  | "error" => some .error
  | "info" => some .info
  | "debug" => some .debug
  | "trace" => some .trace
  | _ => some .warn

namespace Settings

def quiet (styled : Bool) : Settings := ⟨styled, .silent⟩

/-- Diagnostics are styled only on demand, log lines unless that is declined. -/
def ofEnvironment (lookup : String → Option String) : Settings where
  styled := (lookup "CLICOLOR_FORCE").any (· != "0")
  log :=
    { threshold? := thresholdOfName? ((lookup "BFC_LOG").getD "")
      styled := (lookup "NO_COLOR").all (·.isEmpty) }

end Settings

end Brainfuck.Run
