import FlatScope.CommandLine.Run

/-!
# The program

Reads files, asks the environment for colour, and writes what `CommandLine.answer` says.
-/

namespace FlatScope.CommandLine

/-- The text of a file on disk. -/
def readText (path : String) : IO (Except ReadFailure String) := do
  try
    return decodeText (← IO.FS.readBinFile path)
  catch
    | .noFileOrDirectory .. => return .error .notFound
    | .inappropriateType _ code _ =>
      return .error (if code = 20 then .notDirectory else .isDirectory)
    | .permissionDenied _ code details | .invalidArgument _ code details =>
      return .error (.other (details ++ " (os error " ++ toString code ++ ")"))
    | e => return .error (.other (toString e))

/-- A variable that is set, and not to zero. -/
def isOn (name : String) : IO (Option Bool) := do
  return (← IO.getEnv name).map (· ≠ "0")

/-- Colour if it is forced, or if the output is a terminal and nothing speaks against it. -/
def mayColour : IO Bool := do
  if (← isOn "CLICOLOR_FORCE") = some true then return true
  if (← isOn "NO_COLOR").isSome then return false
  if (← isOn "CLICOLOR") = some false then return false
  (← IO.getStdout).isTty

def writeReport (r : Report) : IO Unit := do
  IO.eprintln r.header
  r.labels.forM fun label => IO.eprintln ("  " ++ label)
  r.notes.forM fun note => IO.eprintln ("  Note: " ++ note)

end FlatScope.CommandLine

open FlatScope.CommandLine in
def main (args : List String) : IO UInt32 := do
  let outcome ← answer readText (← mayColour) args
  outcome.report.forM writeReport
  outcome.error.forM fun error => IO.eprintln error
  if outcome.exit = 2 then IO.eprintln "error: unexpected argument"
  IO.print outcome.output
  return outcome.exit.toUInt32
