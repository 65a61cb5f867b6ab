import ComplexCalc.Console.Run

/-!
The program: it collects the surroundings of a run and writes what the run yields.
-/

namespace ComplexCalc.Console

/-- All bytes of the standard input. -/
partial def readInput (stdin : IO.FS.Stream) (read : ByteArray) : IO ByteArray := do
  let more ← stdin.read 65536
  if more.isEmpty then return read else readInput stdin (read ++ more)

/-- The text of a file, if there is one and it is UTF-8. -/
def readText (path : String) : IO (Option String) := do
  try
    return String.fromUTF8? (← IO.FS.readBinFile path)
  catch _ => return none

end ComplexCalc.Console

open ComplexCalc.Console

def main (arguments : List String) : IO UInt32 := do
  let verbosity := Verbosity.ofName ((← IO.getEnv "RUST_LOG").getD "")
  let command := Command.ofArguments? arguments
  let text ← match command with
    | some (.file path _) => readText path
    | _ => pure none
  let input ← if command.any (readsInput fun _ => text) then readInput (← IO.getStdin) .empty
    else pure .empty
  let outcome := run ⟨verbosity, fun _ => text, replies input.toList⟩ arguments
  let stdout ← IO.getStdout
  let stderr ← IO.getStderr
  for write in outcome.writes do
    match write with
    | .out text => stdout.putStr text
    | .err text => stderr.putStr text
  return UInt32.ofNat outcome.exit
