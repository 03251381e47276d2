import Munch.CommandLine.Run

/-!
# The program

The command line with real files and the real standard input.
-/

namespace Munch
namespace CommandLine

/-- The files and the standard input of the process. -/
def processSurroundings : Surroundings IO where
  read path := do
    try return some (← IO.FS.readBinFile path)
    catch _ => return none
  standardInput := do (← IO.getStdin).readBinToEnd
  write path content := do
    try
      IO.FS.writeBinFile path content
      return true
    catch _ => return false

end CommandLine
end Munch

/-- Runs the command that the arguments ask for. -/
def main (arguments : List String) : IO UInt32 := do
  let outcome ← Munch.CommandLine.run Munch.CommandLine.processSurroundings arguments
  IO.print outcome.output
  match outcome.failure? with
  | some failure => IO.eprintln failure.message
  | none => pure ()
  return outcome.code.toUInt32
