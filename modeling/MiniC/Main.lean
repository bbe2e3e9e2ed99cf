import MiniC.CommandLine

/-!
# The program

Reads the file that a command names, and writes what the command answers.
-/

namespace MiniC.CommandLine

def readSource? (source : Source) : IO (Option String) :=
  match source with
  | .text _ => return none
  | .file path =>
    try
      return some (← IO.FS.readFile path)
    catch _ =>
      return none

/-- Fuel that no run uses up. -/
def ample : Nat := 1 <<< 60

def answer (response : Response) : IO UInt32 := do
  (← IO.getStdout).write response.output
  IO.eprint response.errors
  return response.code

end MiniC.CommandLine

open MiniC.CommandLine in
def main (arguments : List String) : IO UInt32 := do
  match Command.ofArguments arguments with
  | .error stop => answer stop.response
  | .ok command =>
    match command.respond ample (← readSource? command.source) with
    | some response => answer response
    | none => return 1
