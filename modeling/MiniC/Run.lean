import MiniC.Run.Eval

/-!
# Whole runs

A run starts with variables for its inputs and executes the body of `main` among them. Its result
is the integer that `main` returns.
-/

namespace MiniC

def noResult : Int64 := -1

namespace Program

/-- Binds the inputs where the run stands and executes the body of `main` there. The inputs of a
`main` that is called are its arguments, as for every function; here its parameters mean nothing. -/
def runMain (program : Program) (fuel : Nat) (inputs : List (String × Value)) : Exec Int64 :=
  match program.function? "main" with
  | none => Exec.fail .missingMain
  | some main => do
    Exec.modifyEnv (·.defineAll inputs)
    match ← Stmt.execAll program fuel main.body with
    | .returned v => Exec.ofExcept v.result
    | .normal => return noResult

/-- A complete run. Output ends only after success, so a fault of the program is never hidden by
one of the output. -/
def run (program : Program) (fuel : Nat) (inputs : List (String × Value)) (sink : Sink) :
    Outcome Int64 :=
  let whole : Exec Int64 := do
    let result ← program.runMain fuel inputs
    Exec.flush
    return result
  whole ⟨.fresh, sink⟩

end Program

end MiniC
