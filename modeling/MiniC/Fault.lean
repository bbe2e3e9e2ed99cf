import MiniC.Operator
import MiniC.Value

/-!
# Why a run stops early

A fault is a cause with what its report needs. The wording is a function of the cause.
-/

namespace MiniC

inductive Calculation where
  | binary (left : Int64) (symbol : String) (right : Int64)
  | negation (operand : Int64)
  deriving DecidableEq, Repr

def Calculation.text : Calculation → String
  | binary left symbol right => s!"{left.toInt} {symbol} {right.toInt}"
  | negation operand => s!"-({operand.toInt})"

/-- A use of a value whose kind does not allow it. -/
inductive Misuse where
  | operands (op : BinaryOp) (left right : Kind)
  | negation (operand : Kind)
  /-- Only an integer or a bool can be the result of a program. -/
  | result (kind : Kind)
  deriving DecidableEq, Repr

def Misuse.text : Misuse → String
  | operands op left right => s!"cannot apply '{op.spelling}' to {left.name} and {right.name}"
  | negation operand => s!"cannot negate a {operand.name}"
  | result kind => s!"main must return an integer, got {kind.name}"

structure Refusal where
  text : String
  deriving DecidableEq, Repr

inductive Fault where
  | unknownVariable (name : String)
  | unknownFunction (name : String)
  | missingMain
  | argumentCount (name : String) (expected found : Nat)
  /-- A step by one of anything but a variable. -/
  | stepTarget (op : UnaryOp)
  | misuse (m : Misuse)
  | divisionByZero
  | overflow (c : Calculation)
  | output (r : Refusal)
  deriving DecidableEq, Repr

def Fault.reason : Fault → String
  | unknownVariable name => s!"Unknown variable '{name}'"
  | unknownFunction name => s!"Unknown function '{name}'"
  | missingMain => "The program defines no 'main' function"
  | argumentCount name expected found =>
    s!"Function '{name}' takes {expected} argument(s) but {found} were given"
  | stepTarget op => s!"'{op.spelling}' can only be applied to a variable"
  | misuse m => s!"Type error: {m.text}"
  | divisionByZero => "Division by zero"
  | overflow c => s!"Integer overflow while computing {c.text}"
  | output r => s!"Failed to write output: {r.text}"

def Fault.message (fault : Fault) : String :=
  s!"Runtime error: {fault.reason}."

end MiniC
