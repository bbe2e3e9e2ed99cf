import MiniC.Operator.Apply
import MiniC.Program
import MiniC.Run.Exec

/-!
# Running a program

Expressions yield a value, statements say whether the function goes on or returns. Operands and
arguments are evaluated from left to right, all of them: `&&` and `||` skip nothing. A call runs in
a frame of its own that binds the parameters, a block or a `for` loop in a scope of its own.

Each function spends one unit of fuel on every use of another, so they end on any program. Without
fuel they are unfinished, and more fuel changes nothing for a run that has ended.
-/

namespace MiniC

inductive Flow where
  | normal
  | returned (value : Value)
  deriving DecidableEq, Repr

def UnaryOp.step? : UnaryOp → Option BinaryOp
  | .increment => some .add
  | .decrement => some .sub
  | .negate => none
  | .not => none

/-- Steps a variable by one. The value is the new one if the operator stands before the variable,
and the old one if after. -/
def Exec.step (op : BinaryOp) (side : Side) (name : String) : Exec Value := do
  let old ← Exec.lookup name
  let new ← Exec.ofExcept (op.apply old (.int 1))
  Exec.modifyEnv fun env => (env.assign? name new).getD env
  return match side with
    | .before => new
    | .after => old

/-- A variable that has been read is there, so a step may as well end like an assignment. -/
theorem Exec.step_eq (op : BinaryOp) (side : Side) (name : String) :
    Exec.step op side name = do
      let old ← Exec.lookup name
      let new ← Exec.ofExcept (op.apply old (.int 1))
      Exec.assign name new
      return match side with
        | .before => new
        | .after => old := by
  funext s
  rw [Exec.step]
  cases hget : s.env.get? name with
  | none =>
    have hlookup : Exec.lookup name s = .failed (.unknownVariable name) s := by
      rw [Exec.lookup, hget]
    rw [bind_failed hlookup, bind_failed hlookup]
  | some old =>
    have hlookup : Exec.lookup name s = .done old s := by rw [Exec.lookup, hget]
    rw [bind_done hlookup, bind_done hlookup]
    cases happly : op.apply old (.int 1) with
    | error fault => rfl
    | ok new =>
      have hcalculated : Exec.ofExcept (.ok new) s = .done new s := rfl
      have hwrite := Exec.assign_of_get? (hget ▸ Option.some_ne_none old) new
      rw [bind_done hcalculated, bind_done hcalculated, bind_done hwrite]
      rfl

mutual

def Expr.eval (program : Program) : (fuel : Nat) → Expr → Exec Value
  | 0, _ => Exec.unfinished
  | _ + 1, .literal v => pure v
  | _ + 1, .var x => Exec.lookup x
  | n + 1, .binary op left right => do
    let a ← left.eval program n
    let b ← right.eval program n
    Exec.ofExcept (op.apply a b)
  | n + 1, .unary .negate _ operand => do
    let v ← operand.eval program n
    Exec.ofExcept v.negate
  | n + 1, .unary .not _ operand => do
    let v ← operand.eval program n
    return .bool (!v.truthy)
  | _ + 1, .unary .increment side (.var x) => Exec.step .add side x
  | _ + 1, .unary .decrement side (.var x) => Exec.step .sub side x
  | _ + 1, .unary op _ _ => Exec.fail (.stepTarget op)
  | n + 1, .assign x e => do
    let v ← e.eval program n
    Exec.assign x v
    return v
  | n + 1, .call f args => Expr.evalCall program n f args

def Expr.evalAll (program : Program) : (fuel : Nat) → List Expr → Exec (List Value)
  | 0, _ => Exec.unfinished
  | _ + 1, [] => pure []
  | n + 1, e :: es => do
    let v ← e.eval program n
    let vs ← Expr.evalAll program n es
    return v :: vs

/-- The value of a call: what the function returns, or `0` if it returns nothing. The number of
arguments is checked before any of them is evaluated. -/
def Expr.evalCall (program : Program) : (fuel : Nat) → String → List Expr → Exec Value
  | 0, _, _ => Exec.unfinished
  | n + 1, name, args =>
    match program.function? name with
    | none => Exec.fail (.unknownFunction name)
    | some f =>
      if f.params.length ≠ args.length then
        Exec.fail (.argumentCount name f.params.length args.length)
      else do
        let values ← Expr.evalAll program n args
        Exec.inFrame do
          Exec.modifyEnv (·.defineAll ((f.params.map Decl.name).zip values))
          match ← Stmt.execAll program n f.body with
          | .returned v => return v
          | .normal => return .int 0

def Stmt.exec (program : Program) : (fuel : Nat) → Stmt → Exec Flow
  | 0, _ => Exec.unfinished
  | n + 1, .expr e => do
    let _ ← e.eval program n
    return .normal
  | n + 1, .decl ⟨_, x, init⟩ => do
    let v ← Expr.evalOr program n init
    Exec.define x v
    return .normal
  | n + 1, .block body => Exec.inScope (Stmt.execAll program n body)
  | n + 1, .ifElse condition yes no => do
    let v ← condition.eval program n
    if v.truthy then yes.exec program n
    else
      match no with
      | some s => s.exec program n
      | none => return .normal
  | n + 1, .whileLoop condition body => Stmt.repeat program n condition none body
  | n + 1, .forLoop init condition step body =>
    Exec.inScope do
      match init with
      | some s => let _ ← s.exec program n
      | none => pure ()
      Stmt.repeat program n condition step body
  | n + 1, .ret value => do
    let v ← Expr.evalOr program n value
    return .returned v
  | n + 1, .print e => do
    let v ← e.eval program n
    Exec.printLine v
    return .normal

def Expr.evalOr (program : Program) : (fuel : Nat) → Option Expr → Exec Value
  | 0, _ => Exec.unfinished
  | _ + 1, none => pure (.int 0)
  | n + 1, some e => e.eval program n

def Stmt.execAll (program : Program) : (fuel : Nat) → List Stmt → Exec Flow
  | 0, _ => Exec.unfinished
  | _ + 1, [] => pure .normal
  | n + 1, s :: rest => do
    match ← s.exec program n with
    | .returned v => return .returned v
    | .normal => Stmt.execAll program n rest

def Stmt.repeat (program : Program) :
    (fuel : Nat) → Expr → Option Expr → Stmt → Exec Flow
  | 0, _, _, _ => Exec.unfinished
  | n + 1, condition, step, body => do
    let v ← condition.eval program n
    if v.truthy then
      match ← body.exec program n with
      | .returned v => return .returned v
      | .normal =>
        let _ ← Expr.evalOr program n step
        Stmt.repeat program n condition step body
    else return .normal

end

end MiniC
