import MiniC.Run.Eval

/-!
# Two executions of one program

`Program.Graded.add`: a relation between computations that holds of the steps of a run and is
kept by the ways of putting computations together relates all executions that are equally deep. So
what two executions have in common is shown step by step, and once for all phrases. Statements may
have less in common than expressions; where they need not, one relation does (`Program.Related`).
-/

namespace MiniC

/-- The relation holds of each step of a run with itself, and passes from the parts of a
computation to the whole. -/
structure Exec.Congruence (R : ∀ {α : Type}, Exec α → Exec α → Prop) : Prop where
  pure : ∀ {α : Type} (a : α), R (pure a) (pure a)
  fail : ∀ {α : Type} (fault : Fault), R (Exec.fail fault : Exec α) (Exec.fail fault)
  bind : ∀ {α β : Type} {m m' : Exec α} {second second' : α → Exec β},
    R m m' → (∀ a, R (second a) (second' a)) → R (m >>= second) (m' >>= second')
  lookup : ∀ name, R (Exec.lookup name) (Exec.lookup name)
  assign : ∀ name value, R (Exec.assign name value) (Exec.assign name value)
  define : ∀ name value, R (Exec.define name value) (Exec.define name value)
  printLine : ∀ value, R (Exec.printLine value) (Exec.printLine value)
  inScope : ∀ {α : Type} {m m' : Exec α}, R m m' → R (Exec.inScope m) (Exec.inScope m')
  inFrame : ∀ {α : Type} {m m' : Exec α}, R m m' → R (Exec.inFrame m) (Exec.inFrame m')

/-- Two relations between computations, one for what expressions do and a weaker one for what
statements do: only a statement declares variables in the scope that it stands in. -/
structure Exec.Graded (R S : ∀ {α : Type}, Exec α → Exec α → Prop) : Prop where
  pure : ∀ {α : Type} (a : α), R (pure a) (pure a)
  fail : ∀ {α : Type} (fault : Fault), R (Exec.fail fault : Exec α) (Exec.fail fault)
  bind : ∀ {α β : Type} {m m' : Exec α} {second second' : α → Exec β},
    R m m' → (∀ a, R (second a) (second' a)) → R (m >>= second) (m' >>= second')
  lookup : ∀ name, R (Exec.lookup name) (Exec.lookup name)
  assign : ∀ name value, R (Exec.assign name value) (Exec.assign name value)
  printLine : ∀ value, R (Exec.printLine value) (Exec.printLine value)
  inScope : ∀ {α : Type} {m m' : Exec α}, S m m' → R (Exec.inScope m) (Exec.inScope m')
  inFrame : ∀ {α : Type} {m m' : Exec α}, S m m' → R (Exec.inFrame m) (Exec.inFrame m')
  weaken : ∀ {α : Type} {m m' : Exec α}, R m m' → S m m'
  sequence : ∀ {α β : Type} {m m' : Exec α} {second second' : α → Exec β},
    S m m' → (∀ a, S (second a) (second' a)) → S (m >>= second) (m' >>= second')
  define : ∀ name value, S (Exec.define name value) (Exec.define name value)

theorem Exec.Congruence.graded {R : ∀ {α : Type}, Exec α → Exec α → Prop}
    (hR : Exec.Congruence R) : Exec.Graded R R where
  pure := hR.pure
  fail := hR.fail
  bind := hR.bind
  lookup := hR.lookup
  assign := hR.assign
  printLine := hR.printLine
  inScope := hR.inScope
  inFrame := hR.inFrame
  weaken := id
  sequence := hR.bind
  define := hR.define

namespace Exec.Graded

variable {R S : ∀ {α : Type}, Exec α → Exec α → Prop} (hR : Exec.Graded R S)

include hR

theorem ofExcept (x : Except Fault α) : R (Exec.ofExcept x) (Exec.ofExcept x) := by
  cases x with
  | ok a => exact hR.pure a
  | error fault => exact hR.fail fault

theorem defineAll (bindings : List (String × Value)) :
    S (Exec.modifyEnv (·.defineAll bindings)) (Exec.modifyEnv (·.defineAll bindings)) := by
  induction bindings with
  | nil => exact hR.weaken (hR.pure ())
  | cons binding rest ih => exact hR.sequence (hR.define binding.1 binding.2) fun _ => ih

theorem step (op : BinaryOp) (side : Side) (name : String) :
    R (Exec.step op side name) (Exec.step op side name) := by
  rw [Exec.step_eq]
  exact hR.bind (hR.lookup name) fun _ => hR.bind (hR.ofExcept _) fun new =>
    hR.bind (hR.assign name new) fun _ => hR.pure _

end Exec.Graded

namespace Exec.Congruence

variable {R : ∀ {α : Type}, Exec α → Exec α → Prop} (hR : Exec.Congruence R)

include hR

theorem ofExcept (x : Except Fault α) : R (Exec.ofExcept x) (Exec.ofExcept x) :=
  hR.graded.ofExcept x

theorem defineAll (bindings : List (String × Value)) :
    R (Exec.modifyEnv (·.defineAll bindings)) (Exec.modifyEnv (·.defineAll bindings)) :=
  hR.graded.defineAll bindings

end Exec.Congruence

def Function.applyTo (program : Program) (n : Nat) (f : Function) (values : List Value) :
    Exec Value := do
  Exec.modifyEnv (·.defineAll ((f.params.map Decl.name).zip values))
  match ← Stmt.execAll program n f.body with
  | .returned v => return v
  | .normal => return .int 0

/-- What is executed with `n` units of fuel is related to its execution with `n'`, expressions by
one relation and statements by the other. -/
structure Program.Graded (R S : ∀ {α : Type}, Exec α → Exec α → Prop) (program : Program)
    (n n' : Nat) : Prop where
  eval : ∀ e : Expr, R (e.eval program n) (e.eval program n')
  evalAll : ∀ es, R (Expr.evalAll program n es) (Expr.evalAll program n' es)
  evalCall : ∀ f args, R (Expr.evalCall program n f args) (Expr.evalCall program n' f args)
  evalOr : ∀ e, R (Expr.evalOr program n e) (Expr.evalOr program n' e)
  exec : ∀ s : Stmt, S (s.exec program n) (s.exec program n')
  execAll : ∀ body, S (Stmt.execAll program n body) (Stmt.execAll program n' body)
  repeat_ : ∀ c step body,
    S (Stmt.repeat program n c step body) (Stmt.repeat program n' c step body)

namespace Program.Graded

variable {R S : ∀ {α : Type}, Exec α → Exec α → Prop} {program : Program} {n n' : Nat}

section

variable (h : program.Graded R S n n') (hR : Exec.Graded R S)

include h hR

theorem eval_succ (e : Expr) : R (e.eval program (n + 1)) (e.eval program (n' + 1)) := by
  cases e with
  | literal v => exact hR.pure v
  | var x => exact hR.lookup x
  | binary op left right =>
    exact hR.bind (h.eval left) fun _ => hR.bind (h.eval right) fun _ => hR.ofExcept _
  | unary op side operand =>
    cases op with
    | negate => exact hR.bind (h.eval operand) fun _ => hR.ofExcept _
    | not => exact hR.bind (h.eval operand) fun _ => hR.pure _
    | increment =>
      cases operand with
      | var x => exact hR.step .add side x
      | _ => exact hR.fail _
    | decrement =>
      cases operand with
      | var x => exact hR.step .sub side x
      | _ => exact hR.fail _
  | assign x e => exact hR.bind (h.eval e) fun v => hR.bind (hR.assign x v) fun _ => hR.pure v
  | call f args => exact h.evalCall f args

theorem evalAll_succ (es : List Expr) :
    R (Expr.evalAll program (n + 1) es) (Expr.evalAll program (n' + 1) es) := by
  cases es with
  | nil => exact hR.pure []
  | cons e es => exact hR.bind (h.eval e) fun _ => hR.bind (h.evalAll es) fun _ => hR.pure _

theorem evalOr_succ (e : Option Expr) :
    R (Expr.evalOr program (n + 1) e) (Expr.evalOr program (n' + 1) e) := by
  cases e with
  | none => exact hR.pure _
  | some e => exact h.eval e

theorem applyTo (f : Function) (values : List Value) :
    S (f.applyTo program n values) (f.applyTo program n' values) := by
  refine hR.sequence (hR.defineAll _) fun _ => hR.sequence (h.execAll f.body) fun flow => ?_
  cases flow <;> exact hR.weaken (hR.pure _)

theorem evalCall_succ (f : String) (args : List Expr) :
    R (Expr.evalCall program (n + 1) f args) (Expr.evalCall program (n' + 1) f args) := by
  rw [Expr.evalCall, Expr.evalCall]
  split
  · exact hR.fail _
  next g _ =>
    split
    · exact hR.fail _
    · exact hR.bind (h.evalAll args) fun values => hR.inFrame (h.applyTo hR g values)

theorem exec_succ (s : Stmt) : S (s.exec program (n + 1)) (s.exec program (n' + 1)) := by
  cases s with
  | expr e => exact hR.weaken (hR.bind (h.eval e) fun _ => hR.pure _)
  | decl d =>
    exact hR.sequence (hR.weaken (h.evalOr d.init)) fun v =>
      hR.sequence (hR.define d.name v) fun _ => hR.weaken (hR.pure _)
  | block body => exact hR.weaken (hR.inScope (h.execAll body))
  | ifElse condition yes no =>
    refine hR.sequence (hR.weaken (h.eval condition)) fun v => ?_
    split
    · exact h.exec yes
    · cases no with
      | some s => exact h.exec s
      | none => exact hR.weaken (hR.pure _)
  | whileLoop condition body => exact h.repeat_ condition none body
  | forLoop init condition step body =>
    have hloop := h.repeat_ condition step body
    cases init with
    | some s => exact hR.weaken (hR.inScope (hR.sequence (h.exec s) fun _ => hloop))
    | none =>
      exact hR.weaken (hR.inScope (hR.sequence (hR.weaken (hR.pure ())) fun _ => hloop))
  | ret value => exact hR.weaken (hR.bind (h.evalOr value) fun _ => hR.pure _)
  | print e =>
    exact hR.weaken (hR.bind (h.eval e) fun v => hR.bind (hR.printLine v) fun _ => hR.pure _)

theorem execAll_succ (body : List Stmt) :
    S (Stmt.execAll program (n + 1) body) (Stmt.execAll program (n' + 1) body) := by
  cases body with
  | nil => exact hR.weaken (hR.pure _)
  | cons s rest =>
    rw [Stmt.execAll, Stmt.execAll]
    refine hR.sequence (h.exec s) fun flow => ?_
    cases flow with
    | normal => exact h.execAll rest
    | returned v => exact hR.weaken (hR.pure _)

theorem repeat_succ (c : Expr) (step : Option Expr) (body : Stmt) :
    S (Stmt.repeat program (n + 1) c step body) (Stmt.repeat program (n' + 1) c step body) := by
  rw [Stmt.repeat, Stmt.repeat]
  refine hR.sequence (hR.weaken (h.eval c)) fun v => ?_
  split
  · refine hR.sequence (h.exec body) fun flow => ?_
    cases flow with
    | normal => exact hR.sequence (hR.weaken (h.evalOr step)) fun _ => h.repeat_ c step body
    | returned v => exact hR.weaken (hR.pure _)
  · exact hR.weaken (hR.pure _)

theorem succ : program.Graded R S (n + 1) (n' + 1) :=
  ⟨h.eval_succ hR, h.evalAll_succ hR, h.evalCall_succ hR, h.evalOr_succ hR, h.exec_succ hR,
    h.execAll_succ hR, h.repeat_succ hR⟩

theorem add (k : Nat) : program.Graded R S (n + k) (n' + k) := by
  induction k with
  | zero => exact h
  | succ k ih => exact ih.succ hR

end

end Program.Graded

theorem Exec.Graded.related {R S : ∀ {α : Type}, Exec α → Exec α → Prop}
    (hR : Exec.Graded R S) (hunfinished : ∀ {α : Type}, R (Exec.unfinished : Exec α) .unfinished)
    (program : Program) (n : Nat) : program.Graded R S n n := by
  have hzero : program.Graded R S 0 0 :=
    ⟨fun _ => hunfinished, fun _ => hunfinished, fun _ _ => hunfinished, fun _ => hunfinished,
      fun _ => hR.weaken hunfinished, fun _ => hR.weaken hunfinished,
      fun _ _ _ => hR.weaken hunfinished⟩
  simpa using hzero.add hR n

structure Program.Related (R : ∀ {α : Type}, Exec α → Exec α → Prop) (program : Program)
    (n n' : Nat) : Prop where
  eval : ∀ e : Expr, R (e.eval program n) (e.eval program n')
  evalAll : ∀ es, R (Expr.evalAll program n es) (Expr.evalAll program n' es)
  evalCall : ∀ f args, R (Expr.evalCall program n f args) (Expr.evalCall program n' f args)
  evalOr : ∀ e, R (Expr.evalOr program n e) (Expr.evalOr program n' e)
  exec : ∀ s : Stmt, R (s.exec program n) (s.exec program n')
  execAll : ∀ body, R (Stmt.execAll program n body) (Stmt.execAll program n' body)
  repeat_ : ∀ c step body,
    R (Stmt.repeat program n c step body) (Stmt.repeat program n' c step body)

namespace Program.Related

variable {R : ∀ {α : Type}, Exec α → Exec α → Prop} {program : Program} {n n' : Nat}

theorem graded (h : program.Related R n n') : program.Graded R R n n' :=
  ⟨h.eval, h.evalAll, h.evalCall, h.evalOr, h.exec, h.execAll, h.repeat_⟩

theorem applyTo (h : program.Related R n n') (hR : Exec.Congruence R) (f : Function)
    (values : List Value) : R (f.applyTo program n values) (f.applyTo program n' values) :=
  h.graded.applyTo hR.graded f values

theorem add (h : program.Related R n n') (hR : Exec.Congruence R) (k : Nat) :
    program.Related R (n + k) (n' + k) := by
  have hadd := h.graded.add hR.graded k
  exact ⟨hadd.eval, hadd.evalAll, hadd.evalCall, hadd.evalOr, hadd.exec, hadd.execAll,
    hadd.repeat_⟩

end Program.Related

theorem Exec.Congruence.related {R : ∀ {α : Type}, Exec α → Exec α → Prop}
    (hR : Exec.Congruence R) (hunfinished : ∀ {α : Type}, R (Exec.unfinished : Exec α) .unfinished)
    (program : Program) (n : Nat) : program.Related R n n := by
  have hzero : program.Related R 0 0 :=
    ⟨fun _ => hunfinished, fun _ => hunfinished, fun _ _ => hunfinished, fun _ => hunfinished,
      fun _ => hunfinished, fun _ => hunfinished, fun _ _ _ => hunfinished⟩
  simpa using hzero.add hR n

end MiniC
