import MiniC.Proofs.Run.Congruence
import MiniC.Run

/-!
# The parts of an execution

While a phrase of a program is executed, others are begun: its operands, the statements in it, the
body of a function it calls. `Program.Enters` says which ones, and in which states. So what it leads
to is where an execution gets on its way, whether it ends or not.
-/

namespace MiniC

/-- What is executed: the use of an evaluating function. -/
inductive Phrase where
  | expr (e : Expr)
  | exprs (es : List Expr)
  | stmt (s : Stmt)
  | stmts (body : List Stmt)
  /-- The rounds of a loop that are left. -/
  | loop (condition : Expr) (step : Option Expr) (body : Stmt)
  /-- A whole run of the program with inputs. -/
  | main (inputs : List (String × Value))

namespace Program

variable {program : Program}

def Takes (program : Program) (f : String) (count : Nat) (g : Function) : Prop :=
  program.function? f = some g ∧ g.params.length = count

theorem Takes.evalCall {args : List Expr} (h : program.Takes f args.length g) (n : Nat) :
    Expr.evalCall program (n + 1) f args = (Expr.evalAll program n args >>= fun values =>
      Exec.inFrame (g.applyTo program n values)) := by
  rw [Expr.evalCall, h.1]
  simp only [h.2, ne_eq, not_true_eq_false, if_false]
  rfl

/-- A call that no function takes fails before it evaluates anything. -/
theorem refused {f : String} {count : Nat} (h : ∀ g, ¬program.Takes f count g) :
    ∃ fault, ∀ args : List Expr, args.length = count →
      ∀ n, Expr.evalCall program (n + 1) f args = Exec.fail fault := by
  cases hf : program.function? f with
  | none => exact ⟨.unknownFunction f, fun args _ n => by rw [Expr.evalCall, hf]⟩
  | some g =>
    have hcount : g.params.length ≠ count := fun hcount => h g ⟨hf, hcount⟩
    refine ⟨.argumentCount f g.params.length count, fun args hlength n => ?_⟩
    simp [Expr.evalCall, hf, hlength, hcount]

/-- While a phrase is executed from a state, the execution of another begins, in a state of its own.
The states before and after a part are those of the evaluating functions. -/
inductive Enters (program : Program) : Phrase × State → Phrase × State → Prop
  | left {op left right s} : Enters program (.expr (.binary op left right), s) (.expr left, s)
  | right {op} {left right : Expr} {n s v t} : left.eval program n s = .done v t →
      Enters program (.expr (.binary op left right), s) (.expr right, t)
  | negated {side e s} : Enters program (.expr (.unary .negate side e), s) (.expr e, s)
  | inverted {side e s} : Enters program (.expr (.unary .not side e), s) (.expr e, s)
  | assigned {x e s} : Enters program (.expr (.assign x e), s) (.expr e, s)
  | args {f args g s} : program.Takes f args.length g →
      Enters program (.expr (.call f args), s) (.exprs args, s)
  | called {f args g n s values t} : program.Takes f args.length g →
      Expr.evalAll program n args s = .done values t →
      Enters program (.expr (.call f args), s) (.stmts g.body,
        { t with env := t.env.pushFrame.defineAll ((g.params.map Decl.name).zip values) })
  | arg {e es s} : Enters program (.exprs (e :: es), s) (.expr e, s)
  | moreArgs {e : Expr} {es n s v t} : e.eval program n s = .done v t →
      Enters program (.exprs (e :: es), s) (.exprs es, t)
  | effect {e s} : Enters program (.stmt (.expr e), s) (.expr e, s)
  | initial {type x e s} : Enters program (.stmt (.decl ⟨type, x, some e⟩), s) (.expr e, s)
  | block {body s} :
      Enters program (.stmt (.block body), s) (.stmts body, { s with env := s.env.pushScope })
  | condition {c yes no s} : Enters program (.stmt (.ifElse c yes no), s) (.expr c, s)
  | yes {c : Expr} {yes no n s v t} : c.eval program n s = .done v t → v.truthy = true →
      Enters program (.stmt (.ifElse c yes no), s) (.stmt yes, t)
  | no {c : Expr} {yes no n s v t} : c.eval program n s = .done v t → v.truthy = false →
      Enters program (.stmt (.ifElse c yes (some no)), s) (.stmt no, t)
  | whileLoop {c body s} : Enters program (.stmt (.whileLoop c body), s) (.loop c none body, s)
  | start {init c step body s} : Enters program (.stmt (.forLoop (some init) c step body), s)
      (.stmt init, { s with env := s.env.pushScope })
  | started {init : Stmt} {c step body n s flow t} :
      init.exec program n { s with env := s.env.pushScope } = .done flow t →
      Enters program (.stmt (.forLoop (some init) c step body), s) (.loop c step body, t)
  | forLoop {c step body s} : Enters program (.stmt (.forLoop none c step body), s)
      (.loop c step body, { s with env := s.env.pushScope })
  | returned {e s} : Enters program (.stmt (.ret (some e)), s) (.expr e, s)
  | printed {e s} : Enters program (.stmt (.print e), s) (.expr e, s)
  | first {c rest s} : Enters program (.stmts (c :: rest), s) (.stmt c, s)
  | rest {c : Stmt} {rest n s t} : c.exec program n s = .done .normal t →
      Enters program (.stmts (c :: rest), s) (.stmts rest, t)
  | test {c step body s} : Enters program (.loop c step body, s) (.expr c, s)
  | round {c : Expr} {step body n s v t} : c.eval program n s = .done v t → v.truthy = true →
      Enters program (.loop c step body, s) (.stmt body, t)
  | step {c e : Expr} {body : Stmt} {n s v t u} : c.eval program n s = .done v t →
      v.truthy = true → body.exec program n t = .done .normal u →
      Enters program (.loop c (some e) body, s) (.expr e, u)
  | again {c : Expr} {step} {body : Stmt} {n s v t u w r} : c.eval program n s = .done v t →
      v.truthy = true → body.exec program n t = .done .normal u →
      Expr.evalOr program n step u = .done w r →
      Enters program (.loop c step body, s) (.loop c step body, r)
  | main {inputs g s} : program.function? "main" = some g →
      Enters program (.main inputs, s) (.stmts g.body, { s with env := s.env.defineAll inputs })

/-- While a phrase is executed from a state, a variable is declared, for which `define` is used on
these variables. -/
inductive Declares (program : Program) :
    Phrase × State → Environment → String → Value → Prop
  | init {type x init n s v t} : Expr.evalOr program n init s = .done v t →
      Declares program (.stmt (.decl ⟨type, x, init⟩), s) t.env x v
  | param {f args g n s values t before x v after} : program.Takes f args.length g →
      Expr.evalAll program n args s = .done values t →
      (g.params.map Decl.name).zip values = before ++ (x, v) :: after →
      Declares program (.expr (.call f args), s) (t.env.pushFrame.defineAll before) x v
  | input {g s before x v after} : program.function? "main" = some g →
      Declares program (.main (before ++ (x, v) :: after), s) (s.env.defineAll before) x v

end Program

end MiniC
