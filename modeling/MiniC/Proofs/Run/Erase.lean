import MiniC.Proofs.Run.Scoped
import MiniC.Run

/-!
# What a run reads of a program

A run finds functions by their names and reads the names of their parameters and their bodies, and
no types: an execution is the one of the erased text in any program that has the erased functions
(`Program.Erases.erasesWith`). So programs with the same first functions up to types have the same
runs (`Program.Matches.runMain`).
-/

namespace MiniC

-- ---------------------------------------------------------------------------
-- Types
-- ---------------------------------------------------------------------------

mutual

def Stmt.erase : Stmt → Stmt
  | .expr e => .expr e
  | .decl d => .decl { d with type := .int }
  | .block body => .block (Stmt.eraseAll body)
  | .ifElse c yes no => .ifElse c yes.erase (Stmt.eraseIfAny no)
  | .whileLoop c body => .whileLoop c body.erase
  | .forLoop init c step body => .forLoop (Stmt.eraseIfAny init) c step body.erase
  | .ret value => .ret value
  | .print e => .print e

def Stmt.eraseIfAny : Option Stmt → Option Stmt
  | none => none
  | some s => some s.erase

def Stmt.eraseAll : List Stmt → List Stmt
  | [] => []
  | s :: rest => s.erase :: Stmt.eraseAll rest

end

theorem cases_of_rel {R : α → β → Prop} {a : Option α} {b : Option β} (h : Option.Rel R a b) :
    (a = none ∧ b = none) ∨ ∃ x y, a = some x ∧ b = some y ∧ R x y := by
  cases h with
  | none => exact .inl ⟨rfl, rfl⟩
  | some hxy => exact .inr ⟨_, _, rfl, rfl, hxy⟩

theorem map_of_rel {R : α → β → Prop} {S : γ → δ → Prop} {a : Option α} {b : Option β}
    {f : α → γ} {g : β → δ} (h : Option.Rel R a b) (hfg : ∀ x y, R x y → S (f x) (g y)) :
    Option.Rel S (a.map f) (b.map g) := by
  cases h with
  | none => exact .none
  | some hxy => exact .some (hfg _ _ hxy)

def Function.erase (f : Function) : Function where
  type := .int
  name := f.name
  params := f.params.map fun d => ⟨.int, d.name, none⟩
  body := Stmt.eraseAll f.body

/-- The functions have the same names of parameters in the same order, and the same bodies up to
types. -/
def Function.Matches (f g : Function) : Prop :=
  f.params.map Decl.name = g.params.map Decl.name ∧ Stmt.eraseAll f.body = Stmt.eraseAll g.body

theorem Function.params_erase (f : Function) :
    f.erase.params.map Decl.name = f.params.map Decl.name := by
  simp [erase]

theorem Function.length_params_erase (f : Function) : f.erase.params.length = f.params.length := by
  simp [erase]

theorem Function.Matches.erase {f g : Function} (h : f.Matches g) (hname : f.name = g.name) :
    f.erase = g.erase := by
  have hparams : ∀ f : Function, f.erase.params =
      (f.params.map Decl.name).map fun x => ⟨.int, x, none⟩ := fun f => by
    simp [Function.erase]
  have hsame : f.erase.params = g.erase.params := by rw [hparams, hparams, h.1]
  simp only [Function.erase] at hsame ⊢
  rw [hsame, h.2, hname]

namespace Program

variable {p q erased : Program}

def Erases (p erased : Program) : Prop :=
  ∀ name, erased.function? name = (p.function? name).map Function.erase

def erase (p : Program) : Program where
  functions := p.functions.map Function.erase
  globals := []

theorem erases_erase (p : Program) : p.Erases p.erase := by
  intro name
  simp only [function?, erase, List.find?_map]
  rfl

structure ErasesWith (p erased : Program) (n : Nat) : Prop where
  eval : ∀ e : Expr, e.eval p n = e.eval erased n
  evalAll : ∀ es, Expr.evalAll p n es = Expr.evalAll erased n es
  evalCall : ∀ f args, Expr.evalCall p n f args = Expr.evalCall erased n f args
  evalOr : ∀ e, Expr.evalOr p n e = Expr.evalOr erased n e
  exec : ∀ s : Stmt, s.exec p n = s.erase.exec erased n
  execAll : ∀ body, Stmt.execAll p n body = Stmt.execAll erased n (Stmt.eraseAll body)
  repeat_ : ∀ c step body,
    Stmt.repeat p n c step body = Stmt.repeat erased n c step body.erase

namespace ErasesWith

variable {n : Nat} (h : p.ErasesWith erased n)

include h

theorem eval_succ (e : Expr) : e.eval p (n + 1) = e.eval erased (n + 1) := by
  cases e with
  | literal v => rfl
  | var x => rfl
  | binary op left right => simp only [Expr.eval, h.eval]
  | unary op side operand =>
    cases op with
    | negate => simp only [Expr.eval, h.eval]
    | not => simp only [Expr.eval, h.eval]
    | increment => cases operand <;> rfl
    | decrement => cases operand <;> rfl
  | assign x e => simp only [Expr.eval, h.eval]
  | call f args => exact h.evalCall f args

theorem evalAll_succ (es : List Expr) :
    Expr.evalAll p (n + 1) es = Expr.evalAll erased (n + 1) es := by
  cases es with
  | nil => rfl
  | cons e es => simp only [Expr.evalAll, h.eval, h.evalAll]

theorem evalOr_succ (e : Option Expr) :
    Expr.evalOr p (n + 1) e = Expr.evalOr erased (n + 1) e := by
  cases e with
  | none => rfl
  | some e => exact h.eval e

theorem evalCall_succ (hp : p.Erases erased) (f : String) (args : List Expr) :
    Expr.evalCall p (n + 1) f args = Expr.evalCall erased (n + 1) f args := by
  rw [Expr.evalCall, Expr.evalCall, hp f]
  cases p.function? f with
  | none => rfl
  | some g =>
    simp only [Option.map_some, g.length_params_erase, g.params_erase, h.evalAll, h.execAll]
    rfl

theorem exec_succ (s : Stmt) : s.exec p (n + 1) = s.erase.exec erased (n + 1) := by
  cases s with
  | expr e => simp only [Stmt.erase, Stmt.exec, h.eval]
  | decl d => simp only [Stmt.erase, Stmt.exec, h.evalOr]
  | block body => simp only [Stmt.erase, Stmt.exec, h.execAll]
  | ifElse condition yes no =>
    cases no with
    | none => simp only [Stmt.erase, Stmt.eraseIfAny, Stmt.exec, h.eval, h.exec]
    | some no => simp only [Stmt.erase, Stmt.eraseIfAny, Stmt.exec, h.eval, h.exec]
  | whileLoop condition body => exact h.repeat_ condition none body
  | forLoop init condition step body =>
    cases init with
    | none => simp only [Stmt.erase, Stmt.eraseIfAny, Stmt.exec, h.repeat_]
    | some init => simp only [Stmt.erase, Stmt.eraseIfAny, Stmt.exec, h.exec, h.repeat_]
  | ret value => simp only [Stmt.erase, Stmt.exec, h.evalOr]
  | print e => simp only [Stmt.erase, Stmt.exec, h.eval]

theorem execAll_succ (body : List Stmt) :
    Stmt.execAll p (n + 1) body = Stmt.execAll erased (n + 1) (Stmt.eraseAll body) := by
  cases body with
  | nil => rfl
  | cons s rest => simp only [Stmt.eraseAll, Stmt.execAll, h.exec, h.execAll]

theorem repeat_succ (c : Expr) (step : Option Expr) (body : Stmt) :
    Stmt.repeat p (n + 1) c step body = Stmt.repeat erased (n + 1) c step body.erase := by
  simp only [Stmt.repeat, h.eval, h.exec, h.evalOr, h.repeat_]

end ErasesWith

theorem Erases.erasesWith (h : p.Erases erased) (n : Nat) : p.ErasesWith erased n := by
  induction n with
  | zero =>
    exact ⟨fun _ => rfl, fun _ => rfl, fun _ _ => rfl, fun _ => rfl, fun _ => rfl, fun _ => rfl,
      fun _ _ _ => rfl⟩
  | succ n ih =>
    exact ⟨ih.eval_succ, ih.evalAll_succ, ih.evalCall_succ h, ih.evalOr_succ, ih.exec_succ,
      ih.execAll_succ, ih.repeat_succ⟩

theorem Erases.runMain (h : p.Erases erased) (fuel : Nat) (inputs : List (String × Value)) :
    p.runMain fuel inputs = erased.runMain fuel inputs := by
  unfold Program.runMain
  rw [h "main"]
  cases p.function? "main" with
  | none => rfl
  | some main =>
    simp only [Option.map_some, (h.erasesWith fuel).execAll]
    rfl

/-- Programs whose first functions of every name match, and which define the same names. -/
def Matches (p q : Program) : Prop :=
  ∀ name, Option.Rel Function.Matches (p.function? name) (q.function? name)

theorem Matches.erases (h : p.Matches q) : q.Erases p.erase := by
  intro name
  rw [p.erases_erase name]
  rcases cases_of_rel (h name) with ⟨hp, hq⟩ | ⟨f, g, hp, hq, hfg⟩
  · rw [hp, hq]
  · rw [hp, hq]
    have hname : f.name = g.name := by
      rw [(mem_of_function? hp).2, (mem_of_function? hq).2]
    exact congrArg some (hfg.erase hname)

/-- A run reads nothing of a program but its first functions, and of those no types. -/
theorem Matches.runMain (h : p.Matches q) (fuel : Nat) : p.runMain fuel = q.runMain fuel := by
  funext inputs
  rw [p.erases_erase.runMain, h.erases.runMain]

end Program

end MiniC
