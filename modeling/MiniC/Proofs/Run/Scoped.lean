import MiniC.Program

/-!
# Which programs only use names there are

Whether the names of a program are in scope is told from its text. Names come into scope with a
declaration, for the statements after it in the same list or for the loop it stands in the header
of, and leave it with the block, branch or loop.
-/

namespace MiniC

variable {program : Program}

-- ---------------------------------------------------------------------------
-- Names
-- ---------------------------------------------------------------------------

mutual

/-- Variables that are read, assigned or stepped have a name among those given, and nothing but a
variable is stepped. -/
def Expr.Scoped (names : List String) : Expr → Prop
  | .literal _ => True
  | .var x => x ∈ names
  | .binary _ left right => left.Scoped names ∧ right.Scoped names
  | .unary .increment _ e => (∃ x, e = .var x) ∧ e.Scoped names
  | .unary .decrement _ e => (∃ x, e = .var x) ∧ e.Scoped names
  | .unary _ _ e => e.Scoped names
  | .assign x e => x ∈ names ∧ e.Scoped names
  | .call _ args => Expr.AllScoped names args

def Expr.AllScoped (names : List String) : List Expr → Prop
  | [] => True
  | e :: es => e.Scoped names ∧ Expr.AllScoped names es

end

def Expr.ScopedIfAny (names : List String) : Option Expr → Prop
  | none => True
  | some e => e.Scoped names

def Stmt.declares : Stmt → List String
  | .decl d => [d.name]
  | _ => []

mutual

/-- The names in a statement are among those given or in the scope of a declaration in it. -/
def Stmt.Scoped : List String → Stmt → Prop
  | names, .expr e => e.Scoped names
  | names, .decl d => Expr.ScopedIfAny names d.init
  | names, .block body => Stmt.AllScoped names body
  | names, .ifElse c yes none => c.Scoped names ∧ yes.Scoped names
  | names, .ifElse c yes (some no) => c.Scoped names ∧ yes.Scoped names ∧ no.Scoped names
  | names, .whileLoop c body => c.Scoped names ∧ body.Scoped names
  | names, .forLoop none c step body =>
    c.Scoped names ∧ Expr.ScopedIfAny names step ∧ body.Scoped names
  | names, .forLoop (some init) c step body =>
    init.Scoped names ∧ c.Scoped (init.declares ++ names) ∧
      Expr.ScopedIfAny (init.declares ++ names) step ∧ body.Scoped (init.declares ++ names)
  | names, .ret value => Expr.ScopedIfAny names value
  | names, .print e => e.Scoped names

def Stmt.AllScoped : List String → List Stmt → Prop
  | _, [] => True
  | names, s :: rest => s.Scoped names ∧ Stmt.AllScoped (s.declares ++ names) rest

end

-- ---------------------------------------------------------------------------
-- Calls
-- ---------------------------------------------------------------------------

mutual

def Expr.calls : Expr → List (String × Nat)
  | .literal _ => []
  | .var _ => []
  | .binary _ left right => left.calls ++ right.calls
  | .unary _ _ e => e.calls
  | .assign _ e => e.calls
  | .call f args => (f, args.length) :: Expr.callsAll args

def Expr.callsAll : List Expr → List (String × Nat)
  | [] => []
  | e :: es => e.calls ++ Expr.callsAll es

end

def Expr.callsIfAny : Option Expr → List (String × Nat)
  | none => []
  | some e => e.calls

mutual

def Stmt.calls : Stmt → List (String × Nat)
  | .expr e => e.calls
  | .decl d => Expr.callsIfAny d.init
  | .block body => Stmt.callsAll body
  | .ifElse c yes none => c.calls ++ yes.calls
  | .ifElse c yes (some no) => c.calls ++ (yes.calls ++ no.calls)
  | .whileLoop c body => c.calls ++ body.calls
  | .forLoop none c step body => c.calls ++ (Expr.callsIfAny step ++ body.calls)
  | .forLoop (some init) c step body =>
    init.calls ++ (c.calls ++ (Expr.callsIfAny step ++ body.calls))
  | .ret value => Expr.callsIfAny value
  | .print e => e.calls

def Stmt.callsAll : List Stmt → List (String × Nat)
  | [] => []
  | s :: rest => s.calls ++ Stmt.callsAll rest

end

-- ---------------------------------------------------------------------------
-- Programs
-- ---------------------------------------------------------------------------

theorem Program.mem_of_function? (h : program.function? name = some f) :
    f ∈ program.functions ∧ f.name = name := by
  unfold Program.function? at h
  exact ⟨List.mem_of_find?_eq_some h, by simpa using List.find?_some h⟩

def Function.Scoped (f : Function) : Prop :=
  Stmt.AllScoped (f.params.map Decl.name) f.body

def Program.CallsMain (program : Program) : Prop :=
  ∃ name f k, program.function? name = some f ∧ ("main", k) ∈ Stmt.callsAll f.body

/-- The names of a program are in scope if it is run with inputs of these names, and its calls fit
the functions that they name. Only the first function of a name counts. -/
structure Program.WellScoped (program : Program) (inputs : List String) : Prop where
  main : ∃ main, program.function? "main" = some main ∧ Stmt.AllScoped inputs main.body
  others : ∀ name f, program.function? name = some f → name ≠ "main" → f.Scoped
  /-- A `main` that is called may use its parameters and has none of the inputs. -/
  called : ∀ main, program.function? "main" = some main → program.CallsMain → main.Scoped
  calls : ∀ name f, program.function? name = some f → ∀ call ∈ Stmt.callsAll f.body,
    ∃ g, program.function? call.1 = some g ∧ g.params.length = call.2

end MiniC
