import Mathlib.Logic.Relation
import MiniC.Proofs.Run.Ends
import MiniC.Proofs.Run.Phrase

/-!
# The values there are

The values that an execution may meet: the literals in the text, what the variables hold, also those
out of sight, and what the parts of the execution yield.
-/

namespace MiniC

-- ---------------------------------------------------------------------------
-- Literals
-- ---------------------------------------------------------------------------

mutual

def Expr.literals : Expr → List Value
  | .literal v => [v]
  | .var _ => []
  | .binary _ left right => left.literals ++ right.literals
  | .unary _ _ e => e.literals
  | .assign _ e => e.literals
  | .call _ args => Expr.literalsAll args

def Expr.literalsAll : List Expr → List Value
  | [] => []
  | e :: es => e.literals ++ Expr.literalsAll es

end

def Expr.literalsIfAny : Option Expr → List Value
  | none => []
  | some e => e.literals

mutual

def Stmt.literals : Stmt → List Value
  | .expr e => e.literals
  | .decl d => Expr.literalsIfAny d.init
  | .block body => Stmt.literalsAll body
  | .ifElse c yes no => c.literals ++ (yes.literals ++ Stmt.literalsIfAny no)
  | .whileLoop c body => c.literals ++ body.literals
  | .forLoop init c step body =>
    Stmt.literalsIfAny init ++ (c.literals ++ (Expr.literalsIfAny step ++ body.literals))
  | .ret value => Expr.literalsIfAny value
  | .print e => e.literals

def Stmt.literalsIfAny : Option Stmt → List Value
  | none => []
  | some s => s.literals

def Stmt.literalsAll : List Stmt → List Value
  | [] => []
  | s :: rest => s.literals ++ Stmt.literalsAll rest

end

/-- The literals in the bodies of functions. Those in initializers of parameters or of globals have
no effect on a run. -/
def Program.literals (program : Program) : List Value :=
  program.functions.flatMap fun f => Stmt.literalsAll f.body

theorem Program.literals_function? {program : Program} (h : program.function? name = some f) :
    Stmt.literalsAll f.body ⊆ program.literals := fun _ hv =>
  List.mem_flatMap_of_mem (List.mem_of_find?_eq_some h) hv

-- ---------------------------------------------------------------------------
-- Values of variables
-- ---------------------------------------------------------------------------

theorem Value.append_subset {vs ws : List Value} (h : vs ⊆ ws) (rest : List Value) :
    vs ++ rest ⊆ ws ++ rest :=
  List.append_subset.2
    ⟨List.subset_append_of_subset_left rest h, List.subset_append_right ws rest⟩

def Scope.values (scope : Scope) : List Value :=
  scope.bindings.map Prod.snd

theorem Scope.values_put (scope : Scope) (name : String) (value : Value) :
    (scope.put name value).values ⊆ value :: scope.values := by
  obtain ⟨bindings⟩ := scope
  change (putIn name value bindings).map Prod.snd ⊆ value :: bindings.map Prod.snd
  induction bindings with
  | nil => exact List.Subset.refl _
  | cons binding rest ih =>
    rw [putIn]
    split
    · exact List.cons_subset_cons _ (List.subset_cons_self _ _)
    · intro v hv
      rcases List.mem_cons.1 hv with rfl | hv
      · exact .tail _ (.head _)
      · rcases List.mem_cons.1 (ih hv) with rfl | hv
        · exact .head _
        · exact .tail _ (.tail _ hv)

theorem Scope.mem_values {scope : Scope} (h : scope.get? name = some v) : v ∈ scope.values := by
  obtain ⟨before, after, hbindings, -⟩ := List.lookup_eq_some_iff.1 h
  simp [Scope.values, hbindings]

def Frame.values (frame : Frame) : List Value :=
  frame.flatMap Scope.values

@[simp] theorem Frame.values_cons (scope : Scope) (outer : Frame) :
    Frame.values (scope :: outer) = scope.values ++ Frame.values outer :=
  List.flatMap_cons

theorem Frame.values_define (name : String) (value : Value) (frame : Frame) :
    (Frame.define name value frame).values ⊆ value :: frame.values := by
  cases frame with
  | nil => exact List.nil_subset _
  | cons scope outer =>
    simp only [Frame.define, values_cons, ← List.cons_append]
    exact Value.append_subset (scope.values_put name value) _

theorem Frame.values_assign? {frame after : Frame}
    (h : Frame.assign? name value frame = some after) : after.values ⊆ value :: frame.values := by
  induction frame generalizing after with
  | nil => cases h
  | cons scope outer ih =>
    rw [Frame.assign?] at h
    split at h
    · obtain rfl := Option.some.inj h
      simp only [values_cons, ← List.cons_append]
      exact Value.append_subset (scope.values_put name value) _
    · obtain ⟨changed, hchanged, rfl⟩ := Option.map_eq_some_iff.1 h
      have hsub := ih hchanged
      simp only [values_cons]
      grind

theorem Frame.mem_values {frame : Frame} (h : frame.get? name = some v) : v ∈ frame.values := by
  obtain ⟨scope, hscope, hget⟩ := List.exists_of_findSome?_eq_some h
  exact List.mem_flatMap_of_mem hscope (Scope.mem_values hget)

namespace Environment

variable {env env' : Environment}

def values (env : Environment) : List Value :=
  env.frames.flatMap Frame.values

theorem values_define (env : Environment) (name : String) (value : Value) :
    (env.define name value).values ⊆ value :: env.values := by
  obtain ⟨_ | ⟨frame, callers⟩⟩ := env
  · exact List.nil_subset _
  · exact Value.append_subset (frame.values_define name value) _

theorem values_defineAll (env : Environment) (bindings : List (String × Value)) :
    (env.defineAll bindings).values ⊆ bindings.map Prod.snd ++ env.values := by
  induction bindings generalizing env with
  | nil => exact List.Subset.refl _
  | cons binding rest ih =>
    have hrest := ih (env.define binding.1 binding.2)
    have hfirst := env.values_define binding.1 binding.2
    simp only [defineAll, List.foldl_cons, List.map_cons] at hrest ⊢
    grind

theorem values_assign? (h : env.assign? name value = some env') :
    env'.values ⊆ value :: env.values := by
  obtain ⟨_ | ⟨frame, callers⟩⟩ := env
  · cases h
  · obtain ⟨after, hafter, rfl⟩ := Option.map_eq_some_iff.1 h
    exact Value.append_subset (Frame.values_assign? hafter) _

theorem values_pushScope (env : Environment) : env.pushScope.values ⊆ env.values := by
  obtain ⟨_ | ⟨frame, callers⟩⟩ := env <;> exact List.Subset.refl _

theorem values_popScope (env : Environment) : env.popScope.values ⊆ env.values := by
  obtain ⟨_ | ⟨_ | ⟨scope, outer⟩, callers⟩⟩ := env
  · exact List.Subset.refl _
  · exact List.Subset.refl _
  · exact Value.append_subset (List.subset_append_right _ _) _

theorem values_pushFrame (env : Environment) : env.pushFrame.values ⊆ env.values :=
  List.Subset.refl _

theorem values_popFrame (env : Environment) : env.popFrame.values ⊆ env.values := by
  obtain ⟨_ | ⟨frame, callers⟩⟩ := env
  · exact List.Subset.refl _
  · exact List.subset_append_right _ _

theorem mem_values (h : env.get? name = some v) : v ∈ env.values := by
  obtain ⟨_ | ⟨frame, callers⟩⟩ := env
  · cases h
  · exact List.mem_append_left _ (Frame.mem_values h)

end Environment

-- ---------------------------------------------------------------------------
-- Values on the way
-- ---------------------------------------------------------------------------

def Flow.values : Flow → List Value
  | .normal => []
  | .returned v => [v]

namespace Phrase

/-- The literals of what is executed. Those of a whole run are its inputs. -/
def literals : Phrase → List Value
  | .expr e => e.literals
  | .exprs es => Expr.literalsAll es
  | .stmt s => s.literals
  | .stmts body => Stmt.literalsAll body
  | .loop c step body => c.literals ++ (Expr.literalsIfAny step ++ body.literals)
  | .main inputs => inputs.map Prod.snd

/-- The execution, which yields the value of an expression, those of arguments, what a statement
returns or the result of a run. -/
def exec (program : Program) (n : Nat) : Phrase → Exec (List Value)
  | .expr e => do return [← e.eval program n]
  | .exprs es => Expr.evalAll program n es
  | .stmt s => do return (← s.exec program n).values
  | .stmts body => do return (← Stmt.execAll program n body).values
  | .loop c step body => do return (← Stmt.repeat program n c step body).values
  | .main inputs => do return [.int (← program.runMain n inputs)]

end Phrase

namespace Program

/-- A value is met where the execution of a phrase begins or ends, or in a declaration between. -/
inductive Meets (program : Program) : Phrase × State → Value → Prop
  | before {part s v} : v ∈ s.env.values → Meets program (part, s) v
  | declared {part s env x v} : program.Declares (part, s) env x v → Meets program (part, s) v
  | after {part s n t v} : (part.exec program n s).final? = some t → v ∈ t.env.values →
      Meets program (part, s) v
  | yielded {part s n vs t v} : part.exec program n s = .done vs t → v ∈ vs →
      Meets program (part, s) v

/-- A run meets the value: the run itself or a part of it that it leads to, whether it ends or
not. Expressions whose values are assigned, passed, returned or printed are such parts. -/
def RunMeets (program : Program) (inputs : List (String × Value)) (sink : Sink) (v : Value) :
    Prop :=
  ∃ q, Relation.ReflTransGen program.Enters (.main inputs, ⟨.fresh, sink⟩) q ∧ program.Meets q v

theorem Enters.literals {program : Program} (h : program.Enters p q) :
    q.1.literals ⊆ p.1.literals ++ program.literals := by
  cases h with
  | called hg _ => exact List.subset_append_of_subset_right _ (literals_function? hg.1)
  | main hg => exact List.subset_append_of_subset_right _ (literals_function? hg)
  | _ =>
    simp only [Phrase.literals, Expr.literals, Expr.literalsAll, Expr.literalsIfAny, Stmt.literals,
      Stmt.literalsAll, Stmt.literalsIfAny]
    grind

end Program

end MiniC
