import MiniC.Proofs.Grammar.Render
import MiniC.Proofs.Run.EmptyScope

/-!
# `for` loops as `while` loops

A `for` loop does what a `while` loop does in a block behind its initializer, with a body that ends
with the step (`Program.exec_forLoop`).

The body and the step of the `while` loop stand in a block of their own, the scope of which binds
nothing: the body is a block as well, and a step declares nothing. So it makes no difference, and
what is left to compare are two loops that spend fuel in different places.
-/

namespace MiniC

namespace Stmt

def ofStep : Option Expr → List Stmt
  | none => []
  | some e => [.expr e]

def round (step : Option Expr) (body : Stmt) : Stmt :=
  .block (body :: ofStep step)

/-- A `while` loop behind an initializer, in a block around both. -/
def whileOf (init : Option Stmt) (condition : Expr) (step : Option Expr) (body : Stmt) : Stmt :=
  .block (init.toList ++ [.whileLoop condition (round step body)])

end Stmt

-- ---------------------------------------------------------------------------
-- Rounds
-- ---------------------------------------------------------------------------

namespace Program

variable {program : Program} {step : Option Expr} {body : Stmt} {stmts : List Stmt}

theorem unseen_block (program : Program) (n : Nat) (stmts : List Stmt) (k : Nat) :
    (Stmt.exec program n (.block stmts)).Unseen k (Stmt.exec program n (.block stmts)) := by
  cases n with
  | zero => exact .unfinished
  | succ n => exact .inScope (((program.unseen n).execAll stmts).2 k)

theorem unseen_expr (program : Program) (n : Nat) (e : Expr) (k : Nat) :
    (Stmt.exec program n (.expr e)).Unseen k (Stmt.exec program n (.expr e)) := by
  cases n with
  | zero => exact .unfinished
  | succ n => exact .bind (((program.unseen n).eval e).2 k) fun _ => .pure _

theorem unseen_execAll {body : List Stmt}
    (h : ∀ c ∈ body, ∀ n, (c.exec program n).Unseen k (c.exec program n)) (n : Nat) :
    (Stmt.execAll program n body).Unseen k (Stmt.execAll program n body) := by
  induction n generalizing body with
  | zero => exact .unfinished
  | succ n ih =>
    cases body with
    | nil => exact .pure _
    | cons c rest =>
      obtain ⟨hc, hrest⟩ := List.forall_mem_cons.1 h
      rw [Stmt.execAll]
      refine .bind (hc n) fun flow => ?_
      cases flow with
      | normal => exact ih hrest
      | returned v => exact .pure _

/-- The block around the body and the step of a round adds no scope that anything sees. -/
theorem exec_round (program : Program) (n : Nat) (step : Option Expr) (stmts : List Stmt) :
    (Stmt.round step (.block stmts)).exec program (n + 1) =
      Stmt.execAll program n (.block stmts :: Stmt.ofStep step) := by
  refine Exec.inScope_eq (unseen_execAll (List.forall_mem_cons.2 ⟨?_, ?_⟩) n)
  · exact fun n => program.unseen_block n stmts 0
  · cases step with
    | none => exact List.forall_mem_nil _
    | some e => exact List.forall_mem_singleton.2 fun n => program.unseen_expr n e 0

-- ---------------------------------------------------------------------------
-- Fuel
-- ---------------------------------------------------------------------------

theorem evalOr_grows_execAll (program : Program) (step : Option Expr) (n : Nat) :
    (Expr.evalOr program n step >>= fun _ => pure Flow.normal).Grows
      (Stmt.execAll program (n + 2) (Stmt.ofStep step)) := by
  cases n with
  | zero => exact .of_unfinished
  | succ n =>
    cases step with
    | none => exact .rfl
    | some e =>
      simp only [Stmt.ofStep, Stmt.execAll, Stmt.exec, bind_assoc]
      exact ((program.grows (Nat.le_succ n)).eval e).bind fun _ => .rfl

theorem execAll_grows_evalOr (program : Program) (step : Option Expr) {n k : Nat} (h : n ≤ k) :
    (Stmt.execAll program n (Stmt.ofStep step)).Grows
      (Expr.evalOr program k step >>= fun _ => pure Flow.normal) := by
  rcases n with _ | n
  · exact .of_unfinished
  · obtain ⟨k, rfl⟩ := Nat.exists_eq_add_of_lt h
    cases step with
    | none => exact .rfl
    | some e =>
      cases n with
      | zero => exact .of_unfinished
      | succ n =>
        simp only [Stmt.ofStep, Stmt.execAll, Stmt.exec, Expr.evalOr, bind_assoc]
        exact ((program.grows (by omega)).eval e).bind fun _ => .rfl

def execRound (program : Program) (n : Nat) (step : Option Expr) (body : Stmt) : Exec Flow := do
  match ← body.exec program n with
  | .returned v => return .returned v
  | .normal =>
    let _ ← Expr.evalOr program n step
    return .normal

theorem repeat_eq_execRound (program : Program) (n : Nat) (c : Expr) (step : Option Expr)
    (body : Stmt) : Stmt.repeat program (n + 1) c step body = (do
      let v ← c.eval program n
      if v.truthy then
        match ← program.execRound n step body with
        | .returned v => return .returned v
        | .normal => Stmt.repeat program n c step body
      else return .normal) := by
  simp only [Stmt.repeat, execRound, bind_assoc]
  congr 1
  funext v
  split
  · congr 1
    funext flow
    cases flow with
    | normal => simp only [bind_assoc, pure_bind]
    | returned v => rfl
  · rfl

theorem execRound_grows (program : Program) (n : Nat) (step : Option Expr) (stmts : List Stmt) :
    (program.execRound n step (.block stmts)).Grows
      ((Stmt.round step (.block stmts)).exec program (n + 4)) := by
  rw [exec_round, Stmt.execAll, execRound]
  refine ((program.grows (by omega)).exec _).bind fun flow => ?_
  cases flow with
  | normal => exact program.evalOr_grows_execAll step n
  | returned v => exact .rfl

theorem exec_round_grows (program : Program) (n : Nat) (step : Option Expr) (stmts : List Stmt) :
    ((Stmt.round step (.block stmts)).exec program n).Grows
      (program.execRound n step (.block stmts)) := by
  rcases n with _ | _ | n
  · exact .of_unfinished
  · rw [exec_round]
    exact .of_unfinished
  · rw [exec_round, Stmt.execAll, execRound]
    refine ((program.grows (by omega)).exec _).bind fun flow => ?_
    cases flow with
    | normal => exact program.execAll_grows_evalOr step (by omega)
    | returned v => exact .rfl

-- ---------------------------------------------------------------------------
-- Loops
-- ---------------------------------------------------------------------------

variable {c : Expr}

theorem repeat_grows_round (n : Nat) :
    (Stmt.repeat program n c step (.block stmts)).Grows
      (Stmt.repeat program (n + 4) c none (Stmt.round step (.block stmts))) := by
  induction n with
  | zero => exact .of_unfinished
  | succ n ih =>
    rw [repeat_eq_execRound, Stmt.repeat]
    refine ((program.grows (by omega)).eval c).bind fun v => ?_
    split
    · refine (program.execRound_grows n step stmts).bind fun flow => ?_
      cases flow with
      | normal => exact ih
      | returned v => exact .rfl
    · exact .rfl

theorem round_grows_repeat (n : Nat) :
    (Stmt.repeat program n c none (Stmt.round step (.block stmts))).Grows
      (Stmt.repeat program n c step (.block stmts)) := by
  induction n with
  | zero => exact .of_unfinished
  | succ n ih =>
    rw [repeat_eq_execRound program n c step, Stmt.repeat]
    refine Exec.Grows.rfl.bind fun v => ?_
    split
    · refine (program.exec_round_grows n step stmts).bind fun flow => ?_
      cases flow with
      | returned v => exact .rfl
      | normal =>
        cases n with
        | zero => exact .of_unfinished
        | succ n => exact ih
    · exact .rfl

/-- Nothing goes on behind an initializer but what follows it. -/
theorem initializer_grows {init : Stmt} (hinit : init.Initializes) {n k : Nat} (h : n ≤ k)
    {second second' : Flow → Exec Flow} (hsecond : (second .normal).Grows (second' .normal)) :
    (init.exec program n >>= second).Grows (init.exec program k >>= second') := by
  rcases n with _ | n
  · exact .of_unfinished
  · obtain ⟨d, rfl⟩ := Nat.exists_eq_add_of_lt h
    have hgrows := program.grows (n := n) (k := n + d) (by omega)
    cases init with
    | decl d =>
      simp only [Stmt.exec, bind_assoc, pure_bind]
      exact (hgrows.evalOr _).bind fun v => Exec.Grows.rfl.bind fun _ => hsecond
    | expr e =>
      simp only [Stmt.exec, bind_assoc, pure_bind]
      exact (hgrows.eval e).bind fun _ => hsecond
    | _ => exact hinit.elim

theorem execAll_whileLoop (program : Program) (n : Nat) (c : Expr) (body : Stmt) :
    Stmt.execAll program (n + 2) [.whileLoop c body] = Stmt.repeat program n c none body := by
  rw [Stmt.execAll, Stmt.exec]
  refine Eq.trans (congrArg (_ >>= ·) ?_) (bind_pure _)
  funext flow
  cases flow <;> rfl

theorem forLoop_grows_whileOf {init : Option Stmt} (hinit : ∀ i, init = some i → i.Initializes)
    (n : Nat) : (Stmt.exec program n (.forLoop init c step (.block stmts))).Grows
      ((Stmt.whileOf init c step (.block stmts)).exec program (n + 7)) := by
  cases n with
  | zero => exact .of_unfinished
  | succ n =>
    -- the `while` loop is one of a list of statements, which takes two units more
    have hloop (k : Nat) (h : n + 4 ≤ k) : (Stmt.repeat program n c step (.block stmts)).Grows
        (Stmt.execAll program (k + 2) [.whileLoop c (Stmt.round step (.block stmts))]) := by
      rw [execAll_whileLoop]
      exact (repeat_grows_round n).trans ((program.grows h).repeat_ _ _ _)
    cases init with
    | none => exact (hloop (n + 5) (by omega)).bracket _ _
    | some init =>
      refine Exec.Grows.bracket ?_ _ _
      exact initializer_grows (hinit init rfl) (by omega) (hloop (n + 4) (Nat.le_refl _))

theorem whileOf_grows_forLoop {init : Option Stmt} (hinit : ∀ i, init = some i → i.Initializes)
    (n : Nat) : ((Stmt.whileOf init c step (.block stmts)).exec program n).Grows
      (Stmt.exec program (n + 1) (.forLoop init c step (.block stmts))) := by
  cases n with
  | zero => exact .of_unfinished
  | succ n =>
    have hloop (k : Nat) (h : k ≤ n + 1) :
        (Stmt.execAll program k [.whileLoop c (Stmt.round step (.block stmts))]).Grows
          (Stmt.repeat program (n + 1) c step (.block stmts)) := by
      rcases k with _ | _ | k
      · exact .of_unfinished
      · exact .of_unfinished
      · rw [execAll_whileLoop]
        exact (round_grows_repeat k).trans ((program.grows (by omega)).repeat_ _ _ _)
    cases init with
    | none => exact (hloop n (by omega)).bracket _ _
    | some init =>
      refine Exec.Grows.bracket ?_ _ _
      cases n with
      | zero => exact .of_unfinished
      | succ n => exact initializer_grows (hinit init rfl) (by omega) (hloop n (by omega))

/-- A `for` loop with a block for its body comes to the same ends as the `while` loop that it stands
for, with the same variables and output behind them, and where one has no end neither has the
other. -/
theorem exec_forLoop {init : Option Stmt} (hinit : ∀ i, init = some i → i.Initializes) (c : Expr)
    (step : Option Expr) (stmts : List Stmt) (s : State) (o : Outcome Flow) :
    Exec.Settles (Stmt.exec program · (.forLoop init c step (.block stmts))) s o ↔
      Exec.Settles ((Stmt.whileOf init c step (.block stmts)).exec program ·) s o :=
  ⟨fun h => h.of_grows fun n => ⟨n + 7, forLoop_grows_whileOf hinit n⟩,
    fun h => h.of_grows fun n => ⟨n + 1, whileOf_grows_forLoop hinit n⟩⟩

/-- `for (int i = 0; i < 9; i++) { int k = i; total = total + k; if (i == 2) return total; }`
returns in its third round, and the step is not taken again. -/
theorem exec_forLoop_returned :
    let init : Stmt := .decl ⟨.int, "i", some (.literal (.int 0))⟩
    let c : Expr := .binary .less (.var "i") (.literal (.int 9))
    let step : Option Expr := some (.unary .increment .after (.var "i"))
    let stmts : List Stmt := [.decl ⟨.int, "k", some (.var "i")⟩,
      .expr (.assign "total" (.binary .add (.var "total") (.var "k"))),
      .ifElse (.binary .equal (.var "i") (.literal (.int 2))) (.ret (some (.var "total"))) none]
    let program : Program := ⟨[], []⟩
    let s : State := ⟨⟨[[⟨[("total", .int 0)]⟩]]⟩, .unlimited⟩
    let t : State := ⟨⟨[[⟨[("total", .int 3)]⟩]]⟩, .unlimited⟩
    (∀ i, some init = some i → i.Initializes) ∧
      Exec.Settles (Stmt.exec program · (.forLoop init c step (.block stmts))) s
        (.done (.returned (.int 3)) t) ∧
      Exec.Settles ((Stmt.whileOf init c step (.block stmts)).exec program ·) s
        (.done (.returned (.int 3)) t) := by
  intro init c step stmts program s t
  have hinit : ∀ i, some init = some i → i.Initializes := by
    intro i hi
    obtain rfl := Option.some.inj hi
    trivial
  have hloop : Exec.Settles (Stmt.exec program · (.forLoop init c step (.block stmts))) s
      (.done (.returned (.int 3)) t) := ⟨nofun, 30, rfl⟩
  exact ⟨hinit, hloop, (exec_forLoop hinit c step stmts s _).1 hloop⟩

end Program

end MiniC
