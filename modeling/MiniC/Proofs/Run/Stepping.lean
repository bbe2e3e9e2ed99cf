import MiniC.Proofs.Operator.Integers
import MiniC.Run.Eval

/-!
# Stepping a variable

`++x` and `--x` are the assignments `x = x + 1` and `x = x - 1`, with the same value or fault and
the same variables after them, and `x++` and `x--` differ from these only in their value
(`Program.step_assigns`). What is read is what is written: the write of a step finds the binding
that its lookup has found, so no step is lost.

A step that succeeds changes this one binding and no other. It may not change even that one: a real
can be so large that one more makes no difference (`Program.step_absorbed`).
-/

namespace MiniC

-- ---------------------------------------------------------------------------
-- Environments
-- ---------------------------------------------------------------------------

variable {x : String} {old new : Value}

theorem Scope.putIn_append {before : List (String × Value)} (h : x ∉ before.map Prod.fst)
    (behind : List (String × Value)) :
    putIn x new (before ++ (x, old) :: behind) = before ++ (x, new) :: behind := by
  induction before with
  | nil => simp [putIn]
  | cons binding before ih =>
    obtain ⟨y, v⟩ := binding
    obtain ⟨hxy, hbefore⟩ := not_or.1 (mt List.mem_cons.2 h)
    simp [putIn, hxy, ih hbefore]

/-- The binding that is read is the one that is written. -/
theorem Scope.put_of_get? {scope : Scope} (h : scope.get? x = some old) (new : Value) :
    ∃ before behind, scope = ⟨before ++ (x, old) :: behind⟩ ∧
      scope.put x new = ⟨before ++ (x, new) :: behind⟩ ∧ x ∉ before.map Prod.fst := by
  obtain ⟨before, behind, hbindings, hbefore⟩ := List.lookup_eq_some_iff.1 h
  have hnot : x ∉ before.map Prod.fst := by
    intro hmem
    obtain ⟨binding, hbinding, rfl⟩ := List.mem_map.1 hmem
    simpa using hbefore binding hbinding
  obtain ⟨bindings⟩ := scope
  obtain rfl : bindings = _ := hbindings
  exact ⟨before, behind, rfl, congrArg Scope.mk (putIn_append hnot behind), hnot⟩

/-- The frame is left with another value in one binding, the one in the innermost scope that binds
the name. -/
def Frame.Rebinds (x : String) (old new : Value) (frame after : Frame) : Prop :=
  ∃ (inner : Frame) (before behind : List (String × Value)) (outer : Frame),
    frame = inner ++ ⟨before ++ (x, old) :: behind⟩ :: outer ∧
    after = inner ++ ⟨before ++ (x, new) :: behind⟩ :: outer ∧
    (∀ scope ∈ inner, scope.has x = false) ∧ x ∉ before.map Prod.fst

theorem Frame.assign?_of_get? {frame : Frame} (h : frame.get? x = some old) (new : Value) :
    ∃ after, assign? x new frame = some after ∧ frame.Rebinds x old new after := by
  induction frame with
  | nil => cases h
  | cons scope outer ih =>
    rw [get?_cons] at h
    rw [assign?]
    cases hscope : scope.get? x with
    | some v =>
      rw [hscope, Option.some_or] at h
      obtain rfl := Option.some.inj h
      obtain ⟨before, behind, hold, hnew, hbefore⟩ := Scope.put_of_get? hscope new
      refine ⟨scope.put x new :: outer, if_pos (by simp [Scope.has, hscope]), ?_⟩
      exact ⟨[], before, behind, outer, by rw [hold]; rfl, by rw [hnew]; rfl,
        List.forall_mem_nil _, hbefore⟩
    | none =>
      rw [hscope, Option.none_or] at h
      have hhas : scope.has x = false := by simp [Scope.has, hscope]
      obtain ⟨after, hafter, inner, before, behind, rest, hold, hnew, hinner, hbefore⟩ := ih h
      refine ⟨scope :: after, by simp [hhas, hafter], ?_⟩
      exact ⟨scope :: inner, before, behind, rest, by rw [hold]; rfl, by rw [hnew]; rfl,
        List.forall_mem_cons.2 ⟨hhas, hinner⟩, hbefore⟩

theorem Frame.Rebinds.eq_iff {frame after : Frame} (h : frame.Rebinds x old new after) :
    after = frame ↔ new = old := by
  obtain ⟨inner, before, behind, outer, rfl, rfl, -⟩ := h
  simp

namespace Environment

variable {env env' : Environment}

def Rebinds (x : String) (old new : Value) (env env' : Environment) : Prop :=
  ∃ frame after callers, env.frames = frame :: callers ∧ env'.frames = after :: callers ∧
    Frame.Rebinds x old new frame after

theorem assign?_of_get? (h : env.get? x = some old) (new : Value) :
    ∃ env', env.assign? x new = some env' ∧ env.Rebinds x old new env' := by
  obtain ⟨_ | ⟨frame, callers⟩⟩ := env
  · cases h
  · obtain ⟨after, hafter, hrebinds⟩ := Frame.assign?_of_get? h new
    refine ⟨⟨after :: callers⟩, ?_, frame, after, callers, rfl, rfl, hrebinds⟩
    exact congrArg (Option.map _) hafter

theorem Rebinds.eq_iff (h : env.Rebinds x old new env') : env' = env ↔ new = old := by
  obtain ⟨frames⟩ := env
  obtain ⟨frames'⟩ := env'
  obtain ⟨frame, after, callers, rfl, rfl, hframe⟩ := h
  simpa using hframe.eq_iff

theorem get?_of_assign? (h : env.assign? x new = some env') (y : String) :
    env'.get? y = if y = x then some new else env.get? y := by
  obtain ⟨_ | ⟨frame, callers⟩⟩ := env
  · cases h
  · obtain ⟨after, hafter, rfl⟩ := Option.map_eq_some_iff.1 h
    exact Frame.get?_of_assign? hafter y

end Environment

-- ---------------------------------------------------------------------------
-- One more and one less
-- ---------------------------------------------------------------------------

theorem Exact.ne {c : Calculation} {result : Int} {a : Int64} (h : Exact (.ok new) c result)
    (ha : old.integer? = some a) (hresult : result ≠ a.toInt) : new ≠ old := by
  rintro rfl
  by_cases hfits : Fits result
  · obtain ⟨r, hr, heq⟩ := h.1 hfits
    cases heq
    cases ha
    exact hresult hr.symm
  · cases h.2 hfits

theorem UnaryOp.step?_cases {op : UnaryOp} {base : BinaryOp} (h : op.step? = some base) :
    op = .increment ∧ base = .add ∨ op = .decrement ∧ base = .sub := by
  cases op with
  | increment => exact .inl ⟨rfl, (Option.some.inj h).symm⟩
  | decrement => exact .inr ⟨rfl, (Option.some.inj h).symm⟩
  | _ => cases h

/-- Only a real can be what it was when one has been added or subtracted. -/
theorem UnaryOp.step_ne {op : UnaryOp} {base : BinaryOp} (hop : op.step? = some base)
    (h : base.apply old (.int 1) = .ok new) (hreal : old.kind ≠ .real) : new ≠ old := by
  obtain ⟨meaning, hmeaning, hdivides, hne⟩ : ∃ meaning, base.meaning? = some meaning ∧
      ¬base.Divides ∧ ∀ m, meaning m 1 ≠ m := by
    obtain ⟨-, rfl⟩ | ⟨-, rfl⟩ := step?_cases hop
    · exact ⟨_, rfl, id, fun m => by omega⟩
    · exact ⟨_, rfl, id, fun m => by omega⟩
  have hone : (Value.int 1).integer? = some 1 := rfl
  have hinteger {a : Int64} (ha : old.integer? = some a) : new ≠ old := by
    have hexact := BinaryOp.exact_apply hmeaning ha hone fun hdiv => absurd hdiv hdivides
    rw [h] at hexact
    exact hexact.ne ha (hne _)
  cases old with
  | int a => exact hinteger rfl
  | bool b => exact hinteger rfl
  | real r => exact absurd rfl hreal
  | str s => obtain ⟨-, rfl⟩ | ⟨-, rfl⟩ := step?_cases hop <;> cases h

-- ---------------------------------------------------------------------------
-- Steps
-- ---------------------------------------------------------------------------

namespace Exec

/-- A step fails as its lookup or its calculation does and leaves the state as it was. Otherwise its
write finds the binding that has been read. -/
theorem step_cases (base : BinaryOp) (x : String) (s : State) :
    (∃ fault, (s.env.get? x = none ∧ fault = .unknownVariable x ∨
        ∃ old, s.env.get? x = some old ∧ base.apply old (.int 1) = .error fault) ∧
      ∀ side, step base side x s = .failed fault s) ∨
    ∃ old new env, s.env.get? x = some old ∧ base.apply old (.int 1) = .ok new ∧
      s.env.assign? x new = some env ∧ s.env.Rebinds x old new env ∧
      step base .before x s = .done new { s with env := env } ∧
      step base .after x s = .done old { s with env := env } := by
  cases hget : s.env.get? x with
  | none =>
    have hlookup : lookup x s = .failed (.unknownVariable x) s := by rw [lookup, hget]
    exact .inl ⟨_, .inl ⟨rfl, rfl⟩, fun side => bind_failed hlookup⟩
  | some old =>
    have hlookup : lookup x s = .done old s := by rw [lookup, hget]
    cases happly : base.apply old (.int 1) with
    | error fault =>
      refine .inl ⟨fault, .inr ⟨old, rfl, happly⟩, fun side => ?_⟩
      rw [step, bind_done hlookup, happly]
      rfl
    | ok new =>
      obtain ⟨env, hassign, hrebinds⟩ := Environment.assign?_of_get? hget new
      have hwrite : modifyEnv (fun env => (env.assign? x new).getD env) s =
          .done () { s with env := env } := by rw [modifyEnv, hassign, Option.getD_some]
      have hcalculated : ofExcept (.ok new) s = .done new s := rfl
      refine .inr ⟨old, new, env, rfl, happly, hassign, hrebinds, ?_, ?_⟩
      · rw [step, bind_done hlookup, happly, bind_done hcalculated, bind_done hwrite]
        rfl
      · rw [step, bind_done hlookup, happly, bind_done hcalculated, bind_done hwrite]
        rfl

end Exec

namespace Program

theorem eval_assign_one (program : Program) (base : BinaryOp) (x : String) (n : Nat) :
    (Expr.assign x (.binary base (.var x) (.literal (.int 1)))).eval program (n + 3) =
      Exec.step base .before x := by
  simp only [Expr.eval, Exec.step_eq, bind_assoc, pure_bind]

theorem eval_unary_step {op : UnaryOp} {base : BinaryOp} (hop : op.step? = some base)
    (program : Program) (side : Side) (x : String) (n : Nat) :
    (Expr.unary op side (.var x)).eval program (n + 1) = Exec.step base side x := by
  obtain ⟨rfl, rfl⟩ | ⟨rfl, rfl⟩ := UnaryOp.step?_cases hop <;> rfl

/-- Stepping is assignment: `++x` is `x = x + 1` and `--x` is `x = x - 1`, whatever the variables
are. Both fail alike if `x` is unknown or the calculation fails, and so does the step behind `x`,
and then the state is as it was. Otherwise all three leave the same variables, and the step behind
`x` has its old value. Then no binding has another value but the one that `x` is read from, before
and after, and it has another one unless it holds a real that is too large to change. -/
theorem step_assigns {op : UnaryOp} {base : BinaryOp} (hop : op.step? = some base)
    (program : Program) (x : String) (s : State) (n k : Nat) :
    let before := (Expr.unary op .before (.var x)).eval program (n + 1) s
    let after := (Expr.unary op .after (.var x)).eval program (n + 1) s
    let next : Expr := .binary base (.var x) (.literal (.int 1))
    let assigned := (Expr.assign x next).eval program (k + 3) s
    before = assigned ∧
      ((∃ fault, assigned = .failed fault s ∧ after = .failed fault s ∧
        (s.env.get? x = none ∧ fault = .unknownVariable x ∨
          ∃ old, s.env.get? x = some old ∧ base.apply old (.int 1) = .error fault)) ∨
      ∃ old new env, assigned = .done new { s with env := env } ∧
        after = .done old { s with env := env } ∧ base.apply old (.int 1) = .ok new ∧
        s.env.assign? x new = some env ∧ s.env.Rebinds x old new env ∧
        (env = s.env ↔ new = old) ∧ (new = old → old.kind = .real) ∧
        s.env.get? x = some old ∧ env.get? x = some new ∧
        ∀ y, y ≠ x → env.get? y = s.env.get? y) := by
  intro before after next assigned
  have hbefore : before = Exec.step base .before x s := by
    simp only [before, eval_unary_step hop]
  have hafter : after = Exec.step base .after x s := by
    simp only [after, eval_unary_step hop]
  have hassigned : assigned = Exec.step base .before x s := by
    simp only [assigned, next, eval_assign_one]
  refine ⟨hbefore.trans hassigned.symm, ?_⟩
  obtain ⟨fault, hfault, hstep⟩ | ⟨old, new, env, hget, happly, hassign, hrebinds, hfirst, hlast⟩ :=
    Exec.step_cases base x s
  · exact .inl ⟨fault, hassigned.trans (hstep _), hafter.trans (hstep _), hfault⟩
  · refine .inr ⟨old, new, env, hassigned.trans hfirst, hafter.trans hlast, happly, hassign,
      hrebinds, hrebinds.eq_iff, fun hsame => ?_, hget, ?_, fun y hy => ?_⟩
    · exact Classical.byContradiction fun hreal => UnaryOp.step_ne hop happly hreal hsame
    · simpa using Environment.get?_of_assign? hassign x
    · simpa [hy] using Environment.get?_of_assign? hassign y

/-- `x++` where an inner scope has no `x`, the next has `true` for it, and an outer scope and the
caller have others: the bool becomes an integer, as it does by `x = x + 1`. -/
theorem step_assigns_bool :
    let program : Program := ⟨[], []⟩
    let env (v : Value) : Environment := ⟨[[⟨[("y", .int 5)]⟩, ⟨[("z", .int 6), ("x", v)]⟩,
      ⟨[("x", .int 7)]⟩], [⟨[("x", .str "8")]⟩]]⟩
    let s : State := ⟨env (.bool true), .unlimited⟩
    let t : State := ⟨env (.int 2), .unlimited⟩
    let assigned := (Expr.assign "x" (.binary .add (.var "x") (.literal (.int 1)))).eval program 3 s
    UnaryOp.increment.step? = some .add ∧ assigned = .done (.int 2) t ∧
      (Expr.unary .increment .before (.var "x")).eval program 1 s = assigned ∧
      (Expr.unary .increment .after (.var "x")).eval program 1 s = .done (.bool true) t := by
  intro program env s t assigned
  have hop : UnaryOp.increment.step? = some .add := rfl
  exact ⟨hop, rfl, (step_assigns hop program "x" s 0 0).1, rfl⟩

/-- A step that succeeds may change nothing at all: the next integer is lost in rounding. -/
theorem step_absorbed :
    let s : State := ⟨⟨[[⟨[("x", .real 9007199254740992)]⟩]]⟩, .unlimited⟩
    (Expr.unary .increment .before (.var "x")).eval ⟨[], []⟩ 1 s =
      .done (.real 9007199254740992) s := by
  rfl

end Program

end MiniC
