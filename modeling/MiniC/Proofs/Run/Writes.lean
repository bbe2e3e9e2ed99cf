import MiniC.Proofs.Run.Shadow

/-!
# What is written

A phrase changes no variables but those whose names it writes: that it assigns, steps or declares
(`Program.keeps_unwritten`). This is told from the text of the phrase alone; the functions that it
calls write what they like, for they have frames of their own.

What is shown by following a run is more general. If a relation between environments is kept by
writing the names that a phrase may write, then the phrase keeps it (`Program.keepsWithin`).
-/

namespace MiniC

-- ---------------------------------------------------------------------------
-- Names
-- ---------------------------------------------------------------------------

mutual

def Expr.writes : Expr → List String
  | .literal _ => []
  | .var _ => []
  | .binary _ left right => left.writes ++ right.writes
  | .unary .increment _ (.var x) => [x]
  | .unary .decrement _ (.var x) => [x]
  | .unary _ _ e => e.writes
  | .assign x e => x :: e.writes
  | .call _ args => Expr.writesAll args

def Expr.writesAll : List Expr → List String
  | [] => []
  | e :: es => e.writes ++ Expr.writesAll es

end

def Expr.writesIfAny : Option Expr → List String
  | none => []
  | some e => e.writes

mutual

def Stmt.writes : Stmt → List String
  | .expr e => e.writes
  | .decl d => d.name :: Expr.writesIfAny d.init
  | .block body => Stmt.writesAll body
  | .ifElse c yes none => c.writes ++ yes.writes
  | .ifElse c yes (some no) => c.writes ++ (yes.writes ++ no.writes)
  | .whileLoop c body => c.writes ++ body.writes
  | .forLoop none c step body => c.writes ++ (Expr.writesIfAny step ++ body.writes)
  | .forLoop (some init) c step body =>
    init.writes ++ (c.writes ++ (Expr.writesIfAny step ++ body.writes))
  | .ret value => Expr.writesIfAny value
  | .print e => e.writes

def Stmt.writesAll : List Stmt → List String
  | [] => []
  | s :: rest => s.writes ++ Stmt.writesAll rest

end

-- ---------------------------------------------------------------------------
-- Environments
-- ---------------------------------------------------------------------------

namespace Environment

variable {env env' : Environment}

/-- Writing the names that may be written keeps the relation, and so does a scope in which nothing
else is written. -/
structure Confines (may : String → Prop) (R : Environment → Environment → Prop) : Prop where
  assign : ∀ {x v env env'}, may x → env.assign? x v = some env' → R env env'
  define : ∀ {x} v env, may x → R env (env.define x v)
  scope : ∀ {env env'}, R env.pushScope env' → R env env'.popScope

theorem entries_assign? (h : env.assign? name value = some env') (hx : name ≠ x) :
    env'.entries x = env.entries x := by
  unfold assign? at h
  split at h
  next => cases h
  next frame callers henv =>
    obtain ⟨after, hafter, rfl⟩ := Option.map_eq_some_iff.1 h
    simp only [entries, henv, List.map_cons, Frame.entries_assign? hafter hx.symm]

theorem entries_define (env : Environment) (value : Value) (hx : name ≠ x) :
    (env.define name value).entries x = env.entries x := by
  unfold define modifyFrame
  split
  next => rfl
  next frame callers henv =>
    cases frame with
    | nil => simp [entries, henv, Frame.define]
    | cons scope outer => simp [entries, henv, Frame.define, Frame.entries, hx.symm]

theorem popScope_pushScope (env : Environment) : env.pushScope.popScope = env := by
  unfold pushScope modifyFrame
  split
  next h => simp [popScope, modifyFrame, h]
  next h => simp [popScope, modifyFrame, ← h]

theorem entries_popScope (h : env'.entries x = env.entries x) :
    env'.popScope.entries x = env.popScope.entries x := by
  obtain ⟨frames⟩ := env
  obtain ⟨frames'⟩ := env'
  simp only [entries] at h
  cases frames <;> cases frames' <;>
    simp_all [entries, popScope, modifyFrame, Frame.entries, List.map_tail]

def SameEntries (x : String) (env env' : Environment) : Prop :=
  env'.entries x = env.entries x

instance : Std.Refl (SameEntries x) where
  refl _ := rfl

instance : Trans (SameEntries x) (SameEntries x) (SameEntries x) where
  trans h h' := Eq.trans h' h

theorem confines_sameEntries (x : String) : Confines (· ≠ x) (SameEntries x) where
  assign hx h := entries_assign? h hx
  define v env hx := env.entries_define v hx
  scope {env env'} h := (entries_popScope h).trans (by rw [popScope_pushScope])

theorem confines_eq : Confines (fun _ => False) Eq where
  assign h := h.elim
  define _ _ h := h.elim
  scope {env env'} h := by rw [← h, popScope_pushScope]

end Environment

-- ---------------------------------------------------------------------------
-- Runs
-- ---------------------------------------------------------------------------

abbrev AllMay (may : String → Prop) (names : List String) : Prop :=
  ∀ x ∈ names, may x

theorem allMay_append {may : String → Prop} :
    AllMay may (left ++ right) ↔ AllMay may left ∧ AllMay may right :=
  List.forall_mem_append

namespace Program

variable {program : Program} {may : String → Prop} {R : Environment → Environment → Prop} {n : Nat}

structure KeepsWithin (program : Program) (may : String → Prop)
    (R : Environment → Environment → Prop) (n : Nat) : Prop where
  eval : ∀ {e : Expr}, AllMay may e.writes → (e.eval program n).Keeps R
  evalAll : ∀ {es}, AllMay may (Expr.writesAll es) → (Expr.evalAll program n es).Keeps R
  evalCall : ∀ {f args}, AllMay may (Expr.writesAll args) →
    (Expr.evalCall program n f args).Keeps R
  evalOr : ∀ {e}, AllMay may (Expr.writesIfAny e) → (Expr.evalOr program n e).Keeps R
  exec : ∀ {s : Stmt}, AllMay may s.writes → (s.exec program n).Keeps R
  execAll : ∀ {body}, AllMay may (Stmt.writesAll body) → (Stmt.execAll program n body).Keeps R
  repeat_ : ∀ {c : Expr} {step} {body : Stmt}, AllMay may c.writes →
    AllMay may (Expr.writesIfAny step) → AllMay may body.writes →
    (Stmt.repeat program n c step body).Keeps R

section

variable (hR : Environment.Confines may R)

include hR

theorem keeps_step [Std.Refl R] [Trans R R R] (op : BinaryOp) (side : Side) (hx : may x) :
    (Exec.step op side x).Keeps R := by
  rw [Exec.step_eq]
  exact .bind (.lookup x) fun _ => .bind (.ofExcept _) fun _ =>
    .bind (.assign fun _ _ => hR.assign hx) fun _ => .pure _

theorem keeps_inScope {m : Exec α} (hm : m.Keeps R) : (Exec.inScope m).Keeps R :=
  .bracket hm fun _ _ => hR.scope

end

namespace KeepsWithin

variable [Std.Refl R] [Trans R R R] (h : program.KeepsWithin may R n)

include h

theorem evalAll_succ {es : List Expr} (hes : AllMay may (Expr.writesAll es)) :
    (Expr.evalAll program (n + 1) es).Keeps R := by
  cases es with
  | nil => exact .pure []
  | cons e es =>
    obtain ⟨he, hrest⟩ := allMay_append.1 hes
    exact .bind (h.eval he) fun _ => .bind (h.evalAll hrest) fun _ => .pure _

theorem evalCall_succ {f : String} {args : List Expr} (hargs : AllMay may (Expr.writesAll args)) :
    (Expr.evalCall program (n + 1) f args).Keeps R := by
  rw [Expr.evalCall]
  split
  · exact .fail _
  next g _ =>
    split
    · exact .fail _
    · refine .bind (h.evalAll hargs) fun values => ?_
      refine (Exec.keeps_inFrame ((program.keepsNames n).applyTo g values)).mono ?_
      rintro env _ rfl
      exact Std.Refl.refl env

omit [Trans R R R] in
theorem evalOr_succ {e : Option Expr} (he : AllMay may (Expr.writesIfAny e)) :
    (Expr.evalOr program (n + 1) e).Keeps R := by
  cases e with
  | none => exact .pure _
  | some e => exact h.eval he

theorem execAll_succ {body : List Stmt} (hbody : AllMay may (Stmt.writesAll body)) :
    (Stmt.execAll program (n + 1) body).Keeps R := by
  cases body with
  | nil => exact .pure _
  | cons s rest =>
    obtain ⟨hs, hrest⟩ := allMay_append.1 hbody
    refine .bind (h.exec hs) fun flow => ?_
    cases flow with
    | normal => exact h.execAll hrest
    | returned v => exact .pure _

theorem repeat_succ {c : Expr} {step : Option Expr} {body : Stmt} (hc : AllMay may c.writes)
    (hstep : AllMay may (Expr.writesIfAny step)) (hbody : AllMay may body.writes) :
    (Stmt.repeat program (n + 1) c step body).Keeps R := by
  refine .bind (h.eval hc) fun v => ?_
  split
  · refine .bind (h.exec hbody) fun flow => ?_
    cases flow with
    | normal => exact .bind (h.evalOr hstep) fun _ => h.repeat_ hc hstep hbody
    | returned v => exact .pure _
  · exact .pure _

variable (hR : Environment.Confines may R)

include hR

theorem eval_succ {e : Expr} (he : AllMay may e.writes) : (e.eval program (n + 1)).Keeps R := by
  cases e with
  | literal v => exact .pure v
  | var x => exact .lookup x
  | binary op left right =>
    obtain ⟨hleft, hright⟩ := allMay_append.1 he
    exact .bind (h.eval hleft) fun _ => .bind (h.eval hright) fun _ => .ofExcept _
  | unary op side operand =>
    cases op with
    | negate => exact .bind (h.eval he) fun _ => .ofExcept _
    | not => exact .bind (h.eval he) fun _ => .pure _
    | increment =>
      cases operand with
      | var x => exact keeps_step hR .add side (he x List.mem_cons_self)
      | _ => exact .fail _
    | decrement =>
      cases operand with
      | var x => exact keeps_step hR .sub side (he x List.mem_cons_self)
      | _ => exact .fail _
  | assign x e =>
    obtain ⟨hx, he⟩ := List.forall_mem_cons.1 he
    exact .bind (h.eval he) fun v => .bind (.assign fun _ _ => hR.assign hx) fun _ => .pure v
  | call f args => exact h.evalCall he

theorem exec_succ {s : Stmt} (hs : AllMay may s.writes) : (s.exec program (n + 1)).Keeps R := by
  cases s with
  | expr e => exact .bind (h.eval hs) fun _ => .pure _
  | decl d =>
    obtain ⟨hname, hinit⟩ := List.forall_mem_cons.1 hs
    exact .bind (h.evalOr hinit) fun v =>
      .bind (.modifyEnv fun env => hR.define v env hname) fun _ => .pure _
  | block body => exact keeps_inScope hR (h.execAll hs)
  | ifElse condition yes no =>
    cases no with
    | none =>
      obtain ⟨hc, hyes⟩ := allMay_append.1 hs
      refine .bind (h.eval hc) fun v => ?_
      split
      · exact h.exec hyes
      · exact .pure _
    | some no =>
      obtain ⟨hc, hbranches⟩ := allMay_append.1 hs
      obtain ⟨hyes, hno⟩ := allMay_append.1 hbranches
      refine .bind (h.eval hc) fun v => ?_
      split
      · exact h.exec hyes
      · exact h.exec hno
  | whileLoop condition body =>
    obtain ⟨hc, hbody⟩ := allMay_append.1 hs
    exact h.repeat_ hc nofun hbody
  | forLoop init condition step body =>
    cases init with
    | none =>
      obtain ⟨hc, hrest⟩ := allMay_append.1 hs
      obtain ⟨hstep, hbody⟩ := allMay_append.1 hrest
      exact keeps_inScope hR (.bind (.pure ()) fun _ => h.repeat_ hc hstep hbody)
    | some init =>
      obtain ⟨hinit, hrest⟩ := allMay_append.1 hs
      obtain ⟨hc, hrest⟩ := allMay_append.1 hrest
      obtain ⟨hstep, hbody⟩ := allMay_append.1 hrest
      exact keeps_inScope hR (.bind (h.exec hinit) fun _ => h.repeat_ hc hstep hbody)
  | ret value => exact .bind (h.evalOr hs) fun _ => .pure _
  | print e => exact .bind (h.eval hs) fun v => .bind (.printLine v) fun _ => .pure _

end KeepsWithin

theorem keepsWithin [Std.Refl R] [Trans R R R] (hR : Environment.Confines may R)
    (program : Program) (n : Nat) : program.KeepsWithin may R n := by
  induction n with
  | zero =>
    exact ⟨fun _ => .unfinished, fun _ => .unfinished, fun _ => .unfinished, fun _ => .unfinished,
      fun _ => .unfinished, fun _ => .unfinished, fun _ _ _ => .unfinished⟩
  | succ n ih =>
    exact ⟨ih.eval_succ hR, ih.evalAll_succ, ih.evalCall_succ, ih.evalOr_succ, ih.exec_succ hR,
      ih.execAll_succ, ih.repeat_succ⟩

/-- An expression that writes nothing and calls nothing has a value and no effect. -/
theorem eval_without_effect {e : Expr} (hwrites : e.writes = []) (hcalls : e.calls = []) (n : Nat)
    (s : State) : (e.eval program n).Ends s (fun _ t => t = s) fun _ t => t = s := by
  induction n generalizing e with
  | zero => exact .unfinished
  | succ n ih =>
    have hexcept {α : Type} (x : Except Fault α) :
        (Exec.ofExcept x).Ends s (fun _ t => t = s) fun _ t => t = s := by
      cases x <;> rfl
    cases e with
    | literal v => exact .pure rfl
    | var x =>
      unfold Expr.eval Exec.Ends Exec.lookup
      cases s.env.get? x <;> rfl
    | binary op left right =>
      obtain ⟨hleft, hright⟩ := List.append_eq_nil_iff.1 hwrites
      obtain ⟨kleft, kright⟩ := List.append_eq_nil_iff.1 hcalls
      refine (ih hleft kleft).bind ?_
      rintro a _ rfl
      refine (ih hright kright).bind ?_
      rintro b _ rfl
      exact hexcept _
    | unary op side operand =>
      cases op with
      | negate =>
        refine (ih (e := operand) hwrites hcalls).bind ?_
        rintro a _ rfl
        exact hexcept _
      | not =>
        refine (ih (e := operand) hwrites hcalls).bind ?_
        rintro a _ rfl
        exact .pure rfl
      | increment =>
        cases operand with
        | var x => cases hwrites
        | _ => exact .fail (E := fun _ t => t = s) rfl
      | decrement =>
        cases operand with
        | var x => cases hwrites
        | _ => exact .fail (E := fun _ t => t = s) rfl
    | assign x e => cases hwrites
    | call f args => cases hcalls

/-- However an expression or a statement ends, every scope has the entries that it had for the names
that are not written in it, and no others. An expression in which none is written leaves all
variables as they were, and the output too if it calls nothing. For a call, all that counts is what
its arguments write. -/
theorem keeps_unwritten (program : Program) (s t : State) :
    (∀ n (e : Expr), (e.eval program n s).final? = some t →
      (∀ x, x ∉ e.writes → t.env.entries x = s.env.entries x) ∧
        (e.writes = [] → t.env = s.env ∧ (e.calls = [] → t = s))) ∧
    (∀ n (c : Stmt), (c.exec program n s).final? = some t →
      ∀ x, x ∉ c.writes → t.env.entries x = s.env.entries x) ∧
    ∀ n f args, ((Expr.call f args).eval program n s).final? = some t →
      ∀ x, x ∉ Expr.writesAll args → t.env.entries x = s.env.entries x := by
  have hentries (x : String) (n : Nat) := keepsWithin (Environment.confines_sameEntries x) program n
  have hall {names : List String} {x : String} (hx : x ∉ names) : AllMay (· ≠ x) names :=
    fun y hy hyx => hx (hyx ▸ hy)
  refine ⟨fun n e ht => ⟨fun x hx => ?_, fun hwrites => ⟨?_, fun hcalls => ?_⟩⟩,
    fun n c ht x hx => ?_, fun n f args ht x hx => ?_⟩
  · exact ((hentries x n).eval (hall hx)).final ht
  · have hnone : AllMay (fun _ => False) e.writes := by
      rw [hwrites]
      exact nofun
    exact (((keepsWithin Environment.confines_eq program n).eval hnone).final ht).symm
  · exact Exec.Ends.final (P := (· = s)) (eval_without_effect hwrites hcalls n s) ht
  · exact ((hentries x n).exec (hall hx)).final ht
  · exact ((hentries x n).eval (e := .call f args) (hall hx)).final ht

/-- `while (1) y = f(y = 1);` with `int f(int n) { int x = n; x = 7; if (n) return f(n - 1); return
1 / n; }` fails two calls deep. Of the variables outside, only `y` has changed, and only by the
argument. -/
theorem keeps_unwritten_failure :
    let f : Function := ⟨.int, "f", [⟨.int, "n", none⟩],
      [.decl ⟨.int, "x", some (.var "n")⟩, .expr (.assign "x" (.literal (.int 7))),
        .ifElse (.var "n")
          (.ret (some (.call "f" [.binary .sub (.var "n") (.literal (.int 1))]))) none,
        .ret (some (.binary .div (.literal (.int 1)) (.var "n")))]⟩
    let program : Program := ⟨[f], []⟩
    let c : Stmt := .whileLoop (.literal (.int 1))
      (.expr (.assign "y" (.call "f" [.assign "y" (.literal (.int 1))])))
    let s : State := ⟨⟨[[⟨[("y", .int 0)]⟩, ⟨[("x", .int 3)]⟩]]⟩, .unlimited⟩
    let t : State := ⟨⟨[[⟨[("y", .int 1)]⟩, ⟨[("x", .int 3)]⟩]]⟩, .unlimited⟩
    c.exec program 40 s = .failed .divisionByZero t ∧ c.writes = ["y", "y"] ∧
      t.env.entries "x" = s.env.entries "x" := by
  intro f program c s t
  have hfails : c.exec program 40 s = .failed .divisionByZero t := rfl
  have hfinal : (c.exec program 40 s).final? = some t := by
    rw [hfails]
    rfl
  exact ⟨hfails, rfl, (keeps_unwritten program s t).2.1 40 c hfinal "x" (by decide)⟩

end Program

end MiniC
