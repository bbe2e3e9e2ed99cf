import Mathlib.Data.List.Forall2
import MiniC.Proofs.Run.Erase
import MiniC.Proofs.Run.Fuel

/-!
# Programs with other expressions in them

Where expressions are replaced by others that come to the same ends, a run comes to the same ends
(`Program.Rewrites.run`), however many are replaced and wherever they stand. They may take more fuel
or less, so the two runs are not compared for the same amount of it.

Only a variable cannot be replaced, because what `++` and `--` step is told from the text.
-/

namespace MiniC

-- ---------------------------------------------------------------------------
-- Replaced expressions
-- ---------------------------------------------------------------------------

variable {C : Expr → Expr → Prop}

/-- The second expression is the first with some parts replaced, each by one that `C` relates it
to. -/
inductive Expr.Rewrites (C : Expr → Expr → Prop) : Expr → Expr → Prop
  | replaced {e e' : Expr} : C e e' → Rewrites C e e'
  | literal (v : Value) : Rewrites C (.literal v) (.literal v)
  | var (x : String) : Rewrites C (.var x) (.var x)
  | binary (op : BinaryOp) {left left' right right' : Expr} : Rewrites C left left' →
      Rewrites C right right' → Rewrites C (.binary op left right) (.binary op left' right')
  | unary (op : UnaryOp) (side : Side) {e e' : Expr} : Rewrites C e e' →
      Rewrites C (.unary op side e) (.unary op side e')
  | assign (x : String) {e e' : Expr} : Rewrites C e e' →
      Rewrites C (.assign x e) (.assign x e')
  | call (f : String) {args args' : List Expr} : List.Forall₂ (Rewrites C) args args' →
      Rewrites C (.call f args) (.call f args')

inductive Decl.Rewrites (C : Expr → Expr → Prop) : Decl → Decl → Prop
  | mk (type : TypeName) (x : String) {init init' : Option Expr} :
      Option.Rel (Expr.Rewrites C) init init' → Rewrites C ⟨type, x, init⟩ ⟨type, x, init'⟩

inductive Stmt.Rewrites (C : Expr → Expr → Prop) : Stmt → Stmt → Prop
  | expr {e e' : Expr} : e.Rewrites C e' → Rewrites C (.expr e) (.expr e')
  | decl {d d' : Decl} : d.Rewrites C d' → Rewrites C (.decl d) (.decl d')
  | block {body body' : List Stmt} : List.Forall₂ (Rewrites C) body body' →
      Rewrites C (.block body) (.block body')
  | ifElse {c c' : Expr} {yes yes' : Stmt} {no no' : Option Stmt} : c.Rewrites C c' →
      Rewrites C yes yes' → Option.Rel (Rewrites C) no no' →
      Rewrites C (.ifElse c yes no) (.ifElse c' yes' no')
  | whileLoop {c c' : Expr} {body body' : Stmt} : c.Rewrites C c' → Rewrites C body body' →
      Rewrites C (.whileLoop c body) (.whileLoop c' body')
  | forLoop {init init' : Option Stmt} {c c' : Expr} {step step' : Option Expr}
      {body body' : Stmt} : Option.Rel (Rewrites C) init init' → c.Rewrites C c' →
      Option.Rel (Expr.Rewrites C) step step' → Rewrites C body body' →
      Rewrites C (.forLoop init c step body) (.forLoop init' c' step' body')
  | ret {value value' : Option Expr} : Option.Rel (Expr.Rewrites C) value value' →
      Rewrites C (.ret value) (.ret value')
  | print {e e' : Expr} : e.Rewrites C e' → Rewrites C (.print e) (.print e')

inductive Function.Rewrites (C : Expr → Expr → Prop) : Function → Function → Prop
  | mk (type : TypeName) (name : String) {params params' : List Decl} {body body' : List Stmt} :
      List.Forall₂ (Decl.Rewrites C) params params' → List.Forall₂ (Stmt.Rewrites C) body body' →
      Rewrites C ⟨type, name, params, body⟩ ⟨type, name, params', body'⟩

structure Program.Rewrites (C : Expr → Expr → Prop) (p q : Program) : Prop where
  functions : List.Forall₂ (Function.Rewrites C) p.functions q.functions
  globals : List.Forall₂ (Decl.Rewrites C) p.globals q.globals

-- ---------------------------------------------------------------------------
-- Replacing back
-- ---------------------------------------------------------------------------

mutual

theorem Expr.Rewrites.symm {e e' : Expr} : e.Rewrites C e' → e'.Rewrites (flip C) e
  | .replaced h => .replaced h
  | .literal v => .literal v
  | .var x => .var x
  | .binary op hleft hright => .binary op hleft.symm hright.symm
  | .unary op side h => .unary op side h.symm
  | .assign x h => .assign x h.symm
  | .call f hargs => .call f (Expr.rewrites_symm hargs)

theorem Expr.rewrites_symm {es es' : List Expr} :
    List.Forall₂ (Expr.Rewrites C) es es' → List.Forall₂ (Expr.Rewrites (flip C)) es' es
  | .nil => .nil
  | .cons h hes => .cons h.symm (Expr.rewrites_symm hes)

end

theorem Expr.rewritesIfAny_symm {e e' : Option Expr} (h : Option.Rel (Expr.Rewrites C) e e') :
    Option.Rel (Expr.Rewrites (flip C)) e' e := by
  cases h with
  | none => exact .none
  | some h => exact .some h.symm

theorem Decl.Rewrites.symm {d d' : Decl} : d.Rewrites C d' → d'.Rewrites (flip C) d
  | .mk type x hinit => .mk type x (Expr.rewritesIfAny_symm hinit)

theorem Decl.Rewrites.name {d d' : Decl} (h : d.Rewrites C d') : d.name = d'.name := by
  cases h
  rfl

mutual

theorem Stmt.Rewrites.symm {c c' : Stmt} : c.Rewrites C c' → c'.Rewrites (flip C) c
  | .expr h => .expr h.symm
  | .decl h => .decl h.symm
  | .block hbody => .block (Stmt.rewrites_symm hbody)
  | .ifElse hc hyes hno => .ifElse hc.symm hyes.symm (Stmt.rewritesIfAny_symm hno)
  | .whileLoop hc hbody => .whileLoop hc.symm hbody.symm
  | .forLoop hinit hc hstep hbody =>
    .forLoop (Stmt.rewritesIfAny_symm hinit) hc.symm (Expr.rewritesIfAny_symm hstep) hbody.symm
  | .ret h => .ret (Expr.rewritesIfAny_symm h)
  | .print h => .print h.symm

theorem Stmt.rewrites_symm {body body' : List Stmt} :
    List.Forall₂ (Stmt.Rewrites C) body body' → List.Forall₂ (Stmt.Rewrites (flip C)) body' body
  | .nil => .nil
  | .cons h hrest => .cons h.symm (Stmt.rewrites_symm hrest)

theorem Stmt.rewritesIfAny_symm {c c' : Option Stmt} :
    Option.Rel (Stmt.Rewrites C) c c' → Option.Rel (Stmt.Rewrites (flip C)) c' c
  | .none => .none
  | .some h => .some h.symm

end

theorem Function.Rewrites.symm {f f' : Function} : f.Rewrites C f' → f'.Rewrites (flip C) f
  | .mk type name hparams hbody =>
    .mk type name (hparams.flip.imp fun _ _ => Decl.Rewrites.symm) (Stmt.rewrites_symm hbody)

theorem Function.Rewrites.params_name {f f' : Function} (h : f.Rewrites C f') :
    f.params.map Decl.name = f'.params.map Decl.name := by
  cases h with
  | mk type name hparams hbody =>
    rw [← List.forall₂_eq_eq_eq, List.forall₂_map_left_iff, List.forall₂_map_right_iff]
    exact hparams.imp fun d d' hd => hd.name

theorem Function.Rewrites.length_params {f f' : Function} (h : f.Rewrites C f') :
    f.params.length = f'.params.length := by
  simpa using congrArg List.length h.params_name

theorem Function.Rewrites.body {f f' : Function} (h : f.Rewrites C f') :
    List.Forall₂ (Stmt.Rewrites C) f.body f'.body := by
  cases h with
  | mk type name hparams hbody => exact hbody

theorem Function.Rewrites.name {f f' : Function} (h : f.Rewrites C f') : f.name = f'.name := by
  cases h
  rfl

theorem Function.find?_rewrites {fs fs' : List Function} (name : String)
    (h : List.Forall₂ (Function.Rewrites C) fs fs') :
    Option.Rel (Function.Rewrites C) (fs.find? (·.name == name)) (fs'.find? (·.name == name)) := by
  induction h with
  | nil => exact .none
  | cons hf _ ih =>
    rw [List.find?_cons, List.find?_cons, hf.name]
    split
    · exact .some hf
    · exact ih

theorem Program.Rewrites.function? {p q : Program} (h : p.Rewrites C q) (name : String) :
    Option.Rel (Function.Rewrites C) (p.function? name) (q.function? name) :=
  Function.find?_rewrites name h.functions

theorem Program.Rewrites.symm {p q : Program} (h : p.Rewrites C q) : q.Rewrites (flip C) p :=
  ⟨h.functions.flip.imp fun _ _ => Function.Rewrites.symm,
    h.globals.flip.imp fun _ _ => Decl.Rewrites.symm⟩

-- ---------------------------------------------------------------------------
-- Computations
-- ---------------------------------------------------------------------------

namespace Exec

variable {α β : Type} {m : Exec α} {m' : Nat → Exec α} {s : State}

structure Reaches (m : Exec α) (m' : Nat → Exec α) : Prop where
  ascending : Ascending m'
  settles : ∀ s, m s ≠ .unfinished → Settles m' s (m s)

namespace Reaches

theorem const (m : Exec α) : m.Reaches fun _ => m :=
  ⟨.const m, fun _ hs => ⟨hs, 0, rfl⟩⟩

theorem of_unfinished (h : Ascending m') : (Exec.unfinished : Exec α).Reaches m' :=
  ⟨h, fun _ hs => absurd rfl hs⟩

theorem of_succ (hm : Ascending m') (h : m.Reaches fun n => m' (n + 1)) : m.Reaches m' := by
  refine ⟨hm, fun s hs => ?_⟩
  obtain ⟨hend, n, hn⟩ := h.settles s hs
  exact ⟨hend, n + 1, hn⟩

protected theorem bind {second : α → Exec β} {second' : Nat → α → Exec β} (h : m.Reaches m')
    (hsecond : ∀ a, (second a).Reaches (second' · a)) :
    (m >>= second).Reaches fun n => m' n >>= second' n := by
  refine ⟨h.ascending.bind fun a => (hsecond a).ascending, fun s hs => ?_⟩
  cases hm : m s with
  | done a t =>
    rw [bind_done hm] at hs ⊢
    have hfirst : Settles m' s (.done a t) := hm ▸ h.settles s (by simp [hm])
    exact (settles_bind hfirst h.ascending (hsecond a).ascending).2 ((hsecond a).settles t hs)
  | failed fault t =>
    rw [bind_failed hm] at hs ⊢
    obtain ⟨-, n, hn⟩ := h.settles s (by simp [hm])
    exact ⟨hs, n, bind_failed (hn.trans hm)⟩
  | unfinished => exact absurd (bind_unfinished hm) hs

theorem bracket (h : m.Reaches m') (before after : Environment → Environment) :
    (m.bracket before after).Reaches fun n => (m' n).bracket before after := by
  refine ⟨fun n k hnk => (h.ascending n k hnk).bracket before after, fun s hs => ?_⟩
  have hm : m { s with env := before s.env } ≠ .unfinished := by
    intro hm
    simp [Exec.bracket, hm] at hs
  obtain ⟨-, n, hn⟩ := h.settles _ hm
  exact ⟨hs, n, by simp only [Exec.bracket, hn]⟩

/-- Computations that both come to this value with enough fuel come to the same ends. -/
theorem of_pure {m m' : Nat → Exec α} {a : α} {k k' : Nat} (hm : Ascending m)
    (hm' : Ascending m') (h : m k = pure a) (h' : m' k' = pure a) (n : Nat) :
    (m n).Reaches m' := by
  refine ⟨hm', fun s hs => ⟨hs, k', ?_⟩⟩
  have hk : Settles m s (.done a s) := ⟨nofun, k, by rw [h]; rfl⟩
  calc m' k' s = .done a s := by rw [h']; rfl
    _ = m n s := (hk.eq_of_ne hm hs).symm

end Reaches

end Exec

/-- What may be replaced by what: an expression by one that comes to the same ends, and no variable
by anything else or anything else by a variable. -/
structure Program.Admits (C : Expr → Expr → Prop) (p q : Program) : Prop where
  reaches : ∀ e e' n, C e e' → (e.eval p n).Reaches (e'.eval q ·)
  not_var : ∀ e e' x, C e e' → e ≠ .var x ∧ e' ≠ .var x

theorem Expr.Rewrites.cases_var {p q : Program} {e e' : Expr} (h : e.Rewrites C e')
    (hC : p.Admits C q) :
    (∃ x, e = .var x ∧ e' = .var x) ∨ ∀ x, e ≠ .var x ∧ e' ≠ .var x := by
  cases h with
  | replaced h => exact .inr fun x => hC.not_var _ _ x h
  | var x => exact .inl ⟨x, rfl, rfl⟩
  | _ => exact .inr fun x => ⟨nofun, nofun⟩

theorem Expr.eval_step {e : Expr} {op : UnaryOp} {base : BinaryOp} (hop : op.step? = some base)
    (h : ∀ x, e ≠ .var x) (program : Program) (n : Nat) (side : Side) :
    Expr.eval program (n + 1) (.unary op side e) = Exec.fail (.stepTarget op) := by
  cases op with
  | negate => cases hop
  | not => cases hop
  | increment | decrement =>
    cases e with
    | var x => exact absurd rfl (h x)
    | _ => rfl

theorem Expr.Rewrites.reaches_step {p q : Program} {e e' : Expr} (h : e.Rewrites C e')
    (hC : p.Admits C q) {op : UnaryOp} {base : BinaryOp} (hop : op.step? = some base) (side : Side)
    (n : Nat) :
    (Expr.eval p (n + 1) (.unary op side e)).Reaches fun k =>
      Expr.eval q (k + 1) (.unary op side e') := by
  rcases h.cases_var hC with ⟨x, rfl, rfl⟩ | hvar
  · cases op with
    | negate => cases hop
    | not => cases hop
    | increment | decrement => exact .const _
  · rw [Expr.eval_step hop fun x => (hvar x).1]
    simp only [Expr.eval_step hop fun x => (hvar x).2]
    exact .const _

structure Program.ReachesWith (C : Expr → Expr → Prop) (p q : Program) (n : Nat) : Prop where
  eval : ∀ {e e' : Expr}, e.Rewrites C e' → (e.eval p n).Reaches (e'.eval q ·)
  evalAll : ∀ {es es'}, List.Forall₂ (Expr.Rewrites C) es es' →
    (Expr.evalAll p n es).Reaches (Expr.evalAll q · es')
  evalCall : ∀ {f args args'}, List.Forall₂ (Expr.Rewrites C) args args' →
    (Expr.evalCall p n f args).Reaches (Expr.evalCall q · f args')
  evalOr : ∀ {e e'}, Option.Rel (Expr.Rewrites C) e e' →
    (Expr.evalOr p n e).Reaches (Expr.evalOr q · e')
  exec : ∀ {c c' : Stmt}, c.Rewrites C c' → (c.exec p n).Reaches (c'.exec q ·)
  execAll : ∀ {body body'}, List.Forall₂ (Stmt.Rewrites C) body body' →
    (Stmt.execAll p n body).Reaches (Stmt.execAll q · body')
  repeat_ : ∀ {c c' step step' body body'}, c.Rewrites C c' →
    Option.Rel (Expr.Rewrites C) step step' → body.Rewrites C body' →
    (Stmt.repeat p n c step body).Reaches (Stmt.repeat q · c' step' body')

namespace Program.ReachesWith

open Exec (Reaches)

variable {p q : Program} {n : Nat}

theorem zero (C : Expr → Expr → Prop) (p q : Program) : p.ReachesWith C q 0 where
  eval _ := .of_unfinished (q.ascending_eval _)
  evalAll _ := .of_unfinished (q.ascending_evalAll _)
  evalCall _ := .of_unfinished (q.ascending_evalCall _ _)
  evalOr _ := .of_unfinished (q.ascending_evalOr _)
  exec _ := .of_unfinished (q.ascending_exec _)
  execAll _ := .of_unfinished (q.ascending_execAll _)
  repeat_ _ _ _ := .of_unfinished (q.ascending_repeat _ _ _)

variable (h : p.ReachesWith C q n)

include h

theorem eval_succ (hC : p.Admits C q) {e e' : Expr} (he : e.Rewrites C e') :
    (e.eval p (n + 1)).Reaches (e'.eval q ·) := by
  cases he with
  | replaced he => exact hC.reaches _ _ _ he
  | literal v => exact .of_succ (q.ascending_eval _) (.const _)
  | var x => exact .of_succ (q.ascending_eval _) (.const _)
  | binary op hleft hright =>
    refine .of_succ (q.ascending_eval _) ?_
    exact .bind (h.eval hleft) fun _ => .bind (h.eval hright) fun _ => .const _
  | unary op side he =>
    refine .of_succ (q.ascending_eval _) ?_
    cases op with
    | negate => exact .bind (h.eval he) fun _ => .const _
    | not => exact .bind (h.eval he) fun _ => .const _
    | increment => exact he.reaches_step hC rfl side n
    | decrement => exact he.reaches_step hC rfl side n
  | assign x he =>
    refine .of_succ (q.ascending_eval _) ?_
    exact .bind (h.eval he) fun v => .const (do Exec.assign x v; return v)
  | call f hargs => exact .of_succ (q.ascending_eval _) (h.evalCall hargs)

theorem evalAll_succ {es es' : List Expr} (hes : List.Forall₂ (Expr.Rewrites C) es es') :
    (Expr.evalAll p (n + 1) es).Reaches (Expr.evalAll q · es') := by
  refine .of_succ (q.ascending_evalAll _) ?_
  cases hes with
  | nil => exact .const _
  | cons he hes => exact .bind (h.eval he) fun _ => .bind (h.evalAll hes) fun _ => .const _

theorem evalOr_succ {e e' : Option Expr} (he : Option.Rel (Expr.Rewrites C) e e') :
    (Expr.evalOr p (n + 1) e).Reaches (Expr.evalOr q · e') := by
  refine .of_succ (q.ascending_evalOr _) ?_
  cases he with
  | none => exact .const _
  | some he => exact h.eval he

theorem exec_succ {c c' : Stmt} (hc : c.Rewrites C c') :
    (c.exec p (n + 1)).Reaches (c'.exec q ·) := by
  refine .of_succ (q.ascending_exec _) ?_
  cases hc with
  | expr he => exact .bind (h.eval he) fun _ => .const _
  | decl hd =>
    cases hd with
    | mk type x hinit =>
      exact .bind (h.evalOr hinit) fun v => .bind (.const (Exec.define x v)) fun _ => .const _
  | block hbody => exact .bracket (h.execAll hbody) _ _
  | ifElse hc hyes hno =>
    refine .bind (h.eval hc) fun v => ?_
    cases v.truthy with
    | true => exact h.exec hyes
    | false =>
      cases hno with
      | none => exact .const _
      | some hno => exact h.exec hno
  | whileLoop hc hbody => exact h.repeat_ hc .none hbody
  | forLoop hinit hc hstep hbody =>
    have hloop := h.repeat_ hc hstep hbody
    refine .bracket ?_ _ _
    cases hinit with
    | none => exact hloop
    | some hinit => exact .bind (h.exec hinit) fun _ => hloop
  | ret hvalue => exact .bind (h.evalOr hvalue) fun _ => .const _
  | print he =>
    exact .bind (h.eval he) fun v => .bind (.const (Exec.printLine v)) fun _ => .const _

theorem execAll_succ {body body' : List Stmt} (hbody : List.Forall₂ (Stmt.Rewrites C) body body') :
    (Stmt.execAll p (n + 1) body).Reaches (Stmt.execAll q · body') := by
  refine .of_succ (q.ascending_execAll _) ?_
  cases hbody with
  | nil => exact .const _
  | cons hc hrest =>
    simp only [Stmt.execAll]
    refine .bind (h.exec hc) fun flow => ?_
    cases flow with
    | normal => exact h.execAll hrest
    | returned v => exact .const _

theorem repeat_succ {c c' : Expr} {step step' : Option Expr} {body body' : Stmt}
    (hc : c.Rewrites C c') (hstep : Option.Rel (Expr.Rewrites C) step step')
    (hbody : body.Rewrites C body') :
    (Stmt.repeat p (n + 1) c step body).Reaches (Stmt.repeat q · c' step' body') := by
  refine .of_succ (q.ascending_repeat _ _ _) ?_
  simp only [Stmt.repeat]
  refine .bind (h.eval hc) fun v => ?_
  cases v.truthy with
  | false => exact .const _
  | true =>
    refine .bind (h.exec hbody) fun flow => ?_
    cases flow with
    | normal => exact .bind (h.evalOr hstep) fun _ => h.repeat_ hc hstep hbody
    | returned v => exact .const _

theorem applyTo {f f' : Function} (hf : f.Rewrites C f') (values : List Value) :
    (f.applyTo p n values).Reaches fun n => f'.applyTo q n values := by
  unfold Function.applyTo
  rw [hf.params_name]
  refine .bind (.const _) fun _ => .bind (h.execAll hf.body) fun flow => ?_
  cases flow <;> exact .const _

theorem evalCall_succ (hpq : p.Rewrites C q) {f : String} {args args' : List Expr}
    (hargs : List.Forall₂ (Expr.Rewrites C) args args') :
    (Expr.evalCall p (n + 1) f args).Reaches (Expr.evalCall q · f args') := by
  refine .of_succ (q.ascending_evalCall _ _) ?_
  simp only [Expr.evalCall]
  rcases cases_of_rel (hpq.function? f) with ⟨hp, hq⟩ | ⟨g, g', hp, hq, hg⟩
  · rw [hp, hq]
    exact .const _
  · rw [hp, hq]
    simp only [hg.length_params, hargs.length_eq]
    split
    · exact .const _
    · exact .bind (h.evalAll hargs) fun values => .bracket (h.applyTo hg values) _ _

theorem succ (hC : p.Admits C q) (hpq : p.Rewrites C q) : p.ReachesWith C q (n + 1) :=
  ⟨h.eval_succ hC, h.evalAll_succ, h.evalCall_succ hpq, h.evalOr_succ, h.exec_succ,
    h.execAll_succ, h.repeat_succ⟩

end Program.ReachesWith

namespace Program.Rewrites

variable {p q : Program} (h : p.Rewrites C q) (hC : p.Admits C q)

include h hC

theorem reachesWith (n : Nat) : p.ReachesWith C q n := by
  -- on the fuel of the first run; that of the second grows as its parts need it
  induction n with
  | zero => exact .zero C p q
  | succ n ih => exact ih.succ hC h

theorem runMain (n : Nat) (inputs : List (String × Value)) :
    (p.runMain n inputs).Reaches (q.runMain · inputs) := by
  unfold Program.runMain
  rcases cases_of_rel (h.function? "main") with ⟨hp, hq⟩ | ⟨main, main', hp, hq, hmain⟩
  · rw [hp, hq]
    exact .const _
  · rw [hp, hq]
    refine .bind (.const _) fun _ => .bind ((h.reachesWith hC n).execAll hmain.body) fun flow => ?_
    cases flow <;> exact .const _

theorem run (inputs : List (String × Value)) (sink : Sink) {n : Nat}
    (hn : p.run n inputs sink ≠ .unfinished) :
    ∃ k, q.run k inputs sink = p.run n inputs sink := by
  have hreaches : (p.runMain n inputs >>= fun result => Exec.flush >>= fun _ => pure result).Reaches
      fun k => q.runMain k inputs >>= fun result => Exec.flush >>= fun _ => pure result :=
    .bind (h.runMain hC n inputs) fun result => .const _
  exact (hreaches.settles ⟨.fresh, sink⟩ hn).2

end Program.Rewrites

end MiniC
