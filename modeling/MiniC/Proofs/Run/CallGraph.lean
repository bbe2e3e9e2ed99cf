import Mathlib.Data.Set.Card
import Mathlib.Logic.Relation
import MiniC.Proofs.Run.Ends
import MiniC.Proofs.Run.Scoped
import MiniC.Run

/-!
# Programs without loops and recursion

Only loops and recursion can go on for ever. If no function that `main` leads to contains a loop,
and none leads back to itself, then one amount of fuel is enough for every run, whatever its inputs
and its output (`Program.run_ends`).

A call leaves the phrase that it stands in, so what is executed does not get smaller all the time.
It gets smaller within a function, and the rank of a function is higher than that of those it
calls. So the fuel for a phrase is its size and, on top of it, the fuel for a function that is
called.
-/

namespace MiniC

open Relation (ReflTransGen TransGen)

-- ---------------------------------------------------------------------------
-- Loops and calls
-- ---------------------------------------------------------------------------

mutual

def Stmt.Loopless : Stmt → Prop
  | .block body => Stmt.AllLoopless body
  | .ifElse _ yes none => yes.Loopless
  | .ifElse _ yes (some no) => yes.Loopless ∧ no.Loopless
  | .whileLoop _ _ => False
  | .forLoop _ _ _ _ => False
  | _ => True

def Stmt.AllLoopless : List Stmt → Prop
  | [] => True
  | s :: rest => s.Loopless ∧ Stmt.AllLoopless rest

end

namespace Program

variable {program : Program} {name callee : String}

/-- The function of the first name calls the second anywhere in its body. A name that no function
has calls nothing. -/
def Calls (program : Program) (name callee : String) : Prop :=
  ∃ f, program.function? name = some f ∧ ∃ count, (callee, count) ∈ Stmt.callsAll f.body

def Reaches (program : Program) (name : String) : Prop :=
  ReflTransGen program.Calls "main" name

/-- Nothing that `main` leads to contains a loop, and no name that it leads to leads back to
itself. -/
structure Unrepeating (program : Program) : Prop where
  loopless : ∀ name f, program.Reaches name → program.function? name = some f →
    Stmt.AllLoopless f.body
  acyclic : ∀ name, program.Reaches name → ¬TransGen program.Calls name name

noncomputable def rank (program : Program) (name : String) : Nat :=
  {callee | TransGen program.Calls name callee}.ncard

theorem finite_called (program : Program) (name : String) :
    {callee | TransGen program.Calls name callee}.Finite := by
  let called := program.functions.flatMap fun f => (Stmt.callsAll f.body).map Prod.fst
  refine (List.finite_toSet called).subset fun callee h => ?_
  obtain ⟨_, -, f, hf, count, hcall⟩ := TransGen.tail'_iff.1 h
  exact List.mem_flatMap_of_mem (mem_of_function? hf).1 (List.mem_map_of_mem hcall)

theorem Unrepeating.rank_lt (h : program.Unrepeating) (hname : program.Reaches name)
    (hcalls : program.Calls name callee) : program.rank callee < program.rank name := by
  have hsub : {other | TransGen program.Calls callee other} ⊆
      {other | TransGen program.Calls name other} := fun _ hother => .head hcalls hother
  have hnot : callee ∉ {other | TransGen program.Calls callee other} :=
    h.acyclic callee (hname.tail hcalls)
  refine Set.ncard_lt_ncard ⟨hsub, fun hsup => ?_⟩ (program.finite_called name)
  exact hnot (hsup (.single hcalls))

theorem unrepeating_of_numbering (led : String → Prop) (number : String → Nat) (hmain : led "main")
    (h : ∀ name f, led name → program.function? name = some f → Stmt.AllLoopless f.body ∧
      ∀ call ∈ Stmt.callsAll f.body, led call.1 ∧ number call.1 < number name) :
    program.Unrepeating := by
  have hstep {name callee} (hname : led name) (hcalls : program.Calls name callee) :
      led callee ∧ number callee < number name := by
    obtain ⟨f, hf, count, hcall⟩ := hcalls
    exact (h name f hname hf).2 _ hcall
  have hled {name} (hname : program.Reaches name) : led name := by
    induction hname with
    | refl => exact hmain
    | tail _ hcalls ih => exact (hstep ih hcalls).1
  have hbelow {name callee} (hname : led name) (hcalls : TransGen program.Calls name callee) :
      led callee ∧ number callee < number name := by
    induction hcalls with
    | single hcalls => exact hstep hname hcalls
    | tail _ hcalls ih =>
      obtain ⟨hcallee, hlt⟩ := hstep ih.1 hcalls
      exact ⟨hcallee, hlt.trans ih.2⟩
  exact ⟨fun name f hname hf => (h name f (hled hname) hf).1,
    fun name hname hcycle => Nat.lt_irrefl _ (hbelow (hled hname) hcycle).2⟩

end Program

-- ---------------------------------------------------------------------------
-- Fuel for phrases
-- ---------------------------------------------------------------------------

theorem Exec.Prompt.step (op : BinaryOp) (side : Side) (name : String) :
    (Exec.step op side name).Prompt :=
  .bind (.lookup name) fun _ => .bind (.ofExcept _) fun _ => .bind (.modifyEnv _) fun _ => .pure _

abbrev AllCallable (callable : String → Prop) (calls : List (String × Nat)) : Prop :=
  ∀ call ∈ calls, callable call.1

namespace Program

variable {program : Program} {callable : String → Prop} {bound n : Nat}

def CalleesEnd (program : Program) (callable : String → Prop) (bound : Nat) : Prop :=
  ∀ name f, callable name → program.function? name = some f →
    ∀ n, bound ≤ n → (Stmt.execAll program n f.body).Prompt

/-- With `n` units of fuel, phrases come to an end in every state if they contain no loop, only call
what may be called, and are so small that `bound` units are left for each call. -/
structure EndsWith (program : Program) (callable : String → Prop) (bound n : Nat) : Prop where
  eval : ∀ {e : Expr}, AllCallable callable e.calls → sizeOf e + bound < n →
    (e.eval program n).Prompt
  evalAll : ∀ {es}, AllCallable callable (Expr.callsAll es) → sizeOf es + bound < n →
    (Expr.evalAll program n es).Prompt
  evalCall : ∀ {f args}, AllCallable callable (Expr.call f args).calls →
    sizeOf args + bound + 1 < n → (Expr.evalCall program n f args).Prompt
  evalOr : ∀ {e}, AllCallable callable (Expr.callsIfAny e) → sizeOf e + bound < n →
    (Expr.evalOr program n e).Prompt
  exec : ∀ {s : Stmt}, s.Loopless → AllCallable callable s.calls → sizeOf s + bound < n →
    (s.exec program n).Prompt
  execAll : ∀ {body}, Stmt.AllLoopless body → AllCallable callable (Stmt.callsAll body) →
    sizeOf body + bound < n → (Stmt.execAll program n body).Prompt

namespace EndsWith

open Exec (Prompt)

variable (h : program.EndsWith callable bound n)

include h

theorem eval_succ {e : Expr} (hcalls : AllCallable callable e.calls)
    (hn : sizeOf e + bound < n + 1) : (e.eval program (n + 1)).Prompt := by
  cases e with
  | literal v => exact .pure v
  | var x => exact .lookup x
  | binary op left right =>
    obtain ⟨hleft, hright⟩ := List.forall_mem_append.1 hcalls
    simp only [Expr.binary.sizeOf_spec] at hn
    exact .bind (h.eval hleft (by omega)) fun _ => .bind (h.eval hright (by omega)) fun _ =>
      .ofExcept _
  | unary op side operand =>
    simp only [Expr.unary.sizeOf_spec] at hn
    cases op with
    | negate => exact .bind (h.eval hcalls (by omega)) fun _ => .ofExcept _
    | not => exact .bind (h.eval hcalls (by omega)) fun _ => .pure _
    | increment =>
      cases operand with
      | var x => exact Prompt.step .add side x
      | _ => exact .fail _
    | decrement =>
      cases operand with
      | var x => exact Prompt.step .sub side x
      | _ => exact .fail _
  | assign x e =>
    simp only [Expr.assign.sizeOf_spec] at hn
    exact .bind (h.eval hcalls (by omega)) fun v => .bind (.assign x v) fun _ => .pure v
  | call f args =>
    have hname : 0 < sizeOf f := by cases f; simp
    simp only [Expr.call.sizeOf_spec] at hn
    exact h.evalCall hcalls (by omega)

theorem evalAll_succ {es : List Expr} (hcalls : AllCallable callable (Expr.callsAll es))
    (hn : sizeOf es + bound < n + 1) : (Expr.evalAll program (n + 1) es).Prompt := by
  cases es with
  | nil => exact .pure _
  | cons e es =>
    obtain ⟨he, hes⟩ := List.forall_mem_append.1 hcalls
    simp only [List.cons.sizeOf_spec] at hn
    exact .bind (h.eval he (by omega)) fun _ => .bind (h.evalAll hes (by omega)) fun _ => .pure _

theorem evalOr_succ {e : Option Expr} (hcalls : AllCallable callable (Expr.callsIfAny e))
    (hn : sizeOf e + bound < n + 1) : (Expr.evalOr program (n + 1) e).Prompt := by
  cases e with
  | none => exact .pure _
  | some e =>
    simp only [Option.some.sizeOf_spec] at hn
    exact h.eval hcalls (by omega)

theorem evalCall_succ (hcallees : program.CalleesEnd callable bound) {f : String}
    {args : List Expr} (hcalls : AllCallable callable (Expr.call f args).calls)
    (hn : sizeOf args + bound + 1 < n + 1) : (Expr.evalCall program (n + 1) f args).Prompt := by
  obtain ⟨hf, hargs⟩ := List.forall_mem_cons.1 hcalls
  rw [Expr.evalCall]
  split
  · exact .fail _
  next g hg =>
    split
    · exact .fail _
    · refine .bind (h.evalAll hargs (by omega)) fun values => .bracket ?_ _ _
      refine .bind (.modifyEnv _) fun _ => .bind (hcallees f g hf hg n (by omega)) fun flow => ?_
      cases flow <;> exact .pure _

theorem exec_succ {s : Stmt} (hloopless : s.Loopless) (hcalls : AllCallable callable s.calls)
    (hn : sizeOf s + bound < n + 1) : (s.exec program (n + 1)).Prompt := by
  cases s with
  | expr e =>
    simp only [Stmt.expr.sizeOf_spec] at hn
    exact .bind (h.eval hcalls (by omega)) fun _ => .pure _
  | decl d =>
    obtain ⟨type, x, init⟩ := d
    simp only [Stmt.decl.sizeOf_spec, Decl.mk.sizeOf_spec] at hn
    exact .bind (h.evalOr hcalls (by omega)) fun v => .bind (.modifyEnv _) fun _ => .pure _
  | block body =>
    simp only [Stmt.block.sizeOf_spec] at hn
    exact .bracket (h.execAll hloopless hcalls (by omega)) _ _
  | ifElse condition yes no =>
    simp only [Stmt.ifElse.sizeOf_spec] at hn
    cases no with
    | none =>
      obtain ⟨hcondition, hyes⟩ := List.forall_mem_append.1 hcalls
      refine .bind (h.eval hcondition (by omega)) fun v => ?_
      split
      · exact h.exec hloopless hyes (by omega)
      · exact .pure _
    | some no =>
      simp only [Option.some.sizeOf_spec] at hn
      obtain ⟨hcondition, hbranches⟩ := List.forall_mem_append.1 hcalls
      obtain ⟨hyes, hno⟩ := List.forall_mem_append.1 hbranches
      refine .bind (h.eval hcondition (by omega)) fun v => ?_
      split
      · exact h.exec hloopless.1 hyes (by omega)
      · exact h.exec hloopless.2 hno (by omega)
  | whileLoop condition body => exact hloopless.elim
  | forLoop init condition step body => exact hloopless.elim
  | ret value =>
    simp only [Stmt.ret.sizeOf_spec] at hn
    exact .bind (h.evalOr hcalls (by omega)) fun _ => .pure _
  | print e =>
    simp only [Stmt.print.sizeOf_spec] at hn
    exact .bind (h.eval hcalls (by omega)) fun v => .bind (.printLine v) fun _ => .pure _

theorem execAll_succ {body : List Stmt} (hloopless : Stmt.AllLoopless body)
    (hcalls : AllCallable callable (Stmt.callsAll body)) (hn : sizeOf body + bound < n + 1) :
    (Stmt.execAll program (n + 1) body).Prompt := by
  cases body with
  | nil => exact .pure _
  | cons s rest =>
    obtain ⟨hs, hrest⟩ := List.forall_mem_append.1 hcalls
    simp only [List.cons.sizeOf_spec] at hn
    refine .bind (h.exec hloopless.1 hs (by omega)) fun flow => ?_
    cases flow with
    | normal => exact h.execAll hloopless.2 hrest (by omega)
    | returned v => exact .pure _

end EndsWith

theorem CalleesEnd.endsWith (h : program.CalleesEnd callable bound) (n : Nat) :
    program.EndsWith callable bound n := by
  induction n with
  | zero =>
    exact ⟨fun _ => nofun, fun _ => nofun, fun _ => nofun, fun _ => nofun, fun _ _ => nofun,
      fun _ _ => nofun⟩
  | succ n ih =>
    exact ⟨ih.eval_succ, ih.evalAll_succ, ih.evalCall_succ h, ih.evalOr_succ, ih.exec_succ,
      ih.execAll_succ⟩

-- ---------------------------------------------------------------------------
-- Fuel for functions
-- ---------------------------------------------------------------------------

/-- A function needs fuel for its body and for the functions of lower rank, one below the other. -/
theorem Unrepeating.body_ends (h : program.Unrepeating) {name : String} {f : Function}
    (hname : program.Reaches name) (hf : program.function? name = some f)
    (hn : (program.rank name + 1) * sizeOf program ≤ n) :
    (Stmt.execAll program n f.body).Prompt := by
  induction hrank : program.rank name using Nat.strong_induction_on generalizing name f n with
  | _ rank ih =>
    subst hrank
    have hcallees :
        program.CalleesEnd (program.Calls name) (program.rank name * sizeOf program) := by
      intro callee g hcalls hg k hk
      have hlt := h.rank_lt hname hcalls
      have hle : (program.rank callee + 1) * sizeOf program ≤ k :=
        (Nat.mul_le_mul_right _ hlt).trans hk
      exact ih _ hlt (hname.tail hcalls) hg hle rfl
    have hsize : sizeOf f.body < sizeOf program := by
      have hmem := List.sizeOf_lt_of_mem (mem_of_function? hf).1
      obtain ⟨functions, globals⟩ := program
      obtain ⟨type, fname, params, body⟩ := f
      simp only [Program.mk.sizeOf_spec, Function.mk.sizeOf_spec] at hmem ⊢
      omega
    refine (hcallees.endsWith n).execAll (h.loopless name f hname hf) ?_ ?_
    · exact fun call hcall => ⟨f, hf, call.2, hcall⟩
    · rw [Nat.add_mul] at hn
      omega

/-- A program without loops and recursion comes to an end, with a result or with a fault, and the
fuel that is enough depends on nothing but the program. -/
theorem run_ends (h : program.Unrepeating) :
    ∃ fuel, ∀ n, fuel ≤ n → ∀ inputs sink, program.run n inputs sink ≠ .unfinished := by
  refine ⟨(program.rank "main" + 1) * sizeOf program, fun n hn inputs sink => ?_⟩
  have hmain : (program.runMain n inputs).Prompt := by
    unfold runMain
    split
    · exact .fail _
    next main hf =>
      refine .bind (.modifyEnv _) fun _ => .bind (h.body_ends .refl hf hn) fun flow => ?_
      cases flow with
      | normal => exact .pure _
      | returned v => exact .ofExcept _
  exact hmain.bind (fun result => .bind .flush fun _ => .pure result) _

/-- `f` and `g` are called more than once and `h` is not defined. The loops and the recursion of
`spin` and of a second `f` do no harm, because `main` does not lead to them. -/
theorem run_ends_unknown :
    let n : Expr := .var "n"
    let g : Function := ⟨.int, "g", [⟨.int, "n", none⟩],
      [.ifElse n (.ret (some (.binary .div (.literal (.int 1)) n))) none,
        .ret (some (.call "h" []))]⟩
    let f : Function := ⟨.int, "f", [⟨.int, "n", none⟩],
      [.ret (some (.binary .add (.call "g" [n]) (.call "g" [.call "g" [n]])))]⟩
    let f' : Function := ⟨.int, "f", [], [.whileLoop (.literal (.int 1)) (.expr (.call "f" []))]⟩
    let spin : Function := ⟨.int, "spin", [],
      [.whileLoop (.literal (.int 1)) (.expr (.call "spin" []))]⟩
    let main : Function := ⟨.int, "main", [],
      [.print (.call "f" [.var "a"]), .ret (some (.call "f" [.literal (.int 0)]))]⟩
    let program : Program := ⟨[spin, f, f', g, main], []⟩
    program.Unrepeating ∧
      ∃ fuel, ∀ k, fuel ≤ k → ∀ inputs sink, program.run k inputs sink ≠ .unfinished := by
  intro n g f f' spin main program
  have h : program.Unrepeating := by
    let number (name : String) : Nat :=
      if name = "main" then 3 else if name = "f" then 2 else if name = "g" then 1 else 0
    refine unrepeating_of_numbering (· ∈ ["main", "f", "g", "h"]) number (by decide) ?_
    intro name function hname hfunction
    have hled : function = main ∧ name = "main" ∨ function = f ∧ name = "f" ∨
        function = g ∧ name = "g" := by
      simp only [List.mem_cons, List.not_mem_nil, or_false] at hname
      rcases hname with rfl | rfl | rfl | rfl
      · exact .inl ⟨(Option.some.inj hfunction).symm, rfl⟩
      · exact .inr (.inl ⟨(Option.some.inj hfunction).symm, rfl⟩)
      · exact .inr (.inr ⟨(Option.some.inj hfunction).symm, rfl⟩)
      · cases hfunction
    rcases hled with ⟨rfl, rfl⟩ | ⟨rfl, rfl⟩ | ⟨rfl, rfl⟩
    · exact ⟨by simp [main, Stmt.AllLoopless, Stmt.Loopless], by decide⟩
    · exact ⟨by simp [f, Stmt.AllLoopless, Stmt.Loopless], by decide⟩
    · exact ⟨by simp [g, Stmt.AllLoopless, Stmt.Loopless], by decide⟩
  exact ⟨h, run_ends h⟩

end Program

end MiniC
