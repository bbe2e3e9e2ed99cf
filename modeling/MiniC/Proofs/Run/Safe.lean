import MiniC.Proofs.Operator.Kinds
import MiniC.Proofs.Run.Names
import MiniC.Proofs.Run.Scoped
import MiniC.Run

/-!
# Programs whose names are in scope

The names that are in scope in the text are bound in the run, at every step of it. So a run of a
well-scoped program ends with a result or with a fault of the values, but never with a fault of the
names.
-/

namespace MiniC

-- ---------------------------------------------------------------------------
-- Environments
-- ---------------------------------------------------------------------------

def Frame.Binds (frame : Frame) (x : String) : Prop :=
  ∃ has ∈ frame.names, has x = true

theorem Frame.binds_iff {frame : Frame} : frame.Binds x ↔ (frame.get? x).isSome := by
  induction frame with
  | nil => simp [Binds, names, get?]
  | cons scope outer ih =>
    rw [get?_cons, Option.isSome_or, Bool.or_eq_true, ← ih]
    simp [Binds, Scope.has]

namespace Environment

variable {env env' : Environment}

def Holds (names : List String) (env : Environment) : Prop :=
  ∃ scope outer callers, env.frames = (scope :: outer) :: callers ∧
    ∀ x ∈ names, Frame.Binds (scope :: outer) x

theorem Holds.mono (h : env.Holds names) (hsub : others ⊆ names) : env.Holds others := by
  obtain ⟨scope, outer, callers, henv, hnames⟩ := h
  exact ⟨scope, outer, callers, henv, fun x hx => hnames x (hsub hx)⟩

theorem Holds.moreNames (h : env.Holds names) (hmore : env.MoreNames env') : env'.Holds names := by
  obtain ⟨scope, outer, callers, henv, hnames⟩ := h
  obtain ⟨scope', outer', henv', hhas, houter⟩ := hmore scope outer callers henv
  refine ⟨scope', outer', callers, henv', fun x hx => ?_⟩
  obtain ⟨has, hmem, hbinds⟩ := hnames x hx
  rcases List.mem_cons.1 hmem with rfl | hmem
  · exact ⟨scope'.has, List.mem_cons_self, hhas x hbinds⟩
  · have hmem : has ∈ Frame.names outer' := by rwa [houter]
    exact ⟨has, List.mem_cons_of_mem _ hmem, hbinds⟩

theorem Holds.get? (h : env.Holds names) (hx : x ∈ names) : ∃ v, env.get? x = some v := by
  obtain ⟨scope, outer, callers, henv, hnames⟩ := h
  obtain ⟨v, hv⟩ := Option.isSome_iff_exists.1 (Frame.binds_iff.1 (hnames x hx))
  exact ⟨v, by rw [Environment.get?, henv]; exact hv⟩

theorem Holds.assign? (h : env.Holds names) (hx : x ∈ names) (value : Value) :
    ∃ env', env.assign? x value = some env' := by
  obtain ⟨v, hv⟩ := h.get? hx
  obtain ⟨scope, outer, callers, henv, -⟩ := h
  cases hassign : Frame.assign? x value (scope :: outer) with
  | none =>
    simp [Environment.get?, henv, Frame.assign?_eq_none_iff.1 hassign] at hv
  | some frame => exact ⟨⟨frame :: callers⟩, by simp [Environment.assign?, henv, hassign]⟩

theorem Holds.define (h : env.Holds names) (x : String) (value : Value) :
    (env.define x value).Holds (x :: names) := by
  have hmore := h.moreNames (env.moreNames_define x value)
  obtain ⟨scope, outer, callers, henv, hnames⟩ := hmore
  refine ⟨scope, outer, callers, henv, List.forall_mem_cons.2 ⟨?_, hnames⟩⟩
  obtain ⟨scope', outer', callers', henv', -⟩ := h
  rw [Environment.define, modifyFrame, henv'] at henv
  obtain ⟨⟨rfl, rfl⟩, rfl⟩ := by simpa [Frame.define] using henv
  exact ⟨_, List.mem_cons_self, by simp [Scope.has_put]⟩

theorem Holds.defineAll (h : env.Holds names) (bindings : List (String × Value)) :
    (env.defineAll bindings).Holds (bindings.map Prod.fst ++ names) := by
  induction bindings generalizing env names with
  | nil => exact h
  | cons binding rest ih =>
    refine (ih (h.define binding.1 binding.2)).mono ?_
    intro x hx
    simp only [List.map_cons, List.cons_append, List.mem_cons, List.mem_append] at hx ⊢
    grind

theorem Holds.pushScope (h : env.Holds names) : env.pushScope.Holds names := by
  obtain ⟨scope, outer, callers, henv, hnames⟩ := h
  refine ⟨.empty, scope :: outer, callers, by simp [Environment.pushScope, modifyFrame, henv], ?_⟩
  intro x hx
  obtain ⟨has, hmem, hbinds⟩ := hnames x hx
  exact ⟨has, List.mem_cons_of_mem _ hmem, hbinds⟩

theorem holds_pushFrame (env : Environment) : env.pushFrame.Holds [] :=
  ⟨.empty, [], env.frames, rfl, nofun⟩

theorem holds_fresh : fresh.Holds [] :=
  ⟨.empty, [], [], rfl, nofun⟩

end Environment

-- ---------------------------------------------------------------------------
-- Faults
-- ---------------------------------------------------------------------------

/-- The faults of names: of a name that nothing has, a call that does not fit, or a step of what
has no name. -/
def Fault.Naming : Fault → Prop
  | .unknownVariable _ => True
  | .unknownFunction _ => True
  | .missingMain => True
  | .argumentCount _ _ _ => True
  | .stepTarget _ => True
  | _ => False

theorem Fault.Arithmetical.not_naming {fault : Fault} (h : fault.Arithmetical) :
    ¬fault.Naming := by
  cases fault with
  | divisionByZero => exact id
  | overflow c => exact id
  | _ => exact h.elim

def Nameless (x : Except Fault α) : Prop :=
  ∀ fault, x = .error fault → ¬fault.Naming

namespace Nameless

theorem of_gives {x : Except Fault α} {Q : α → Prop} {E : Fault → Prop} (h : Gives x Q E)
    (hE : ∀ fault, E fault → ¬fault.Naming) : Nameless x :=
  fun fault hx => hE fault (h.error hx)

theorem apply (op : BinaryOp) (left right : Value) : Nameless (op.apply left right) := by
  refine .of_gives (.apply op left right) ?_
  rintro fault (hfault | ⟨rfl, -⟩)
  · exact hfault.not_naming
  · exact id

theorem negate (v : Value) : Nameless v.negate := by
  refine .of_gives (.negate v) ?_
  rintro fault (hfault | ⟨rfl, -⟩)
  · exact hfault.not_naming
  · exact id

theorem result (v : Value) : Nameless v.result := by
  refine .of_gives (.result v) ?_
  rintro _ ⟨rfl, -⟩
  exact id

end Nameless

-- ---------------------------------------------------------------------------
-- Computations
-- ---------------------------------------------------------------------------

namespace Exec

/-- Started where the names `before` are held, the computation has no fault of names, and where it
ends with a result the names `after` are held. -/
def Safe (before after : List String) (m : Exec α) : Prop :=
  ∀ s, s.env.Holds before → m.Ends s (fun _ t => t.env.Holds after) fun f _ => ¬f.Naming

namespace Safe

variable {m : Exec α} {names before middle after others : List String}

theorem mono (h : m.Safe before after) (hsub : others ⊆ after) : m.Safe before others :=
  fun s hs => (h s hs).mono (fun _ _ ht => ht.mono hsub) fun _ _ hf => hf

protected theorem pure (a : α) : (pure a : Exec α).Safe names names :=
  fun _ hs => .pure hs

theorem unfinished : (Exec.unfinished : Exec α).Safe before after :=
  fun _ _ => .unfinished

protected theorem bind {second : α → Exec β} (h : m.Safe before middle)
    (k : ∀ a, (second a).Safe middle after) : (m >>= second).Safe before after :=
  fun s hs => (h s hs).bind fun a t ht => k a t ht

theorem ofExcept {x : Except Fault α} (h : Nameless x) : (Exec.ofExcept x).Safe names names := by
  intro s hs
  cases x with
  | ok a => exact hs
  | error fault => exact h fault rfl

theorem lookup (hx : x ∈ names) : (Exec.lookup x).Safe names names := by
  intro s hs
  obtain ⟨v, hv⟩ := hs.get? hx
  unfold Ends Exec.lookup
  rw [hv]
  exact hs

theorem assign (hx : x ∈ names) (value : Value) : (Exec.assign x value).Safe names names := by
  intro s hs
  obtain ⟨env, henv⟩ := hs.assign? hx value
  unfold Ends Exec.assign
  rw [henv]
  exact hs.moreNames (Environment.sameNames_assign? henv).moreNames

theorem modifyEnv {change : Environment → Environment}
    (h : ∀ env, env.Holds before → (change env).Holds after) :
    (Exec.modifyEnv change).Safe before after :=
  fun s hs => h s.env hs

theorem define (x : String) (value : Value) : (Exec.define x value).Safe names (x :: names) :=
  .modifyEnv fun _ hs => hs.define x value

theorem printLine (value : Value) : (Exec.printLine value).Safe names names := by
  intro s hs
  unfold Ends Exec.printLine
  rcases s.sink.write (value.text ++ "\n") with ⟨sink, _ | refusal⟩
  · exact hs
  · exact id

theorem flush : Exec.flush.Safe names names := by
  intro s hs
  unfold Ends Exec.flush
  cases s.sink.flush with
  | none => exact hs
  | some refusal => exact id

theorem step (op : BinaryOp) (side : Side) (hx : x ∈ names) :
    (Exec.step op side x).Safe names names := by
  rw [Exec.step_eq]
  exact .bind (.lookup hx) fun _ => .bind (.ofExcept (.apply _ _ _)) fun new =>
    .bind (.assign hx new) fun _ => .pure _

theorem bracket {change undo : Environment → Environment}
    (hkeeps : (m.bracket change undo).Keeps Environment.SameNames)
    (hchange : ∀ env, env.Holds names → (change env).Holds before) (h : m.Safe before after) :
    (m.bracket change undo).Safe names names := by
  intro s hs
  have hbody : (m.bracket change undo).Ends s (fun _ _ => True) fun f _ => ¬f.Naming :=
    .bracket ((h _ (hchange _ hs)).mono (fun _ _ _ => trivial) fun _ _ hf => hf)
  refine ((hkeeps s).and hbody).mono ?_ ?_
  · exact fun _ _ ht => hs.moreNames ht.1.moreNames
  · exact fun _ _ hf => hf.2

theorem inScope (hkeeps : m.Keeps Environment.MoreNames) (h : m.Safe names after) :
    (Exec.inScope m).Safe names names :=
  .bracket (keeps_inScope hkeeps) (fun _ => Environment.Holds.pushScope) h

theorem inFrame (hkeeps : m.Keeps Environment.MoreNames) (h : m.Safe [] after) :
    (Exec.inFrame m).Safe names names :=
  .bracket (keeps_inFrame hkeeps).sameNames (fun env _ => env.holds_pushFrame) h

end Safe

end Exec

theorem Expr.evalAll_length (program : Program) (n : Nat) (es : List Expr) (s : State) :
    (Expr.evalAll program n es).Ends s (fun vs _ => vs.length = es.length) fun _ _ => True := by
  induction n generalizing es s with
  | zero => exact .unfinished
  | succ n ih =>
    cases es with
    | nil => exact .pure rfl
    | cons e es =>
      refine Exec.Ends.trivial.bind fun v t _ => (ih es t).bind fun vs u hvs => ?_
      exact .pure (congrArg Nat.succ hvs)

-- ---------------------------------------------------------------------------
-- Programs
-- ---------------------------------------------------------------------------

namespace Program

def Answers (program : Program) (callable : String → Prop) (calls : List (String × Nat)) : Prop :=
  ∀ call ∈ calls, callable call.1 ∧
    ∃ g, program.function? call.1 = some g ∧ g.params.length = call.2

/-- The functions that may be called use no names but their own and those of such functions. -/
structure Closed (program : Program) (callable : String → Prop) : Prop where
  bodies : ∀ f g, program.function? f = some g → callable f → g.Scoped
  answers : ∀ f g, program.function? f = some g →
    program.Answers callable (Stmt.callsAll g.body)

variable {program : Program} {callable : String → Prop} {names : List String}
  {left right : List (String × Nat)}

theorem answers_append :
    program.Answers callable (left ++ right) ↔
      program.Answers callable left ∧ program.Answers callable right :=
  List.forall_mem_append

structure SafeWith (program : Program) (callable : String → Prop) (n : Nat) : Prop where
  eval : ∀ {names} {e : Expr}, e.Scoped names → program.Answers callable e.calls →
    (e.eval program n).Safe names names
  evalAll : ∀ {names es}, Expr.AllScoped names es → program.Answers callable (Expr.callsAll es) →
    (Expr.evalAll program n es).Safe names names
  evalCall : ∀ {names f args}, Expr.AllScoped names args →
    program.Answers callable (Expr.call f args).calls →
    (Expr.evalCall program n f args).Safe names names
  evalOr : ∀ {names e}, Expr.ScopedIfAny names e → program.Answers callable (Expr.callsIfAny e) →
    (Expr.evalOr program n e).Safe names names
  exec : ∀ {names} {s : Stmt}, s.Scoped names → program.Answers callable s.calls →
    (s.exec program n).Safe names (s.declares ++ names)
  execAll : ∀ {names body}, Stmt.AllScoped names body →
    program.Answers callable (Stmt.callsAll body) →
    (Stmt.execAll program n body).Safe names names
  repeat_ : ∀ {names step} {c : Expr} {body : Stmt}, c.Scoped names → Expr.ScopedIfAny names step →
    body.Scoped names → program.Answers callable c.calls →
    program.Answers callable (Expr.callsIfAny step) → program.Answers callable body.calls →
    (Stmt.repeat program n c step body).Safe names names

namespace SafeWith

open Exec (Safe)

variable {n : Nat} (h : program.SafeWith callable n)

include h

theorem eval_succ {e : Expr} (he : e.Scoped names) (hcalls : program.Answers callable e.calls) :
    (e.eval program (n + 1)).Safe names names := by
  cases e with
  | literal v => exact .pure v
  | var x => exact .lookup he
  | binary op left right =>
    obtain ⟨hleft, hright⟩ := answers_append.1 hcalls
    exact .bind (h.eval he.1 hleft) fun _ => .bind (h.eval he.2 hright) fun _ =>
      .ofExcept (.apply op _ _)
  | unary op side operand =>
    cases op with
    | negate => exact .bind (h.eval he hcalls) fun v => .ofExcept (.negate v)
    | not => exact .bind (h.eval he hcalls) fun _ => .pure _
    | increment =>
      obtain ⟨⟨x, rfl⟩, hx⟩ := he
      exact Safe.step .add side hx
    | decrement =>
      obtain ⟨⟨x, rfl⟩, hx⟩ := he
      exact Safe.step .sub side hx
  | assign x e =>
    exact .bind (h.eval he.2 hcalls) fun v => .bind (.assign he.1 v) fun _ => .pure v
  | call f args => exact h.evalCall he hcalls

theorem evalAll_succ {es : List Expr} (hes : Expr.AllScoped names es)
    (hcalls : program.Answers callable (Expr.callsAll es)) :
    (Expr.evalAll program (n + 1) es).Safe names names := by
  cases es with
  | nil => exact .pure []
  | cons e es =>
    obtain ⟨he, hrest⟩ := answers_append.1 hcalls
    exact .bind (h.eval hes.1 he) fun _ => .bind (h.evalAll hes.2 hrest) fun _ => .pure _

theorem evalOr_succ {e : Option Expr} (he : Expr.ScopedIfAny names e)
    (hcalls : program.Answers callable (Expr.callsIfAny e)) :
    (Expr.evalOr program (n + 1) e).Safe names names := by
  cases e with
  | none => exact .pure _
  | some e => exact h.eval he hcalls

theorem applyTo (hclosed : program.Closed callable) {f : String} {g : Function}
    (hg : program.function? f = some g) (hf : callable f) {values : List Value}
    (hlength : values.length = g.params.length) :
    (g.applyTo program n values).Safe [] (g.params.map Decl.name) := by
  have hnames : ((g.params.map Decl.name).zip values).map Prod.fst = g.params.map Decl.name :=
    List.map_fst_zip (by simp [hlength])
  refine .bind (.modifyEnv fun env henv => ?_) fun _ => .bind
    (h.execAll (hclosed.bodies f g hg hf) (hclosed.answers f g hg)) fun flow => ?_
  · simpa [hnames] using henv.defineAll ((g.params.map Decl.name).zip values)
  · cases flow <;> exact .pure _

theorem evalCall_succ (hclosed : program.Closed callable) {f : String} {args : List Expr}
    (hargs : Expr.AllScoped names args)
    (hcalls : program.Answers callable (Expr.call f args).calls) :
    (Expr.evalCall program (n + 1) f args).Safe names names := by
  obtain ⟨⟨hf, g, hg, hcount⟩, hinner⟩ := List.forall_mem_cons.1 hcalls
  intro s hs
  simp only [Expr.evalCall, hg, hcount, ne_eq, not_true_eq_false, if_false]
  refine (((h.evalAll hargs hinner s hs).and (Expr.evalAll_length program n args s)).mono
    (fun _ _ ht => ht) fun _ _ hf => hf.1).bind ?_
  rintro values t ⟨ht, hlength⟩
  have hkeeps := (program.keepsNames n).applyTo g values
  exact Safe.inFrame hkeeps (h.applyTo hclosed hg hf (hlength.trans hcount.symm)) t ht

/-- What a branch or the body of a loop declares is not counted on behind it. -/
theorem branch {s : Stmt} (hs : s.Scoped names) (hcalls : program.Answers callable s.calls) :
    (s.exec program n).Safe names names :=
  (h.exec hs hcalls).mono (List.subset_append_right _ _)

theorem exec_succ {s : Stmt} (hs : s.Scoped names) (hcalls : program.Answers callable s.calls) :
    (s.exec program (n + 1)).Safe names (s.declares ++ names) := by
  have hkeeps := program.keepsNames n
  cases s with
  | expr e => exact .bind (h.eval hs hcalls) fun _ => .pure _
  | decl d =>
    exact .bind (h.evalOr hs hcalls) fun v => .bind (.define d.name v) fun _ => .pure _
  | block body => exact .inScope (hkeeps.execAll body) (h.execAll hs hcalls)
  | ifElse condition yes no =>
    cases no with
    | none =>
      obtain ⟨hc, hyes⟩ := hs
      obtain ⟨kc, kyes⟩ := answers_append.1 hcalls
      refine .bind (h.eval hc kc) fun v => ?_
      split
      · exact h.branch hyes kyes
      · exact .pure _
    | some no =>
      obtain ⟨hc, hyes, hno⟩ := hs
      obtain ⟨kc, kbranches⟩ := answers_append.1 hcalls
      obtain ⟨kyes, kno⟩ := answers_append.1 kbranches
      refine .bind (h.eval hc kc) fun v => ?_
      split
      · exact h.branch hyes kyes
      · exact h.branch hno kno
  | whileLoop condition body =>
    obtain ⟨kc, kbody⟩ := answers_append.1 hcalls
    exact h.repeat_ hs.1 trivial hs.2 kc nofun kbody
  | forLoop init condition step body =>
    have kloop := hkeeps.repeat_ condition step body
    cases init with
    | none =>
      obtain ⟨hc, hstep, hbody⟩ := hs
      obtain ⟨kc, krest⟩ := answers_append.1 hcalls
      obtain ⟨kstep, kbody⟩ := answers_append.1 krest
      exact .inScope (.bind (.pure ()) fun _ => kloop)
        (.bind (.pure ()) fun _ => h.repeat_ hc hstep hbody kc kstep kbody)
    | some init =>
      obtain ⟨hinit, hc, hstep, hbody⟩ := hs
      obtain ⟨kinit, krest⟩ := answers_append.1 hcalls
      obtain ⟨kc, krest⟩ := answers_append.1 krest
      obtain ⟨kstep, kbody⟩ := answers_append.1 krest
      exact .inScope (.bind (hkeeps.exec init) fun _ => kloop)
        (.bind (h.exec hinit kinit) fun _ => h.repeat_ hc hstep hbody kc kstep kbody)
  | ret value => exact .bind (h.evalOr hs hcalls) fun _ => .pure _
  | print e => exact .bind (h.eval hs hcalls) fun v => .bind (.printLine v) fun _ => .pure _

theorem execAll_succ {body : List Stmt} (hbody : Stmt.AllScoped names body)
    (hcalls : program.Answers callable (Stmt.callsAll body)) :
    (Stmt.execAll program (n + 1) body).Safe names names := by
  cases body with
  | nil => exact .pure _
  | cons s rest =>
    obtain ⟨hs, hrest⟩ := hbody
    obtain ⟨ks, krest⟩ := answers_append.1 hcalls
    have hsub : names ⊆ s.declares ++ names := List.subset_append_right _ _
    refine .bind (h.exec hs ks) fun flow => ?_
    cases flow with
    | normal => exact (h.execAll hrest krest).mono hsub
    | returned v => exact (Safe.pure _).mono hsub

theorem repeat_succ {c : Expr} {step : Option Expr} {body : Stmt} (hc : c.Scoped names)
    (hstep : Expr.ScopedIfAny names step) (hbody : body.Scoped names)
    (kc : program.Answers callable c.calls)
    (kstep : program.Answers callable (Expr.callsIfAny step))
    (kbody : program.Answers callable body.calls) :
    (Stmt.repeat program (n + 1) c step body).Safe names names := by
  refine .bind (h.eval hc kc) fun v => ?_
  split
  · refine .bind (h.branch hbody kbody) fun flow => ?_
    cases flow with
    | normal =>
      exact .bind (h.evalOr hstep kstep) fun _ => h.repeat_ hc hstep hbody kc kstep kbody
    | returned v => exact .pure _
  · exact .pure _

end SafeWith

theorem Closed.safeWith (hclosed : program.Closed callable) (n : Nat) :
    program.SafeWith callable n := by
  induction n with
  | zero =>
    exact ⟨fun _ _ => .unfinished, fun _ _ => .unfinished, fun _ _ => .unfinished,
      fun _ _ => .unfinished, fun _ _ => .unfinished, fun _ _ => .unfinished,
      fun _ _ _ _ _ _ => .unfinished⟩
  | succ n ih =>
    exact ⟨ih.eval_succ, ih.evalAll_succ, ih.evalCall_succ hclosed, ih.evalOr_succ, ih.exec_succ,
      ih.execAll_succ, ih.repeat_succ⟩

/-- Where `main` is not called, its body need not be in scope among its parameters. -/
theorem WellScoped.closed (h : program.WellScoped inputs) :
    program.Closed fun f => f = "main" → program.CallsMain where
  bodies f g hg hf := by
    by_cases hmain : f = "main"
    · subst hmain
      exact h.called g hg (hf rfl)
    · exact h.others f g hg hmain
  answers f g hg call hcall := by
    refine ⟨?_, h.calls f g hg call hcall⟩
    obtain ⟨callee, k⟩ := call
    rintro rfl
    exact ⟨f, g, k, hg, hcall⟩

theorem WellScoped.runMain (h : program.WellScoped (inputs.map Prod.fst)) (fuel : Nat) :
    (program.runMain fuel inputs).Safe [] (inputs.map Prod.fst) := by
  obtain ⟨main, hmain, hbody⟩ := h.main
  rw [Program.runMain, hmain]
  refine .bind (.modifyEnv fun env henv => henv.defineAll inputs) fun _ => ?_
  rw [List.append_nil]
  have hsafe := h.closed.safeWith fuel
  refine .bind (hsafe.execAll hbody (h.closed.answers "main" main hmain)) fun flow => ?_
  cases flow with
  | normal => exact .pure _
  | returned v => exact .ofExcept (.result v)

/-- A run of a program whose names are in scope has no fault of names: every variable it meets is
bound, every function it calls is there and takes the arguments given, and only variables are
stepped. -/
theorem run_wellScoped (h : program.WellScoped (inputs.map Prod.fst))
    (hrun : program.run fuel inputs sink = .failed fault state) : ¬fault.Naming := by
  have hsafe : Exec.Safe [] (inputs.map Prod.fst) (do
      let result ← program.runMain fuel inputs
      Exec.flush
      return result : Exec Int64) :=
    .bind (h.runMain fuel) fun result => .bind .flush fun _ => .pure result
  exact (hsafe ⟨.fresh, sink⟩ Environment.holds_fresh).failed hrun

/-- `int f(int n) { for (int i = 0; i < n; ++i) n = i; return n; } int main() { int y = f(1); return
y / x; }` run with `x = 0` has a fault, but of its values. -/
theorem run_wellScoped_division :
    let loop : Stmt := .forLoop (some (.decl ⟨.int, "i", some (.literal (.int 0))⟩))
      (.binary .less (.var "i") (.var "n")) (some (.unary .increment .before (.var "i")))
      (.expr (.assign "n" (.var "i")))
    let f : Function := ⟨.int, "f", [⟨.int, "n", none⟩], [loop, .ret (some (.var "n"))]⟩
    let main : Function := ⟨.int, "main", [],
      [.decl ⟨.int, "y", some (.call "f" [.literal (.int 1)])⟩,
        .ret (some (.binary .div (.var "y") (.var "x")))]⟩
    let program : Program := ⟨[f, main], []⟩
    let state : State := ⟨⟨[[⟨[("x", .int 0), ("y", .int 0)]⟩]]⟩, .unlimited⟩
    program.WellScoped ["x"] ∧
      program.run 20 [("x", .int 0)] .unlimited = .failed .divisionByZero state ∧
      ¬Fault.divisionByZero.Naming := by
  intro loop f main program state
  have hscoped : program.WellScoped ["x"] := by
    refine ⟨⟨main, rfl, ?_⟩, fun name g hg hname => ?_, fun g hg hcalls => ?_, fun name g hg => ?_⟩
    · simp [main, Stmt.AllScoped, Stmt.Scoped, Stmt.declares, Expr.Scoped, Expr.AllScoped,
        Expr.ScopedIfAny]
    · obtain ⟨hmem, rfl⟩ := mem_of_function? hg
      obtain rfl | rfl : g = f ∨ g = main := by simpa [program] using hmem
      · simp [f, loop, Function.Scoped, Stmt.AllScoped, Stmt.Scoped, Stmt.declares, Expr.Scoped,
          Expr.ScopedIfAny]
      · exact absurd rfl hname
    · obtain ⟨name, callee, k, hcallee, hmem⟩ := hcalls
      obtain ⟨hmain, -⟩ := mem_of_function? hcallee
      obtain rfl | rfl : callee = f ∨ callee = main := by simpa [program] using hmain
      · simp [f, loop, Stmt.callsAll, Stmt.calls, Expr.calls, Expr.callsIfAny] at hmem
      · simp [main, Stmt.callsAll, Stmt.calls, Expr.calls, Expr.callsAll, Expr.callsIfAny] at hmem
    · obtain ⟨hmem, -⟩ := mem_of_function? hg
      obtain rfl | rfl : g = f ∨ g = main := by simpa [program] using hmem
      · exact nofun
      · exact List.forall_mem_singleton.2 ⟨f, rfl, rfl⟩
  have hinputs : program.WellScoped ([("x", Value.int 0)].map Prod.fst) := hscoped
  have hrun : program.run 20 [("x", .int 0)] .unlimited = .failed .divisionByZero state := by
    rfl
  exact ⟨hscoped, hrun, run_wellScoped hinputs hrun⟩

end Program

end MiniC
