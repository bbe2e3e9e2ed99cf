import MiniC.Proofs.Operator.Kinds
import MiniC.Proofs.Run.Values

/-!
# The kinds of the values there are

No kind of value comes from nowhere: what a run stores, passes, returns, prints or computes on its
way is an integer, a bool, or of the kind of a literal or an input (`Program.run_kinds`). So without
strings no operator is ever misused, and without reals the result is not either.
-/

namespace MiniC

-- ---------------------------------------------------------------------------
-- Kinds
-- ---------------------------------------------------------------------------

/-- Kinds that no operator leads out of or refuses: it may always make integers and bools, and
strings are the only operands that it does not take. -/
structure Kind.Numeric (kinds : Kind → Prop) : Prop where
  integer : kinds .integer
  bool : kinds .bool
  string : ¬kinds .string

theorem Kind.numeric_ne_string : Kind.Numeric (· ≠ .string) :=
  ⟨nofun, nofun, fun h => h rfl⟩

theorem Kind.numeric_integral : Kind.Numeric fun k => k = .integer ∨ k = .bool :=
  ⟨.inl rfl, .inr rfl, nofun⟩

def Value.AllOf (kinds : Kind → Prop) (vs : List Value) : Prop :=
  ∀ v ∈ vs, kinds v.kind

def Fault.Fits (kinds : Kind → Prop) : Fault → Prop
  | .misuse (.result k) => kinds k ∧ k ≠ .integer ∧ k ≠ .bool
  | .misuse _ => False
  | _ => True

open Value (AllOf)

theorem Value.allOf_nil {kinds : Kind → Prop} : AllOf kinds [] :=
  List.forall_mem_nil _

theorem Value.allOf_append {kinds : Kind → Prop} :
    AllOf kinds (vs ++ ws) ↔ AllOf kinds vs ∧ AllOf kinds ws :=
  List.forall_mem_append

theorem Value.allOf_cons {kinds : Kind → Prop} :
    AllOf kinds (v :: vs) ↔ kinds v.kind ∧ AllOf kinds vs :=
  List.forall_mem_cons

theorem Value.allOf_singleton {kinds : Kind → Prop} : AllOf kinds [v] ↔ kinds v.kind :=
  List.forall_mem_singleton

theorem Value.AllOf.mono {kinds : Kind → Prop} (h : AllOf kinds vs) (hsub : ws ⊆ vs) :
    AllOf kinds ws :=
  fun v hv => h v (hsub hv)

/-- The values that parameters are bound to are those of the arguments. -/
theorem Value.AllOf.zip {kinds : Kind → Prop} (h : AllOf kinds vs) (names : List String) :
    AllOf kinds ((names.zip vs).map Prod.snd) := by
  refine h.mono fun v hv => ?_
  obtain ⟨⟨x, _⟩, hbinding, rfl⟩ := List.mem_map.1 hv
  exact (List.of_mem_zip hbinding).2

theorem Fault.Arithmetical.fits {fault : Fault} (h : fault.Arithmetical) (kinds : Kind → Prop) :
    fault.Fits kinds := by
  cases fault with
  | misuse m => exact h.elim
  | _ => exact trivial

namespace Kind.Numeric

variable {kinds : Kind → Prop} (h : Kind.Numeric kinds) {left right v : Value}

include h

theorem apply (op : BinaryOp) (hleft : kinds left.kind) (hright : kinds right.kind) :
    Gives (op.apply left right) (fun v => kinds v.kind) (Fault.Fits kinds) := by
  refine (Gives.apply op left right).mono (fun v hv => ?_) fun f hf => ?_
  · simp only [Value.MadeOf, List.mem_cons, List.not_mem_nil, or_false] at hv
    rcases hv with hv | hv | hv | hv <;> rw [hv]
    · exact h.integer
    · exact h.bool
    · exact hleft
    · exact hright
  · rcases hf with hf | ⟨-, hf | hf⟩
    · exact hf.fits kinds
    · exact absurd (hf ▸ hleft) h.string
    · exact absurd (hf ▸ hright) h.string

theorem negate (hv : kinds v.kind) :
    Gives v.negate (fun v => kinds v.kind) (Fault.Fits kinds) := by
  refine (Gives.negate v).mono (fun w hw => ?_) fun f hf => ?_
  · rcases hw with hw | hw <;> rw [hw]
    · exact h.integer
    · exact hv
  · rcases hf with hf | ⟨-, hf⟩
    · exact hf.fits kinds
    · exact absurd (hf ▸ hv) h.string

end Kind.Numeric

theorem Value.result_fits {kinds : Kind → Prop} {v : Value} (hv : kinds v.kind) :
    Gives v.result (fun _ => True) (Fault.Fits kinds) := by
  refine (Gives.result v).mono (fun _ _ => trivial) ?_
  rintro _ ⟨rfl, hinteger, hbool⟩
  exact ⟨hv, hinteger, hbool⟩

-- ---------------------------------------------------------------------------
-- Computations
-- ---------------------------------------------------------------------------

namespace Exec

variable {kinds : Kind → Prop} {m : Exec α} {yields : α → List Value} {given : β → List Value}

/-- Started where the variables hold values of these kinds, the computation yields such values and
leaves such values in the variables, however it ends, and has no fault that does not fit. -/
def Within (kinds : Kind → Prop) (m : Exec α) (yields : α → List Value) : Prop :=
  ∀ s, AllOf kinds s.env.values →
    m.Ends s (fun a t => AllOf kinds (yields a) ∧ AllOf kinds t.env.values)
      fun f t => f.Fits kinds ∧ AllOf kinds t.env.values

namespace Within

protected theorem pure {a : α} (h : AllOf kinds (yields a)) :
    (pure a : Exec α).Within kinds yields :=
  fun _ hs => .pure ⟨h, hs⟩

theorem unfinished : (Exec.unfinished : Exec α).Within kinds yields :=
  fun _ _ => .unfinished

theorem fail {fault : Fault} (h : fault.Fits kinds) :
    (Exec.fail fault : Exec α).Within kinds yields :=
  fun _ hs => ⟨h, hs⟩

protected theorem bind {second : α → Exec β} (h : m.Within kinds yields)
    (k : ∀ a, AllOf kinds (yields a) → (second a).Within kinds given) :
    (m >>= second).Within kinds given :=
  fun s hs => (h s hs).bind fun a t ht => k a ht.1 t ht.2

theorem values (h : m.Within kinds yields) :
    (do return yields (← m) : Exec (List Value)).Within kinds id :=
  .bind h fun _ ha => .pure ha

theorem ofExcept {x : Except Fault α} {P : α → Prop} (h : Gives x P (Fault.Fits kinds))
    (hP : ∀ a, P a → AllOf kinds (yields a)) : (Exec.ofExcept x).Within kinds yields := by
  cases x with
  | ok a => exact .pure (hP a h)
  | error fault => exact .fail h

theorem calculate {x : Except Fault Value}
    (h : Gives x (fun v => kinds v.kind) (Fault.Fits kinds)) :
    (Exec.ofExcept x).Within kinds ([·]) :=
  .ofExcept h fun _ => Value.allOf_singleton.2

theorem lookup (name : String) : (Exec.lookup name).Within kinds ([·]) := by
  intro s hs
  unfold Ends Exec.lookup
  cases hget : s.env.get? name with
  | none => exact ⟨trivial, hs⟩
  | some v => exact ⟨Value.allOf_singleton.2 (hs v (Environment.mem_values hget)), hs⟩

theorem assign {value : Value} (hv : kinds value.kind) (name : String) :
    (Exec.assign name value).Within kinds fun _ => [] := by
  intro s hs
  unfold Ends Exec.assign
  cases hassign : s.env.assign? name value with
  | none => exact ⟨trivial, hs⟩
  | some env =>
    exact ⟨Value.allOf_nil, (Value.allOf_cons.2 ⟨hv, hs⟩).mono (Environment.values_assign? hassign)⟩

theorem defineAll {bindings : List (String × Value)} (h : AllOf kinds (bindings.map Prod.snd)) :
    (Exec.modifyEnv (·.defineAll bindings)).Within kinds fun _ => [] := fun s hs =>
  ⟨Value.allOf_nil, (Value.allOf_append.2 ⟨h, hs⟩).mono (s.env.values_defineAll bindings)⟩

theorem define {value : Value} (hv : kinds value.kind) (name : String) :
    (Exec.define name value).Within kinds fun _ => [] := fun s hs =>
  ⟨Value.allOf_nil, (Value.allOf_cons.2 ⟨hv, hs⟩).mono (s.env.values_define name value)⟩

theorem printLine (value : Value) : (Exec.printLine value).Within kinds fun _ => [] := by
  intro s hs
  unfold Ends Exec.printLine
  rcases s.sink.write (value.text ++ "\n") with ⟨sink, _ | refusal⟩
  · exact ⟨Value.allOf_nil, hs⟩
  · exact ⟨trivial, hs⟩

theorem flush : Exec.flush.Within kinds fun _ => [] := by
  intro s hs
  unfold Ends Exec.flush
  cases s.sink.flush with
  | none => exact ⟨Value.allOf_nil, hs⟩
  | some refusal => exact ⟨trivial, hs⟩

theorem step (hkinds : Kind.Numeric kinds) (op : BinaryOp) (side : Side) (name : String) :
    (Exec.step op side name).Within kinds ([·]) := by
  rw [Exec.step_eq]
  refine .bind (.lookup name) fun old hold => ?_
  have hone : kinds (Value.int 1).kind := hkinds.integer
  have hnew := hkinds.apply op (Value.allOf_singleton.1 hold) hone
  refine .bind (.calculate hnew) fun new hnew => ?_
  refine .bind (.assign (Value.allOf_singleton.1 hnew) name) fun _ _ => ?_
  cases side with
  | before => exact .pure hnew
  | after => exact .pure hold

theorem bracket {change undo : Environment → Environment}
    (hchange : ∀ env, (change env).values ⊆ env.values)
    (hundo : ∀ env, (undo env).values ⊆ env.values) (h : m.Within kinds yields) :
    (m.bracket change undo).Within kinds yields := fun _ hs =>
  .bracket ((h _ (hs.mono (hchange _))).mono (fun _ _ ht => ⟨ht.1, ht.2.mono (hundo _)⟩)
    fun _ _ ht => ⟨ht.1, ht.2.mono (hundo _)⟩)

theorem inScope (h : m.Within kinds yields) : (Exec.inScope m).Within kinds yields :=
  .bracket Environment.values_pushScope Environment.values_popScope h

theorem inFrame (h : m.Within kinds yields) : (Exec.inFrame m).Within kinds yields :=
  .bracket Environment.values_pushFrame Environment.values_popFrame h

end Within

end Exec

-- ---------------------------------------------------------------------------
-- Programs
-- ---------------------------------------------------------------------------

namespace Program

variable {program : Program} {kinds : Kind → Prop}

structure KeepsKinds (program : Program) (kinds : Kind → Prop) (n : Nat) : Prop where
  eval : ∀ {e : Expr}, AllOf kinds e.literals → (e.eval program n).Within kinds ([·])
  evalAll : ∀ {es}, AllOf kinds (Expr.literalsAll es) →
    (Expr.evalAll program n es).Within kinds id
  evalCall : ∀ f {args}, AllOf kinds (Expr.literalsAll args) →
    (Expr.evalCall program n f args).Within kinds ([·])
  evalOr : ∀ {e}, AllOf kinds (Expr.literalsIfAny e) →
    (Expr.evalOr program n e).Within kinds ([·])
  exec : ∀ {s : Stmt}, AllOf kinds s.literals → (s.exec program n).Within kinds Flow.values
  execAll : ∀ {body}, AllOf kinds (Stmt.literalsAll body) →
    (Stmt.execAll program n body).Within kinds Flow.values
  repeat_ : ∀ {c : Expr} {step} {body : Stmt}, AllOf kinds c.literals →
    AllOf kinds (Expr.literalsIfAny step) → AllOf kinds body.literals →
    (Stmt.repeat program n c step body).Within kinds Flow.values

namespace KeepsKinds

open Exec (Within)

variable {n : Nat} (h : program.KeepsKinds kinds n) (hkinds : Kind.Numeric kinds)

include h

section

include hkinds

theorem eval_succ {e : Expr} (he : AllOf kinds e.literals) :
    (e.eval program (n + 1)).Within kinds ([·]) := by
  cases e with
  | literal v => exact .pure he
  | var x => exact .lookup x
  | binary op left right =>
    obtain ⟨hleft, hright⟩ := Value.allOf_append.1 he
    refine .bind (h.eval hleft) fun a ha => .bind (h.eval hright) fun b hb => .calculate ?_
    exact hkinds.apply op (Value.allOf_singleton.1 ha) (Value.allOf_singleton.1 hb)
  | unary op side operand =>
    cases op with
    | negate =>
      refine .bind (h.eval he) fun v hv => .calculate ?_
      exact hkinds.negate (Value.allOf_singleton.1 hv)
    | not => exact .bind (h.eval he) fun _ _ => .pure (Value.allOf_singleton.2 hkinds.bool)
    | increment =>
      cases operand with
      | var x => exact Within.step hkinds .add side x
      | _ => exact .fail trivial
    | decrement =>
      cases operand with
      | var x => exact Within.step hkinds .sub side x
      | _ => exact .fail trivial
  | assign x e =>
    exact .bind (h.eval he) fun v hv =>
      .bind (.assign (Value.allOf_singleton.1 hv) x) fun _ _ => .pure hv
  | call f args => exact h.evalCall f he

theorem evalOr_succ {e : Option Expr} (he : AllOf kinds (Expr.literalsIfAny e)) :
    (Expr.evalOr program (n + 1) e).Within kinds ([·]) := by
  cases e with
  | none => exact .pure (Value.allOf_singleton.2 hkinds.integer)
  | some e => exact h.eval he

theorem applyTo {g : Function} (hg : AllOf kinds (Stmt.literalsAll g.body)) {values : List Value}
    (hvalues : AllOf kinds values) : (g.applyTo program n values).Within kinds ([·]) := by
  refine .bind (.defineAll (hvalues.zip _)) fun _ _ => .bind (h.execAll hg) fun flow hflow => ?_
  cases flow with
  | normal => exact .pure (Value.allOf_singleton.2 hkinds.integer)
  | returned v => exact .pure hflow

theorem evalCall_succ (hprogram : AllOf kinds program.literals) (f : String) {args : List Expr}
    (hargs : AllOf kinds (Expr.literalsAll args)) :
    (Expr.evalCall program (n + 1) f args).Within kinds ([·]) := by
  rw [Expr.evalCall]
  split
  · exact .fail trivial
  next g hg =>
    split
    · exact .fail trivial
    · have hbody := hprogram.mono (literals_function? hg)
      exact .bind (h.evalAll hargs) fun values hvalues => .inFrame (h.applyTo hkinds hbody hvalues)

end

theorem evalAll_succ {es : List Expr} (hes : AllOf kinds (Expr.literalsAll es)) :
    (Expr.evalAll program (n + 1) es).Within kinds id := by
  cases es with
  | nil => exact .pure Value.allOf_nil
  | cons e es =>
    obtain ⟨he, hrest⟩ := Value.allOf_append.1 hes
    exact .bind (h.eval he) fun v hv => .bind (h.evalAll hrest) fun vs hvs =>
      .pure (Value.allOf_cons.2 ⟨Value.allOf_singleton.1 hv, hvs⟩)

theorem exec_succ {s : Stmt} (hs : AllOf kinds s.literals) :
    (s.exec program (n + 1)).Within kinds Flow.values := by
  cases s with
  | expr e => exact .bind (h.eval hs) fun _ _ => .pure Value.allOf_nil
  | decl d =>
    exact .bind (h.evalOr hs) fun v hv =>
      .bind (.define (Value.allOf_singleton.1 hv) d.name) fun _ _ => .pure Value.allOf_nil
  | block body => exact .inScope (h.execAll hs)
  | ifElse condition yes no =>
    obtain ⟨hc, hbranches⟩ := Value.allOf_append.1 hs
    obtain ⟨hyes, hno⟩ := Value.allOf_append.1 hbranches
    refine .bind (h.eval hc) fun v _ => ?_
    split
    · exact h.exec hyes
    · cases no with
      | some s => exact h.exec hno
      | none => exact .pure Value.allOf_nil
  | whileLoop condition body =>
    obtain ⟨hc, hbody⟩ := Value.allOf_append.1 hs
    exact h.repeat_ hc Value.allOf_nil hbody
  | forLoop init condition step body =>
    obtain ⟨hinit, hrest⟩ := Value.allOf_append.1 hs
    obtain ⟨hc, hrest⟩ := Value.allOf_append.1 hrest
    obtain ⟨hstep, hbody⟩ := Value.allOf_append.1 hrest
    have hloop := h.repeat_ hc hstep hbody
    cases init with
    | some s => exact .inScope (.bind (h.exec hinit) fun _ _ => hloop)
    | none =>
      have hnone : (pure () : Exec Unit).Within kinds fun _ => [] := .pure Value.allOf_nil
      exact .inScope (.bind hnone fun _ _ => hloop)
  | ret value => exact .bind (h.evalOr hs) fun _ hv => .pure hv
  | print e =>
    exact .bind (h.eval hs) fun v _ => .bind (.printLine v) fun _ _ => .pure Value.allOf_nil

theorem execAll_succ {body : List Stmt} (hbody : AllOf kinds (Stmt.literalsAll body)) :
    (Stmt.execAll program (n + 1) body).Within kinds Flow.values := by
  cases body with
  | nil => exact .pure Value.allOf_nil
  | cons s rest =>
    obtain ⟨hs, hrest⟩ := Value.allOf_append.1 hbody
    rw [Stmt.execAll]
    refine .bind (h.exec hs) fun flow hflow => ?_
    cases flow with
    | normal => exact h.execAll hrest
    | returned v => exact .pure hflow

theorem repeat_succ {c : Expr} {step : Option Expr} {body : Stmt} (hc : AllOf kinds c.literals)
    (hstep : AllOf kinds (Expr.literalsIfAny step)) (hbody : AllOf kinds body.literals) :
    (Stmt.repeat program (n + 1) c step body).Within kinds Flow.values := by
  rw [Stmt.repeat]
  refine .bind (h.eval hc) fun v _ => ?_
  split
  · refine .bind (h.exec hbody) fun flow hflow => ?_
    cases flow with
    | normal => exact .bind (h.evalOr hstep) fun _ _ => h.repeat_ hc hstep hbody
    | returned v => exact .pure hflow
  · exact .pure Value.allOf_nil

end KeepsKinds

theorem keepsKinds (hkinds : Kind.Numeric kinds) (hprogram : AllOf kinds program.literals)
    (n : Nat) : program.KeepsKinds kinds n := by
  induction n with
  | zero =>
    exact ⟨fun _ => .unfinished, fun _ => .unfinished, fun _ _ _ => .unfinished,
      fun _ => .unfinished, fun _ => .unfinished, fun _ => .unfinished,
      fun _ _ _ => .unfinished⟩
  | succ n ih =>
    exact ⟨ih.eval_succ hkinds, ih.evalAll_succ, ih.evalCall_succ hkinds hprogram,
      ih.evalOr_succ hkinds, ih.exec_succ, ih.execAll_succ, ih.repeat_succ⟩

theorem runMain_within (hkinds : Kind.Numeric kinds) (hprogram : AllOf kinds program.literals)
    {inputs : List (String × Value)} (hinputs : AllOf kinds (inputs.map Prod.snd)) (n : Nat) :
    (program.runMain n inputs).Within kinds fun result => [.int result] := by
  have hint : ∀ result : Int64, AllOf kinds [.int result] := fun _ =>
    Value.allOf_singleton.2 hkinds.integer
  rw [runMain]
  split
  · exact .fail trivial
  next main hmain =>
    have hbody := hprogram.mono (literals_function? hmain)
    refine .bind (.defineAll hinputs) fun _ _ => ?_
    refine .bind ((keepsKinds hkinds hprogram n).execAll hbody) fun flow hflow => ?_
    cases flow with
    | normal => exact .pure (hint _)
    | returned v =>
      have hfits := Value.result_fits (Value.allOf_singleton.1 hflow)
      exact .ofExcept hfits fun result _ => hint result

-- ---------------------------------------------------------------------------
-- On the way
-- ---------------------------------------------------------------------------

def OfKinds (kinds : Kind → Prop) (p : Phrase × State) : Prop :=
  AllOf kinds p.1.literals ∧ AllOf kinds p.2.env.values

section

variable (hkinds : Kind.Numeric kinds) (hprogram : AllOf kinds program.literals)

include hkinds hprogram

theorem exec_within {part : Phrase} (hpart : AllOf kinds part.literals) (n : Nat) :
    (part.exec program n).Within kinds id := by
  have hkeeps := keepsKinds hkinds hprogram n
  cases part with
  | expr e => exact (hkeeps.eval hpart).values
  | exprs es => exact hkeeps.evalAll hpart
  | stmt s => exact (hkeeps.exec hpart).values
  | stmts body => exact (hkeeps.execAll hpart).values
  | loop c step body =>
    obtain ⟨hc, hrest⟩ := Value.allOf_append.1 hpart
    obtain ⟨hstep, hbody⟩ := Value.allOf_append.1 hrest
    exact (hkeeps.repeat_ hc hstep hbody).values
  | main inputs => exact (runMain_within hkinds hprogram hpart n).values

theorem allOf_eval {e : Expr} (he : AllOf kinds e.literals) (hs : AllOf kinds s.env.values)
    (hdone : e.eval program n s = .done v t) : AllOf kinds t.env.values :=
  ((keepsKinds hkinds hprogram n).eval he s hs).done hdone |>.2

theorem allOf_evalAll (hes : AllOf kinds (Expr.literalsAll es)) (hs : AllOf kinds s.env.values)
    (hdone : Expr.evalAll program n es s = .done vs t) :
    AllOf kinds vs ∧ AllOf kinds t.env.values :=
  ((keepsKinds hkinds hprogram n).evalAll hes s hs).done hdone

theorem allOf_evalOr {e : Option Expr} (he : AllOf kinds (Expr.literalsIfAny e))
    (hs : AllOf kinds s.env.values) (hdone : Expr.evalOr program n e s = .done v t) :
    AllOf kinds [v] ∧ AllOf kinds t.env.values :=
  ((keepsKinds hkinds hprogram n).evalOr he s hs).done hdone

theorem allOf_exec {c : Stmt} (hc : AllOf kinds c.literals) (hs : AllOf kinds s.env.values)
    (hdone : c.exec program n s = .done flow t) : AllOf kinds t.env.values :=
  ((keepsKinds hkinds hprogram n).exec hc s hs).done hdone |>.2

theorem Enters.allOf_values (h : program.Enters p q) (hp : OfKinds kinds p) :
    AllOf kinds q.2.env.values := by
  obtain ⟨hlits, hvalues⟩ := hp
  cases h with
  | right hleft =>
    exact allOf_eval hkinds hprogram (Value.allOf_append.1 hlits).1 hvalues hleft
  | called _ hargs =>
    obtain ⟨hvs, ht⟩ := allOf_evalAll hkinds hprogram hlits hvalues hargs
    have hframe := ht.mono (Environment.values_pushFrame _)
    exact (Value.allOf_append.2 ⟨hvs.zip _, hframe⟩).mono (Environment.values_defineAll _ _)
  | moreArgs he => exact allOf_eval hkinds hprogram (Value.allOf_append.1 hlits).1 hvalues he
  | block => exact hvalues.mono (Environment.values_pushScope _)
  | yes hc _ => exact allOf_eval hkinds hprogram (Value.allOf_append.1 hlits).1 hvalues hc
  | no hc _ => exact allOf_eval hkinds hprogram (Value.allOf_append.1 hlits).1 hvalues hc
  | start => exact hvalues.mono (Environment.values_pushScope _)
  | started hinit =>
    exact allOf_exec (s := ⟨_, _⟩) hkinds hprogram (Value.allOf_append.1 hlits).1
      (hvalues.mono (Environment.values_pushScope _)) hinit
  | forLoop => exact hvalues.mono (Environment.values_pushScope _)
  | rest hc => exact allOf_exec hkinds hprogram (Value.allOf_append.1 hlits).1 hvalues hc
  | round hc _ => exact allOf_eval hkinds hprogram (Value.allOf_append.1 hlits).1 hvalues hc
  | step hc _ hbody =>
    obtain ⟨hclits, hrest⟩ := Value.allOf_append.1 hlits
    have ht := allOf_eval hkinds hprogram hclits hvalues hc
    exact allOf_exec hkinds hprogram (Value.allOf_append.1 hrest).2 ht hbody
  | again hc _ hbody hstep =>
    obtain ⟨hclits, hrest⟩ := Value.allOf_append.1 hlits
    obtain ⟨hsteplits, hbodylits⟩ := Value.allOf_append.1 hrest
    have ht := allOf_eval hkinds hprogram hclits hvalues hc
    have hu := allOf_exec hkinds hprogram hbodylits ht hbody
    exact (allOf_evalOr hkinds hprogram hsteplits hu hstep).2
  | main _ => exact (Value.allOf_append.2 ⟨hlits, hvalues⟩).mono (Environment.values_defineAll _ _)
  | _ => exact hvalues

theorem Enters.ofKinds (h : program.Enters p q) (hp : OfKinds kinds p) : OfKinds kinds q :=
  ⟨(Value.allOf_append.2 ⟨hp.1, hprogram⟩).mono h.literals, h.allOf_values hkinds hprogram hp⟩

theorem ofKinds_of_enters (h : Relation.ReflTransGen program.Enters p q) (hp : OfKinds kinds p) :
    OfKinds kinds q := by
  induction h with
  | refl => exact hp
  | tail _ h ih => exact h.ofKinds hkinds hprogram ih

theorem Declares.ofKinds (h : program.Declares p env x v) (hp : OfKinds kinds p) :
    kinds v.kind := by
  obtain ⟨hlits, hvalues⟩ := hp
  cases h with
  | init hinit => exact Value.allOf_singleton.1 (allOf_evalOr hkinds hprogram hlits hvalues hinit).1
  | param _ hargs hzip =>
    have hmem := List.of_mem_zip (hzip ▸ List.mem_append_right _ List.mem_cons_self)
    exact (allOf_evalAll hkinds hprogram hlits hvalues hargs).1 _ hmem.2
  | input _ => exact hlits _ (List.mem_map_of_mem (List.mem_append_right _ List.mem_cons_self))

theorem Meets.ofKinds (h : program.Meets p v) (hp : OfKinds kinds p) : kinds v.kind := by
  cases h with
  | before hv => exact hp.2 _ hv
  | declared hdeclares => exact hdeclares.ofKinds hkinds hprogram hp
  | after hfinal hv =>
    have hends := fun n => exec_within hkinds hprogram hp.1 n _ hp.2
    exact ((hends _).mono (fun _ _ ht => ht.2) fun _ _ ht => ht.2).final hfinal _ hv
  | yielded hdone hv => exact ((exec_within hkinds hprogram hp.1 _ _ hp.2).done hdone).1 _ hv

end

/-- What a run meets is of the kinds of the literals and of the inputs, and so is what its result
is refused for. -/
theorem run_ofKinds (hkinds : Kind.Numeric kinds) (hprogram : AllOf kinds program.literals)
    {inputs : List (String × Value)} (hinputs : AllOf kinds (inputs.map Prod.snd)) (sink : Sink) :
    (∀ v, program.RunMeets inputs sink v → kinds v.kind) ∧
      ∀ fuel fault t, program.run fuel inputs sink = .failed fault t → fault.Fits kinds := by
  refine ⟨?_, fun fuel fault t hrun => ?_⟩
  · rintro v ⟨q, hway, hmeets⟩
    exact hmeets.ofKinds hkinds hprogram (ofKinds_of_enters hkinds hprogram hway ⟨hinputs, nofun⟩)
  · have hwithin : Exec.Within kinds (do
        let result ← program.runMain fuel inputs
        Exec.flush
        return result : Exec Int64) fun result => [.int result] :=
      .bind (runMain_within hkinds hprogram hinputs fuel) fun _ hresult =>
        .bind .flush fun _ _ => .pure hresult
    exact ((hwithin ⟨.fresh, sink⟩ Value.allOf_nil).failed hrun).1

/-- Without strings in the program and in the inputs a run meets none, and the only kind that it may
refuse is a real for its result. Without reals too it only meets integers and bools, and refuses no
kind. -/
theorem run_kinds {inputs : List (String × Value)}
    (hprogram : ∀ v ∈ program.literals, v.kind ≠ .string)
    (hinputs : ∀ v ∈ inputs.map Prod.snd, v.kind ≠ .string) :
    (∀ sink v, program.RunMeets inputs sink v → v.kind ≠ .string) ∧
      (∀ fuel sink m t, program.run fuel inputs sink = .failed (.misuse m) t → m = .result .real) ∧
      ((∀ v ∈ program.literals, v.kind ≠ .real) → (∀ v ∈ inputs.map Prod.snd, v.kind ≠ .real) →
        (∀ sink v, program.RunMeets inputs sink v → v.kind = .integer ∨ v.kind = .bool) ∧
        ∀ fuel sink m t, program.run fuel inputs sink ≠ .failed (.misuse m) t) := by
  have hnone := run_ofKinds Kind.numeric_ne_string hprogram hinputs
  refine ⟨fun sink => (hnone sink).1, fun fuel sink m t hrun => ?_, fun hreals hinputs' => ?_⟩
  · have hfits := (hnone sink).2 _ _ _ hrun
    cases m with
    | result k =>
      obtain ⟨hstring, hinteger, hbool⟩ := hfits
      cases k with
      | integer => exact absurd rfl hinteger
      | real => rfl
      | bool => exact absurd rfl hbool
      | string => exact absurd rfl hstring
    | _ => exact hfits.elim
  · have hintegral : ∀ v : Value, v.kind ≠ .string → v.kind ≠ .real →
        v.kind = .integer ∨ v.kind = .bool := by
      intro v hstring hreal
      cases v with
      | int n => exact .inl rfl
      | real r => exact absurd rfl hreal
      | bool b => exact .inr rfl
      | str s => exact absurd rfl hstring
    have hall := run_ofKinds Kind.numeric_integral
      (fun v hv => hintegral v (hprogram v hv) (hreals v hv))
      (fun v hv => hintegral v (hinputs v hv) (hinputs' v hv))
    refine ⟨fun sink => (hall sink).1, fun fuel sink m t hrun => ?_⟩
    have hfits := (hall sink).2 _ _ _ hrun
    cases m with
    | result k =>
      obtain ⟨hk, hinteger, hbool⟩ := hfits
      exact hk.elim hinteger hbool
    | _ => exact hfits.elim

/-- `int twice(int n) { return n + n * 1; } int main() { bool b = twice(k) > k; return x; }` has no
strings and no reals. If `x` is real, that is the only value that is not taken, and only as the
result; if it is a bool, nothing is refused. -/
theorem run_kinds_result :
    let twice : Function := ⟨.int, "twice", [⟨.int, "n", none⟩],
      [.ret (some (.binary .add (.var "n") (.binary .mul (.var "n") (.literal (.int 1)))))]⟩
    let main : Function := ⟨.int, "main", [],
      [.decl ⟨.bool, "b", some (.binary .greater (.call "twice" [.var "k"]) (.var "k"))⟩,
        .ret (some (.var "x"))]⟩
    let program : Program := ⟨[twice, main], []⟩
    let inputs (x : Value) : List (String × Value) := [("k", .int 3), ("x", x)]
    let state : State :=
      ⟨⟨[[⟨[("k", .int 3), ("x", .real 0.5), ("b", .bool true)]⟩]]⟩, .unlimited⟩
    program.run 20 (inputs (.real 0.5)) .unlimited = .failed (.misuse (.result .real)) state ∧
      program.RunMeets (inputs (.real 0.5)) .unlimited (.bool true) ∧
      (∀ v, program.RunMeets (inputs (.real 0.5)) .unlimited v → v.kind ≠ .string) ∧
      (∀ v, program.RunMeets (inputs (.bool true)) .unlimited v →
        v.kind = .integer ∨ v.kind = .bool) ∧
      ∀ fuel m t, program.run fuel (inputs (.bool true)) .unlimited ≠ .failed (.misuse m) t := by
  intro twice main program inputs state
  have hprogram : program.literals = [.int 1] := rfl
  have hstrings : ∀ v ∈ program.literals, v.kind ≠ .string := by simp [hprogram, Value.kind]
  have hreals : ∀ v ∈ program.literals, v.kind ≠ .real := by simp [hprogram, Value.kind]
  have hinputs : ∀ v ∈ (inputs (.real 0.5)).map Prod.snd, v.kind ≠ .string := by
    simp [inputs, Value.kind]
  have hbools : ∀ v ∈ (inputs (.bool true)).map Prod.snd, v.kind ≠ .string ∧ v.kind ≠ .real := by
    simp [inputs, Value.kind]
  have hreal := run_kinds hstrings hinputs
  have hbool := run_kinds hstrings fun v hv => (hbools v hv).1
  obtain ⟨hmeets, hruns⟩ := hbool.2.2 hreals fun v hv => (hbools v hv).2
  have hrun : program.run 20 (inputs (.real 0.5)) .unlimited =
      .failed (.misuse (.result .real)) state := rfl
  have hfinal : (Phrase.exec program 20 (.main (inputs (.real 0.5)))
      ⟨.fresh, .unlimited⟩).final? = some state := rfl
  have hmet : program.RunMeets (inputs (.real 0.5)) .unlimited (.bool true) :=
    ⟨_, .refl, .after hfinal (.tail _ (.tail _ (.head _)))⟩
  exact ⟨hrun, hmet, fun v => hreal.1 .unlimited v, fun v => hmeets .unlimited v,
    fun fuel => hruns fuel .unlimited⟩

end Program

end MiniC
