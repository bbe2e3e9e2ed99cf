import Mathlib.Logic.Relation
import MiniC.Proofs.Run.Names
import MiniC.Proofs.Run.Phrase

/-!
# The stack of frames and scopes

Whatever is executed, and however it ends, it closes the scopes and frames that it opens
(`Program.keeps_stack`). So there is a current scope all the time, and whatever is declared is
bound.
-/

namespace MiniC

namespace Environment

variable {env env' : Environment}

def Proper (env : Environment) : Prop :=
  env.frames ≠ [] ∧ ∀ frame ∈ env.frames, frame ≠ []

theorem Proper.frames_eq (h : env.Proper) :
    ∃ scope outer callers, env.frames = (scope :: outer) :: callers := by
  obtain ⟨frame, callers, hframes⟩ := List.exists_cons_of_ne_nil h.1
  have hframe : frame ≠ [] := h.2 frame (by simp [hframes])
  obtain ⟨scope, outer, rfl⟩ := List.exists_cons_of_ne_nil hframe
  exact ⟨scope, outer, callers, hframes⟩

theorem Proper.moreNames (h : env.Proper) (hmore : env.MoreNames env') : env'.Proper := by
  obtain ⟨scope, outer, callers, hframes⟩ := h.frames_eq
  obtain ⟨scope', outer', hframes', -, -⟩ := hmore scope outer callers hframes
  have hcallers : ∀ frame ∈ callers, frame ≠ [] := fun frame hframe =>
    h.2 frame (by simp [hframes, hframe])
  refine ⟨by simp [hframes'], ?_⟩
  rw [hframes']
  exact List.forall_mem_cons.2 ⟨List.cons_ne_nil _ _, hcallers⟩

theorem Proper.sameNames (h : env.Proper) (hsame : env.SameNames env') : env'.Proper :=
  h.moreNames hsame.moreNames

theorem Proper.pushScope (h : env.Proper) : env.pushScope.Proper := by
  obtain ⟨scope, outer, callers, hframes⟩ := h.frames_eq
  have hcallers : ∀ frame ∈ callers, frame ≠ [] := fun frame hframe =>
    h.2 frame (by simp [hframes, hframe])
  constructor
  · simp [Environment.pushScope, modifyFrame, hframes]
  · simpa [Environment.pushScope, modifyFrame, hframes] using hcallers

theorem Proper.pushFrame (h : env.Proper) : env.pushFrame.Proper :=
  ⟨List.cons_ne_nil _ _, List.forall_mem_cons.2 ⟨List.cons_ne_nil _ _, h.2⟩⟩

theorem Proper.defineAll (h : env.Proper) (bindings : List (String × Value)) :
    (env.defineAll bindings).Proper :=
  h.moreNames (env.moreNames_defineAll bindings)

theorem proper_fresh : fresh.Proper :=
  ⟨List.cons_ne_nil _ _, List.forall_mem_singleton.2 (List.cons_ne_nil _ _)⟩

/-- Where there is a current scope, a declaration is not lost. -/
theorem Proper.get?_define (h : env.Proper) (x : String) (v : Value) :
    (env.define x v).get? x = some v := by
  obtain ⟨scope, outer, callers, hframes⟩ := h.frames_eq
  simp [Environment.get?, define, modifyFrame, hframes, Frame.get?_define]

end Environment

def Stmt.Scoping : Stmt → Prop
  | .block _ => True
  | .forLoop .. => True
  | _ => False

-- ---------------------------------------------------------------------------
-- On the way
-- ---------------------------------------------------------------------------

namespace Program

variable {program : Program} {p q : Phrase × State} {s t : State} {env : Environment}

theorem proper_eval {e : Expr} (hs : s.env.Proper) (he : e.eval program n s = .done v t) :
    t.env.Proper :=
  hs.sameNames (((program.keepsNames n).eval e).done he)

theorem proper_evalAll (hs : s.env.Proper) (hes : Expr.evalAll program n es s = .done vs t) :
    t.env.Proper :=
  hs.sameNames (((program.keepsNames n).evalAll es).done hes)

theorem proper_evalOr (hs : s.env.Proper) (he : Expr.evalOr program n e s = .done v t) :
    t.env.Proper :=
  hs.sameNames (((program.keepsNames n).evalOr e).done he)

theorem proper_exec {c : Stmt} (hs : s.env.Proper) (hc : c.exec program n s = .done flow t) :
    t.env.Proper :=
  hs.moreNames (((program.keepsNames n).exec c).done hc)

theorem Enters.proper (h : program.Enters p q) (hp : p.2.env.Proper) : q.2.env.Proper := by
  cases h with
  | right hleft => exact proper_eval hp hleft
  | called _ hargs => exact (proper_evalAll hp hargs).pushFrame.defineAll _
  | moreArgs he => exact proper_eval hp he
  | block => exact hp.pushScope
  | yes hc _ => exact proper_eval hp hc
  | no hc _ => exact proper_eval hp hc
  | start => exact hp.pushScope
  | started hinit => exact proper_exec (s := ⟨_, _⟩) hp.pushScope hinit
  | forLoop => exact hp.pushScope
  | rest hc => exact proper_exec hp hc
  | round hc _ => exact proper_eval hp hc
  | step hc _ hbody => exact proper_exec (proper_eval hp hc) hbody
  | again hc _ hbody hstep => exact proper_evalOr (proper_exec (proper_eval hp hc) hbody) hstep
  | main _ => exact hp.defineAll _
  | _ => exact hp

theorem proper_of_enters (h : Relation.ReflTransGen program.Enters p q) (hp : p.2.env.Proper) :
    q.2.env.Proper := by
  induction h with
  | refl => exact hp
  | tail _ h ih => exact h.proper ih

theorem proper_of_run {inputs : List (String × Value)} {sink : Sink} {part : Phrase}
    (h : Relation.ReflTransGen program.Enters (.main inputs, ⟨.fresh, sink⟩) (part, t)) :
    t.env.Proper :=
  proper_of_enters h Environment.proper_fresh

theorem Declares.proper (h : program.Declares p env x v) (hp : p.2.env.Proper) : env.Proper := by
  cases h with
  | init hinit => exact proper_evalOr hp hinit
  | param _ hargs _ => exact (proper_evalAll hp hargs).pushFrame.defineAll _
  | input _ => exact hp.defineAll _

-- ---------------------------------------------------------------------------
-- At the end
-- ---------------------------------------------------------------------------

theorem keeps_scoping {c : Stmt} (h : c.Scoping) (n : Nat) :
    (c.exec program n).Keeps Environment.SameNames := by
  cases n with
  | zero => exact .unfinished
  | succ n =>
    have hkeeps := program.keepsNames n
    cases c with
    | block body => exact Exec.keeps_inScope (hkeeps.execAll body)
    | forLoop init condition step body =>
      have hloop := hkeeps.repeat_ condition step body
      cases init with
      | some init => exact Exec.keeps_inScope (.bind (hkeeps.exec init) fun _ => hloop)
      | none => exact Exec.keeps_inScope (.bind (.pure ()) fun _ => hloop)
    | _ => exact h.elim

/-- However an expression, a statement or a list of statements ends, the frames below the current
one are as they were, and the current one has the scopes that it had, with the names that they had;
only a statement may have added names, and only to the innermost scope, unless it has a scope of its
own. On the way there is a current scope all the time, and no declaration is lost. -/
theorem keeps_stack (program : Program) {s : State} (hs : s.env.Proper) :
    (∀ n (e : Expr) t, (e.eval program n s).final? = some t →
      s.env.SameNames t.env ∧ t.env.Proper) ∧
    (∀ n (c : Stmt) t, (c.exec program n s).final? = some t →
      s.env.MoreNames t.env ∧ (c.Scoping → s.env.SameNames t.env) ∧ t.env.Proper) ∧
    (∀ n body t, (Stmt.execAll program n body s).final? = some t →
      s.env.MoreNames t.env ∧ t.env.Proper) ∧
    ∀ p q t, Relation.ReflTransGen program.Enters (p, s) (q, t) →
      t.env.Proper ∧ ∀ env x v, program.Declares (q, t) env x v →
        env.Proper ∧ (env.define x v).get? x = some v := by
  refine ⟨fun n e t ht => ?_, fun n c t ht => ?_, fun n body t ht => ?_, fun p q t ht => ?_⟩
  · have hsame := ((program.keepsNames n).eval e).final ht
    exact ⟨hsame, hs.sameNames hsame⟩
  · have hmore := ((program.keepsNames n).exec c).final ht
    exact ⟨hmore, fun hc => (keeps_scoping hc n).final ht, hs.moreNames hmore⟩
  · have hmore := ((program.keepsNames n).execAll body).final ht
    exact ⟨hmore, hs.moreNames hmore⟩
  · have hproper := proper_of_enters ht hs
    refine ⟨hproper, fun env x v hdeclares => ?_⟩
    have henv := hdeclares.proper hproper
    exact ⟨henv, henv.get?_define x v⟩

/-- `{ int inner = f(); missing; }` with `int f() { int local = 1; return 1 / 0; }` fails two
frames deep, and `outer` is all there is behind it, as before. -/
theorem keeps_stack_failure :
    let f : Function := ⟨.int, "f", [], [.decl ⟨.int, "local", some (.literal (.int 1))⟩,
      .ret (some (.binary .div (.literal (.int 1)) (.literal (.int 0))))]⟩
    let program : Program := ⟨[f], []⟩
    let c : Stmt := .block [.decl ⟨.int, "inner", some (.call "f" [])⟩, .expr (.var "missing")]
    let s : State := ⟨⟨[[⟨[("outer", .int 1)]⟩]]⟩, .unlimited⟩
    s.env.Proper ∧ c.exec program 20 s = .failed .divisionByZero s ∧ s.env.SameNames s.env := by
  intro f program c s
  have hproper : s.env.Proper :=
    ⟨List.cons_ne_nil _ _, List.forall_mem_singleton.2 (List.cons_ne_nil _ _)⟩
  have hfails : c.exec program 20 s = .failed .divisionByZero s := rfl
  have hfinal : (c.exec program 20 s).final? = some s := by rw [hfails]; rfl
  exact ⟨hproper, hfails, ((keeps_stack program hproper).2.1 20 c s hfinal).2.1 trivial⟩

end Program

end MiniC
