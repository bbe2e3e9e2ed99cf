import MiniC.Proofs.Run.Congruence
import MiniC.Proofs.Run.Ends

/-!
# The names there are

Whatever is executed, the frames below the current one stay as they are, and the scopes of the
current frame keep their names. Only a statement may add names, and only to the innermost scope.
-/

namespace MiniC

-- ---------------------------------------------------------------------------
-- Environments
-- ---------------------------------------------------------------------------

def Frame.names (frame : Frame) : List (String → Bool) :=
  frame.map Scope.has

@[simp] theorem Frame.names_cons (scope : Scope) (outer : Frame) :
    Frame.names (scope :: outer) = scope.has :: Frame.names outer := rfl

theorem Scope.has_put (scope : Scope) (name other : String) (value : Value) :
    (scope.put name value).has other = (other == name || scope.has other) := by
  unfold Scope.has
  rw [Scope.get?_put]
  by_cases h : other = name <;> simp [h]

theorem Frame.names_assign? {frame after : Frame}
    (h : Frame.assign? name value frame = some after) : after.names = frame.names := by
  induction frame generalizing after with
  | nil => simp [Frame.assign?] at h
  | cons scope outer ih =>
    rw [Frame.assign?] at h
    split at h
    next hhas =>
      obtain rfl := Option.some.inj h
      rw [Frame.names_cons, Frame.names_cons]
      congr 1
      funext other
      rw [Scope.has_put]
      by_cases hother : other = name <;> simp [hother, hhas]
    next =>
      obtain ⟨changed, hchanged, rfl⟩ := Option.map_eq_some_iff.1 h
      rw [Frame.names_cons, Frame.names_cons, ih hchanged]

namespace Environment

variable {env env' : Environment}

/-- The current frame has the scopes and the names that it had, and those below are as they were. -/
def SameNames (env env' : Environment) : Prop :=
  ∀ frame callers, env.frames = frame :: callers →
    ∃ after, env'.frames = after :: callers ∧ after.names = frame.names

/-- The same, but the innermost scope may have more names. -/
def MoreNames (env env' : Environment) : Prop :=
  ∀ scope outer callers, env.frames = (scope :: outer) :: callers →
    ∃ scope' outer', env'.frames = (scope' :: outer') :: callers ∧
      (∀ x, scope.has x = true → scope'.has x = true) ∧ Frame.names outer' = Frame.names outer

instance : Std.Refl SameNames where
  refl _ frame _ h := ⟨frame, h, rfl⟩

instance : Trans SameNames SameNames SameNames where
  trans h k frame callers henv := by
    obtain ⟨middle, hmiddle, hnames⟩ := h frame callers henv
    obtain ⟨after, hafter, hnames'⟩ := k middle callers hmiddle
    exact ⟨after, hafter, hnames'.trans hnames⟩

instance : Std.Refl MoreNames where
  refl _ scope outer _ h := ⟨scope, outer, h, fun _ hx => hx, rfl⟩

instance : Trans MoreNames MoreNames MoreNames where
  trans h k scope outer callers henv := by
    obtain ⟨scope', outer', henv', hhas, hnames⟩ := h scope outer callers henv
    obtain ⟨scope'', outer'', henv'', hhas', hnames'⟩ := k scope' outer' callers henv'
    exact ⟨scope'', outer'', henv'', fun x hx => hhas' x (hhas x hx), hnames'.trans hnames⟩

theorem SameNames.moreNames (h : env.SameNames env') : env.MoreNames env' := by
  intro scope outer callers henv
  obtain ⟨after, hafter, hnames⟩ := h _ _ henv
  cases after with
  | nil => cases hnames
  | cons scope' outer' =>
    obtain ⟨hscope, houter⟩ := List.cons.inj hnames
    exact ⟨scope', outer', hafter, fun x hx => by rwa [hscope], houter⟩

theorem sameNames_assign? (h : env.assign? name value = some env') : env.SameNames env' := by
  intro frame callers henv
  simp only [assign?, henv] at h
  obtain ⟨after, hafter, rfl⟩ := Option.map_eq_some_iff.1 h
  exact ⟨after, rfl, Frame.names_assign? hafter⟩

theorem moreNames_define (env : Environment) (name : String) (value : Value) :
    env.MoreNames (env.define name value) := by
  intro scope outer callers henv
  refine ⟨scope.put name value, outer, by simp [define, modifyFrame, henv, Frame.define], ?_, rfl⟩
  intro x hx
  rw [Scope.has_put, hx, Bool.or_true]

theorem moreNames_defineAll (env : Environment) (bindings : List (String × Value)) :
    env.MoreNames (env.defineAll bindings) := by
  induction bindings generalizing env with
  | nil => exact Std.Refl.refl env
  | cons binding rest ih => exact Trans.trans (moreNames_define env _ _) (ih _)

theorem sameNames_of_pushScope (h : env.pushScope.MoreNames env') :
    env.SameNames env'.popScope := by
  intro frame callers henv
  obtain ⟨scope, outer, henv', -, hnames⟩ :=
    h .empty frame callers (by simp [pushScope, modifyFrame, henv])
  exact ⟨outer, by simp [popScope, modifyFrame, henv'], hnames⟩

theorem eq_of_pushFrame (h : env.pushFrame.MoreNames env') : env'.popFrame = env := by
  obtain ⟨scope, outer, henv', -, -⟩ := h .empty [] env.frames rfl
  simp [popFrame, henv']

end Environment

-- ---------------------------------------------------------------------------
-- Computations
-- ---------------------------------------------------------------------------

open Environment (SameNames MoreNames)

namespace Exec

theorem Keeps.moreNames {m : Exec α} (h : m.Keeps SameNames) : m.Keeps MoreNames :=
  h.mono fun _ _ => SameNames.moreNames

theorem Keeps.sameNames {m : Exec α} (h : m.Keeps Eq) : m.Keeps SameNames := by
  refine h.mono ?_
  rintro env _ rfl
  exact Std.Refl.refl env

theorem keeps_assign (name : String) (value : Value) : (assign name value).Keeps SameNames :=
  .assign fun _ _ => Environment.sameNames_assign?

theorem keeps_define (name : String) (value : Value) : (define name value).Keeps MoreNames :=
  .modifyEnv fun env => env.moreNames_define name value

theorem keeps_inScope {body : Exec α} (h : body.Keeps MoreNames) :
    (inScope body).Keeps SameNames :=
  .bracket h fun _ _ => Environment.sameNames_of_pushScope

theorem keeps_inFrame {body : Exec α} (h : body.Keeps MoreNames) : (inFrame body).Keeps Eq :=
  .bracket h fun _ _ h => (Environment.eq_of_pushFrame h).symm

theorem names_graded :
    Graded (fun {_} m _ => m.Keeps SameNames) fun {_} m _ => m.Keeps MoreNames where
  pure := .pure
  fail := .fail
  bind := .bind
  lookup := .lookup
  assign := keeps_assign
  printLine := .printLine
  inScope := keeps_inScope
  inFrame h := (keeps_inFrame h).sameNames
  weaken := Keeps.moreNames
  sequence := .bind
  define := keeps_define

end Exec

structure Program.KeepsNames (program : Program) (n : Nat) : Prop where
  eval : ∀ e : Expr, (e.eval program n).Keeps SameNames
  evalAll : ∀ es, (Expr.evalAll program n es).Keeps SameNames
  evalCall : ∀ f args, (Expr.evalCall program n f args).Keeps SameNames
  evalOr : ∀ e, (Expr.evalOr program n e).Keeps SameNames
  exec : ∀ s : Stmt, (s.exec program n).Keeps MoreNames
  execAll : ∀ body, (Stmt.execAll program n body).Keeps MoreNames
  repeat_ : ∀ c step body, (Stmt.repeat program n c step body).Keeps MoreNames

theorem Program.keepsNames (program : Program) (n : Nat) : program.KeepsNames n := by
  have h := Exec.names_graded.related .unfinished program n
  exact ⟨h.eval, h.evalAll, h.evalCall, h.evalOr, h.exec, h.execAll, h.repeat_⟩

theorem Program.KeepsNames.applyTo {program : Program} (h : program.KeepsNames n) (g : Function)
    (values : List Value) : (g.applyTo program n values).Keeps MoreNames := by
  have hgraded : program.Graded (fun {_} m _ => m.Keeps SameNames)
      (fun {_} m _ => m.Keeps MoreNames) n n :=
    ⟨h.eval, h.evalAll, h.evalCall, h.evalOr, h.exec, h.execAll, h.repeat_⟩
  exact hgraded.applyTo Exec.names_graded g values

end MiniC
