import MiniC.Proofs.Run.Fuel
import MiniC.Proofs.Run.Safe
import MiniC.Proofs.Run.Stack

/-!
# Variables that are hidden

A declaration protects the variables of its name outside: behind a block that begins with one, or a
`for` loop that does, every scope has the entry for the name that it had when the initializer had
been evaluated (`Program.shadowed`).

The invariant is that one of the innermost scopes binds the name. It is there that the name is found
from then on, and no scope behind them gets or loses an entry for it.
-/

namespace MiniC

-- ---------------------------------------------------------------------------
-- Environments
-- ---------------------------------------------------------------------------

/-- What each scope of the frame binds the name to, if it does. -/
def Frame.entries (x : String) (frame : Frame) : List (Option Value) :=
  frame.map (·.get? x)

def Environment.entries (x : String) (env : Environment) : List (List (Option Value)) :=
  env.frames.map (Frame.entries x)

theorem Frame.entries_assign? {frame after : Frame}
    (h : Frame.assign? name value frame = some after) (hx : x ≠ name) :
    after.entries x = frame.entries x := by
  induction frame generalizing after with
  | nil => cases h
  | cons scope outer ih =>
    rw [Frame.assign?] at h
    split at h
    · obtain rfl := Option.some.inj h
      simp [entries, hx]
    · obtain ⟨changed, hchanged, rfl⟩ := Option.map_eq_some_iff.1 h
      exact congrArg (scope.get? x :: ·) (ih hchanged)

theorem Frame.not_binds_nil : ¬Frame.Binds [] x := by
  simp [binds_iff, Frame.get?]

/-- An assignment does not get past the scopes that bind its name. -/
theorem Frame.entries_drop_assign? {frame after : Frame}
    (h : Frame.assign? name value frame = some after) (hx : Frame.Binds (frame.take k) x) :
    Frame.entries x (after.drop k) = Frame.entries x (frame.drop k) := by
  induction frame generalizing after k with
  | nil => cases h
  | cons scope outer ih =>
    cases k with
    | zero => exact absurd hx not_binds_nil
    | succ k =>
      rw [Frame.assign?] at h
      split at h
      · obtain rfl := Option.some.inj h
        rfl
      next hhas =>
        obtain ⟨changed, hchanged, rfl⟩ := Option.map_eq_some_iff.1 h
        obtain ⟨has, hmem, hbinds⟩ := hx
        rcases List.mem_cons.1 hmem with rfl | hmem
        -- the innermost scope binds `x` and is passed over, so the assignment is to another name
        · have hother : x ≠ name := fun hname => hhas (hname ▸ hbinds)
          have hsame := congrArg (List.drop k) (entries_assign? hchanged hother)
          simpa only [entries, List.drop_succ_cons, List.map_drop] using hsame
        · exact ih hchanged ⟨has, hmem, hbinds⟩

namespace Environment

variable {env env' : Environment}

theorem MoreNames.binds_take (h : env.MoreNames env') {frame : Frame}
    (henv : env.frames = frame :: callers) (hx : Frame.Binds (frame.take k) x) :
    ∃ frame' : Frame, env'.frames = frame' :: callers ∧ Frame.Binds (frame'.take k) x := by
  cases frame with
  | nil => exact absurd (List.take_nil ▸ hx) Frame.not_binds_nil
  | cons scope outer =>
    cases k with
    | zero => exact absurd hx Frame.not_binds_nil
    | succ k =>
      obtain ⟨scope', outer', henv', hhas, hnames⟩ := h scope outer callers henv
      obtain ⟨has, hmem, hbinds⟩ := hx
      refine ⟨scope' :: outer', henv', ?_⟩
      rcases List.mem_cons.1 hmem with rfl | hmem
      · exact ⟨scope'.has, List.mem_cons_self, hhas x hbinds⟩
      · have hmem' : has ∈ Frame.names (outer'.take k) := by
          have htake := congrArg (List.take k) hnames
          simp only [Frame.names, List.map_take] at hmem htake ⊢
          rwa [htake]
        exact ⟨has, List.mem_cons_of_mem _ hmem', hbinds⟩

/-- What may happen to the variables while the name is hidden: if some of the first `k` scopes bind
it, those behind them keep their entries for it. -/
structure Shields (x : String) (env env' : Environment) : Prop where
  names : env.MoreNames env'
  without : env.frames = [] → env'.frames = []
  behind : ∀ (frame : Frame) callers k, env.frames = frame :: callers →
    Frame.Binds (frame.take k) x → ∃ frame' : Frame, env'.frames = frame' :: callers ∧
      Frame.entries x (frame'.drop k) = Frame.entries x (frame.drop k)

instance : Std.Refl (Shields x) where
  refl env := ⟨Std.Refl.refl env, id, fun frame _ _ henv _ => ⟨frame, henv, rfl⟩⟩

instance : Trans (Shields x) (Shields x) (Shields x) where
  trans h h' := by
    refine ⟨Trans.trans h.names h'.names, fun hnil => h'.without (h.without hnil), ?_⟩
    intro frame callers k henv hx
    obtain ⟨middle, hmiddle, hentries⟩ := h.behind frame callers k henv hx
    obtain ⟨_, hmiddle', hx'⟩ := h.names.binds_take henv hx
    obtain ⟨rfl, -⟩ := List.cons.inj (hmiddle.symm.trans hmiddle')
    obtain ⟨after, hafter, hentries'⟩ := h'.behind middle callers k hmiddle hx'
    exact ⟨after, hafter, hentries'.trans hentries⟩

theorem shields_assign? (h : env.assign? name value = some env') : env.Shields x env' := by
  refine ⟨(sameNames_assign? h).moreNames, fun hnil => ?_, fun frame callers k henv hx => ?_⟩
  · simp [assign?, hnil] at h
  · simp only [assign?, henv] at h
    obtain ⟨after, hafter, rfl⟩ := Option.map_eq_some_iff.1 h
    exact ⟨after, rfl, Frame.entries_drop_assign? hafter hx⟩

theorem shields_define (env : Environment) (name : String) (value : Value) :
    env.Shields x (env.define name value) := by
  refine ⟨env.moreNames_define name value, fun hnil => ?_, fun frame callers k henv hx => ?_⟩
  · simp [define, modifyFrame, hnil]
  · refine ⟨frame.define name value, by simp [define, modifyFrame, henv], ?_⟩
    cases frame with
    | nil => rfl
    | cons scope outer =>
      cases k with
      | zero => exact absurd hx Frame.not_binds_nil
      | succ k => rfl

theorem shields_of_pushScope (h : env.pushScope.Shields x env') : env.Shields x env'.popScope := by
  refine ⟨(sameNames_of_pushScope h.names).moreNames, fun hnil => ?_,
    fun frame callers k henv hx => ?_⟩
  · have hnil' := h.without (by simp [pushScope, modifyFrame, hnil])
    simp [popScope, modifyFrame, hnil']
  · obtain ⟨has, hmem, hbinds⟩ := hx
    obtain ⟨frame', henv', hentries⟩ := h.behind (.empty :: frame) callers (k + 1)
      (by simp [pushScope, modifyFrame, henv]) ⟨has, List.mem_cons_of_mem _ hmem, hbinds⟩
    refine ⟨frame'.tail, by simp [popScope, modifyFrame, henv'], ?_⟩
    rwa [List.drop_tail]

theorem Shields.opened (h : env.pushScope.Shields x env') :
    env'.frames = [] ∨ ∃ scope outer callers, env'.frames = (scope :: outer) :: callers := by
  cases henv : env.frames with
  | nil => exact .inl (h.without (by simp [pushScope, modifyFrame, henv]))
  | cons frame callers =>
    obtain ⟨scope, outer, henv', -, -⟩ := h.names .empty frame callers
      (by simp [pushScope, modifyFrame, henv])
    exact .inr ⟨scope, outer, callers, henv'⟩

theorem Shields.entries_popScope (h : (env.define x value).Shields x env')
    (hproper : env.frames = [] ∨ ∃ scope outer callers, env.frames = (scope :: outer) :: callers) :
    env'.popScope.entries x = env.popScope.entries x := by
  rcases hproper with hnil | ⟨scope, outer, callers, henv⟩
  · have hnil' := h.without (by simp [define, modifyFrame, hnil])
    simp [entries, popScope, modifyFrame, hnil, hnil']
  · have hx : Frame.Binds ((scope.put x value :: outer).take 1) x :=
      ⟨_, List.mem_cons_self, by simp [Scope.has_put]⟩
    obtain ⟨frame', henv', hentries⟩ := h.behind (scope.put x value :: outer) callers 1
      (by simp [define, modifyFrame, henv, Frame.define]) hx
    rw [List.drop_one] at hentries
    simp only [entries, popScope, modifyFrame, henv, henv', List.map_cons, hentries]
    rfl

end Environment

/-- The statement opens a scope with a declaration in it. -/
inductive Stmt.OpensWith (d : Decl) : Stmt → Prop
  | block (rest : List Stmt) : OpensWith d (.block (.decl d :: rest))
  | forLoop (condition : Expr) (step : Option Expr) (body : Stmt) :
      OpensWith d (.forLoop (some (.decl d)) condition step body)

theorem Stmt.OpensWith.scoping {c : Stmt} (h : c.OpensWith d) : c.Scoping := by
  cases h <;> exact trivial

-- ---------------------------------------------------------------------------
-- Computations
-- ---------------------------------------------------------------------------

namespace Exec

theorem shields_congruence (x : String) :
    Congruence fun {_} m _ => m.Keeps (Environment.Shields x) where
  pure := .pure
  fail := .fail
  bind := .bind
  lookup := .lookup
  assign _ _ := .assign fun _ _ => Environment.shields_assign?
  define name value := .modifyEnv fun env => env.shields_define name value
  printLine := .printLine
  inScope h := .bracket h fun _ _ => Environment.shields_of_pushScope
  inFrame h := by
    refine (keeps_inFrame (h.mono fun _ _ => Environment.Shields.names)).mono ?_
    rintro env _ rfl
    exact Std.Refl.refl env

end Exec

namespace Program

open Environment (Shields)

theorem shields (program : Program) (x : String) (n : Nat) :
    program.Related (fun {_} m _ => m.Keeps (Shields x)) n n :=
  (Exec.shields_congruence x).related .unfinished program n

variable {program : Program} {s t : State}

theorem shadowed_behind {d : Decl} {second : Flow → Exec Flow}
    (hsecond : ∀ flow, (second flow).Keeps (Shields d.name))
    (ht : (Exec.inScope (Stmt.exec program n (.decl d) >>= second) s).final? = some t) :
    ∃ o u, Exec.Settles (Expr.evalOr program · d.init) { s with env := s.env.pushScope } o ∧
      o.final? = some u ∧ t.env.entries d.name = u.env.popScope.entries d.name := by
  obtain ⟨t', ht', rfl⟩ := Option.map_eq_some_iff.1 ((Exec.final_bracket ..).symm.trans ht)
  cases n with
  | zero => cases ht'
  | succ n =>
    obtain ⟨type, x, init⟩ := d
    rw [Stmt.exec, bind_assoc] at ht'
    rcases Exec.final_bind.1 ht' with ⟨fault, hfailed⟩ | ⟨v, u, hdone, hu⟩
    · exact ⟨.failed fault t', t', ⟨nofun, n, hfailed⟩, rfl, rfl⟩
    · have hdefined : (second .normal { u with env := u.env.define x v }).final? = some t' := hu
      have hshields := (hsecond .normal).final hdefined
      have hinit := ((program.shields x n).evalOr init).done hdone
      exact ⟨.done v u, u, ⟨nofun, n, hdone⟩, rfl, hshields.entries_popScope hinit.opened⟩

/-- Behind a statement that opens a scope with a declaration there are the scopes of before, each
with the entry for the declared name that it had when the initializer had been evaluated, and this
however the statement ends. -/
theorem shadowed {c : Stmt} (hc : c.OpensWith d)
    (ht : (c.exec program n s).final? = some t) :
    s.env.SameNames t.env ∧
      ∃ o u, Exec.Settles (Expr.evalOr program · d.init) { s with env := s.env.pushScope } o ∧
        o.final? = some u ∧ t.env.entries d.name = u.env.popScope.entries d.name := by
  refine ⟨(keeps_scoping hc.scoping n).final ht, ?_⟩
  cases hc with
  | block rest =>
    rcases n with _ | _ | n
    · cases ht
    · cases ht
    · refine shadowed_behind (fun flow => ?_) ht
      cases flow with
      | normal => exact (program.shields d.name n).execAll rest
      | returned v => exact .pure _
  | forLoop condition step body =>
    cases n with
    | zero => cases ht
    | succ n =>
      exact shadowed_behind (fun _ => (program.shields d.name n).repeat_ condition step body) ht

/-- `{ int x = x = 5; x = 7; { int x = 8; x++; } x / 0; }` fails where `x` is `1` in the scope
around it: the initializer makes that `5`, and nothing after it makes it anything else. -/
theorem shadowed_failure :
    let program : Program := ⟨[], []⟩
    let d : Decl := ⟨.int, "x", some (.assign "x" (.literal (.int 5)))⟩
    let inner : Stmt := .block [.decl ⟨.int, "x", some (.literal (.int 8))⟩,
      .expr (.unary .increment .after (.var "x"))]
    let rest : List Stmt := [.expr (.assign "x" (.literal (.int 7))), inner,
      .expr (.binary .div (.var "x") (.literal (.int 0)))]
    let s : State := ⟨⟨[[⟨[("x", .int 1)]⟩]]⟩, .unlimited⟩
    let t : State := ⟨⟨[[⟨[("x", .int 5)]⟩]]⟩, .unlimited⟩
    Stmt.exec program 20 (.block (.decl d :: rest)) s = .failed .divisionByZero t ∧
      ∃ o u, Exec.Settles (Expr.evalOr program · d.init) { s with env := s.env.pushScope } o ∧
        o.final? = some u ∧ t.env.entries "x" = u.env.popScope.entries "x" := by
  intro program d inner rest s t
  have hfails : Stmt.exec program 20 (.block (.decl d :: rest)) s = .failed .divisionByZero t := rfl
  have hfinal : (Stmt.exec program 20 (.block (.decl d :: rest)) s).final? = some t := by
    rw [hfails]
    rfl
  exact ⟨hfails, (shadowed (.block rest) hfinal).2⟩

end Program

end MiniC
