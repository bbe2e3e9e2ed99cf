import MiniC.Environment
import MiniC.Sink

/-!
# Computations of a run

A computation works on the variables and the output of a run. It ends with a result or with a
fault, and either way leaves a state behind; what was printed before a fault stays printed. A
computation that runs out of fuel has not ended, and says nothing about the state.
-/

namespace MiniC

structure State where
  env : Environment
  sink : Sink

inductive Outcome (α : Type) where
  | done (result : α) (state : State)
  | failed (fault : Fault) (state : State)
  | unfinished

def Exec (α : Type) : Type :=
  State → Outcome α

namespace Exec

variable {α β : Type}

@[always_inline, inline] protected def pure (a : α) : Exec α :=
  fun s => .done a s

@[always_inline, inline] protected def bind (first : Exec α) (second : α → Exec β) : Exec β :=
  fun s =>
    match first s with
    | .done a s => second a s
    | .failed fault s => .failed fault s
    | .unfinished => .unfinished

@[always_inline] instance : Monad Exec where
  pure := Exec.pure
  bind := Exec.bind

theorem bind_done {first : Exec α} {second : α → Exec β} {s t : State} {a : α}
    (h : first s = .done a t) : (first >>= second) s = second a t := by
  change Exec.bind first second s = _
  rw [Exec.bind, h]

theorem bind_failed {first : Exec α} {second : α → Exec β} {s t : State} {fault : Fault}
    (h : first s = .failed fault t) : (first >>= second) s = .failed fault t := by
  change Exec.bind first second s = _
  rw [Exec.bind, h]

theorem bind_unfinished {first : Exec α} {second : α → Exec β} {s : State}
    (h : first s = .unfinished) : (first >>= second) s = .unfinished := by
  change Exec.bind first second s = _
  rw [Exec.bind, h]

instance : LawfulMonad Exec := LawfulMonad.mk' Exec
  (fun m => funext fun s => by
    change Exec.bind m _ s = _
    unfold Exec.bind
    cases m s <;> rfl)
  (fun _ _ => rfl)
  (fun m second third => funext fun s => by
    change Exec.bind (Exec.bind m second) third s = Exec.bind m _ s
    unfold Exec.bind
    cases m s <;> rfl)

def unfinished : Exec α :=
  fun _ => .unfinished

def fail (fault : Fault) : Exec α :=
  fun s => .failed fault s

def ofExcept : Except Fault α → Exec α
  | .ok a => pure a
  | .error fault => fail fault

def modifyEnv (change : Environment → Environment) : Exec Unit :=
  fun s => .done () { s with env := change s.env }

/-- Changes the variables for the time of a computation: once before it, and once after it however
it ends. -/
@[inline] def bracket (before after : Environment → Environment) (body : Exec α) : Exec α :=
  fun s =>
    match body { s with env := before s.env } with
    | .done a s => .done a { s with env := after s.env }
    | .failed fault s => .failed fault { s with env := after s.env }
    | .unfinished => .unfinished

def inScope (body : Exec α) : Exec α :=
  body.bracket .pushScope .popScope

def inFrame (body : Exec α) : Exec α :=
  body.bracket .pushFrame .popFrame

def lookup (name : String) : Exec Value :=
  fun s =>
    match s.env.get? name with
    | some v => .done v s
    | none => .failed (.unknownVariable name) s

def define (name : String) (value : Value) : Exec Unit :=
  modifyEnv (·.define name value)

def assign (name : String) (value : Value) : Exec Unit :=
  fun s =>
    match s.env.assign? name value with
    | some env => .done () { s with env := env }
    | none => .failed (.unknownVariable name) s

theorem assign_of_get? {s : State} {name : String} (h : s.env.get? name ≠ none) (value : Value) :
    assign name value s = .done () { s with env := (s.env.assign? name value).getD s.env } := by
  obtain ⟨env, hassign⟩ := Option.ne_none_iff_exists'.1 (mt Environment.assign?_eq_none_iff.1 h)
  rw [assign, hassign, Option.getD_some]

def printLine (value : Value) : Exec Unit :=
  fun s =>
    match s.sink.write (value.text ++ "\n") with
    | (sink, none) => .done () { s with sink := sink }
    | (sink, some refusal) => .failed (.output refusal) { s with sink := sink }

def flush : Exec Unit :=
  fun s =>
    match s.sink.flush with
    | none => .done () s
    | some refusal => .failed (.output refusal) s

end Exec

end MiniC
