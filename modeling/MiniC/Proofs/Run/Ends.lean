import MiniC.Run.Exec

/-!
# How computations end

What is shown of a computation is what holds where it ends, with a result or with a fault. Nothing
is said of one that runs out of fuel, which a single step of a run does not (`Exec.Prompt`).
-/

namespace MiniC

def Outcome.final? : Outcome α → Option State
  | .done _ t => some t
  | .failed _ t => some t
  | .unfinished => none

namespace Exec

variable {s t : State}

theorem final_bracket (m : Exec α) (before after : Environment → Environment) :
    (m.bracket before after s).final? =
      (m { s with env := before s.env }).final?.map fun t => { t with env := after t.env } := by
  unfold Exec.bracket
  cases m { s with env := before s.env } <;> rfl

theorem final_bind {m : Exec α} {second : α → Exec β} :
    ((m >>= second) s).final? = some t ↔
      (∃ fault, m s = .failed fault t) ∨ ∃ a u, m s = .done a u ∧ (second a u).final? = some t := by
  cases hm : m s with
  | done a u =>
    rw [bind_done hm]
    constructor
    · exact fun h => .inr ⟨a, u, rfl, h⟩
    · rintro (⟨_, h⟩ | ⟨_, _, h, ht⟩)
      · cases h
      · cases h
        exact ht
  | failed fault u => simp [bind_failed hm, Outcome.final?]
  | unfinished => simp [bind_unfinished hm, Outcome.final?]

/-- Started in `s`, the computation ends in `Q` with a result or in `E` with a fault, if it ends. -/
def Ends (m : Exec α) (s : State) (Q : α → State → Prop) (E : Fault → State → Prop) : Prop :=
  match m s with
  | .done a t => Q a t
  | .failed fault t => E fault t
  | .unfinished => True

namespace Ends

variable {m : Exec α} {P Q : α → State → Prop} {E F : Fault → State → Prop}

theorem mono (h : m.Ends s P E) (hQ : ∀ a t, P a t → Q a t) (hF : ∀ f t, E f t → F f t) :
    m.Ends s Q F := by
  unfold Ends at *
  split at h
  next => exact hQ _ _ h
  next => exact hF _ _ h
  next => trivial

protected theorem and (h : m.Ends s P E) (k : m.Ends s Q F) :
    m.Ends s (fun a t => P a t ∧ Q a t) fun f t => E f t ∧ F f t := by
  unfold Ends at *
  cases hm : m s with
  | done a t =>
    rw [hm] at h k
    exact ⟨h, k⟩
  | failed fault t =>
    rw [hm] at h k
    exact ⟨h, k⟩
  | unfinished => trivial

protected theorem pure {a : α} (h : Q a s) : (pure a : Exec α).Ends s Q E :=
  h

theorem fail {fault : Fault} (h : E fault s) : (Exec.fail fault : Exec α).Ends s Q E :=
  h

theorem unfinished : (Exec.unfinished : Exec α).Ends s Q E :=
  trivial

protected theorem bind {second : α → Exec β} {R : β → State → Prop} (h : m.Ends s Q E)
    (k : ∀ a t, Q a t → (second a).Ends t R E) : (m >>= second).Ends s R E := by
  unfold Ends at h
  cases hm : m s with
  | done a t =>
    rw [hm] at h
    have hsecond := k a t h
    unfold Ends at *
    rwa [bind_done hm]
  | failed f t =>
    rw [hm] at h
    unfold Ends
    rwa [bind_failed hm]
  | unfinished =>
    unfold Ends
    rw [bind_unfinished hm]
    trivial

theorem bracket {before after : Environment → Environment}
    (h : m.Ends { s with env := before s.env } (fun a t => Q a { t with env := after t.env })
      fun f t => E f { t with env := after t.env }) : (m.bracket before after).Ends s Q E := by
  unfold Ends Exec.bracket at *
  cases hm : m { s with env := before s.env } with
  | done a t => rwa [hm] at h
  | failed fault t => rwa [hm] at h
  | unfinished => trivial

theorem trivial : m.Ends s (fun _ _ => True) fun _ _ => True := by
  unfold Ends
  cases m s <;> exact True.intro

theorem done {a : α} (h : m.Ends s Q E) (hm : m s = .done a t) : Q a t := by
  simpa only [Ends, hm] using h

theorem failed {fault : Fault} (h : m.Ends s Q E) (hm : m s = .failed fault t) : E fault t := by
  simpa only [Ends, hm] using h

theorem final {P : State → Prop} (h : m.Ends s (fun _ => P) fun _ => P)
    (ht : (m s).final? = some t) : P t := by
  unfold Ends at h
  cases hm : m s <;> rw [hm] at h ht <;> cases ht <;> exact h

end Ends

def Keeps (R : Environment → Environment → Prop) (m : Exec α) : Prop :=
  ∀ s, m.Ends s (fun _ t => R s.env t.env) fun _ t => R s.env t.env

namespace Keeps

variable {R S : Environment → Environment → Prop} {m : Exec α} {s t : State}

theorem unfinished : (Exec.unfinished : Exec α).Keeps R :=
  fun _ => .unfinished

theorem mono (h : m.Keeps R) (hRS : ∀ env env', R env env' → S env env') : m.Keeps S :=
  fun s => (h s).mono (fun _ _ => hRS _ _) fun _ _ => hRS _ _

section

variable [Std.Refl R]

protected theorem pure (a : α) : (pure a : Exec α).Keeps R :=
  fun s => .pure (Std.Refl.refl s.env)

theorem fail (fault : Fault) : (Exec.fail fault : Exec α).Keeps R :=
  fun s => .fail (E := fun _ t => R s.env t.env) (Std.Refl.refl s.env)

theorem ofExcept (x : Except Fault α) : (Exec.ofExcept x).Keeps R := by
  cases x with
  | ok a => exact .pure a
  | error fault => exact .fail fault

theorem lookup (name : String) : (Exec.lookup name).Keeps R := by
  intro s
  unfold Ends Exec.lookup
  cases s.env.get? name <;> exact Std.Refl.refl s.env

theorem printLine (value : Value) : (Exec.printLine value).Keeps R := by
  intro s
  unfold Ends Exec.printLine
  rcases s.sink.write (value.text ++ "\n") with ⟨sink, _ | refusal⟩ <;> exact Std.Refl.refl s.env

end

protected theorem bind [Trans R R R] {second : α → Exec β} (h : m.Keeps R)
    (k : ∀ a, (second a).Keeps R) : (m >>= second).Keeps R := by
  intro s
  refine (h s).bind fun a t hst => (k a t).mono ?_ ?_
  · exact fun _ _ htu => Trans.trans hst htu
  · exact fun _ _ htu => Trans.trans hst htu

theorem modifyEnv {change : Environment → Environment} (h : ∀ env, R env (change env)) :
    (Exec.modifyEnv change).Keeps R :=
  fun s => h s.env

theorem assign {name : String} {value : Value} [Std.Refl R]
    (h : ∀ env env', env.assign? name value = some env' → R env env') :
    (Exec.assign name value).Keeps R := by
  intro s
  unfold Ends Exec.assign
  cases hassign : s.env.assign? name value with
  | none => exact Std.Refl.refl s.env
  | some env => exact h s.env env hassign

theorem done {a : α} (h : m.Keeps R) (hm : m s = .done a t) : R s.env t.env :=
  (h s).done hm

theorem final (h : m.Keeps R) (ht : (m s).final? = some t) : R s.env t.env :=
  Ends.final (P := fun t => R s.env t.env) (h s) ht

theorem bracket {before after : Environment → Environment} (h : m.Keeps S)
    (hR : ∀ env env', S (before env) env' → R env (after env')) :
    (m.bracket before after).Keeps R :=
  fun _ => .bracket ((h _).mono (fun _ _ => hR _ _) fun _ _ => hR _ _)

end Keeps

def Prompt (m : Exec α) : Prop :=
  ∀ s, m s ≠ .unfinished

namespace Prompt

theorem pure (a : α) : (Pure.pure a : Exec α).Prompt :=
  nofun

theorem fail (fault : Fault) : (Exec.fail fault : Exec α).Prompt :=
  nofun

theorem ofExcept (x : Except Fault α) : (Exec.ofExcept x).Prompt := by
  cases x <;> exact nofun

theorem bind {m : Exec α} {second : α → Exec β} (h : m.Prompt)
    (hsecond : ∀ a, (second a).Prompt) : (m >>= second).Prompt := by
  intro s
  cases hm : m s with
  | done a t =>
    rw [bind_done hm]
    exact hsecond a t
  | failed fault t =>
    rw [bind_failed hm]
    exact nofun
  | unfinished => exact absurd hm (h s)

theorem lookup (name : String) : (Exec.lookup name).Prompt := by
  intro s
  unfold Exec.lookup
  split <;> exact nofun

theorem assign (name : String) (value : Value) : (Exec.assign name value).Prompt := by
  intro s
  unfold Exec.assign
  split <;> exact nofun

theorem printLine (value : Value) : (Exec.printLine value).Prompt := by
  intro s
  unfold Exec.printLine
  split <;> exact nofun

theorem modifyEnv (change : Environment → Environment) : (Exec.modifyEnv change).Prompt :=
  nofun

theorem flush : Exec.flush.Prompt := by
  intro s
  unfold Exec.flush
  split <;> exact nofun

theorem bracket {m : Exec α} (h : m.Prompt) (before after : Environment → Environment) :
    (m.bracket before after).Prompt := by
  intro s
  unfold Exec.bracket
  cases hm : m { s with env := before s.env } with
  | done a t => exact nofun
  | failed fault t => exact nofun
  | unfinished => exact absurd hm (h _)

end Prompt

end Exec

end MiniC
