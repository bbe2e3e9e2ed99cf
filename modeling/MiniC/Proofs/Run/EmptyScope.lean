import MiniC.Proofs.Run.Erase
import MiniC.Proofs.Run.Isolation

/-!
# Scopes that bind nothing

A scope that binds nothing is not seen, wherever it lies among the scopes of a frame: what an
expression does is the same without it, and so is what a statement does that stands in a scope
further in. So what declares nothing where it stands needs no scope of its own
(`Exec.inScope_eq`).
-/

namespace MiniC

-- ---------------------------------------------------------------------------
-- States
-- ---------------------------------------------------------------------------

/-- The second frame has one scope more, which binds nothing, behind `k` scopes that both have. -/
inductive Frame.Spliced : Nat → Frame → Frame → Prop
  | here (outer : Frame) : Spliced 0 outer (.empty :: outer)
  | behind {k : Nat} (scope : Scope) {outer outer' : Frame} : Spliced k outer outer' →
      Spliced (k + 1) (scope :: outer) (scope :: outer')

namespace Frame.Spliced

variable {frame frame' : Frame}

theorem get? (h : Frame.Spliced k frame frame') (name : String) :
    frame.get? name = frame'.get? name := by
  induction h with
  | here outer => simp
  | behind scope _ ih => rw [Frame.get?_cons, Frame.get?_cons, ih]

theorem assign? (h : Frame.Spliced k frame frame') (name : String) (value : Value) :
    Option.Rel (Frame.Spliced k) (Frame.assign? name value frame)
      (Frame.assign? name value frame') := by
  induction h with
  | here outer =>
    have hempty : Frame.assign? name value (.empty :: outer) =
        (Frame.assign? name value outer).map (.empty :: ·) := rfl
    rw [hempty]
    cases Frame.assign? name value outer with
    | none => exact .none
    | some after => exact .some (.here after)
  | behind scope houter ih =>
    rw [Frame.assign?, Frame.assign?]
    split
    · exact .some (.behind _ houter)
    · exact map_of_rel ih fun _ _ => .behind scope

theorem define (h : Frame.Spliced (k + 1) frame frame') (name : String) (value : Value) :
    Frame.Spliced (k + 1) (frame.define name value) (frame'.define name value) := by
  cases h with
  | behind scope houter => exact .behind (scope.put name value) houter

theorem tail (h : Frame.Spliced (k + 1) frame frame') :
    Frame.Spliced k frame.tail frame'.tail := by
  cases h with
  | behind scope houter => exact houter

end Frame.Spliced

inductive Environment.Spliced (k : Nat) : Environment → Environment → Prop
  | current {frame frame' : Frame} (callers : List Frame) : Frame.Spliced k frame frame' →
      Spliced k ⟨frame :: callers⟩ ⟨frame' :: callers⟩
  | without : Spliced k ⟨[]⟩ ⟨[]⟩

namespace Environment

variable {env env' : Environment}

theorem spliced_pushScope (env : Environment) : env.Spliced 0 env.pushScope := by
  obtain ⟨_ | ⟨frame, callers⟩⟩ := env
  · exact .without
  · exact .current callers (.here frame)

namespace Spliced

theorem modifyFrame (h : env.Spliced k env') {change : Frame → Frame}
    (hchange : ∀ frame frame' : Frame, Frame.Spliced k frame frame' →
      Frame.Spliced l (change frame) (change frame')) :
    (env.modifyFrame change).Spliced l (env'.modifyFrame change) := by
  cases h with
  | current callers hframe => exact .current callers (hchange _ _ hframe)
  | without => exact .without

theorem define (h : env.Spliced (k + 1) env') (name : String) (value : Value) :
    (env.define name value).Spliced (k + 1) (env'.define name value) :=
  h.modifyFrame fun _ _ hframe => hframe.define name value

theorem pushScope (h : env.Spliced k env') : env.pushScope.Spliced (k + 1) env'.pushScope :=
  h.modifyFrame fun _ _ => .behind .empty

theorem popScope (h : env.Spliced (k + 1) env') : env.popScope.Spliced k env'.popScope :=
  h.modifyFrame fun _ _ => .tail

theorem get? (h : env.Spliced k env') (name : String) : env.get? name = env'.get? name := by
  cases h with
  | current callers hframe => exact hframe.get? name
  | without => rfl

theorem assign? (h : env.Spliced k env') (name : String) (value : Value) :
    Option.Rel (Environment.Spliced k) (env.assign? name value) (env'.assign? name value) := by
  cases h with
  | current callers hframe =>
    exact map_of_rel (hframe.assign? name value) fun _ _ => .current callers
  | without => exact .none

theorem popScope_eq (h : env.Spliced 0 env') : env'.popScope = env := by
  cases h with
  | current callers hframe =>
    cases hframe
    rfl
  | without => rfl

end Spliced

end Environment

def State.Spliced (k : Nat) (s s' : State) : Prop :=
  s.env.Spliced k s'.env ∧ s.sink = s'.sink

theorem State.Spliced.popScope_eq {s s' : State} (h : State.Spliced 0 s s') :
    { s' with env := s'.env.popScope } = s := by
  obtain ⟨henv, hsink⟩ := h
  rw [henv.popScope_eq, ← hsink]

-- ---------------------------------------------------------------------------
-- Computations
-- ---------------------------------------------------------------------------

namespace Exec

/-- An empty scope behind `k` others makes no difference between the computations. -/
def Unseen (k : Nat) (m m' : Exec α) : Prop :=
  ∀ s s', State.Spliced k s s' → (m s).Alike (State.Spliced k) (m' s')

namespace Unseen

variable {m m' : Exec α}

theorem unfinished : (Exec.unfinished : Exec α).Unseen k .unfinished :=
  fun _ _ _ => .unfinished

protected theorem pure (a : α) : (pure a : Exec α).Unseen k (pure a) :=
  fun _ _ hs => .done hs

theorem fail (fault : Fault) : (Exec.fail fault : Exec α).Unseen k (Exec.fail fault) :=
  fun _ _ hs => .failed hs

protected theorem bind {second second' : α → Exec β} (h : m.Unseen k m')
    (hsecond : ∀ a, (second a).Unseen k (second' a)) :
    (m >>= second).Unseen k (m' >>= second') :=
  fun _ _ hs => bind_alike (h _ _ hs) fun a _ _ => hsecond a _ _

theorem lookup (name : String) : (Exec.lookup name).Unseen k (Exec.lookup name) :=
  fun _ _ hs => lookup_alike hs.1 hs.2 (hs.1.get? name)

theorem assign (name : String) (value : Value) :
    (Exec.assign name value).Unseen k (Exec.assign name value) :=
  fun _ _ hs => assign_alike hs.1 hs.2 (hs.1.assign? name value)

theorem printLine (value : Value) : (Exec.printLine value).Unseen k (Exec.printLine value) :=
  fun _ _ hs => printLine_alike hs.1 hs.2 value

theorem inScope (h : m.Unseen (k + 1) m') : (Exec.inScope m).Unseen k (Exec.inScope m') :=
  fun _ _ hs => bracket_alike (h _ _ ⟨hs.1.pushScope, hs.2⟩) fun _ _ ht => ⟨ht.1.popScope, ht.2⟩

theorem inFrame (h : m.Blind m') : (Exec.inFrame m).Unseen k (Exec.inFrame m') := by
  intro s s' hs
  obtain ⟨env, sink⟩ := s
  obtain ⟨env', sink'⟩ := s'
  obtain ⟨henv, rfl⟩ : env.Spliced k env' ∧ sink = sink' := hs
  refine bracket_alike (h env.frames env'.frames _ _ ⟨.fresh, sink, rfl, rfl⟩) ?_
  rintro _ _ ⟨frame, sink', rfl, rfl⟩
  exact ⟨henv, rfl⟩

end Unseen

/-- No expression sees an empty scope, and no statement does in a scope further in. -/
theorem unseen_graded :
    Graded (fun m m' => m.Blind m' ∧ ∀ k, m.Unseen k m')
      fun m m' => m.Blind m' ∧ ∀ k, m.Unseen (k + 1) m' where
  pure a := ⟨blind_congruence.pure a, fun _ => .pure a⟩
  fail fault := ⟨blind_congruence.fail fault, fun _ => .fail fault⟩
  bind h hsecond :=
    ⟨h.1.bind fun a => (hsecond a).1, fun k => (h.2 k).bind fun a => (hsecond a).2 k⟩
  lookup name := ⟨.lookup name, fun _ => .lookup name⟩
  assign name value := ⟨.assign name value, fun _ => .assign name value⟩
  printLine value := ⟨.printLine value, fun _ => .printLine value⟩
  inScope h := ⟨h.1.inScope, fun k => (h.2 k).inScope⟩
  inFrame h := ⟨h.1.inFrame, fun _ => .inFrame h.1⟩
  weaken h := ⟨h.1, fun k => h.2 (k + 1)⟩
  sequence h hsecond :=
    ⟨h.1.bind fun a => (hsecond a).1, fun k => (h.2 k).bind fun a => (hsecond a).2 k⟩
  define name value :=
    ⟨.define name value, fun _ _ _ hs => .done ⟨hs.1.define name value, hs.2⟩⟩

theorem inScope_eq {m : Exec α} (h : m.Unseen 0 m) : Exec.inScope m = m := by
  funext s
  have hspliced : State.Spliced 0 s { s with env := s.env.pushScope } :=
    ⟨s.env.spliced_pushScope, rfl⟩
  have halike := h _ _ hspliced
  unfold Exec.inScope Exec.bracket
  generalize m s = o, m { s with env := s.env.pushScope } = o' at halike
  cases halike with
  | done ht => exact congrArg (Outcome.done _) ht.popScope_eq
  | failed ht => exact congrArg (Outcome.failed _) ht.popScope_eq
  | unfinished => rfl

end Exec

namespace Program

theorem unseen (program : Program) (n : Nat) :
    program.Graded (fun m m' => m.Blind m' ∧ ∀ k, m.Unseen k m')
      (fun m m' => m.Blind m' ∧ ∀ k, m.Unseen (k + 1) m') n n :=
  Exec.unseen_graded.related ⟨fun _ _ _ _ _ => .unfinished, fun _ => .unfinished⟩ program n

end Program

end MiniC
