import Mathlib.Data.List.Forall2
import MiniC.Proofs.Run.Erase
import MiniC.Proofs.Run.Isolation

/-!
# What a run reads of its inputs

Of the inputs a run only reads the last value of each name. Scopes that give every name the same
value are not told apart by anything that a run does, so it does the same with inputs in another
order, or with values that later ones replace (`Program.run_alike`).
-/

namespace MiniC

-- ---------------------------------------------------------------------------
-- Environments
-- ---------------------------------------------------------------------------

def Scope.Alike (scope scope' : Scope) : Prop :=
  ∀ name, scope.get? name = scope'.get? name

theorem Scope.Alike.has {scope scope' : Scope} (h : scope.Alike scope') (name : String) :
    scope.has name = scope'.has name := by
  rw [Scope.has, Scope.has, h name]

theorem Scope.Alike.put {scope scope' : Scope} (h : scope.Alike scope') (name : String)
    (value : Value) : (scope.put name value).Alike (scope'.put name value) := by
  intro other
  rw [Scope.get?_put, Scope.get?_put, h other]

def Frame.Alike : Frame → Frame → Prop :=
  List.Forall₂ Scope.Alike

namespace Frame.Alike

variable {frame frame' : Frame}

theorem get? (h : frame.Alike frame') (name : String) : frame.get? name = frame'.get? name := by
  induction h with
  | nil => rfl
  | cons hscope _ ih => rw [Frame.get?_cons, Frame.get?_cons, hscope name, ih]

theorem define (h : frame.Alike frame') (name : String) (value : Value) :
    (Frame.define name value frame).Alike (Frame.define name value frame') := by
  cases h with
  | nil => exact .nil
  | cons hscope houter => exact .cons (hscope.put name value) houter

theorem assign? (h : frame.Alike frame') (name : String) (value : Value) :
    Option.Rel Frame.Alike (Frame.assign? name value frame) (Frame.assign? name value frame') := by
  induction h with
  | nil => exact .none
  | @cons scope scope' outer outer' hscope houter ih =>
    rw [Frame.assign?, Frame.assign?, hscope.has name]
    split
    · exact .some (.cons (hscope.put name value) houter)
    · exact map_of_rel ih fun _ _ halike => .cons hscope halike

end Frame.Alike

def Environment.Alike (env env' : Environment) : Prop :=
  List.Forall₂ Frame.Alike env.frames env'.frames

namespace Environment

variable {env env' : Environment}

section

variable {F : Frame → Frame → Prop} (h : List.Forall₂ F env.frames env'.frames)

include h

theorem forall₂_modifyFrame {change : Frame → Frame}
    (hchange : ∀ frame frame' : Frame, F frame frame' → F (change frame) (change frame')) :
    List.Forall₂ F (env.modifyFrame change).frames (env'.modifyFrame change).frames := by
  obtain ⟨frames⟩ := env
  obtain ⟨frames'⟩ := env'
  cases h with
  | nil => exact .nil
  | cons hframe hcallers => exact .cons (hchange _ _ hframe) hcallers

theorem forall₂_popFrame : List.Forall₂ F env.popFrame.frames env'.popFrame.frames := by
  simpa only [popFrame, List.drop_one] using List.forall₂_drop 1 h

end

namespace Alike

theorem get? (h : env.Alike env') (name : String) : env.get? name = env'.get? name := by
  obtain ⟨frames⟩ := env
  obtain ⟨frames'⟩ := env'
  cases h with
  | nil => rfl
  | cons hframe _ => exact Frame.Alike.get? hframe name

theorem define (h : env.Alike env') (name : String) (value : Value) :
    (env.define name value).Alike (env'.define name value) :=
  forall₂_modifyFrame h fun _ _ hframe => hframe.define name value

theorem pushScope (h : env.Alike env') : env.pushScope.Alike env'.pushScope :=
  forall₂_modifyFrame h fun _ _ => .cons fun _ => rfl

theorem popScope (h : env.Alike env') : env.popScope.Alike env'.popScope := by
  refine forall₂_modifyFrame h fun _ _ hframe => ?_
  cases hframe with
  | nil => exact .nil
  | cons _ houter => exact houter

theorem pushFrame (h : env.Alike env') : env.pushFrame.Alike env'.pushFrame :=
  .cons (.cons (fun _ => rfl) .nil) h

theorem popFrame (h : env.Alike env') : env.popFrame.Alike env'.popFrame :=
  forall₂_popFrame h

theorem assign? (h : env.Alike env') (name : String) (value : Value) :
    Option.Rel Environment.Alike (env.assign? name value) (env'.assign? name value) := by
  obtain ⟨frames⟩ := env
  obtain ⟨frames'⟩ := env'
  cases h with
  | nil => exact .none
  | @cons frame frame' callers callers' hframe hcallers =>
    exact map_of_rel (Frame.Alike.assign? hframe name value) fun _ _ halike => .cons halike hcallers

end Alike

theorem defineAll_frames (bindings : List (String × Value)) (scope : Scope) (outer : Frame)
    (callers : List Frame) : ∃ after : Scope,
      (⟨(scope :: outer) :: callers⟩ : Environment).defineAll bindings =
        ⟨(after :: outer) :: callers⟩ ∧
      ∀ name, after.get? name = (bindings.reverse.lookup name).or (scope.get? name) := by
  induction bindings generalizing scope with
  | nil => exact ⟨scope, rfl, fun name => rfl⟩
  | cons binding rest ih =>
    obtain ⟨x, v⟩ := binding
    obtain ⟨after, hafter, hget⟩ := ih (scope.put x v)
    refine ⟨after, hafter, fun name => ?_⟩
    rw [hget, Scope.get?_put, List.reverse_cons, List.lookup_append, Option.or_assoc]
    by_cases h : name = x
    · simp [h]
    · simp [List.lookup_cons, beq_eq_false_iff_ne.2 h, h]

theorem alike_defineAll {inputs inputs' : List (String × Value)}
    (h : ∀ name, inputs.reverse.lookup name = inputs'.reverse.lookup name) :
    (fresh.defineAll inputs).Alike (fresh.defineAll inputs') := by
  obtain ⟨after, hafter, hget⟩ := defineAll_frames inputs .empty [] []
  obtain ⟨after', hafter', hget'⟩ := defineAll_frames inputs' .empty [] []
  have hscope : after.Alike after' := fun name => by rw [hget, hget', h name]
  change Alike (defineAll ⟨[[.empty]]⟩ inputs) (defineAll ⟨[[.empty]]⟩ inputs')
  rw [hafter, hafter']
  exact .cons (.cons hscope .nil) .nil

end Environment

def State.Alike (s s' : State) : Prop :=
  s.env.Alike s'.env ∧ s.sink = s'.sink

-- ---------------------------------------------------------------------------
-- Computations
-- ---------------------------------------------------------------------------

namespace Exec

/-- From states that are alike, the computations end alike or both do not end. -/
def Tracks (m m' : Exec α) : Prop :=
  ∀ s s', s.Alike s' → (m s).Alike State.Alike (m' s')

namespace Tracks

variable {m m' : Exec α}

theorem lookup (name : String) : (Exec.lookup name).Tracks (Exec.lookup name) :=
  fun _ _ hs => lookup_alike hs.1 hs.2 (hs.1.get? name)

theorem assign (name : String) (value : Value) :
    (Exec.assign name value).Tracks (Exec.assign name value) :=
  fun _ _ hs => assign_alike hs.1 hs.2 (hs.1.assign? name value)

theorem printLine (value : Value) : (Exec.printLine value).Tracks (Exec.printLine value) :=
  fun _ _ hs => printLine_alike hs.1 hs.2 value

theorem flush : Exec.flush.Tracks Exec.flush :=
  fun _ _ hs => flush_alike hs.1 hs.2

theorem bracket {before after : Environment → Environment}
    (hbefore : ∀ env env', env.Alike env' → (before env).Alike (before env'))
    (hafter : ∀ env env', env.Alike env' → (after env).Alike (after env')) (h : m.Tracks m') :
    (m.bracket before after).Tracks (m'.bracket before after) := fun _ _ hs =>
  bracket_alike (h _ _ ⟨hbefore _ _ hs.1, hs.2⟩) fun _ _ ht => ⟨hafter _ _ ht.1, ht.2⟩

end Tracks

theorem tracks_congruence : Congruence Tracks where
  pure _ _ _ h := .done h
  fail _ _ _ h := .failed h
  bind h hsecond _ _ hs := bind_alike (h _ _ hs) fun a _ _ => hsecond a _ _
  lookup := .lookup
  assign := .assign
  define name value _ _ hs := .done ⟨hs.1.define name value, hs.2⟩
  printLine := .printLine
  inScope h := h.bracket (fun _ _ => .pushScope) fun _ _ => .popScope
  inFrame h := h.bracket (fun _ _ => .pushFrame) fun _ _ => .popFrame

end Exec

-- ---------------------------------------------------------------------------
-- Runs
-- ---------------------------------------------------------------------------

namespace Program

variable {p q : Program} {inputs inputs' : List (String × Value)}

theorem tracks (p : Program) (n : Nat) : p.Related Exec.Tracks n n :=
  Exec.tracks_congruence.related (fun _ _ _ => .unfinished) p n

theorem runMain_alike (p : Program)
    (hinputs : ∀ name, inputs.reverse.lookup name = inputs'.reverse.lookup name) (fuel : Nat)
    (sink : Sink) :
    (p.runMain fuel inputs ⟨.fresh, sink⟩).Alike State.Alike
      (p.runMain fuel inputs' ⟨.fresh, sink⟩) := by
  unfold runMain
  cases p.function? "main" with
  | none => exact .failed ⟨.cons (.cons (fun _ => rfl) .nil) .nil, rfl⟩
  | some main =>
    have hstart : State.Alike ⟨Environment.fresh.defineAll inputs, sink⟩
        ⟨Environment.fresh.defineAll inputs', sink⟩ :=
      ⟨Environment.alike_defineAll hinputs, rfl⟩
    refine Exec.bind_alike (.done hstart) fun _ s s' hs => ?_
    refine Exec.bind_alike ((p.tracks fuel).execAll main.body s s' hs) fun flow t t' ht => ?_
    cases flow with
    | normal => exact .done ht
    | returned v => exact Exec.tracks_congruence.ofExcept v.result t t' ht

/-- A run sees the first functions of a program, up to their types, and the last values of its
inputs: where these are the same, runs with as much fuel both end, with the same result or the same
fault and the same output, or neither does. -/
theorem run_alike (hprograms : p.Matches q)
    (hinputs : ∀ name, inputs.reverse.lookup name = inputs'.reverse.lookup name) (fuel : Nat)
    (sink : Sink) :
    (p.run fuel inputs sink).Alike (fun t t' => t.sink = t'.sink) (q.run fuel inputs' sink) := by
  unfold run
  rw [hprograms.runMain]
  refine Outcome.Alike.mono (S := State.Alike) ?_ fun _ _ ht => ht.2
  refine Exec.bind_alike (q.runMain_alike hinputs fuel sink) fun result t t' ht => ?_
  exact Exec.bind_alike (Exec.Tracks.flush t t' ht) fun _ _ _ hu => .done hu

/-- `int f(int a, int b) { int c = a; return c - b; } int main() { return f(x, y); }` beside the
program with the functions the other way round, other types, an initializer of a parameter, a second
`f` and a global variable, run with a first value for `y` that the second replaces. -/
theorem run_alike_reordered :
    let f : Function := ⟨.int, "f", [⟨.int, "a", none⟩, ⟨.int, "b", none⟩],
      [.decl ⟨.int, "c", some (.var "a")⟩, .ret (some (.binary .sub (.var "c") (.var "b")))]⟩
    let f' : Function := ⟨.float, "f", [⟨.bool, "a", some (.literal (.int 9))⟩, ⟨.char, "b", none⟩],
      [.decl ⟨.float, "c", some (.var "a")⟩, .ret (some (.binary .sub (.var "c") (.var "b")))]⟩
    let main (type : TypeName) : Function :=
      ⟨type, "main", [], [.ret (some (.call "f" [.var "x", .var "y"]))]⟩
    let p : Program := ⟨[f, main .int], []⟩
    let q : Program := ⟨[main .void, f', ⟨.int, "f", [], []⟩], [⟨.int, "z", none⟩]⟩
    let inputs : List (String × Value) := [("x", .int 5), ("y", .int 2)]
    let inputs' : List (String × Value) := [("y", .int 7), ("y", .int 2), ("x", .int 5)]
    p.Matches q ∧ (∀ name, inputs.reverse.lookup name = inputs'.reverse.lookup name) ∧
      (p.run 20 inputs .unlimited).Alike (fun t t' => t.sink = t'.sink)
        (q.run 20 inputs' .unlimited) ∧
      ∃ t, p.run 20 inputs .unlimited = .done 3 t := by
  intro f f' main p q inputs inputs'
  have hmatches : p.Matches q := by
    intro name
    by_cases hf : name = "f"
    · subst hf
      exact .some ⟨rfl, rfl⟩
    · by_cases hmain : name = "main"
      · subst hmain
        exact .some ⟨rfl, rfl⟩
      · have hp : p.function? name = none := by
          simp [function?, p, f, main, Ne.symm hf, Ne.symm hmain]
        have hq : q.function? name = none := by
          simp [function?, q, f', main, Ne.symm hf, Ne.symm hmain]
        rw [hp, hq]
        exact .none
  have hinputs : ∀ name, inputs.reverse.lookup name = inputs'.reverse.lookup name := by
    intro name
    by_cases hx : name = "x"
    · subst hx
      rfl
    · by_cases hy : name = "y"
      · subst hy
        rfl
      · simp [inputs, inputs', List.lookup_cons, beq_eq_false_iff_ne.2 hx,
          beq_eq_false_iff_ne.2 hy]
  exact ⟨hmatches, hinputs, run_alike hmatches hinputs 20 .unlimited, _, rfl⟩

end Program

end MiniC
