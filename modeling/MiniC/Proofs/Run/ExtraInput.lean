import MiniC.Proofs.Run.Bindings

/-!
# One more input

A run may be given an input that it does not need. It then does the same, unless it has failed for
want of a variable of that name (`Program.run_extra`): as long as nothing has asked for the name,
the input lies unseen in the outermost scope, or a declaration of `main` has taken its place.
-/

namespace MiniC

-- ---------------------------------------------------------------------------
-- Environments
-- ---------------------------------------------------------------------------

def Scope.Gains (x : String) (scope scope' : Scope) : Prop :=
  ∀ name, scope.get? name = scope'.get? name ∨ (name = x ∧ scope.get? x = none)

theorem Scope.Gains.put {scope scope' : Scope} (h : scope.Gains x scope') (name : String)
    (value : Value) : (scope.put name value).Gains x (scope'.put name value) := by
  intro other
  by_cases hother : other = name
  · exact .inl (by simp [hother])
  · rcases h other with hsame | ⟨rfl, hnone⟩
    · exact .inl (by simp [hother, hsame])
    · exact .inr ⟨rfl, by simp [hother, hnone]⟩

/-- Only the outermost scope of a frame gains a name. In another it would hide what lies behind. -/
inductive Frame.Gains (x : String) : Frame → Frame → Prop
  | nil : Gains x [] []
  | outermost {scope scope' : Scope} : scope.Gains x scope' → Gains x [scope] [scope']
  | cons (scope : Scope) {outer outer' : Frame} : Gains x outer outer' →
      Gains x (scope :: outer) (scope :: outer')

namespace Frame.Gains

variable {frame frame' : Frame}

theorem fresh : Frame.fresh.Gains x .fresh :=
  .cons .empty .nil

theorem get? (h : frame.Gains x frame') (name : String) :
    frame.get? name = frame'.get? name ∨ (name = x ∧ frame.get? x = none) := by
  induction h with
  | nil => exact .inl rfl
  | outermost hscope =>
    rcases hscope name with hsame | ⟨rfl, hnone⟩
    · exact .inl (by rw [Frame.get?_cons, Frame.get?_cons, hsame])
    · exact .inr ⟨rfl, by rw [Frame.get?_cons, hnone]; rfl⟩
  | cons scope _ ih =>
    simp only [Frame.get?_cons]
    rcases ih with hsame | ⟨rfl, hnone⟩
    · exact .inl (by rw [hsame])
    · cases hscope : scope.get? name with
      | none => exact .inr ⟨rfl, hnone⟩
      | some v => exact .inl rfl

theorem define (h : frame.Gains x frame') (name : String) (value : Value) :
    (Frame.define name value frame).Gains x (Frame.define name value frame') := by
  cases h with
  | nil => exact .nil
  | outermost hscope => exact .outermost (hscope.put name value)
  | cons scope houter => exact .cons (scope.put name value) houter

theorem assign? (h : frame.Gains x frame') (name : String) (value : Value) :
    Option.Rel (Frame.Gains x) (Frame.assign? name value frame) (Frame.assign? name value frame') ∨
      (name = x ∧ Frame.assign? x value frame = none) := by
  induction h with
  | nil => exact .inl .none
  | @outermost scope scope' hscope =>
    rcases hscope name with hsame | ⟨rfl, hnone⟩
    · have hhas : scope.has name = scope'.has name := by rw [Scope.has, Scope.has, hsame]
      simp only [Frame.assign?, hhas]
      split
      · exact .inl (.some (.outermost (hscope.put name value)))
      · exact .inl .none
    · exact .inr ⟨rfl, by simp [Frame.assign?, Scope.has, hnone]⟩
  | cons scope houter ih =>
    rw [Frame.assign?, Frame.assign?]
    split
    · exact .inl (.some (.cons _ houter))
    next hhas =>
      rcases ih with hrel | ⟨rfl, hnone⟩
      · exact .inl (map_of_rel hrel fun _ _ => .cons scope)
      · exact .inr ⟨rfl, by rw [Frame.assign?, if_neg hhas, hnone]; rfl⟩

end Frame.Gains

def Environment.Gains (x : String) (env env' : Environment) : Prop :=
  List.Forall₂ (Frame.Gains x) env.frames env'.frames

namespace Environment

variable {env env' : Environment}

namespace Gains

theorem get? (h : env.Gains x env') (name : String) :
    env.get? name = env'.get? name ∨ (name = x ∧ env.get? x = none) := by
  obtain ⟨frames⟩ := env
  obtain ⟨frames'⟩ := env'
  cases h with
  | nil => exact .inl rfl
  | cons hframe _ => exact Frame.Gains.get? hframe name

theorem define (h : env.Gains x env') (name : String) (value : Value) :
    (env.define name value).Gains x (env'.define name value) :=
  forall₂_modifyFrame h fun _ _ hframe => hframe.define name value

theorem pushScope (h : env.Gains x env') : env.pushScope.Gains x env'.pushScope :=
  forall₂_modifyFrame h fun _ _ => .cons .empty

theorem popScope (h : env.Gains x env') : env.popScope.Gains x env'.popScope := by
  refine forall₂_modifyFrame h fun _ _ hframe => ?_
  cases hframe with
  | nil => exact .nil
  | outermost _ => exact .nil
  | cons _ houter => exact houter

theorem pushFrame (h : env.Gains x env') : env.pushFrame.Gains x env'.pushFrame :=
  .cons .fresh h

theorem popFrame (h : env.Gains x env') : env.popFrame.Gains x env'.popFrame :=
  forall₂_popFrame h

theorem assign? (h : env.Gains x env') (name : String) (value : Value) :
    Option.Rel (Environment.Gains x) (env.assign? name value) (env'.assign? name value) ∨
      (name = x ∧ env.assign? x value = none) := by
  obtain ⟨frames⟩ := env
  obtain ⟨frames'⟩ := env'
  cases h with
  | nil => exact .inl .none
  | @cons frame frame' callers callers' hframe hcallers =>
    rcases Frame.Gains.assign? hframe name value with hrel | ⟨rfl, hnone⟩
    · exact .inl (map_of_rel hrel fun _ _ hgains => .cons hgains hcallers)
    · exact .inr ⟨rfl, Option.map_eq_none_iff.2 hnone⟩

end Gains

theorem gains_defineAll {before after : List (String × Value)}
    (hx : ∀ b ∈ before ++ after, b.1 ≠ x) (v : Value) :
    (fresh.defineAll (before ++ after)).Gains x (fresh.defineAll (before ++ (x, v) :: after)) := by
  obtain ⟨scope, hscope, hget⟩ := defineAll_frames (before ++ after) .empty [] []
  obtain ⟨scope', hscope', hget'⟩ := defineAll_frames (before ++ (x, v) :: after) .empty [] []
  have hgains : scope.Gains x scope' := by
    intro name
    by_cases hname : name = x
    · have hnone : (before ++ after).reverse.lookup x = none := by
        refine List.lookup_eq_none_iff.2 fun b hb => ?_
        exact bne_iff_ne.2 (Ne.symm (hx b (List.mem_reverse.1 hb)))
      exact .inr ⟨hname, by rw [hget, hnone]; rfl⟩
    · refine .inl ?_
      rw [hget, hget']
      simp [List.lookup_append, List.lookup_cons, beq_eq_false_iff_ne.2 hname]
  change Gains x (defineAll ⟨[[.empty]]⟩ _) (defineAll ⟨[[.empty]]⟩ _)
  rw [hscope, hscope']
  exact .cons (.outermost hgains) .nil

end Environment

def State.Gains (x : String) (s s' : State) : Prop :=
  s.env.Gains x s'.env ∧ s.sink = s'.sink

-- ---------------------------------------------------------------------------
-- Computations
-- ---------------------------------------------------------------------------

/-- The first execution ends for want of a variable `x`, or the second ends like it. -/
def Outcome.Gains (x : String) (o o' : Outcome α) : Prop :=
  (∃ t, o = .failed (.unknownVariable x) t) ∨ o.Alike (State.Gains x) o'

namespace Exec

theorem bind_gains {m m' : Exec α} {second second' : α → Exec β} {s s' : State}
    (h : (m s).Gains x (m' s'))
    (hsecond : ∀ a t t', State.Gains x t t' → (second a t).Gains x (second' a t')) :
    ((m >>= second) s).Gains x ((m' >>= second') s') := by
  rcases h with ⟨t, ht⟩ | h
  · exact .inl ⟨t, bind_failed ht⟩
  · generalize hm : m s = o, hm' : m' s' = o' at h
    cases h with
    | done ht =>
      rw [bind_done hm, bind_done hm']
      exact hsecond _ _ _ ht
    | failed ht =>
      rw [bind_failed hm, bind_failed hm']
      exact .inr (.failed ht)
    | unfinished =>
      rw [bind_unfinished hm, bind_unfinished hm']
      exact .inr .unfinished

def Gains (x : String) (m m' : Exec α) : Prop :=
  ∀ s s', State.Gains x s s' → (m s).Gains x (m' s')

namespace Gains

variable {m m' : Exec α}

protected theorem bind {second second' : α → Exec β} (h : m.Gains x m')
    (hsecond : ∀ a, (second a).Gains x (second' a)) : (m >>= second).Gains x (m' >>= second') :=
  fun _ _ hs => bind_gains (h _ _ hs) fun a _ _ => hsecond a _ _

theorem lookup (name : String) : (Exec.lookup name).Gains x (Exec.lookup name) := by
  intro s s' hs
  rcases hs.1.get? name with hsame | ⟨rfl, hnone⟩
  · exact .inr (lookup_alike hs.1 hs.2 hsame)
  · exact .inl ⟨s, by simp only [Exec.lookup, hnone]⟩

theorem assign (name : String) (value : Value) :
    (Exec.assign name value).Gains x (Exec.assign name value) := by
  intro s s' hs
  rcases hs.1.assign? name value with hrel | ⟨rfl, hnone⟩
  · exact .inr (assign_alike hs.1 hs.2 hrel)
  · exact .inl ⟨s, by simp only [Exec.assign, hnone]⟩

theorem printLine (value : Value) : (Exec.printLine value).Gains x (Exec.printLine value) :=
  fun _ _ hs => .inr (printLine_alike hs.1 hs.2 value)

theorem flush : Exec.flush.Gains x Exec.flush :=
  fun _ _ hs => .inr (flush_alike hs.1 hs.2)

theorem bracket {before after : Environment → Environment}
    (hbefore : ∀ env env', env.Gains x env' → (before env).Gains x (before env'))
    (hafter : ∀ env env', env.Gains x env' → (after env).Gains x (after env')) (h : m.Gains x m') :
    (m.bracket before after).Gains x (m'.bracket before after) := by
  intro s s' hs
  have hopened : State.Gains x { s with env := before s.env } { s' with env := before s'.env } :=
    ⟨hbefore _ _ hs.1, hs.2⟩
  rcases h _ _ hopened with ⟨t, ht⟩ | halike
  · exact .inl ⟨{ t with env := after t.env }, by simp only [Exec.bracket, ht]⟩
  · exact .inr (bracket_alike halike fun _ _ ht => ⟨hafter _ _ ht.1, ht.2⟩)

end Gains

theorem gains_congruence (x : String) : Congruence (Gains x) where
  pure _ _ _ h := .inr (.done h)
  fail _ _ _ h := .inr (.failed h)
  bind h hsecond := h.bind hsecond
  lookup := .lookup
  assign := .assign
  define name value _ _ hs := .inr (.done ⟨hs.1.define name value, hs.2⟩)
  printLine := .printLine
  inScope h := h.bracket (fun _ _ => .pushScope) fun _ _ => .popScope
  inFrame h := h.bracket (fun _ _ => .pushFrame) fun _ _ => .popFrame

end Exec

-- ---------------------------------------------------------------------------
-- Runs
-- ---------------------------------------------------------------------------

namespace Program

variable {program : Program} {before after : List (String × Value)} {fuel : Nat} {sink : Sink}

theorem gains (program : Program) (x : String) (n : Nat) :
    program.Related (Exec.Gains x) n n :=
  (Exec.gains_congruence x).related (fun _ _ _ => .inr .unfinished) program n

theorem runMain_gains (hx : ∀ b ∈ before ++ after, b.1 ≠ x) (v : Value) :
    (program.runMain fuel (before ++ after) ⟨.fresh, sink⟩).Gains x
      (program.runMain fuel (before ++ (x, v) :: after) ⟨.fresh, sink⟩) := by
  have hx' := Exec.gains_congruence x
  unfold runMain
  cases program.function? "main" with
  | none => exact .inr (.failed ⟨.cons .fresh .nil, rfl⟩)
  | some main =>
    have hstart : State.Gains x ⟨Environment.fresh.defineAll (before ++ after), sink⟩
        ⟨Environment.fresh.defineAll (before ++ (x, v) :: after), sink⟩ :=
      ⟨Environment.gains_defineAll hx v, rfl⟩
    refine Exec.bind_gains (.inr (.done hstart)) fun _ s s' hs => ?_
    refine Exec.Gains.bind ((program.gains x fuel).execAll main.body) (fun flow => ?_) s s' hs
    cases flow with
    | normal => exact hx'.pure noResult
    | returned v => exact hx'.ofExcept v.result

/-- With an input more, of a name that no other input has, a run does the same: it ends with the
same result or the same fault and the same output, or both do not end. Only a run that fails for
want of a variable of that name may do something else. -/
theorem run_extra (hx : ∀ b ∈ before ++ after, b.1 ≠ x) (v : Value)
    (hrun : ∀ t, program.run fuel (before ++ after) sink ≠ .failed (.unknownVariable x) t) :
    (program.run fuel (before ++ after) sink).Alike (fun t t' => t.sink = t'.sink)
      (program.run fuel (before ++ (x, v) :: after) sink) := by
  have hgains : (program.run fuel (before ++ after) sink).Gains x
      (program.run fuel (before ++ (x, v) :: after) sink) := by
    refine Exec.bind_gains (runMain_gains hx v) fun result t t' ht => ?_
    exact Exec.bind_gains (Exec.Gains.flush t t' ht) fun _ _ _ hu => .inr (.done hu)
  rcases hgains with ⟨t, ht⟩ | halike
  · exact absurd ht (hrun t)
  · exact halike.mono fun _ _ ht => ht.2

/-- `{ int x = y; print(x); } if (y) int x = 1; x = x + z; return x;` first has an `x` of a block of
its own and then one in the place of the input. -/
theorem run_extra_redeclared :
    let inner : Stmt := .block [.decl ⟨.int, "x", some (.var "y")⟩, .print (.var "x")]
    let branch : Stmt := .ifElse (.var "y") (.decl ⟨.int, "x", some (.literal (.int 1))⟩) none
    let main : Function := ⟨.int, "main", [], [inner, branch,
      .expr (.assign "x" (.binary .add (.var "x") (.var "z"))), .ret (some (.var "x"))]⟩
    let program : Program := ⟨[main], []⟩
    (∀ b ∈ [("y", Value.int 2)] ++ [("z", .int 6)], b.1 ≠ "x") ∧
      (∃ t, program.run 20 ([("y", .int 2)] ++ [("z", .int 6)]) .unlimited = .done 7 t) ∧
      (program.run 20 ([("y", .int 2)] ++ [("z", .int 6)]) .unlimited).Alike
        (fun t t' => t.sink = t'.sink)
        (program.run 20 ([("y", .int 2)] ++ ("x", .str "unused") :: [("z", .int 6)])
          .unlimited) := by
  intro inner branch main program
  have hx : ∀ b ∈ [("y", Value.int 2)] ++ [("z", .int 6)], b.1 ≠ "x" := by decide
  obtain ⟨t, ht⟩ : ∃ t, program.run 20 ([("y", .int 2)] ++ [("z", .int 6)]) .unlimited =
      .done 7 t := ⟨_, rfl⟩
  exact ⟨hx, ⟨t, ht⟩, run_extra hx (.str "unused") fun t' => by rw [ht]; exact nofun⟩

end Program

end MiniC
