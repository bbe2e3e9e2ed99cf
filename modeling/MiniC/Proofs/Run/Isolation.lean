import MiniC.Proofs.Run.Fuel
import MiniC.Proofs.Run.Phrase
import MiniC.Proofs.Run.Safe

/-!
# What a call sees

A call sees the values it is given, and nothing else of the variables of its caller: two calls of a
function with the same values do the same wherever they are made, and leave their callers the
variables that they had (`Program.call_isolated`). A call that is refused leaves the variables that
there were before its arguments, which are not evaluated then (`Program.call_refused_unevaluated`).

The proof runs a phrase twice, over two stacks of callers. As long as the current frames agree, both
executions do the same and change the current frame alike.
-/

namespace MiniC

inductive Outcome.Alike (S : State → State → Prop) : Outcome α → Outcome α → Prop
  | done {a t t'} : S t t' → Alike S (.done a t) (.done a t')
  | failed {fault t t'} : S t t' → Alike S (.failed fault t) (.failed fault t')
  | unfinished : Alike S .unfinished .unfinished

theorem Outcome.Alike.unfinished_iff {S : State → State → Prop} {o o' : Outcome α}
    (h : o.Alike S o') : o = .unfinished ↔ o' = .unfinished := by
  cases h <;> simp

theorem Outcome.Alike.mono {S T : State → State → Prop} {o o' : Outcome α} (h : o.Alike S o')
    (hT : ∀ t t', S t t' → T t t') : o.Alike T o' := by
  cases h with
  | done ht => exact .done (hT _ _ ht)
  | failed ht => exact .failed (hT _ _ ht)
  | unfinished => exact .unfinished

/-- States with the same current frame and the same output, over callers of their own. -/
def State.Twins (callers callers' : List Frame) (s s' : State) : Prop :=
  ∃ frame sink, s = ⟨⟨frame :: callers⟩, sink⟩ ∧ s' = ⟨⟨frame :: callers'⟩, sink⟩

namespace Exec

/-- With enough fuel both computations end, and end alike, or neither does. -/
def SettleAlike (S : State → State → Prop) (m : Nat → Exec α) (s : State) (m' : Nat → Exec α)
    (s' : State) : Prop :=
  (∀ o, Settles m s o → ∃ o', Settles m' s' o' ∧ o.Alike S o') ∧
    ∀ o', Settles m' s' o' → ∃ o, Settles m s o ∧ o.Alike S o'

theorem SettleAlike.of_alike {S : State → State → Prop} {m m' : Nat → Exec α} {s s' : State}
    (h : ∀ n, (m n s).Alike S (m' n s')) : SettleAlike S m s m' s' := by
  constructor
  · rintro _ ⟨hend, n, rfl⟩
    exact ⟨m' n s', ⟨mt (h n).unfinished_iff.2 hend, n, rfl⟩, h n⟩
  · rintro _ ⟨hend, n, rfl⟩
    exact ⟨m n s, ⟨mt (h n).unfinished_iff.1 hend, n, rfl⟩, h n⟩

theorem bracket_alike {S T : State → State → Prop} {m m' : Exec α}
    {before after : Environment → Environment} {s s' : State}
    (h : (m { s with env := before s.env }).Alike S (m' { s' with env := before s'.env }))
    (hT : ∀ t t', S t t' → T { t with env := after t.env } { t' with env := after t'.env }) :
    (m.bracket before after s).Alike T (m'.bracket before after s') := by
  unfold Exec.bracket
  cases hm : m { s with env := before s.env } <;>
    cases hm' : m' { s' with env := before s'.env } <;>
    rw [hm, hm'] at h <;> cases h
  next ht => exact .done (hT _ _ ht)
  next ht => exact .failed (hT _ _ ht)
  next => exact .unfinished

theorem bind_alike {S : State → State → Prop} {m m' : Exec α} {second second' : α → Exec β}
    {s s' : State} (h : (m s).Alike S (m' s'))
    (hsecond : ∀ a t t', S t t' → (second a t).Alike S (second' a t')) :
    ((m >>= second) s).Alike S ((m' >>= second') s') := by
  cases hm : m s with
  | done a t =>
    cases hm' : m' s' <;> rw [hm, hm'] at h <;> cases h
    rename_i ht
    rw [bind_done hm, bind_done hm']
    exact hsecond a _ _ ht
  | failed fault t =>
    cases hm' : m' s' <;> rw [hm, hm'] at h <;> cases h
    rename_i ht
    rw [bind_failed hm, bind_failed hm']
    exact .failed ht
  | unfinished =>
    cases hm' : m' s' <;> rw [hm, hm'] at h <;> cases h
    rw [bind_unfinished hm, bind_unfinished hm']
    exact .unfinished

section

-- The same step of two runs whose variables `R` relates and whose output is the same.

variable {R : Environment → Environment → Prop} {s s' : State} (henv : R s.env s'.env)
  (hsink : s.sink = s'.sink)

include henv hsink

theorem lookup_alike {name : String} (h : s.env.get? name = s'.env.get? name) :
    (Exec.lookup name s).Alike (fun t t' => R t.env t'.env ∧ t.sink = t'.sink)
      (Exec.lookup name s') := by
  simp only [Exec.lookup, h]
  cases s'.env.get? name with
  | none => exact .failed ⟨henv, hsink⟩
  | some v => exact .done ⟨henv, hsink⟩

theorem assign_alike {name : String} {value : Value}
    (h : Option.Rel R (s.env.assign? name value) (s'.env.assign? name value)) :
    (Exec.assign name value s).Alike (fun t t' => R t.env t'.env ∧ t.sink = t'.sink)
      (Exec.assign name value s') := by
  unfold Exec.assign
  generalize s.env.assign? name value = found, s'.env.assign? name value = found' at h
  cases h with
  | none => exact .failed ⟨henv, hsink⟩
  | some hafter => exact .done ⟨hafter, hsink⟩

theorem printLine_alike (value : Value) :
    (Exec.printLine value s).Alike (fun t t' => R t.env t'.env ∧ t.sink = t'.sink)
      (Exec.printLine value s') := by
  simp only [Exec.printLine, hsink]
  rcases s'.sink.write (value.text ++ "\n") with ⟨sink, _ | refusal⟩
  · exact .done ⟨henv, rfl⟩
  · exact .failed ⟨henv, rfl⟩

theorem flush_alike :
    (Exec.flush s).Alike (fun t t' => R t.env t'.env ∧ t.sink = t'.sink) (Exec.flush s') := by
  simp only [Exec.flush, hsink]
  cases s'.sink.flush with
  | none => exact .done ⟨henv, hsink⟩
  | some refusal => exact .failed ⟨henv, hsink⟩

end

/-- Over any callers the computations do the same, if their own frames are the same. -/
def Blind (m m' : Exec α) : Prop :=
  ∀ callers callers' s s', State.Twins callers callers' s s' →
    (m s).Alike (State.Twins callers callers') (m' s')

namespace Blind

variable {m m' : Exec α}

protected theorem bind {second second' : α → Exec β} (h : m.Blind m')
    (hsecond : ∀ a, (second a).Blind (second' a)) : (m >>= second).Blind (m' >>= second') :=
  fun callers callers' _ _ hs =>
    bind_alike (h callers callers' _ _ hs) fun a _ _ => hsecond a callers callers' _ _

theorem lookup (name : String) : (Exec.lookup name).Blind (Exec.lookup name) := by
  rintro callers callers' _ _ ⟨frame, sink, rfl, rfl⟩
  have hget : ∀ callers, Environment.get? ⟨frame :: callers⟩ name = frame.get? name := fun _ => rfl
  simp only [Exec.lookup, hget]
  cases frame.get? name with
  | none => exact .failed ⟨frame, sink, rfl, rfl⟩
  | some v => exact .done ⟨frame, sink, rfl, rfl⟩

theorem assign (name : String) (value : Value) :
    (Exec.assign name value).Blind (Exec.assign name value) := by
  rintro callers callers' _ _ ⟨frame, sink, rfl, rfl⟩
  simp only [Exec.assign, Environment.assign?]
  cases Frame.assign? name value frame with
  | none => exact .failed ⟨frame, sink, rfl, rfl⟩
  | some after => exact .done ⟨after, sink, rfl, rfl⟩

theorem define (name : String) (value : Value) :
    (Exec.define name value).Blind (Exec.define name value) := by
  rintro callers callers' _ _ ⟨frame, sink, rfl, rfl⟩
  exact .done ⟨frame.define name value, sink, rfl, rfl⟩

theorem printLine (value : Value) : (Exec.printLine value).Blind (Exec.printLine value) := by
  rintro callers callers' _ _ ⟨frame, sink, rfl, rfl⟩
  simp only [Exec.printLine]
  rcases sink.write (value.text ++ "\n") with ⟨sink', _ | refusal⟩
  · exact .done ⟨frame, sink', rfl, rfl⟩
  · exact .failed ⟨frame, sink', rfl, rfl⟩

theorem inScope (h : m.Blind m') : (Exec.inScope m).Blind (Exec.inScope m') := by
  rintro callers callers' _ _ ⟨frame, sink, rfl, rfl⟩
  refine bracket_alike (h callers callers' _ _ ⟨.empty :: frame, sink, rfl, rfl⟩) ?_
  rintro _ _ ⟨inner, sink', rfl, rfl⟩
  exact ⟨inner.tail, sink', rfl, rfl⟩

theorem inFrame (h : m.Blind m') : (Exec.inFrame m).Blind (Exec.inFrame m') := by
  rintro callers callers' _ _ ⟨frame, sink, rfl, rfl⟩
  -- what was the current frame is one of the callers' while the new one is
  refine bracket_alike (h (frame :: callers) (frame :: callers') _ _ ⟨.fresh, sink, rfl, rfl⟩) ?_
  rintro _ _ ⟨inner, sink', rfl, rfl⟩
  exact ⟨frame, sink', rfl, rfl⟩

end Blind

theorem blind_congruence : Congruence Blind where
  pure _ _ _ _ _ h := .done h
  fail _ _ _ _ _ h := .failed h
  bind := .bind
  lookup := .lookup
  assign := .assign
  define := .define
  printLine := .printLine
  inScope := .inScope
  inFrame := .inFrame

end Exec

theorem Program.blind (program : Program) (n : Nat) : program.Related Exec.Blind n n :=
  Exec.blind_congruence.related (fun _ _ _ _ _ => .unfinished) program n

-- ---------------------------------------------------------------------------
-- Calls
-- ---------------------------------------------------------------------------

namespace Program

variable {program : Program} {f : String} {g : Function} {args args' : List Expr}
  {values : List Value} {s s' t t' u : State} {o : Outcome Value} {n count : Nat}

theorem Takes.settles_evalCall (h : program.Takes f args.length g)
    (hargs : Exec.Settles (Expr.evalAll program · args) s (.done values t)) :
    Exec.Settles (Expr.evalCall program · f args) s o ↔
      Exec.Settles (fun n => Exec.inFrame (g.applyTo program n values)) t o := by
  rw [Exec.settles_succ rfl]
  simp only [h.evalCall]
  exact Exec.settles_bind hargs (program.ascending_evalAll args)
    (program.ascending_applyTo g values)

theorem applyTo_alike (n : Nat) (g : Function) (values : List Value) (h : t.sink = t'.sink) :
    (Exec.inFrame (g.applyTo program n values) t).Alike (fun u u' => u.sink = u'.sink)
      (Exec.inFrame (g.applyTo program n values) t') := by
  have hblind := (program.blind n).applyTo Exec.blind_congruence g values
  have htwins : State.Twins t.env.frames t'.env.frames { t with env := t.env.pushFrame }
      { t' with env := t'.env.pushFrame } := ⟨.fresh, t.sink, rfl, by rw [h]; rfl⟩
  refine Exec.bracket_alike (hblind _ _ _ _ htwins) ?_
  rintro _ _ ⟨frame, sink, rfl, rfl⟩
  rfl

theorem Takes.env_eq (h : program.Takes f args.length g)
    (hargs : Exec.Settles (Expr.evalAll program · args) s (.done values t))
    (ho : Exec.Settles (Expr.evalCall program · f args) s o) (hu : o.final? = some u) :
    u.env = t.env := by
  obtain ⟨-, n, rfl⟩ := (h.settles_evalCall hargs).1 ho
  exact ((Exec.keeps_inFrame ((program.keepsNames n).applyTo g values)).final hu).symm

theorem length_of_settles (h : Exec.Settles (Expr.evalAll program · args) s (.done values t)) :
    values.length = args.length := by
  obtain ⟨-, n, hn⟩ := h
  exact (Expr.evalAll_length program n args s).done hn

/-- Calls with the same values do the same, wherever they are made: both end, with the same result
or the same fault and the same output, or neither does. What they find behind them are the
variables that there were when the arguments had been evaluated. A call that is refused for its name
or for the number of its arguments evaluates none of them and changes nothing. -/
theorem call_isolated (hstart : s.sink = s'.sink)
    (hargs : Exec.Settles (Expr.evalAll program · args) s (.done values t))
    (hargs' : Exec.Settles (Expr.evalAll program · args') s' (.done values t'))
    (hsink : t.sink = t'.sink) :
    Exec.SettleAlike (fun u u' => u.sink = u'.sink) (Expr.evalCall program · f args) s
        (Expr.evalCall program · f args') s' ∧
      (∀ g o u, program.Takes f values.length g → o.final? = some u →
        (Exec.Settles (Expr.evalCall program · f args) s o → u.env = t.env) ∧
        (Exec.Settles (Expr.evalCall program · f args') s' o → u.env = t'.env)) ∧
      ((∀ g, ¬program.Takes f values.length g) → ∃ fault,
        Exec.Settles (Expr.evalCall program · f args) s (.failed fault s) ∧
        Exec.Settles (Expr.evalCall program · f args') s' (.failed fault s')) := by
  have hlength := (length_of_settles hargs).symm
  have hlength' := (length_of_settles hargs').symm
  refine ⟨?_, fun g o u hg hu => ?_, fun hnone => ?_⟩
  · by_cases hg : ∃ g, program.Takes f values.length g
    · obtain ⟨g, hg⟩ := hg
      have hcall := fun o => (hlength ▸ hg).settles_evalCall (o := o) hargs
      have hcall' := fun o => (hlength' ▸ hg).settles_evalCall (o := o) hargs'
      unfold Exec.SettleAlike
      simp only [hcall, hcall']
      exact Exec.SettleAlike.of_alike fun n => applyTo_alike n g values hsink
    · obtain ⟨fault, hfault⟩ := refused (not_exists.1 hg)
      refine .of_alike fun n => ?_
      cases n with
      | zero => exact .unfinished
      | succ n =>
        rw [hfault args hlength, hfault args' hlength']
        exact .failed hstart
  · exact ⟨fun ho => (hlength ▸ hg).env_eq hargs ho hu,
      fun ho => (hlength' ▸ hg).env_eq hargs' ho hu⟩
  · obtain ⟨fault, hfault⟩ := refused hnone
    exact ⟨fault, ⟨nofun, 1, congrFun (hfault args hlength 0) s⟩,
      ⟨nofun, 1, congrFun (hfault args' hlength' 0) s'⟩⟩

/-- `main(x)` where `x` is `7` and `main(7)` where nothing is bound, with
`int main(int k) { return k + n; }`: the first call does not find the `n` of its caller either. -/
theorem call_isolated_main :
    let main : Function := ⟨.int, "main", [⟨.int, "k", none⟩],
      [.ret (some (.binary .add (.var "k") (.var "n")))]⟩
    let program : Program := ⟨[main], []⟩
    let s : State := ⟨⟨[[⟨[("n", .int 1), ("x", .int 7)]⟩]]⟩, .unlimited⟩
    let s' : State := ⟨.fresh, .unlimited⟩
    let call : Nat → Exec Value := (Expr.evalCall program · "main" [.var "x"])
    let call' : Nat → Exec Value := (Expr.evalCall program · "main" [.literal (.int 7)])
    Exec.Settles (Expr.evalAll program · [.var "x"]) s (.done [.int 7] s) ∧
      Exec.Settles (Expr.evalAll program · [.literal (.int 7)]) s' (.done [.int 7] s') ∧
      Exec.SettleAlike (fun u u' => u.sink = u'.sink) call s call' s' ∧
      Exec.Settles call s (.failed (.unknownVariable "n") s) := by
  intro main program s s' call call'
  have hargs : Exec.Settles (Expr.evalAll program · [.var "x"]) s (.done [.int 7] s) :=
    ⟨nofun, 2, rfl⟩
  have hargs' : Exec.Settles (Expr.evalAll program · [.literal (.int 7)]) s'
      (.done [.int 7] s') := ⟨nofun, 2, rfl⟩
  have hsink : s.sink = s'.sink := rfl
  exact ⟨hargs, hargs', (call_isolated hsink hargs hargs' hsink).1, nofun, 20, rfl⟩

/-- A call need not leave the variables that its arguments would leave. Where there is no `f`,
`f(x = 5)` leaves `x` as it was. -/
theorem call_refused_unevaluated :
    ¬∀ (program : Program) (f : String) (args args' : List Expr) (values : List Value)
      (s s' t t' u : State) (o : Outcome Value), s.sink = s'.sink →
        Exec.Settles (Expr.evalAll program · args) s (.done values t) →
        Exec.Settles (Expr.evalAll program · args') s' (.done values t') → t.sink = t'.sink →
        Exec.Settles (Expr.evalCall program · f args) s o → o.final? = some u →
        u.env = t.env := by
  intro h
  let bound (n : Int64) : State := ⟨⟨[[⟨[("x", .int n)]⟩]]⟩, .unlimited⟩
  let args : List Expr := [.assign "x" (.literal (.int 5))]
  have hargs : Exec.Settles (Expr.evalAll ⟨[], []⟩ · args) (bound 1) (.done [.int 5] (bound 5)) :=
    ⟨nofun, 3, rfl⟩
  have hcall : Exec.Settles (Expr.evalCall ⟨[], []⟩ · "f" args) (bound 1)
      (.failed (.unknownFunction "f") (bound 1)) := ⟨nofun, 1, rfl⟩
  have henv := h _ _ _ _ _ _ _ _ _ _ _ rfl hargs hargs rfl hcall rfl
  have hne : (bound 1).env ≠ (bound 5).env := by decide
  exact hne henv

end Program

end MiniC
