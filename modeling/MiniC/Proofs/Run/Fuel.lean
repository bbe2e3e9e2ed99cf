import MiniC.Proofs.Run.Congruence

/-!
# More fuel

An execution that has come to an end comes to the same end with more fuel. So executions that got
different amounts of fuel can be compared as if they had got the same (`Exec.Settles.eq_of_le`).
-/

namespace MiniC

namespace Exec

variable {α β : Type} {m m' : Exec α} {second second' : α → Exec β} {s : State}

def Grows (m m' : Exec α) : Prop :=
  ∀ s, m s ≠ .unfinished → m' s = m s

theorem Grows.rfl : m.Grows m :=
  fun _ _ => Eq.refl _

theorem Grows.trans {m'' : Exec α} (h : m.Grows m') (h' : m'.Grows m'') : m.Grows m'' := by
  intro s hs
  have hm := h s hs
  rw [← hm] at hs ⊢
  exact h' s hs

theorem Grows.of_unfinished : (Exec.unfinished : Exec α).Grows m' :=
  fun _ h => absurd (Eq.refl _) h

theorem Grows.bind (h : m.Grows m') (hsecond : ∀ a, (second a).Grows (second' a)) :
    (m >>= second).Grows (m' >>= second') := by
  intro s hs
  cases hm : m s with
  | done a t =>
    have hm' : m' s = .done a t := by rw [h s (by simp [hm]), hm]
    rw [bind_done hm] at hs ⊢
    rw [bind_done hm']
    exact hsecond a t hs
  | failed fault t =>
    have hm' : m' s = .failed fault t := by rw [h s (by simp [hm]), hm]
    rw [bind_failed hm, bind_failed hm']
  | unfinished => exact absurd (bind_unfinished hm) hs

theorem Grows.bracket (h : m.Grows m') (before after : Environment → Environment) :
    (m.bracket before after).Grows (m'.bracket before after) := by
  intro s hs
  unfold Exec.bracket at hs ⊢
  have hm : m { s with env := before s.env } ≠ .unfinished := by
    intro hm
    simp [hm] at hs
  rw [h _ hm]

theorem grows_congruence : Congruence Grows where
  pure _ := .rfl
  fail _ := .rfl
  bind h hsecond := h.bind hsecond
  lookup _ := .rfl
  assign _ _ := .rfl
  define _ _ := .rfl
  printLine _ := .rfl
  inScope h := h.bracket _ _
  inFrame h := h.bracket _ _

def Ascending (m : Nat → Exec α) : Prop :=
  ∀ n k, n ≤ k → (m n).Grows (m k)

theorem Ascending.const (m : Exec α) : Ascending fun _ => m :=
  fun _ _ _ => .rfl

/-- With enough fuel, the computation comes to this end. -/
def Settles (m : Nat → Exec α) (s : State) (o : Outcome α) : Prop :=
  o ≠ .unfinished ∧ ∃ n, m n s = o

section

variable {m : Nat → Exec α} {second : Nat → α → Exec β} {t : State} {o p : Outcome α} {a : α}

theorem Ascending.bind (hm : Ascending m) (hsecond : ∀ a, Ascending (second · a)) :
    Ascending fun n => m n >>= second n :=
  fun n k h => (hm n k h).bind fun a => hsecond a n k h

theorem Settles.eq_of_le (h : Settles m s o) (hm : Ascending m) : ∃ n, ∀ k, n ≤ k → m k s = o := by
  obtain ⟨hend, n, hn⟩ := h
  refine ⟨n, fun k hk => ?_⟩
  rw [← hn] at hend ⊢
  exact hm n k hk s hend

theorem Settles.eq_of_ne (h : Settles m s o) (hm : Ascending m) (hk : m k s ≠ .unfinished) :
    m k s = o := by
  obtain ⟨n, hn⟩ := h.eq_of_le hm
  rw [← hn _ (Nat.le_max_left n k)]
  exact (hm k _ (Nat.le_max_right n k) s hk).symm

theorem Settles.of_grows {m' : Nat → Exec α} (h : Settles m s o)
    (hgrows : ∀ n, ∃ k, (m n).Grows (m' k)) : Settles m' s o := by
  obtain ⟨hend, n, rfl⟩ := h
  obtain ⟨k, hk⟩ := hgrows n
  exact ⟨hend, k, hk s hend⟩

theorem settles_succ (hzero : m 0 s = .unfinished) :
    Settles m s o ↔ Settles (fun n => m (n + 1)) s o := by
  constructor
  · rintro ⟨hend, n, rfl⟩
    cases n with
    | zero => exact absurd hzero hend
    | succ n => exact ⟨hend, n, .refl _⟩
  · rintro ⟨hend, n, rfl⟩
    exact ⟨hend, n + 1, .refl _⟩

/-- Behind a computation that comes to a result, the next goes on from there. -/
theorem settles_bind (hfirst : Settles m s (.done a t)) (hm : Ascending m)
    (hsecond : Ascending (second · a)) {o : Outcome β} :
    Settles (fun n => m n >>= second n) s o ↔ Settles (second · a) t o := by
  constructor
  · rintro ⟨hend, n, rfl⟩
    have hn : m n s = .done a t := by
      refine hfirst.eq_of_ne hm fun hn => hend ?_
      exact bind_unfinished hn
    exact ⟨hend, n, (bind_done hn).symm⟩
  · rintro ⟨hend, n, rfl⟩
    obtain ⟨k, hk⟩ := hfirst.eq_of_le hm
    refine ⟨hend, max n k, ?_⟩
    change (m (max n k) >>= second (max n k)) s = _
    rw [bind_done (hk _ (Nat.le_max_right n k))]
    exact hsecond n _ (Nat.le_max_left n k) t hend

end

end Exec

theorem Program.grows (program : Program) {n k : Nat} (h : n ≤ k) :
    program.Related Exec.Grows n k := by
  obtain ⟨d, rfl⟩ := Nat.exists_eq_add_of_le' h
  have hzero : program.Related Exec.Grows 0 d :=
    ⟨fun _ => .of_unfinished, fun _ => .of_unfinished, fun _ _ => .of_unfinished,
      fun _ => .of_unfinished, fun _ => .of_unfinished, fun _ => .of_unfinished,
      fun _ _ _ => .of_unfinished⟩
  simpa using hzero.add Exec.grows_congruence n

namespace Program

variable (program : Program)

theorem ascending_eval (e : Expr) : Exec.Ascending (e.eval program ·) :=
  fun _ _ h => (program.grows h).eval e

theorem ascending_evalAll (es : List Expr) : Exec.Ascending (Expr.evalAll program · es) :=
  fun _ _ h => (program.grows h).evalAll es

theorem ascending_evalCall (f : String) (args : List Expr) :
    Exec.Ascending (Expr.evalCall program · f args) :=
  fun _ _ h => (program.grows h).evalCall f args

theorem ascending_evalOr (e : Option Expr) : Exec.Ascending (Expr.evalOr program · e) :=
  fun _ _ h => (program.grows h).evalOr e

theorem ascending_exec (c : Stmt) : Exec.Ascending (c.exec program ·) :=
  fun _ _ h => (program.grows h).exec c

theorem ascending_execAll (body : List Stmt) : Exec.Ascending (Stmt.execAll program · body) :=
  fun _ _ h => (program.grows h).execAll body

theorem ascending_repeat (c : Expr) (step : Option Expr) (body : Stmt) :
    Exec.Ascending (Stmt.repeat program · c step body) :=
  fun _ _ h => (program.grows h).repeat_ c step body

theorem ascending_applyTo (g : Function) (values : List Value) :
    Exec.Ascending fun n => Exec.inFrame (g.applyTo program n values) :=
  fun _ _ h => Exec.grows_congruence.inFrame
    ((program.grows h).applyTo Exec.grows_congruence g values)

end Program

end MiniC
