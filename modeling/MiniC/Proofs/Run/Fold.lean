import MiniC.Proofs.Run.Rewrite

/-!
# Constant folding

An expression of literals and operators reads no variables and leaves none changed, so it comes to
the same value wherever it stands, and the value can be written in its place
(`Program.run_folded`).
-/

namespace MiniC

-- ---------------------------------------------------------------------------
-- Constants
-- ---------------------------------------------------------------------------

/-- Built from literals by operators other than `++` and `--`. -/
inductive Expr.Constant : Expr → Prop
  | literal (v : Value) : Constant (.literal v)
  | binary (op : BinaryOp) {left right : Expr} : Constant left → Constant right →
      Constant (.binary op left right)
  | negate (side : Side) {e : Expr} : Constant e → Constant (.unary .negate side e)
  | not (side : Side) {e : Expr} : Constant e → Constant (.unary .not side e)

/-- A constant that has come to this value, in some program and from some state. -/
structure Expr.Denotes (e : Expr) (v : Value) : Prop where
  constant : e.Constant
  evaluates : ∃ program n s t, e.eval program n s = .done v t

inductive Expr.FoldsTo : Expr → Expr → Prop
  | mk {e : Expr} {v : Value} : e.Denotes v → FoldsTo e (.literal v)

theorem Expr.eval_literal (program : Program) (v : Value) :
    (Expr.literal v).eval program 1 = pure v :=
  rfl

theorem Exec.ofExcept_bind (x : Except Fault α) (f : α → Except Fault β) :
    (Exec.ofExcept x >>= fun a => Exec.ofExcept (f a)) = Exec.ofExcept (x >>= f) := by
  cases x <;> rfl

theorem Expr.Constant.eval {e : Expr} (h : e.Constant) :
    ∃ (x : Except Fault Value) (k : Nat), ∀ program n, k ≤ n →
      e.eval program (n + 1) = Exec.ofExcept x := by
  induction h with
  | literal v => exact ⟨.ok v, 0, fun program n hn => rfl⟩
  | binary op _ _ ihleft ihright =>
    obtain ⟨x, k, hx⟩ := ihleft
    obtain ⟨y, l, hy⟩ := ihright
    refine ⟨x >>= fun a => y >>= fun b => op.apply a b, max k l + 1, fun program n hn => ?_⟩
    obtain ⟨n, rfl⟩ := Nat.exists_eq_succ_of_ne_zero (by omega : n ≠ 0)
    simp only [Expr.eval, ← Exec.ofExcept_bind]
    rw [hx program n (by omega), hy program n (by omega)]
  | negate side _ ih =>
    obtain ⟨x, k, hx⟩ := ih
    refine ⟨x >>= Value.negate, k + 1, fun program n hn => ?_⟩
    obtain ⟨n, rfl⟩ := Nat.exists_eq_succ_of_ne_zero (by omega : n ≠ 0)
    rw [Expr.eval, hx program n (by omega), Exec.ofExcept_bind]
  | not side _ ih =>
    obtain ⟨x, k, hx⟩ := ih
    refine ⟨x >>= fun v => .ok (.bool (!v.truthy)), k + 1, fun program n hn => ?_⟩
    obtain ⟨n, rfl⟩ := Nat.exists_eq_succ_of_ne_zero (by omega : n ≠ 0)
    rw [Expr.eval, hx program n (by omega)]
    exact Exec.ofExcept_bind x fun v => .ok (Value.bool (!v.truthy))

/-- A constant that has its value anywhere has it everywhere. -/
theorem Expr.Denotes.eval {e : Expr} {v : Value} (h : e.Denotes v) :
    ∃ k, ∀ program, e.eval program k = pure v := by
  obtain ⟨x, k, hx⟩ := h.constant.eval
  obtain ⟨program, n, s, t, ht⟩ := h.evaluates
  have hends : Exec.Settles (e.eval program ·) s (.done v t) := ⟨nofun, n, ht⟩
  obtain ⟨l, hl⟩ := hends.eq_of_le (program.ascending_eval e)
  have hxt := hl (max k l + 1) (by omega)
  rw [hx program _ (Nat.le_max_left k l)] at hxt
  cases x with
  | ok w =>
    cases hxt
    exact ⟨k + 1, fun program => hx program k (Nat.le_refl k)⟩
  | error fault => cases hxt

theorem Expr.Denotes.ne_var {e : Expr} {v : Value} (h : e.Denotes v) (x : String) : e ≠ .var x := by
  rintro rfl
  cases h.constant

-- ---------------------------------------------------------------------------
-- Folding
-- ---------------------------------------------------------------------------

namespace Program

variable {p q : Program}

theorem admits_foldsTo (p q : Program) : p.Admits Expr.FoldsTo q where
  reaches := by
    rintro e _ n ⟨he⟩
    obtain ⟨k, hk⟩ := he.eval
    exact .of_pure (p.ascending_eval e) (q.ascending_eval _) (hk p) (Expr.eval_literal q _) n
  not_var := by
    rintro e _ x ⟨he⟩
    exact ⟨he.ne_var x, nofun⟩

theorem admits_unfolding (p q : Program) : p.Admits (flip Expr.FoldsTo) q where
  reaches := by
    rintro _ e n ⟨he⟩
    obtain ⟨k, hk⟩ := he.eval
    exact .of_pure (p.ascending_eval _) (q.ascending_eval e) (Expr.eval_literal p _) (hk q) n
  not_var := by
    rintro _ e x ⟨he⟩
    exact ⟨nofun, he.ne_var x⟩

/-- With constants replaced by their values, in any number and wherever they stand, a program has
the same runs: it ends with the same result or the same fault and the same output, or neither
ends. -/
theorem run_folded (h : p.Rewrites Expr.FoldsTo q) (inputs : List (String × Value)) (sink : Sink)
    {o : Outcome Int64} (ho : o ≠ .unfinished) :
    (∃ n, p.run n inputs sink = o) ↔ ∃ n, q.run n inputs sink = o := by
  constructor
  · rintro ⟨n, rfl⟩
    exact h.run (p.admits_foldsTo q) inputs sink ho
  · rintro ⟨n, rfl⟩
    exact h.symm.run (q.admits_unfolding p) inputs sink ho

/-- `while (i < 1 + 2) { i++; } return i * !false;` with `3` for `1 + 2` and `true` for `!false`. -/
theorem run_folded_loop :
    let loop (bound : Expr) : Stmt := .whileLoop (.binary .less (.var "i") bound)
      (.block [.expr (.unary .increment .after (.var "i"))])
    let main (bound factor : Expr) : Function := ⟨.int, "main", [], [loop bound,
      .ret (some (.binary .mul (.var "i") factor))]⟩
    let p : Program := ⟨[main (.binary .add (.literal (.int 1)) (.literal (.int 2)))
      (.unary .not .before (.literal (.bool false)))], []⟩
    let q : Program := ⟨[main (.literal (.int 3)) (.literal (.bool true))], []⟩
    p.Rewrites Expr.FoldsTo q ∧ ∃ t,
      (∃ n, p.run n [("i", .int 0)] .unlimited = .done 3 t) ∧
        ∃ n, q.run n [("i", .int 0)] .unlimited = .done 3 t := by
  intro loop main p q
  have hbound : Expr.FoldsTo (.binary .add (.literal (.int 1)) (.literal (.int 2)))
      (.literal (.int 3)) :=
    ⟨.binary _ (.literal _) (.literal _), ⟨[], []⟩, 2, ⟨.fresh, .unlimited⟩, _, rfl⟩
  have hfactor : Expr.FoldsTo (.unary .not .before (.literal (.bool false)))
      (.literal (.bool true)) :=
    ⟨.not _ (.literal _), ⟨[], []⟩, 2, ⟨.fresh, .unlimited⟩, _, rfl⟩
  have hloop : (loop (.binary .add (.literal (.int 1)) (.literal (.int 2)))).Rewrites Expr.FoldsTo
      (loop (.literal (.int 3))) :=
    .whileLoop (.binary _ (.var _) (.replaced hbound))
      (.block (.cons (.expr (.unary _ _ (.var _))) .nil))
  have hret : (Stmt.ret (some (.binary .mul (.var "i")
      (.unary .not .before (.literal (.bool false)))))).Rewrites Expr.FoldsTo
      (.ret (some (.binary .mul (.var "i") (.literal (.bool true))))) :=
    .ret (.some (.binary _ (.var _) (.replaced hfactor)))
  have hpq : p.Rewrites Expr.FoldsTo q :=
    ⟨.cons (.mk _ _ .nil (.cons hloop (.cons hret .nil))) .nil, .nil⟩
  obtain ⟨t, ht⟩ : ∃ t, p.run 30 [("i", .int 0)] .unlimited = .done 3 t := ⟨_, rfl⟩
  have hend : Outcome.done (3 : Int64) t ≠ .unfinished := nofun
  exact ⟨hpq, t, ⟨30, ht⟩, (run_folded hpq _ _ hend).1 ⟨30, ht⟩⟩

end Program

end MiniC
