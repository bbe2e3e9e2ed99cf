import MiniC.Operator.Apply
import MiniC.Proofs.Binary64.Conversion

/-!
# Comparisons

The six comparisons of two numbers, or of two strings, read off one order. Of two integers it is the
order of integers, and as soon as one of two numbers is real it is the order of doubles. A law about
three numbers passes from one to the other, because the double nearest to a greater integer is not
less (`Number.place_le`).

One law does not survive this. A real can be equal to two integers that are not equal to each other,
if both are so far from zero that it is the nearest double to both (`Value.Merged`). All others do
(`BinaryOp.comparisons_agree`).
-/

namespace MiniC

open Binary64 (place? intPlace Crowded)

-- ---------------------------------------------------------------------------
-- The order of numbers
-- ---------------------------------------------------------------------------

namespace Number

def Ordered : Number → Prop
  | int _ => True
  | real r => r.isNaN = false

def place : Number → Int
  | int n => intPlace n.toInt
  | real r => (place? r).getD 0

def order : Number → Number → Ordering
  | int m, int n => compare m.toInt n.toInt
  | x, y => compare x.place y.place

/-- Two integers that differ and that one double stands for. They are far from zero, on one side. -/
def Merged : Number → Number → Prop
  | int m, int n =>
    m ≠ n ∧ Crowded m.toInt n.toInt ∧ (Float.ofInt m.toInt == Float.ofInt n.toInt) = true
  | _, _ => False

variable {x y z : Number}

theorem place_ofInt64 (n : Int64) : place? (Float.ofInt n.toInt) = some (intPlace n.toInt) := by
  have hlow := n.le_toInt
  have hhigh := n.toInt_lt
  exact Binary64.place_ofInt (by omega)

theorem place_toReal (hx : x.Ordered) : place? x.toReal = some x.place := by
  cases x with
  | int n => exact place_ofInt64 n
  | real r =>
    obtain ⟨p, hp⟩ := Binary64.exists_place hx
    change place? r = some ((place? r).getD 0)
    rw [hp]
    rfl

theorem order_of_real (h : (∃ r, x = .real r) ∨ ∃ r, y = .real r) :
    x.order y = compare x.place y.place := by
  rcases h with ⟨r, rfl⟩ | ⟨r, rfl⟩
  · rfl
  · cases x <;> rfl

theorem place_le (h : x.order y ≠ .gt) : x.place ≤ y.place := by
  cases x with
  | int m =>
    cases y with
    | int n => exact Binary64.intPlace_le (Int.not_lt.1 (mt Int.compare_eq_gt.2 h))
    | real r => exact Int.not_lt.1 (mt Int.compare_eq_gt.2 h)
  | real r => exact Int.not_lt.1 (mt Int.compare_eq_gt.2 h)

theorem order_of_place_lt (h : x.place < y.place) : x.order y = .lt := by
  cases x with
  | int m =>
    cases y with
    | int n =>
      refine Int.compare_eq_lt.2 (Int.not_le.1 fun hle => ?_)
      exact absurd (Binary64.intPlace_le hle) (Int.not_le.2 h)
    | real r => exact Int.compare_eq_lt.2 h
  | real r => exact Int.compare_eq_lt.2 h

theorem place_eq (h : x.order y = .eq) : x.place = y.place := by
  cases x with
  | int m =>
    cases y with
    | int n => exact congrArg intPlace (Int.compare_eq_eq.1 h)
    | real r => exact Int.compare_eq_eq.1 h
  | real r => exact Int.compare_eq_eq.1 h

theorem order_swap (x y : Number) : (x.order y).swap = y.order x := by
  cases x with
  | int m => cases y <;> exact Int.compare_swap _ _
  | real r => cases y <;> exact Int.compare_swap _ _

/-- Integers that share a place are merged, if they differ. -/
theorem merged_of_place {m n : Int64} (hne : m ≠ n)
    (h : intPlace m.toInt = intPlace n.toInt) : (int m).Merged (int n) := by
  refine ⟨hne, ?_, (Binary64.beq_iff_place (place_ofInt64 m) (place_ofInt64 n)).2 h⟩
  refine Classical.byContradiction fun hcrowded => ?_
  rcases Int.lt_or_gt_of_ne (mt Int64.toInt_inj.1 hne) with hlt | hgt
  · exact absurd h (Int.ne_of_lt (Binary64.intPlace_lt hlt hcrowded))
  · have hswap : ¬Crowded n.toInt m.toInt := fun k => hcrowded (k.imp And.symm And.symm)
    exact absurd h (Int.ne_of_gt (Binary64.intPlace_lt hgt hswap))

theorem lt_trans (h : x.order y = .lt) (k : y.order z = .lt) : x.order z = .lt := by
  have hle := place_le (x := x) (y := y) (by rw [h]; decide)
  have kle := place_le (x := y) (y := z) (by rw [k]; decide)
  cases y with
  | real r =>
    rw [order_of_real (.inr ⟨r, rfl⟩), Int.compare_eq_lt] at h
    exact order_of_place_lt (Int.lt_of_lt_of_le h kle)
  | int m =>
    cases x with
    | real r =>
      rw [order_of_real (.inl ⟨r, rfl⟩), Int.compare_eq_lt] at h
      exact order_of_place_lt (Int.lt_of_lt_of_le h kle)
    | int l =>
      cases z with
      | real r =>
        rw [order_of_real (.inr ⟨r, rfl⟩), Int.compare_eq_lt] at k
        exact order_of_place_lt (Int.lt_of_le_of_lt hle k)
      | int n =>
        rw [order, Int.compare_eq_lt] at h k ⊢
        exact Int.lt_trans h k

theorem eq_trans (h : x.order y = .eq) (k : y.order z = .eq) :
    x.order z = .eq ∨ (∃ r, y = .real r) ∧ x.Merged z := by
  have hplace := (place_eq h).trans (place_eq k)
  cases x with
  | real r => exact .inl ((order_of_real (.inl ⟨r, rfl⟩)).trans (Int.compare_eq_eq.2 hplace))
  | int l =>
    cases z with
    | real r => exact .inl (Int.compare_eq_eq.2 hplace)
    | int n =>
      cases y with
      | int m =>
        exact .inl (Int.compare_eq_eq.2 ((Int.compare_eq_eq.1 h).trans (Int.compare_eq_eq.1 k)))
      | real r =>
        by_cases hln : l = n
        · exact .inl (Int.compare_eq_eq.2 (congrArg Int64.toInt hln))
        · exact .inr ⟨⟨r, rfl⟩, merged_of_place hln hplace⟩

theorem lt_of_lt_of_eq (h : x.order y = .lt) (k : y.order z = .eq) :
    x.order z = .lt ∨ (∃ r, z = .real r) ∧ x.Merged y := by
  have hle := place_le (x := x) (y := y) (by rw [h]; decide)
  have hplace := place_eq k
  rcases Int.lt_or_eq_of_le hle with hlt | heq
  · exact .inl (order_of_place_lt (hplace ▸ hlt))
  · cases x with
    | real r =>
      rw [order_of_real (.inl ⟨r, rfl⟩), Int.compare_eq_lt] at h
      exact absurd heq (Int.ne_of_lt h)
    | int l =>
      cases y with
      | real r => exact absurd heq (Int.ne_of_lt (Int.compare_eq_lt.1 h))
      | int m =>
        cases z with
        | int n =>
          rw [order, Int.compare_eq_lt] at h ⊢
          exact .inl (Int.lt_of_lt_of_le h (Int.le_of_eq (Int.compare_eq_eq.1 k)))
        | real r =>
          refine .inr ⟨⟨r, rfl⟩, merged_of_place ?_ heq⟩
          rintro rfl
          exact absurd (Int.compare_eq_lt.1 h) (Int.lt_irrefl _)

end Number

-- ---------------------------------------------------------------------------
-- The order of values
-- ---------------------------------------------------------------------------

namespace Value

/-- Values that have an order: numbers, bools among them and no NaN, or strings. -/
inductive Comparable : List Value → Prop
  | numbers : (∀ v ∈ vs, ∃ x, v.number? = some x ∧ x.Ordered) → Comparable vs
  | strings : (∀ v ∈ vs, ∃ s, v = .str s) → Comparable vs

def Merged (a b : Value) : Prop :=
  ∃ x y, a.number? = some x ∧ b.number? = some y ∧ x.Merged y

variable {a b c : Value} {x y : Number}

theorem order?_of_numbers (ha : a.number? = some x) (hb : b.number? = some y) (hx : x.Ordered)
    (hy : y.Ordered) : a.order? b = some (some (x.order y)) := by
  have htests := Binary64.tests_eq_compare (Number.place_toReal hx) (Number.place_toReal hy)
  unfold order?
  split
  · cases ha
  · rw [ha, hb]
    cases x with
    | int m =>
      cases y with
      | int n => rfl
      | real r => exact congrArg some htests
    | real r => exact congrArg some htests

theorem Comparable.order (h : Comparable [a, b]) :
    ∃ o, a.order? b = some (some o) ∧ b.order? a = some (some o.swap) := by
  cases h with
  | numbers h =>
    obtain ⟨x, ha, hx⟩ := h a (by simp)
    obtain ⟨y, hb, hy⟩ := h b (by simp)
    refine ⟨x.order y, order?_of_numbers ha hb hx hy, ?_⟩
    rw [order?_of_numbers hb ha hy hx, Number.order_swap]
  | strings h =>
    obtain ⟨s, rfl⟩ := h a (by simp)
    obtain ⟨t, rfl⟩ := h b (by simp)
    refine ⟨compare s t, rfl, ?_⟩
    rw [← Std.OrientedCmp.eq_swap]
    rfl

theorem real_of_number? (h : a.number? = some (.real r)) : a = .real r := by
  cases a with
  | real q => cases h; rfl
  | int n => cases h
  | bool b => cases h
  | str s => cases h

theorem Comparable.cases₃ (h : Comparable [a, b, c]) (hab : a.order? b = some (some o))
    (hbc : b.order? c = some (some p)) :
    (∃ x y z : Number, (a.number? = some x ∧ b.number? = some y ∧ c.number? = some z) ∧
      x.order y = o ∧ y.order z = p ∧ a.order? c = some (some (x.order z))) ∨
    ∃ s t u : String, compare s t = o ∧ compare t u = p ∧
      a.order? c = some (some (compare s u)) := by
  cases h with
  | numbers h =>
    obtain ⟨x, ha, hx⟩ := h a (by simp)
    obtain ⟨y, hb, hy⟩ := h b (by simp)
    obtain ⟨z, hc, hz⟩ := h c (by simp)
    rw [order?_of_numbers ha hb hx hy, Option.some.injEq, Option.some.injEq] at hab
    rw [order?_of_numbers hb hc hy hz, Option.some.injEq, Option.some.injEq] at hbc
    exact .inl ⟨x, y, z, ⟨ha, hb, hc⟩, hab, hbc, order?_of_numbers ha hc hx hz⟩
  | strings h =>
    obtain ⟨s, rfl⟩ := h a (by simp)
    obtain ⟨t, rfl⟩ := h b (by simp)
    obtain ⟨u, rfl⟩ := h c (by simp)
    exact .inr ⟨s, t, u, Option.some.inj (Option.some.inj hab),
      Option.some.inj (Option.some.inj hbc), rfl⟩

theorem Comparable.lt_trans (h : Comparable [a, b, c]) (hab : a.order? b = some (some .lt))
    (hbc : b.order? c = some (some .lt)) : a.order? c = some (some .lt) := by
  rcases h.cases₃ hab hbc with ⟨x, y, z, -, hxy, hyz, hac⟩ | ⟨s, t, u, hst, htu, hac⟩
  · rw [hac, Number.lt_trans hxy hyz]
  · rw [hac, Std.TransCmp.lt_trans hst htu]

theorem Comparable.eq_trans (h : Comparable [a, b, c]) (hab : a.order? b = some (some .eq))
    (hbc : b.order? c = some (some .eq)) :
    a.order? c = some (some .eq) ∨ b.kind = .real ∧ a.Merged c := by
  rcases h.cases₃ hab hbc with ⟨x, y, z, ⟨ha, hb, hc⟩, hxy, hyz, hac⟩ | ⟨s, t, u, hst, htu, hac⟩
  · rcases Number.eq_trans hxy hyz with hxz | ⟨⟨r, rfl⟩, hmerged⟩
    · exact .inl (by rw [hac, hxz])
    · exact .inr ⟨by rw [real_of_number? hb]; rfl, x, z, ha, hc, hmerged⟩
  · exact .inl (by rw [hac, Std.TransCmp.eq_trans hst htu])

theorem Comparable.lt_of_lt_of_eq (h : Comparable [a, b, c])
    (hab : a.order? b = some (some .lt)) (hbc : b.order? c = some (some .eq)) :
    a.order? c = some (some .lt) ∨ c.kind = .real ∧ a.Merged b := by
  rcases h.cases₃ hab hbc with ⟨x, y, z, ⟨ha, hb, hc⟩, hxy, hyz, hac⟩ | ⟨s, t, u, hst, htu, hac⟩
  · rcases Number.lt_of_lt_of_eq hxy hyz with hxz | ⟨⟨r, rfl⟩, hmerged⟩
    · exact .inl (by rw [hac, hxz])
    · exact .inr ⟨by rw [real_of_number? hc]; rfl, x, y, ha, hb, hmerged⟩
  · exact .inl (by rw [hac, Std.TransCmp.lt_of_lt_of_eq hst htu])

end Value

-- ---------------------------------------------------------------------------
-- Comparisons
-- ---------------------------------------------------------------------------

namespace BinaryOp

def test? : BinaryOp → Option (Ordering → Bool)
  | less => some Ordering.isLT
  | greater => some Ordering.isGT
  | lessEqual => some Ordering.isLE
  | greaterEqual => some Ordering.isGE
  | equal => some Ordering.isEq
  | notEqual => some Ordering.isNe
  | _ => none

def Holds (op : BinaryOp) (a b : Value) : Prop :=
  op.apply a b = .ok (.bool true)

def Fails (op : BinaryOp) (a b : Value) : Prop :=
  op.apply a b = .ok (.bool false)

instance (op : BinaryOp) (a b : Value) : Decidable (op.Holds a b) :=
  inferInstanceAs (Decidable (_ = _))

instance (op : BinaryOp) (a b : Value) : Decidable (op.Fails a b) :=
  inferInstanceAs (Decidable (_ = _))

variable {op : BinaryOp} {a b c : Value}

theorem comparison_of_order? (h : a.order? b = some (some o)) (test : Ordering → Bool) :
    op.comparison a b test = .ok (.bool (test o)) := by
  rw [comparison, h]
  rfl

theorem areEqual_of_order? (h : a.order? b = some (some o)) : areEqual a b = o.isEq := by
  rw [areEqual, h]
  cases o <;> rfl

theorem apply_of_order? (hop : op.test? = some test) (h : a.order? b = some (some o)) :
    op.apply a b = .ok (.bool (test o)) := by
  cases op with
  | less => cases hop; exact comparison_of_order? h _
  | greater => cases hop; exact comparison_of_order? h _
  | lessEqual => cases hop; exact comparison_of_order? h _
  | greaterEqual => cases hop; exact comparison_of_order? h _
  | equal =>
    cases hop
    change Except.ok (Value.bool (areEqual a b)) = _
    rw [areEqual_of_order? h]
  | notEqual =>
    cases hop
    change Except.ok (Value.bool (!areEqual a b)) = _
    rw [areEqual_of_order? h]
    cases o <;> rfl
  | _ => cases hop

theorem holds_iff_of_order? (hop : op.test? = some test) (h : a.order? b = some (some o)) :
    op.Holds a b ↔ test o = true := by
  rw [Holds, apply_of_order? hop h, Except.ok.injEq, Value.bool.injEq]

theorem fails_iff_of_order? (hop : op.test? = some test) (h : a.order? b = some (some o)) :
    op.Fails a b ↔ test o = false := by
  rw [Fails, apply_of_order? hop h, Except.ok.injEq, Value.bool.injEq]

end BinaryOp

namespace Value

variable {a b c : Value}

theorem Comparable.less_iff (h : Comparable [a, b]) :
    BinaryOp.less.Holds a b ↔ a.order? b = some (some .lt) := by
  obtain ⟨o, ho, -⟩ := h.order
  rw [BinaryOp.holds_iff_of_order? rfl ho, ho, Option.some.injEq, Option.some.injEq]
  cases o <;> decide

theorem Comparable.equal_iff (h : Comparable [a, b]) :
    BinaryOp.equal.Holds a b ↔ a.order? b = some (some .eq) := by
  obtain ⟨o, ho, -⟩ := h.order
  rw [BinaryOp.holds_iff_of_order? rfl ho, ho, Option.some.injEq, Option.some.injEq]
  cases o <;> decide

theorem Comparable.subset (h : Comparable vs) (hws : ws ⊆ vs) : Comparable ws := by
  cases h with
  | numbers h => exact .numbers fun v hv => h v (hws hv)
  | strings h => exact .strings fun v hv => h v (hws hv)

end Value

namespace BinaryOp

variable {a b c : Value}

theorem pair_agrees (h : Value.Comparable [a, b]) :
    (∀ op test, test? op = some test → op.Holds a b ∨ op.Fails a b) ∧
      (less.Holds a b ∧ equal.Fails a b ∧ greater.Fails a b ∨
        less.Fails a b ∧ equal.Holds a b ∧ greater.Fails a b ∨
        less.Fails a b ∧ equal.Fails a b ∧ greater.Holds a b) ∧
      (lessEqual.Holds a b ↔ less.Holds a b ∨ equal.Holds a b) ∧
      (greaterEqual.Holds a b ↔ greater.Holds a b ∨ equal.Holds a b) ∧
      (notEqual.Holds a b ↔ equal.Fails a b) ∧
      (less.Holds a b ↔ greater.Holds b a) := by
  obtain ⟨o, ho, hswap⟩ := h.order
  have hless : less.Holds a b ↔ o.isLT = true := holds_iff_of_order? rfl ho
  have hequal : equal.Holds a b ↔ o.isEq = true := holds_iff_of_order? rfl ho
  have hgreater : greater.Holds a b ↔ o.isGT = true := holds_iff_of_order? rfl ho
  have hnotLess : less.Fails a b ↔ o.isLT = false := fails_iff_of_order? rfl ho
  have hnotEqual : equal.Fails a b ↔ o.isEq = false := fails_iff_of_order? rfl ho
  have hnotGreater : greater.Fails a b ↔ o.isGT = false := fails_iff_of_order? rfl ho
  refine ⟨fun op test hop => ?_, ?_, ?_, ?_, ?_, ?_⟩
  · rw [holds_iff_of_order? hop ho, fails_iff_of_order? hop ho]
    exact (test o).eq_false_or_eq_true
  · rw [hless, hequal, hgreater, hnotLess, hnotEqual, hnotGreater]
    cases o <;> decide
  · rw [hless, hequal, holds_iff_of_order? rfl ho]
    cases o <;> decide
  · rw [hgreater, hequal, holds_iff_of_order? rfl ho]
    cases o <;> decide
  · rw [hnotEqual, holds_iff_of_order? rfl ho]
    cases o <;> decide
  · rw [hless, holds_iff_of_order? rfl hswap]
    cases o <;> decide

/-- Comparisons agree with one order. Of numbers without NaN, bools among them, or of strings, each
is either so or not; one is less than another, equal to it or greater, and the other comparisons say
what their names say. Less is transitive. So is equality, and it carries less along, except that a
real may be equal to two integers that differ: these are merged, far from zero on one side, and the
nearest double is the same for both. -/
theorem comparisons_agree (h : Value.Comparable [a, b, c]) :
    (∀ op test, test? op = some test → op.Holds a b ∨ op.Fails a b) ∧
      (less.Holds a b ∧ equal.Fails a b ∧ greater.Fails a b ∨
        less.Fails a b ∧ equal.Holds a b ∧ greater.Fails a b ∨
        less.Fails a b ∧ equal.Fails a b ∧ greater.Holds a b) ∧
      (lessEqual.Holds a b ↔ less.Holds a b ∨ equal.Holds a b) ∧
      (greaterEqual.Holds a b ↔ greater.Holds a b ∨ equal.Holds a b) ∧
      (notEqual.Holds a b ↔ equal.Fails a b) ∧
      (less.Holds a b ↔ greater.Holds b a) ∧
      (equal.Holds a b → equal.Holds b c →
        equal.Holds a c ∨ b.kind = .real ∧ a.Merged c) ∧
      (less.Holds a b → less.Holds b c → less.Holds a c) ∧
      (less.Holds a b → equal.Holds b c →
        less.Holds a c ∨ c.kind = .real ∧ a.Merged b) := by
  have hab : Value.Comparable [a, b] := h.subset (by simp)
  have hbc : Value.Comparable [b, c] := h.subset (by simp)
  have hac : Value.Comparable [a, c] := h.subset (by simp)
  obtain ⟨htotal, hone, hle, hge, hne, hgt⟩ := pair_agrees hab
  refine ⟨htotal, hone, hle, hge, hne, hgt, ?_, ?_, ?_⟩
  · rw [hab.equal_iff, hbc.equal_iff, hac.equal_iff]
    exact h.eq_trans
  · rw [hab.less_iff, hbc.less_iff, hac.less_iff]
    exact h.lt_trans
  · rw [hab.less_iff, hbc.equal_iff, hac.less_iff]
    exact h.lt_of_lt_of_eq

theorem comparable_mixed (m n : Int64) (hr : r.isNaN = false) :
    Value.Comparable [.int m, .real r, .int n] := by
  refine .numbers ?_
  simp only [List.forall_mem_cons, List.not_mem_nil, false_imp_iff, implies_true, and_true]
  exact ⟨⟨_, rfl, trivial⟩, ⟨_, rfl, hr⟩, ⟨_, rfl, trivial⟩⟩

/-- Two neighbours beyond `2 ^ 53`, and the real that both are equal to. -/
theorem comparisons_agree_merged :
    let a : Value := .int 9007199254740992
    let b : Value := .real 9007199254740992
    let c : Value := .int 9007199254740993
    Value.Comparable [a, b, c] ∧ equal.Holds a b ∧ equal.Holds b c ∧
      b.kind = .real ∧ a.Merged c := by
  intro a b c
  have hcomparable : Value.Comparable [a, b, c] := comparable_mixed _ _ (by decide +kernel)
  have hab : equal.Holds a b := by decide +kernel
  have hbc : equal.Holds b c := by decide +kernel
  have hac : ¬equal.Holds a c := by decide +kernel
  obtain ⟨-, -, -, -, -, -, htrans, -, -⟩ := comparisons_agree hcomparable
  exact ⟨hcomparable, hab, hbc, (htrans hab hbc).resolve_left hac⟩

/-- Equality is not transitive, and does not carry less along: one real is equal to two neighbours
beyond `2 ^ 53`. -/
theorem equal_not_transitive :
    let m : Value := .int 9007199254740992
    let n : Value := .int 9007199254740993
    let r : Value := .real 9007199254740992
    Value.Comparable [m, r, n] ∧ (equal.Holds m r ∧ equal.Holds r n ∧ ¬equal.Holds m n) ∧
      less.Holds m n ∧ equal.Holds n r ∧ ¬less.Holds m r := by
  intro m n r
  exact ⟨comparable_mixed _ _ (by decide +kernel), by decide +kernel, by decide +kernel⟩

end BinaryOp

end MiniC
