import Mathlib.Algebra.Ring.Int.Defs
import Mathlib.Algebra.Ring.Nat
import MiniC.Operator.Apply

/-!
# Arithmetic on integers

Arithmetic on words is arithmetic on integers of any size, as far as words go: an operator yields
the exact result if a word holds it and names the calculation otherwise, and only a division by zero
has no result (`BinaryOp.integers_exact`). Quotients are rounded down.

The quotient and the remainder that are computed first are rounded toward zero. They are set right
by one, or by the divisor, and no word on the way wraps (`Arithmetic.ExactSteps`).
-/

namespace MiniC

def Fits (result : Int) : Prop :=
  Int64.minValue.toInt ≤ result ∧ result ≤ Int64.maxValue.toInt

instance (result : Int) : Decidable (Fits result) :=
  inferInstanceAs (Decidable (_ ∧ _))

theorem fits_iff {result : Int} : Fits result ↔ -2 ^ 63 ≤ result ∧ result < 2 ^ 63 := by
  rw [Fits, Int64.toInt_minValue, Int64.toInt_maxValue]
  omega

theorem bmod_of_fits {result : Int} (h : Fits result) : result.bmod (2 ^ 64) = result := by
  have hfits := fits_iff.1 h
  exact Int.bmod_eq_of_le (by omega) (by omega)

namespace Arithmetic

variable {a b : Int64} {c : Calculation} {m n result : Int}

-- ---------------------------------------------------------------------------
-- Rounding down
-- ---------------------------------------------------------------------------

theorem natAbs_tmod_lt (hn : n ≠ 0) : (m.tmod n).natAbs < n.natAbs := by
  rw [Int.natAbs_tmod]
  exact Nat.mod_lt _ (Int.natAbs_pos.2 hn)

theorem tmod_nonpos (n : Int) (hm : m ≤ 0) : m.tmod n ≤ 0 := by
  have hneg := Int.tmod_nonneg n (Int.neg_nonneg_of_nonpos hm)
  rw [Int.neg_tmod] at hneg
  omega

/-- What is rounded toward zero, and then down: the quotient is one less where the division leaves
something and the signs differ, and what it leaves is then the divisor more. -/
theorem floor_eq (hn : n ≠ 0) :
    (m.fdiv n = if m.tmod n ≠ 0 ∧ (m < 0) ≠ (n < 0) then m.tdiv n - 1 else m.tdiv n) ∧
      m.fmod n = if m.tmod n ≠ 0 ∧ (m.tmod n < 0) ≠ (n < 0) then m.tmod n + n else m.tmod n := by
  have hsum : m.tmod n + n * m.tdiv n = m := Int.tmod_add_mul_tdiv m n
  have hless := natAbs_tmod_lt (m := m) hn
  have hpos : 0 ≤ m → 0 ≤ m.tmod n := Int.tmod_nonneg n
  have hneg : m ≤ 0 → m.tmod n ≤ 0 := tmod_nonpos n
  have hstep : n * (m.tdiv n - 1) = n * m.tdiv n - n := by rw [Int.mul_sub, Int.mul_one]
  simp only [ne_eq, eq_iff_iff]
  rcases Int.lt_or_gt_of_ne hn with hsign | hsign
  · refine (Int.fdiv_fmod_unique' hsign).2 ⟨?_, ?_⟩
    · split <;> split <;> omega
    · split <;> omega
  · refine (Int.fdiv_fmod_unique hsign).2 ⟨?_, ?_⟩
    · split <;> split <;> omega
    · split <;> omega

theorem fmod_sign (hn : n ≠ 0) :
    m.fmod n = 0 ∨ (m.fmod n).sign = n.sign ∧ (m.fmod n).natAbs < n.natAbs := by
  by_cases hzero : m.fmod n = 0
  · exact .inl hzero
  · right
    rcases Int.lt_or_gt_of_ne hn with hsign | hsign
    · obtain ⟨-, hlow, hhigh⟩ := (Int.fdiv_fmod_unique' (a := m) hsign).1 ⟨rfl, rfl⟩
      rw [Int.sign_eq_neg_one_of_neg hsign, Int.sign_eq_neg_one_of_neg (by omega)]
      exact ⟨rfl, by omega⟩
    · obtain ⟨-, hlow, hhigh⟩ := (Int.fdiv_fmod_unique (a := m) hsign).1 ⟨rfl, rfl⟩
      rw [Int.sign_eq_one_of_pos hsign, Int.sign_eq_one_of_pos (by omega)]
      exact ⟨rfl, by omega⟩

-- ---------------------------------------------------------------------------
-- Words
-- ---------------------------------------------------------------------------

theorem eq_zero_iff : b = 0 ↔ b.toInt = 0 := by
  rw [← Int64.toInt_inj, Int64.toInt_zero]

theorem lt_zero_iff : a < 0 ↔ a.toInt < 0 := by
  rw [Int64.lt_iff_toInt_lt, Int64.toInt_zero]

/-- What division and remainder compute on their way to the result, and that it is exact: wherever
a word is computed, it is the integer that it stands for. -/
structure ExactSteps (a b : Int64) : Prop where
  quotient : ¬(a = Int64.minValue ∧ b = -1) → (a / b).toInt = a.toInt.tdiv b.toInt
  remainder : (a % b).toInt = a.toInt.tmod b.toInt
  quotientLess : a % b ≠ 0 → (a / b - 1).toInt = a.toInt.tdiv b.toInt - 1
  remainderMore : a % b ≠ 0 → (a % b < 0) ≠ (b < 0) →
    (a % b + b).toInt = a.toInt.tmod b.toInt + b.toInt

theorem toInt_tdiv (h : ¬(a = Int64.minValue ∧ b = -1)) :
    (a / b).toInt = a.toInt.tdiv b.toInt := by
  by_cases ha : a = Int64.minValue
  · exact Int64.toInt_div_of_ne_right a b fun hb => h ⟨ha, hb⟩
  · exact Int64.toInt_div_of_ne_left a b ha

theorem two_le_of_tmod (h : m.tmod n ≠ 0) (hn : n ≠ 0) : 2 ≤ n.natAbs := by
  have hless := natAbs_tmod_lt (m := m) hn
  omega

theorem exactSteps (hb : b ≠ 0) : ExactSteps a b := by
  have hb' : b.toInt ≠ 0 := mt eq_zero_iff.2 hb
  have hquotient : a % b ≠ 0 → (a / b).toInt = a.toInt.tdiv b.toInt := by
    rintro hrem
    refine toInt_tdiv ?_
    rintro ⟨rfl, rfl⟩
    exact hrem (by decide)
  refine ⟨toInt_tdiv, Int64.toInt_mod a b, fun hrem => ?_, fun hrem hsign => ?_⟩
  · have htwo : 2 ≤ b.toInt.natAbs := by
      refine two_le_of_tmod (m := a.toInt) ?_ hb'
      rwa [← Int64.toInt_mod, ne_eq, ← eq_zero_iff]
    have hhalf : (a.toInt.tdiv b.toInt).natAbs ≤ a.toInt.natAbs / 2 := by
      rw [Int.natAbs_tdiv]
      exact Nat.div_le_div_left htwo (by decide)
    have hlow := a.le_toInt
    have hhigh := a.toInt_lt
    rw [Int64.toInt_sub, hquotient hrem, Int64.toInt_one]
    exact bmod_of_fits (fits_iff.2 (by omega))
  · have hless := natAbs_tmod_lt (m := a.toInt) hb'
    have hlow := b.le_toInt
    have hhigh := b.toInt_lt
    rw [ne_eq, eq_iff_iff, lt_zero_iff, lt_zero_iff, Int64.toInt_mod] at hsign
    rw [Int64.toInt_add, Int64.toInt_mod]
    exact bmod_of_fits (fits_iff.2 (by omega))

theorem exactly_of_fits (h : Fits result) :
    ∃ r : Int64, r.toInt = result ∧ exactly c result = .ok r := by
  have hfits := fits_iff.1 h
  exact ⟨.ofInt result, Int64.toInt_ofInt_of_le hfits.1 hfits.2, if_pos h⟩

theorem exactly_of_not_fits (h : ¬Fits result) : exactly c result = .error (.overflow c) :=
  if_neg h

/-- A word that is computed, and not by `exactly`, is the one that `exactly` gives. -/
theorem exactly_toInt (c : Calculation) (a : Int64) : exactly c a.toInt = .ok a := by
  obtain ⟨r, hr, hexactly⟩ := exactly_of_fits (c := c) (fits_iff.2 ⟨a.le_toInt, a.toInt_lt⟩)
  rwa [Int64.toInt_inj.1 hr] at hexactly

theorem floorDiv_eq (hb : b ≠ 0) :
    floorDiv a b = exactly (.binary a "/" b) (a.toInt.fdiv b.toInt) := by
  have hsteps := exactSteps (a := a) hb
  have hb' : b.toInt ≠ 0 := mt eq_zero_iff.2 hb
  rw [floorDiv, if_neg hb]
  by_cases hleast : a = Int64.minValue ∧ b = -1
  · rw [if_pos hleast]
    obtain ⟨rfl, rfl⟩ := hleast
    exact (exactly_of_not_fits (by decide)).symm
  · rw [if_neg hleast, (floor_eq hb').1, ← hsteps.remainder, ← hsteps.quotient hleast]
    simp only [eq_zero_iff, lt_zero_iff, ne_eq]
    split
    next h =>
      have hrem : a % b ≠ 0 := mt eq_zero_iff.1 h.1
      rw [hsteps.quotient hleast, ← hsteps.quotientLess hrem, exactly_toInt]
    next => rw [exactly_toInt]

theorem floorMod_eq (hb : b ≠ 0) :
    ∃ r : Int64, r.toInt = a.toInt.fmod b.toInt ∧ floorMod a b = .ok r := by
  have hsteps := exactSteps (a := a) hb
  have hb' : b.toInt ≠ 0 := mt eq_zero_iff.2 hb
  rw [floorMod, if_neg hb, (floor_eq hb').2, ← hsteps.remainder]
  simp only [eq_zero_iff, lt_zero_iff, ne_eq]
  split
  next h =>
    refine ⟨a % b + b, ?_, rfl⟩
    rw [hsteps.remainder]
    refine hsteps.remainderMore (mt eq_zero_iff.1 h.1) ?_
    simpa only [lt_zero_iff] using h.2
  next => exact ⟨a % b, rfl, rfl⟩

end Arithmetic

-- ---------------------------------------------------------------------------
-- Operators
-- ---------------------------------------------------------------------------

namespace BinaryOp

def meaning? : BinaryOp → Option (Int → Int → Int)
  | add => some fun m n => m + n
  | sub => some fun m n => m - n
  | mul => some fun m n => m * n
  | div => some fun m n => m.fdiv n
  | mod => some fun m n => m - n * m.fdiv n
  | _ => none

def Divides : BinaryOp → Prop
  | div => True
  | mod => True
  | _ => False

end BinaryOp

variable {left right : Value} {a b : Int64} {op : BinaryOp} {computed : Except Fault Value}
  {c : Calculation} {result : Int} {meaning : Int → Int → Int}

theorem Value.number?_of_integer? (h : left.integer? = some a) :
    left.number? = some (.int a) := by
  unfold integer? at h
  split at h
  next hn =>
    obtain rfl := Option.some.inj h
    exact hn
  next => cases h

namespace BinaryOp

theorem arithmetic_of_integers (op : BinaryOp) (ha : left.integer? = some a)
    (hb : right.integer? = some b) (onIntegers : Int64 → Int64 → Except Fault Int64)
    (onReals : Number → Number → Except Fault Float) :
    op.arithmetic left right onIntegers onReals = (onIntegers a b).map .int := by
  simp only [arithmetic, Value.number?_of_integer? ha, Value.number?_of_integer? hb]

theorem add_of_integers (ha : left.integer? = some a) (hb : right.integer? = some b) :
    add.apply left right = (Arithmetic.add a "+" b).map .int := by
  have harithmetic := arithmetic_of_integers add ha hb (Arithmetic.add · "+" ·)
    fun a b => .ok (a.toReal + b.toReal)
  cases left with
  | str s => cases ha
  | _ => exact harithmetic

theorem apply_of_zero (hop : op.Divides) (ha : left.integer? = some a)
    (hb : right.integer? = some 0) : op.apply left right = .error .divisionByZero := by
  cases op with
  | div => exact arithmetic_of_integers _ ha hb _ _
  | mod => exact arithmetic_of_integers _ ha hb _ _
  | _ => exact hop.elim

theorem apply_of_meaning (hop : op.meaning? = some meaning) (ha : left.integer? = some a)
    (hb : right.integer? = some b) (hzero : op.Divides → b ≠ 0) :
    op.apply left right =
      (Arithmetic.exactly (.binary a op.spelling b) (meaning a.toInt b.toInt)).map .int := by
  cases op with
  | add =>
    obtain rfl := Option.some.inj hop
    exact add_of_integers ha hb
  | sub =>
    obtain rfl := Option.some.inj hop
    exact arithmetic_of_integers _ ha hb _ _
  | mul =>
    obtain rfl := Option.some.inj hop
    exact arithmetic_of_integers _ ha hb _ _
  | div =>
    obtain rfl := Option.some.inj hop
    have hdiv := Arithmetic.floorDiv_eq (a := a) (hzero trivial)
    exact (arithmetic_of_integers _ ha hb _ _).trans (congrArg (Except.map Value.int) hdiv)
  | mod =>
    obtain rfl := Option.some.inj hop
    obtain ⟨r, hr, hmod⟩ := Arithmetic.floorMod_eq (a := a) (hzero trivial)
    have hexact : r.toInt = a.toInt - b.toInt * a.toInt.fdiv b.toInt := hr.trans (Int.fmod_def ..)
    have hexactly := Arithmetic.exactly_toInt (.binary a "%" b) r
    rw [hexact, ← hmod] at hexactly
    exact (arithmetic_of_integers _ ha hb _ _).trans (congrArg (Except.map Value.int) hexactly.symm)
  | _ => cases hop

end BinaryOp

theorem Value.negate_of_integer (ha : left.integer? = some a) :
    left.negate = (Arithmetic.neg a).map .int := by
  simp only [negate, number?_of_integer? ha]

/-- A computation of an integer says what it gives over the integers of any size: this, if a word
holds it, and that the calculation is too large otherwise. -/
def Exact (computed : Except Fault Value) (c : Calculation) (result : Int) : Prop :=
  (Fits result → ∃ r : Int64, r.toInt = result ∧ computed = .ok (.int r)) ∧
    (¬Fits result → computed = .error (.overflow c))

theorem Exact.ne_divisionByZero (h : Exact computed c result) :
    computed ≠ .error .divisionByZero := by
  rintro rfl
  by_cases hfits : Fits result
  · obtain ⟨r, -, hr⟩ := h.1 hfits
    cases hr
  · cases h.2 hfits

theorem Exact.toInt_eq {r : Int64} (h : Exact (.ok (.int r)) c result) : r.toInt = result := by
  by_cases hfits : Fits result
  · obtain ⟨s, hs, heq⟩ := h.1 hfits
    cases heq
    exact hs
  · cases h.2 hfits

theorem exact_exactly (c : Calculation) (result : Int) :
    Exact ((Arithmetic.exactly c result).map .int) c result := by
  refine ⟨fun h => ?_, fun h => ?_⟩
  · obtain ⟨r, hr, hexactly⟩ := Arithmetic.exactly_of_fits (c := c) h
    exact ⟨r, hr, by rw [hexactly]; rfl⟩
  · rw [Arithmetic.exactly_of_not_fits h]
    rfl

namespace BinaryOp

theorem mod_of_integers (ha : left.integer? = some a) (hb : right.integer? = some b)
    (hzero : b ≠ 0) :
    ∃ r : Int64, mod.apply left right = .ok (.int r) ∧
      r.toInt = a.toInt - b.toInt * a.toInt.fdiv b.toInt ∧
      (r = 0 ∨ r.toInt.sign = b.toInt.sign ∧ r.toInt.natAbs < b.toInt.natAbs) := by
  obtain ⟨r, hr, hmod⟩ := Arithmetic.floorMod_eq (a := a) hzero
  have happly : mod.apply left right = (Arithmetic.floorMod a b).map .int :=
    arithmetic_of_integers _ ha hb _ _
  refine ⟨r, by rw [happly, hmod]; rfl, hr.trans (Int.fmod_def ..), ?_⟩
  have hsign := Arithmetic.fmod_sign (m := a.toInt) (mt Arithmetic.eq_zero_iff.2 hzero)
  rwa [← hr, ← Arithmetic.eq_zero_iff] at hsign

theorem exact_apply (hop : op.meaning? = some meaning) (ha : left.integer? = some a)
    (hb : right.integer? = some b) (hzero : op.Divides → b ≠ 0) :
    Exact (op.apply left right) (.binary a op.spelling b) (meaning a.toInt b.toInt) := by
  rw [apply_of_meaning hop ha hb hzero]
  exact exact_exactly _ _

theorem apply_eq_divisionByZero (hop : op.meaning? = some meaning) (ha : left.integer? = some a)
    (hb : right.integer? = some b) :
    op.apply left right = .error .divisionByZero ↔ op.Divides ∧ b = 0 := by
  refine ⟨fun hfault => ?_, ?_⟩
  · refine Classical.byContradiction fun hnot => ?_
    have hexact := exact_apply hop ha hb fun hdiv hzero => hnot ⟨hdiv, hzero⟩
    rw [hfault] at hexact
    exact hexact.ne_divisionByZero rfl
  · rintro ⟨hdiv, rfl⟩
    exact apply_of_zero hdiv ha hb

/-- Arithmetic on integers and bools is exact or says why not. A division by zero is reported as
such, and by nothing else; every other calculation gives the integer that it means, if a word holds
it, and is named otherwise. So does a negation. A remainder is never too large, it is zero or has
the sign of the divisor and is less than it, and it is what a quotient leaves. On the way to a
quotient or a remainder no word wraps. -/
theorem integers_exact (ha : left.integer? = some a) (hb : right.integer? = some b) :
    (∀ op meaning, meaning? op = some meaning →
      (op.apply left right = .error .divisionByZero ↔ op.Divides ∧ b = 0) ∧
        ((op.Divides → b ≠ 0) → Exact (op.apply left right) (.binary a op.spelling b)
          (meaning a.toInt b.toInt))) ∧
      Exact left.negate (.negation a) (-a.toInt) ∧
      (b ≠ 0 → ∃ r : Int64, mod.apply left right = .ok (.int r) ∧
        (r = 0 ∨ r.toInt.sign = b.toInt.sign ∧ r.toInt.natAbs < b.toInt.natAbs)) ∧
      (∀ q : Int64, div.apply left right = .ok (.int q) →
        ∃ r : Int64, mod.apply left right = .ok (.int r) ∧
          q.toInt * b.toInt + r.toInt = a.toInt) ∧
      (b ≠ 0 → Arithmetic.ExactSteps a b) := by
  refine ⟨fun op meaning hop => ⟨apply_eq_divisionByZero hop ha hb, exact_apply hop ha hb⟩, ?_,
    fun hzero => ?_, fun q hq => ?_, Arithmetic.exactSteps⟩
  · rw [Value.negate_of_integer ha]
    exact exact_exactly _ _
  · obtain ⟨r, hr, -, hsign⟩ := mod_of_integers ha hb hzero
    exact ⟨r, hr, hsign⟩
  · have hfault : div.apply left right = .error .divisionByZero ↔ Divides div ∧ b = 0 :=
      apply_eq_divisionByZero rfl ha hb
    have hzero : b ≠ 0 := fun h => nomatch hq.symm.trans (hfault.2 ⟨trivial, h⟩)
    obtain ⟨r, hr, hmod, -⟩ := mod_of_integers ha hb hzero
    have hexact : Exact (div.apply left right) (.binary a "/" b) (a.toInt.fdiv b.toInt) :=
      exact_apply rfl ha hb fun _ => hzero
    rw [hq] at hexact
    refine ⟨r, hr, ?_⟩
    rw [hmod, hexact.toInt_eq, Int.mul_comm]
    omega

/-- The least word over minus one: the quotient is too large for a word, and the remainder is
zero. -/
theorem integers_exact_least :
    (Value.int Int64.minValue).integer? = some Int64.minValue ∧
      (Value.int (-1)).integer? = some (-1) ∧
      div.apply (.int Int64.minValue) (.int (-1)) =
        .error (.overflow (.binary Int64.minValue "/" (-1))) ∧
      mod.apply (.int Int64.minValue) (.int (-1)) = .ok (.int 0) ∧
      Value.negate (.int Int64.minValue) = .error (.overflow (.negation Int64.minValue)) := by
  have hleast : (Value.int Int64.minValue).integer? = some Int64.minValue := rfl
  have hone : (Value.int (-1)).integer? = some (-1) := rfl
  obtain ⟨hops, hnegate, hmod, -, -⟩ := integers_exact hleast hone
  refine ⟨hleast, hone, ((hops div _ rfl).2 fun _ => by decide).2 (by decide), ?_,
    hnegate.2 (by decide)⟩
  obtain ⟨r, hr, hsign⟩ := hmod (by decide)
  rcases hsign with rfl | ⟨-, hless⟩
  · exact hr
  · rw [hr]
    have hzero : r.toInt = 0 := by
      have habs : (-1 : Int64).toInt.natAbs = 1 := by decide
      omega
    rw [Arithmetic.eq_zero_iff.2 hzero]

end BinaryOp

end MiniC
