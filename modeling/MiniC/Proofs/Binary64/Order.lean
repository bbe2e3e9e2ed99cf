import Mathlib
import MiniC.Value

/-!
# The order of doubles

Every double but NaN has a place on a line of integers, which is its bits read as one number with a
sign of its own. Doubles compare as their places do (`lt_iff_place`, `beq_iff_place`), so that their
order is an order of integers.
-/

namespace MiniC.Binary64

open Float.Model (Format UnpackedFloat totalExponent)
open Float.Model.UnpackedFloat (Sign)

/-- A mantissa and an exponent as a double has them: the mantissa has 53 digits, and fewer only
where the exponent is the least. -/
structure Canonical (m : Nat) (e : Int) : Prop where
  mantissa_lt : m < 2 ^ 53
  le_exponent : -1074 ≤ e
  exponent_le : e ≤ 971
  full : 2 ^ 52 ≤ m ∨ e = -1074

/-- The place of a magnitude: its exponent and its mantissa read as one number. -/
def magnitude (m : Nat) (e : Int) : Int :=
  (e + 1074) * 2 ^ 52 + m

def ordinal? : UnpackedFloat → Option Int
  | .notANumber => none
  | .infinity s => some (s.apply (2 ^ 63))
  | .zero _ => some 0
  | .finite s m e _ => some (s.apply (magnitude m e))

def place? (x : Float) : Option Int :=
  ordinal? x.toModel.unpack

theorem Canonical.magnitude_pos (hm : 0 < m) (h : Canonical m e) : 0 < magnitude m e := by
  have he := h.le_exponent
  unfold magnitude
  omega

theorem Canonical.magnitude_lt (h : Canonical m e) : magnitude m e < 2 ^ 63 := by
  have he := h.exponent_le
  have hm := h.mantissa_lt
  unfold magnitude
  omega

theorem Canonical.compare_magnitude (h : Canonical m e) (k : Canonical n f) :
    (compare e f).then (compare m n) = compare (magnitude m e) (magnitude n f) := by
  have hm := h.mantissa_lt
  have hn := k.mantissa_lt
  have hfull := h.full
  have kfull := k.full
  have he := h.le_exponent
  have hf := k.le_exponent
  unfold magnitude
  rcases Int.lt_trichotomy e f with hlt | rfl | hgt
  · rw [Int.compare_eq_lt.2 hlt, Int.compare_eq_lt.2 (by omega)]
    rfl
  · rw [Std.compare_self, Ordering.eq_then]
    rcases Nat.lt_trichotomy m n with hlt | rfl | hgt
    · rw [Nat.compare_eq_lt.2 hlt, Int.compare_eq_lt.2 (by omega)]
    · rw [Std.compare_self, Std.compare_self]
    · rw [Nat.compare_eq_gt.2 hgt, Int.compare_eq_gt.2 (by omega)]
  · rw [Int.compare_eq_gt.2 hgt, Int.compare_eq_gt.2 (by omega)]
    rfl

def Proper : UnpackedFloat → Prop
  | .finite _ m e _ => Canonical m e
  | _ => True

variable {p q : Int}

theorem compare_neg (p q : Int) : compare (-p) (-q) = (compare p q).swap := by
  rcases Int.lt_trichotomy p q with hlt | rfl | hgt
  · rw [Int.compare_eq_lt.2 hlt, Int.compare_eq_gt.2 (by omega)]
    rfl
  · rw [Std.compare_self, Std.compare_self]
    rfl
  · rw [Int.compare_eq_gt.2 hgt, Int.compare_eq_lt.2 (by omega)]
    rfl

theorem eq_compare_lt (h : p < q) : some Ordering.lt = some (compare p q) := by
  rw [Int.compare_eq_lt.2 h]

theorem eq_compare_gt (h : q < p) : some Ordering.gt = some (compare p q) := by
  rw [Int.compare_eq_gt.2 h]

theorem Canonical.apply_bounds (hm : 0 < m) (h : Canonical m e) (s : Sign) :
    -2 ^ 63 < s.apply (magnitude m e) ∧ s.apply (magnitude m e) < 2 ^ 63 := by
  have hpos := h.magnitude_pos hm
  have hlt := h.magnitude_lt
  cases s with
  | negative => exact ⟨Int.neg_lt_neg hlt, Int.lt_trans (Int.neg_neg_of_pos hpos) (by decide)⟩
  | positive => exact ⟨Int.lt_trans (by decide) hpos, hlt⟩

theorem Canonical.compare_zero (hm : 0 < m) (h : Canonical m e) (s t : Sign) :
    (UnpackedFloat.finite s m e hm).compare (.zero t) =
      some (compare (s.apply (magnitude m e)) 0) := by
  have hpos := h.magnitude_pos hm
  cases s with
  | negative => exact eq_compare_lt (Int.neg_neg_of_pos hpos)
  | positive => exact eq_compare_gt hpos

theorem Canonical.compare_finite (hm : 0 < m) (hn : 0 < n) (h : Canonical m e)
    (k : Canonical n f) (s t : Sign) :
    (UnpackedFloat.finite s m e hm).compare (.finite t n f hn) =
      some (compare (s.apply (magnitude m e)) (t.apply (magnitude n f))) := by
  have hpos := h.magnitude_pos hm
  have kpos := k.magnitude_pos hn
  cases s with
  | negative =>
    cases t with
    | negative =>
      have hswap := congrArg (some ·.swap) (h.compare_magnitude k)
      exact hswap.trans (congrArg some (compare_neg _ _).symm)
    | positive => exact eq_compare_lt (Int.lt_trans (Int.neg_neg_of_pos hpos) kpos)
  | positive =>
    cases t with
    | negative => exact eq_compare_gt (Int.lt_trans (Int.neg_neg_of_pos kpos) hpos)
    | positive => exact congrArg some (h.compare_magnitude k)

theorem Canonical.zero_compare (hm : 0 < m) (h : Canonical m e) (s t : Sign) :
    (UnpackedFloat.zero t).compare (.finite s m e hm) =
      some (compare 0 (s.apply (magnitude m e))) := by
  have hpos := h.magnitude_pos hm
  cases s with
  | negative => exact eq_compare_gt (Int.neg_neg_of_pos hpos)
  | positive => exact eq_compare_lt hpos

/-- Doubles that are not NaN compare as their places do. -/
theorem compare_of_ordinal? {x y : UnpackedFloat} (hx : Proper x) (hy : Proper y)
    (hp : ordinal? x = some p) (hq : ordinal? y = some q) : x.compare y = some (compare p q) := by
  cases x with
  | notANumber => cases hp
  | infinity s =>
    cases y with
    | notANumber => cases hq
    | infinity t => cases hp; cases hq; cases s <;> cases t <;> rfl
    | zero t => cases hp; cases hq; cases s <;> rfl
    | finite t n f hn =>
      obtain ⟨hlow, hhigh⟩ := hy.apply_bounds hn t
      cases hp; cases hq
      cases s with
      | negative => exact eq_compare_lt hlow
      | positive => exact eq_compare_gt hhigh
  | zero s =>
    cases hp
    cases y with
    | notANumber => cases hq
    | infinity t => cases hq; cases t <;> rfl
    | zero t => cases hq; rfl
    | finite t n f hn => cases hq; exact hy.zero_compare hn t s
  | finite s m e hm =>
    cases hp
    cases y with
    | notANumber => cases hq
    | infinity t =>
      obtain ⟨hlow, hhigh⟩ := hx.apply_bounds hm s
      cases hq
      cases t with
      | negative => cases s <;> exact eq_compare_gt hlow
      | positive => cases s <;> exact eq_compare_lt hhigh
    | zero t => cases hq; exact hx.compare_zero hm s t
    | finite t n f hn => cases hq; exact hx.compare_finite hm hn hy s t

-- ---------------------------------------------------------------------------
-- Doubles
-- ---------------------------------------------------------------------------

theorem toNat_one_append (v : BitVec 52) : (1#1 ++ v).toNat = 2 ^ 52 + v.toNat := by
  rw [BitVec.toNat_append, ← Nat.shiftLeft_add_eq_or_of_lt v.isLt]
  rfl

/-- Where the bits of the exponent are zero, the mantissa may have fewer digits. -/
theorem canonical_subnormal (v : BitVec 52) : Canonical v.toNat (-1074) :=
  ⟨Nat.lt_trans v.isLt (by decide), Int.le_refl _, by decide, .inr rfl⟩

theorem canonical_normal (v : BitVec 52) {w : BitVec 11} (htop : w ≠ -1#11) (hzero : w ≠ 0#11) :
    Canonical (1#1 ++ v).toNat (w.toNat - 1075) := by
  have hv : v.toNat < 2 ^ 52 := v.isLt
  have hw : w.toNat < 2 ^ 11 := w.isLt
  have hlow : w.toNat ≠ 0 := fun h => hzero (BitVec.eq_of_toNat_eq h)
  have hhigh : w.toNat ≠ 2047 := fun h => htop (BitVec.eq_of_toNat_eq h)
  rw [toNat_one_append]
  exact ⟨by omega, by omega, by omega, by omega⟩

theorem proper_unpack (x : Float.Model) : Proper x.unpack := by
  unfold Float.Model.unpack UnpackedFloat.unpack
  dsimp only
  split
  · split <;> trivial
  next htop =>
    split
    next hzero =>
      split
      · trivial
      · rw [hzero]
        exact canonical_subnormal _
    next hzero => exact canonical_normal _ htop hzero

variable {x y : Float}

theorem lt_iff_place (hx : place? x = some p) (hy : place? y = some q) : x < y ↔ p < q := by
  have hcompare := compare_of_ordinal? (proper_unpack _) (proper_unpack _) hx hy
  change decide (x.toModel < y.toModel) = true ↔ _
  rw [decide_eq_true_iff]
  change (x.toModel.unpack.compare y.toModel.unpack == some .lt) = true ↔ _
  rw [hcompare, beq_iff_eq, Option.some.injEq, Int.compare_eq_lt]

theorem beq_iff_place (hx : place? x = some p) (hy : place? y = some q) :
    (x == y) = true ↔ p = q := by
  have hcompare := compare_of_ordinal? (proper_unpack _) (proper_unpack _) hx hy
  change (x.toModel.unpack.compare y.toModel.unpack == some .eq) = true ↔ _
  rw [hcompare, beq_iff_eq, Option.some.injEq, Int.compare_eq_eq]

theorem tests_eq_compare (hx : place? x = some p) (hy : place? y = some q) :
    (if x < y then some Ordering.lt else if x == y then some .eq
      else if y < x then some .gt else none) = some (compare p q) := by
  have hlt := lt_iff_place hx hy
  have heq := beq_iff_place hx hy
  have hgt := lt_iff_place hy hx
  rcases Int.lt_trichotomy p q with h | h | h
  · rw [if_pos (hlt.2 h), Int.compare_eq_lt.2 h]
  · rw [if_neg (mt hlt.1 (by omega)), if_pos (heq.2 h), Int.compare_eq_eq.2 h]
  · rw [if_neg (mt hlt.1 (by omega)), if_neg (mt heq.1 (by omega)), if_pos (hgt.2 h),
      Int.compare_eq_gt.2 h]

theorem exists_place (hx : x.isNaN = false) : ∃ p, place? x = some p := by
  change x.toModel.unpack.isNaN = false at hx
  unfold place?
  cases h : x.toModel.unpack with
  | notANumber =>
    rw [h] at hx
    cases hx
  | _ => exact ⟨_, rfl⟩

end MiniC.Binary64
