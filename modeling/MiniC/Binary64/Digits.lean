import MiniC.Binary64.Parts

/-!
# The fewest digits that read back

A double stands for all the numbers that round to it, an interval around its own value. Its
shortest digits are the fewest that name a number of this interval, and of those the nearest to
the value. They are found on decimal grids of growing fineness: if a grid has a point in the
interval, one of the two points around the value lies in it.
-/

namespace MiniC.Binary64

/-- The number `digits · 10 ^ scale`. -/
structure Decimal where
  digits : Nat
  scale : Int
  deriving DecidableEq, Repr

def digitCount (n : Nat) : Nat :=
  (Nat.toDigits 10 n).length

/-- The number of digits before the point of the positive number `num / den`; zeros after the
point count downward from zero. -/
def wholeDigits (num den : Nat) : Int :=
  if den ≤ num then digitCount (num / den)
  else 1 - (digitCount ((den - 1) / num) : Int)

/-- The numbers that round to a double: those from `low` to `high`, which belong to it themselves
only if `closed`. The double itself is `value`, and all three count units of `2 ^ exponent`. -/
structure Interval where
  low : Nat
  value : Nat
  high : Nat
  exponent : Int
  closed : Bool

/-- The interval of a positive double. It reaches half way to both neighbours; the lower one is at
half the distance where the exponent changes. Even significands win ties, so theirs is closed. -/
def Parts.interval (p : Parts) : Interval where
  low := 4 * p.significand - (if p.significand = hiddenBit then 1 else 2)
  value := 4 * p.significand
  high := 4 * p.significand + 2
  exponent := p.exponent - 2
  closed := p.significand % 2 == 0

namespace Interval

/-- A unit of the interval in units of `10 ^ scale`, as numerator and denominator. -/
def ratio (i : Interval) (scale : Int) : Nat × Nat :=
  (Nat.pow 10 (-scale).toNat <<< i.exponent.toNat, Nat.pow 10 scale.toNat <<< (-i.exponent).toNat)

def contains (i : Interval) (scale : Int) (n : Nat) : Bool :=
  let (num, den) := i.ratio scale
  if i.closed then i.low * num ≤ n * den && n * den ≤ i.high * num
  else i.low * num < n * den && n * den < i.high * num

/-- The number of units of `10 ^ scale` that lies in the interval nearest to its value; the upper
one of two at equal distance. -/
def onGrid? (i : Interval) (scale : Int) : Option Nat :=
  let (num, den) := i.ratio scale
  let below := i.value * num / den
  match i.contains scale below, i.contains scale (below + 1) with
  | true, true => if 2 * (i.value * num % den) < den then some below else some (below + 1)
  | true, false => some below
  | false, true => some (below + 1)
  | false, false => none

def search (i : Interval) : (finer : Nat) → (scale : Int) → Decimal
  | 0, scale => ⟨(i.onGrid? scale).getD 0, scale⟩
  | finer + 1, scale =>
    match i.onGrid? scale with
    | some digits => ⟨digits, scale⟩
    | none => i.search finer (scale - 1)

end Interval

/-- The shortest decimal that reads back as a positive double. One digit is tried first, and
seventeen always do. -/
def Parts.shortest (p : Parts) : Decimal :=
  let i := p.interval
  let (num, den) := i.ratio 0
  i.search 16 (wholeDigits (i.value * num) den - 1)

end MiniC.Binary64
