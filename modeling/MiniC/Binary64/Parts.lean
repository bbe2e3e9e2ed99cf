/-!
# The exact value of a double

A finite double is a whole multiple of a power of two. Taking it apart gives that number
exactly, and putting such a number together gives the double back, so what has to be exact
(floors, remainders, decimal digits) is worked out on natural numbers.
-/

namespace MiniC.Binary64

/-- The number `± significand · 2 ^ exponent`. -/
structure Parts where
  /-- Whether the sign is minus. Zero has a sign too. -/
  negative : Bool
  significand : Nat
  exponent : Int
  deriving DecidableEq, Repr

def leastExponent : Int := -1074

/-- The first significand of 53 bits. Smaller ones occur with `leastExponent` only. -/
def hiddenBit : Nat := 1 <<< 52

def parts? (x : Float) : Option Parts :=
  let bits := x.toBits.toNat
  let negative := bits >>> 63 == 1
  let field := bits / hiddenBit % 2048
  let fraction := bits % hiddenBit
  if field = 2047 then none
  else if field = 0 then some ⟨negative, fraction, leastExponent⟩
  else some ⟨negative, hiddenBit + fraction, leastExponent + (field - 1 : Nat)⟩

/-- The double whose parts these are, for a number that a double holds exactly with a significand
below `2 ^ 53`. The significand is shifted up to 53 bits, or as far as `leastExponent` lets it. -/
def Parts.toFloat (p : Parts) : Float :=
  let shift := min (52 - p.significand.log2) (p.exponent - leastExponent).toNat
  let significand := p.significand <<< shift
  let steps := (p.exponent - shift - leastExponent).toNat
  let magnitude := if significand < hiddenBit then significand else steps * hiddenBit + significand
  let sign := if p.negative then 1 <<< 63 else 0
  Float.ofBits (UInt64.ofNat (sign + magnitude))

/-- The largest whole number not above a double. What is whole already stays as it is, so zero
keeps its sign. -/
def floor (x : Float) : Float :=
  match parts? x with
  | none => x
  | some ⟨negative, significand, exponent⟩ =>
    let unit := 1 <<< (-exponent).toNat
    if significand % unit = 0 then x
    else if negative then Float.ofInt (-(significand / unit + 1 : Nat))
    else Float.ofNat (significand / unit)

/-- The remainder of a division of whole numbers that is rounded toward zero, scaled to doubles:
`x - n · y` for a whole `n`, smaller than `y` and with the sign of `x`. -/
def remainder (x y : Float) : Float :=
  match parts? x, parts? y with
  | none, _ => 0 / 0
  | some _, none => if y.isNaN then y else x
  | some p, some d =>
    if d.significand = 0 then 0 / 0
    else
      let exponent := min p.exponent d.exponent
      let dividend := p.significand <<< (p.exponent - exponent).toNat
      let divisor := d.significand <<< (d.exponent - exponent).toNat
      Parts.toFloat ⟨p.negative, dividend % divisor, exponent⟩

end MiniC.Binary64
