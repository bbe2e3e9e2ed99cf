import MiniC.Binary64.Digits

/-!
# Doubles as text

The language prints a double with its shortest digits: positionally in the range where that is
readable, and with an exponent outside of it. How the digits are laid out is one record, and
writing follows it.
-/

namespace MiniC.Binary64

structure Layout where
  /-- The least power of ten of a leading digit that is written positionally. -/
  least : Int
  /-- The greatest such power. -/
  greatest : Int
  /-- What follows a whole number that is written positionally. -/
  whole : String
  /-- What stands before an exponent. -/
  mark : String
  infinity : String
  nan : String

/-- The layout of printed reals: powers from `-4` to `15` are positional and keep a fraction digit,
and exponents have neither a plus sign nor leading zeros. -/
def Layout.printed : Layout where
  least := -4
  greatest := 15
  whole := ".0"
  mark := "e"
  infinity := "inf"
  nan := "NaN"

def dropZeros (digits : List Char) : List Char :=
  (digits.reverse.dropWhile (· == '0')).reverse

/-- Writes digits with the point after as many of them as `whole` says; zeros fill up on either
side. -/
def Layout.positional (layout : Layout) (digits : List Char) (whole : Int) : String :=
  if whole ≤ 0 then
    "0." ++ String.ofList (List.replicate (-whole).toNat '0' ++ digits)
  else
    let front := digits.take whole.toNat
    let back := digits.drop whole.toNat
    String.ofList (front ++ List.replicate (whole.toNat - front.length) '0')
      ++ if back.isEmpty then layout.whole else "." ++ String.ofList back

def Layout.scientific (layout : Layout) (digits : List Char) (power : Int) : String :=
  String.ofList (digits.take 1)
    ++ (if digits.length ≤ 1 then "" else "." ++ String.ofList (digits.drop 1))
    ++ layout.mark ++ toString power

def Layout.decimal (layout : Layout) (d : Decimal) : String :=
  let all := Nat.toDigits 10 d.digits
  let digits := dropZeros all
  let power := d.scale + all.length - 1
  if layout.least ≤ power ∧ power ≤ layout.greatest then layout.positional digits (power + 1)
  else layout.scientific digits power

def Layout.write (layout : Layout) (x : Float) : String :=
  match parts? x with
  | none => if x.isNaN then layout.nan else if x < 0 then "-" ++ layout.infinity else layout.infinity
  | some p =>
    (if p.negative then "-" else "")
      ++ if p.significand = 0 then "0" ++ layout.whole else layout.decimal p.shortest

def text (x : Float) : String :=
  Layout.printed.write x

end MiniC.Binary64
