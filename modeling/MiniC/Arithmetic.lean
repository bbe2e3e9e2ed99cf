import MiniC.Fault

/-!
# Arithmetic

Integers are words of 64 bits. A result that no word holds is a fault, never wrapped. Division
rounds down, so a remainder has the sign of the divisor, and the same holds of real remainders.
-/

namespace MiniC.Arithmetic

/-- The word that holds an exact result, or the fault of a calculation whose result is too large or
too small. -/
def exactly (c : Calculation) (result : Int) : Except Fault Int64 :=
  if Int64.minValue.toInt ≤ result ∧ result ≤ Int64.maxValue.toInt then .ok (Int64.ofInt result)
  else .error (.overflow c)

/-- Sum of two words; `symbol` stands for the operation in a report. -/
def add (a : Int64) (symbol : String) (b : Int64) : Except Fault Int64 :=
  exactly (.binary a symbol b) (a.toInt + b.toInt)

def sub (a : Int64) (symbol : String) (b : Int64) : Except Fault Int64 :=
  exactly (.binary a symbol b) (a.toInt - b.toInt)

def mul (a : Int64) (symbol : String) (b : Int64) : Except Fault Int64 :=
  exactly (.binary a symbol b) (a.toInt * b.toInt)

def neg (a : Int64) : Except Fault Int64 :=
  exactly (.negation a) (-a.toInt)

/-- Quotient of two words, rounded down. The quotient that rounds toward zero is one too large when
the division leaves something and the signs differ. -/
def floorDiv (a b : Int64) : Except Fault Int64 :=
  if b = 0 then .error .divisionByZero
  else if a = Int64.minValue ∧ b = -1 then .error (.overflow (.binary a "/" b))
  else if a % b ≠ 0 ∧ (a < 0) ≠ (b < 0) then .ok (a / b - 1)
  else .ok (a / b)

/-- Remainder of `floorDiv`. The remainder of the division that rounds toward zero has the sign of
the dividend, so the divisor is added when that is the other one. -/
def floorMod (a b : Int64) : Except Fault Int64 :=
  if b = 0 then .error .divisionByZero
  else if a % b ≠ 0 ∧ (a % b < 0) ≠ (b < 0) then .ok (a % b + b)
  else .ok (a % b)

def realDiv (x y : Float) : Except Fault Float :=
  if y == 0 then .error .divisionByZero else .ok (x / y)

def realFloorDiv (x y : Float) : Except Fault Float :=
  (realDiv x y).map Binary64.floor

def realFloorMod (x y : Float) : Except Fault Float :=
  if y == 0 then .error .divisionByZero
  else
    let r := Binary64.remainder x y
    if r != 0 && (r < 0) != (y < 0) then .ok (r + y) else .ok r

end MiniC.Arithmetic
