import MiniC.Value

/-!
# Inputs on the command line

An input is written `NAME=VALUE` and binds an integer to a name. Blanks around either part do not
count. An integer is ASCII digits, with a sign before them or without.
-/

namespace MiniC.CommandLine

/-- The characters with the Unicode property White_Space. -/
def isWhiteSpace (c : Char) : Bool :=
  let n := c.toNat
  (0x09 ≤ n && n ≤ 0x0d) || n == 0x20 || n == 0x85 || n == 0xa0 || n == 0x1680
    || (0x2000 ≤ n && n ≤ 0x200a) || n == 0x2028 || n == 0x2029 || n == 0x202f || n == 0x205f
    || n == 0x3000

def trim (text : List Char) : List Char :=
  ((text.dropWhile isWhiteSpace).reverse.dropWhile isWhiteSpace).reverse

inductive IntegerFault where
  | empty
  | invalidDigit
  | tooLarge
  | tooSmall
  deriving DecidableEq, Repr

def IntegerFault.text : IntegerFault → String
  | empty => "cannot parse integer from empty string"
  | invalidDigit => "invalid digit found in string"
  | tooLarge => "number too large to fit in target type"
  | tooSmall => "number too small to fit in target type"

/-- Reads digits after those that gave `value`. The first character at which something is wrong
decides what it is. -/
def readDigits (negative : Bool) : (value : Int) → List Char → Except IntegerFault Int64
  | value, [] => .ok (Int64.ofInt value)
  | value, c :: cs =>
    if !c.isDigit then .error .invalidDigit
    else
      let digit : Int := (c.toNat - '0'.toNat : Nat)
      let next := 10 * value + if negative then -digit else digit
      if next < Int64.minValue.toInt then .error .tooSmall
      else if Int64.maxValue.toInt < next then .error .tooLarge
      else readDigits negative next cs

def readInteger : List Char → Except IntegerFault Int64
  | [] => .error .empty
  | ['+'] | ['-'] => .error .invalidDigit
  | '+' :: digits => readDigits false 0 digits
  | '-' :: digits => readDigits true 0 digits
  | digits => readDigits false 0 digits

inductive InputFault where
  | noEquals
  | value (name : String) (fault : IntegerFault)
  deriving DecidableEq, Repr

def InputFault.text (raw : String) : InputFault → String
  | noEquals => s!"expected NAME=VALUE, got '{raw}'"
  | value name fault => s!"invalid value for '{name}': {fault.text}"

def readInput (raw : String) : Except InputFault (String × Value) :=
  let name := raw.toList.takeWhile (· != '=')
  match raw.toList.dropWhile (· != '=') with
  | [] => .error .noEquals
  | _ :: rest =>
    match readInteger (trim rest) with
    | .ok n => .ok (String.ofList (trim name), .int n)
    | .error fault => .error (.value (String.ofList name) fault)

end MiniC.CommandLine
