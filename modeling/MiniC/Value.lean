import MiniC.Binary64.Text

/-!
# Values

The same four kinds of value occur as literals of a program and while it runs. Variables have no
type: a name may hold any kind of value and change it.
-/

namespace MiniC

inductive Kind where
  | integer
  | real
  | bool
  | string
  deriving DecidableEq, Repr

def Kind.name : Kind → String
  | integer => "integer"
  | real => "real"
  | bool => "bool"
  | string => "string"

inductive Number where
  | int (n : Int64)
  | real (r : Float)
  deriving DecidableEq, Repr

def Number.toReal : Number → Float
  | int n => Float.ofInt n.toInt
  | real r => r

/-- What variables hold and expressions yield. Two of them are the same here only if they cannot be
told apart, reals to the last bit; what the language calls equal is an operator of its own. -/
inductive Value where
  | int (n : Int64)
  | real (r : Float)
  | bool (b : Bool)
  | str (s : String)
  deriving DecidableEq, Repr

namespace Value

def kind : Value → Kind
  | int _ => .integer
  | real _ => .real
  | bool _ => .bool
  | str _ => .string

/-- Whether a condition with this value holds: all but zero, `false` and the empty string do. -/
def truthy : Value → Bool
  | int n => n != 0
  | real r => r != 0
  | bool b => b
  | str s => !s.isEmpty

/-- The number that arithmetic takes a value for. A bool counts as `0` or `1`; a string is none. -/
def number? : Value → Option Number
  | int n => some (.int n)
  | bool b => some (.int (if b then 1 else 0))
  | real r => some (.real r)
  | str _ => none

def integer? (v : Value) : Option Int64 :=
  match v.number? with
  | some (.int n) => some n
  | _ => none

def text : Value → String
  | int n => toString n.toInt
  | real r => Binary64.text r
  | bool b => if b then "true" else "false"
  | str s => s

/-- Whether two literals are the same in a program. Reals compare as numbers, so both zeros are the
same and NaN is not the same as itself. -/
def same : Value → Value → Bool
  | int m, int n => m == n
  | real r, real q => r == q
  | bool a, bool b => a == b
  | str s, str t => s == t
  | _, _ => false

end Value

end MiniC
