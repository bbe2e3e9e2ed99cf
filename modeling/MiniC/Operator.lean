/-!
# Operators

The operators of expressions and how they are spelled. `++` and `--` are the only ones that can
stand on either side of their operand.
-/

namespace MiniC

inductive BinaryOp where
  | add
  | sub
  | mul
  | div
  | mod
  | equal
  | notEqual
  | less
  | greater
  | lessEqual
  | greaterEqual
  | and
  | or
  deriving DecidableEq, Repr

def BinaryOp.spelling : BinaryOp → String
  | add => "+"
  | sub => "-"
  | mul => "*"
  | div => "/"
  | mod => "%"
  | equal => "=="
  | notEqual => "!="
  | less => "<"
  | greater => ">"
  | lessEqual => "<="
  | greaterEqual => ">="
  | and => "&&"
  | or => "||"

inductive UnaryOp where
  | negate
  | not
  | increment
  | decrement
  deriving DecidableEq, Repr

def UnaryOp.spelling : UnaryOp → String
  | negate => "-"
  | not => "!"
  | increment => "++"
  | decrement => "--"

inductive Side where
  | before
  | after
  deriving DecidableEq, Repr

end MiniC
