import MiniC.Program
import MiniC.Rule

/-!
# The grammar of expressions

    expression     := assignment | logicalOr
    assignment     := name "=" expression
    logicalOr      := logicalAnd ("||" logicalAnd)*
    logicalAnd     := relational ("&&" relational)*
    relational     := additive (("<" | ">" | "<=" | ">=" | "==" | "!=") additive)?
    additive       := multiplicative (("+" | "-") multiplicative)*
    multiplicative := unary (("*" | "/" | "%") unary)*
    unary          := ("++" | "--" | "!" | "-") primary | primary ("++" | "--")?
    primary        := call | literal | "(" expression ")" | name
    call           := name "(" (expression ("," expression)*)? ")"

Every rule takes the rule for whole expressions, which stand in parentheses, arguments and
assignments; `expression` ties the knot.
-/

namespace MiniC.Grammar

def binaryOp? : Token → Option BinaryOp
  | .symbol .plus => some .add
  | .symbol .minus => some .sub
  | .symbol .star => some .mul
  | .symbol .slash => some .div
  | .symbol .percent => some .mod
  | .symbol .less => some .less
  | .symbol .greater => some .greater
  | .symbol .lessEqual => some .lessEqual
  | .symbol .greaterEqual => some .greaterEqual
  | .symbol .equalEqual => some .equal
  | .symbol .bangEqual => some .notEqual
  | .symbol .andAnd => some .and
  | .symbol .orOr => some .or
  | _ => none

def opOf (level : List BinaryOp) (token : Token) : Option BinaryOp :=
  (binaryOp? token).filter level.contains

def opBefore? : Token → Option UnaryOp
  | .symbol .plusPlus => some .increment
  | .symbol .minusMinus => some .decrement
  | .symbol .bang => some .not
  | .symbol .minus => some .negate
  | _ => none

def opAfter? : Token → Option UnaryOp
  | .symbol .plusPlus => some .increment
  | .symbol .minusMinus => some .decrement
  | _ => none

def literalValue? : Token → Option Value
  | .int n => some (.int n)
  | .real r => some (.real r)
  | .bool b => some (.bool b)
  | .str s => some (.str s)
  | _ => none

def name? : Token → Option String
  | .name s => some s
  | _ => none

def typeName? : Token → Option TypeName
  | .type t => some t
  | _ => none

def name : Rule String :=
  .one name? "identifier"

def typeName : Rule TypeName :=
  .one typeName? "type name"

def literal : Rule Expr := do
  return .literal (← .one literalValue? "literal")

def reference : Rule Expr := do
  return .var (← name)

def parenthesized (expression : Rule Expr) : Rule Expr := do
  .expect (.symbol .leftParen)
  let e ← expression
  .expect (.symbol .rightParen)
  return e

def call (expression : Rule Expr) : Rule Expr := do
  let f ← name
  .expect (.symbol .leftParen)
  return .call f (← .commaSeparated expression .rightParen)

/-- What an operator can stand beside. A name before a parenthesis is a call. -/
def primary (expression : Rule Expr) : Rule Expr :=
  .firstOf [call expression, literal, parenthesized expression, reference]

/-- An operand with at most one operator, on either side. -/
def unary (expression : Rule Expr) : Rule Expr := do
  let before ← .eat? opBefore?
  let operand ← primary expression
  match before with
  | none =>
    match ← .eat? opAfter? with
    | none => return operand
    | some op => return .unary op .after operand
  | some op =>
    .single opAfter?
    return .unary op .before operand

def join (left : Expr) (op : BinaryOp) (right : Expr) : Expr :=
  .binary op left right

def multiplicative (expression : Rule Expr) : Rule Expr :=
  .leftChain (unary expression) (opOf [.mul, .div, .mod]) join

def additive (expression : Rule Expr) : Rule Expr :=
  .leftChain (multiplicative expression) (opOf [.add, .sub]) join

/-- At most one comparison: a second one is left for the rule around this to refuse. -/
def relational (expression : Rule Expr) : Rule Expr := do
  let left ← additive expression
  match ← .eat? (opOf [.less, .greater, .lessEqual, .greaterEqual, .equal, .notEqual]) with
  | none => return left
  | some op => return .binary op left (← additive expression)

def logicalAnd (expression : Rule Expr) : Rule Expr :=
  .leftChain (relational expression) (opOf [.and]) join

def logicalOr (expression : Rule Expr) : Rule Expr :=
  .leftChain (logicalAnd expression) (opOf [.or]) join

/-- Tried before operators: a name alone is left to them. -/
def assignment (expression : Rule Expr) : Rule Expr := do
  let x ← name
  .expect (.symbol .equals)
  return .assign x (← expression)

def expression : Rule Expr :=
  .fix fun expression => .firstOf [assignment expression, logicalOr expression]

end MiniC.Grammar
