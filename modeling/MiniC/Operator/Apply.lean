import MiniC.Arithmetic

/-!
# Operators on values

What each operator makes of its operands. Arithmetic takes bools for `0` and `1`, stays exact on
integers and turns to doubles as soon as one operand is real. `+` also joins strings. Numbers are
compared by value and strings by their characters; the two are never equal and have no order.
-/

namespace MiniC

/-- How two values compare: `none` for a string and something else, `some none` for values without
an order, which NaN has with no number. -/
def Value.order? (left right : Value) : Option (Option Ordering) :=
  match left, right with
  | .str s, .str t => some (some (compare s t))
  | _, _ =>
    match left.number?, right.number? with
    | some (.int a), some (.int b) => some (some (compare a.toInt b.toInt))
    | some a, some b =>
      let x := a.toReal
      let y := b.toReal
      some (if x < y then some .lt else if x == y then some .eq else if y < x then some .gt else none)
    | _, _ => none

namespace BinaryOp

def misuse (op : BinaryOp) (left right : Value) : Fault :=
  .misuse (.operands op left.kind right.kind)

def arithmetic (op : BinaryOp) (left right : Value)
    (onIntegers : Int64 → Int64 → Except Fault Int64)
    (onReals : Number → Number → Except Fault Float) : Except Fault Value :=
  match left.number?, right.number? with
  | some (.int a), some (.int b) => (onIntegers a b).map .int
  | some a, some b => (onReals a b).map .real
  | _, _ => .error (op.misuse left right)

/-- Division of numbers of which one is real. It rounds down unless the dividend is real. -/
def realDivision (a b : Number) : Except Fault Float :=
  match a with
  | .int _ => Arithmetic.realFloorDiv a.toReal b.toReal
  | .real x => Arithmetic.realDiv x b.toReal

def comparison (op : BinaryOp) (left right : Value) (test : Ordering → Bool) : Except Fault Value :=
  match left.order? right with
  | some order => .ok (.bool (order.any test))
  | none => .error (op.misuse left right)

/-- Whether two values are equal, which those without an order are not. -/
def areEqual (left right : Value) : Bool :=
  left.order? right == some (some .eq)

def apply (op : BinaryOp) (left right : Value) : Except Fault Value :=
  match op with
  | add =>
    match left, right with
    | .str s, .str t => .ok (.str (s ++ t))
    | _, _ =>
      op.arithmetic left right (Arithmetic.add · op.spelling ·) fun a b => .ok (a.toReal + b.toReal)
  | sub =>
    op.arithmetic left right (Arithmetic.sub · op.spelling ·) fun a b => .ok (a.toReal - b.toReal)
  | mul =>
    op.arithmetic left right (Arithmetic.mul · op.spelling ·) fun a b => .ok (a.toReal * b.toReal)
  | div => op.arithmetic left right Arithmetic.floorDiv realDivision
  | mod =>
    op.arithmetic left right Arithmetic.floorMod fun a b =>
      Arithmetic.realFloorMod a.toReal b.toReal
  | equal => .ok (.bool (areEqual left right))
  | notEqual => .ok (.bool (!areEqual left right))
  | less => op.comparison left right Ordering.isLT
  | greater => op.comparison left right Ordering.isGT
  | lessEqual => op.comparison left right Ordering.isLE
  | greaterEqual => op.comparison left right Ordering.isGE
  | and => .ok (.bool (left.truthy && right.truthy))
  | or => .ok (.bool (left.truthy || right.truthy))

end BinaryOp

def Value.negate (v : Value) : Except Fault Value :=
  match v.number? with
  | some (.int n) => (Arithmetic.neg n).map .int
  | some (.real r) => .ok (.real (-r))
  | none => .error (.misuse (.negation v.kind))

def Value.result (v : Value) : Except Fault Int64 :=
  match v.integer? with
  | some n => .ok n
  | none => .error (.misuse (.result v.kind))

end MiniC
