import MiniC.Operator
import MiniC.Token
import MiniC.Value

/-!
# Programs

A program as a tree. Parentheses leave no node: the shape of the tree says what they said. Trees
may be built that no text spells, such as a loop without an initializer, and they run all the same.
-/

namespace MiniC

inductive Expr where
  | literal (value : Value)
  | var (name : String)
  | binary (op : BinaryOp) (left right : Expr)
  | unary (op : UnaryOp) (side : Side) (operand : Expr)
  /-- Gives a variable that exists a new value, which is also the value of the expression. -/
  | assign (name : String) (value : Expr)
  | call (name : String) (args : List Expr)
  deriving Repr

/-- A declaration of a variable. Without an initializer the variable starts as `0`. -/
structure Decl where
  type : TypeName
  name : String
  init : Option Expr
  deriving Repr

/-- What is done in order. A `block` has a scope of its own, and so has a `forLoop`. -/
inductive Stmt where
  | expr (e : Expr)
  | decl (d : Decl)
  | block (body : List Stmt)
  | ifElse (condition : Expr) (yes : Stmt) (no : Option Stmt)
  | whileLoop (condition : Expr) (body : Stmt)
  /-- The grammar only makes loops whose `init` is a declaration or an expression, and which have a
  `step`. -/
  | forLoop (init : Option Stmt) (condition : Expr) (step : Option Expr) (body : Stmt)
  | ret (value : Option Expr)
  | print (e : Expr)
  deriving Repr

/-- A function. Its type and those of its parameters have no effect on a run. -/
structure Function where
  type : TypeName
  name : String
  params : List Decl
  body : List Stmt
  deriving Repr

/-- A program. The grammar has no global variables, and a run ignores them. -/
structure Program where
  functions : List Function
  globals : List Decl
  deriving Repr

/-- The function that a name calls: the first of that name. -/
def Program.function? (program : Program) (name : String) : Option Function :=
  program.functions.find? fun f => f.name == name

def sameOption (same : α → α → Bool) : Option α → Option α → Bool
  | none, none => true
  | some a, some b => same a b
  | _, _ => false

def sameList (same : α → α → Bool) : List α → List α → Bool
  | [], [] => true
  | a :: as, b :: bs => same a b && sameList same as bs
  | _, _ => false

mutual

def Expr.same : Expr → Expr → Bool
  | .literal v, .literal w => v.same w
  | .var x, .var y => x == y
  | .binary op a b, .binary oq c d => op == oq && a.same c && b.same d
  | .unary op p a, .unary oq q b => op == oq && p == q && a.same b
  | .assign x a, .assign y b => x == y && a.same b
  | .call f as, .call g bs => f == g && Expr.sameArgs as bs
  | _, _ => false

def Expr.sameArgs : List Expr → List Expr → Bool
  | [], [] => true
  | a :: as, b :: bs => a.same b && Expr.sameArgs as bs
  | _, _ => false

end

def Decl.same (d e : Decl) : Bool :=
  d.type == e.type && d.name == e.name && sameOption Expr.same d.init e.init

mutual

def Stmt.same : Stmt → Stmt → Bool
  | .expr a, .expr b => a.same b
  | .decl d, .decl e => d.same e
  | .block ss, .block ts => Stmt.sameBody ss ts
  | .ifElse c yes no, .ifElse d yes' no' => c.same d && yes.same yes' && Stmt.sameIfAny no no'
  | .whileLoop c s, .whileLoop d t => c.same d && s.same t
  | .forLoop i c n s, .forLoop j d m t =>
    Stmt.sameIfAny i j && c.same d && sameOption Expr.same n m && s.same t
  | .ret a, .ret b => sameOption Expr.same a b
  | .print a, .print b => a.same b
  | _, _ => false

def Stmt.sameIfAny : Option Stmt → Option Stmt → Bool
  | none, none => true
  | some s, some t => s.same t
  | _, _ => false

def Stmt.sameBody : List Stmt → List Stmt → Bool
  | [], [] => true
  | s :: ss, t :: ts => s.same t && Stmt.sameBody ss ts
  | _, _ => false

end

def Function.same (f g : Function) : Bool :=
  f.type == g.type && f.name == g.name && sameList Decl.same f.params g.params
    && Stmt.sameBody f.body g.body

def Program.same (p q : Program) : Bool :=
  sameList Function.same p.functions q.functions && sameList Decl.same p.globals q.globals

end MiniC
