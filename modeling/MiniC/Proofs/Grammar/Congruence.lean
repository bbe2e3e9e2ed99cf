import MiniC.Grammar.Program
import MiniC.Proofs.Rule.Congruence

/-!
# Following the grammar

What is kept by the ways of putting rules together holds of every rule of the grammar. Operators
beside an operand stand apart: whether a second one is refused depends on what was read before, so a
relation has to hold of `unary` as a whole.
-/

namespace MiniC.Grammar

structure Congruence (R : ∀ {α : Type}, Rule α → Rule α → Sort u) extends Rule.Congruence R where
  unary : ∀ {e e' : Rule Expr}, R e e' → R (unary e) (unary e')

end Grammar

namespace Rule.Congruence

open Grammar

variable {R : ∀ {α : Type}, Rule α → Rule α → Sort u} (hR : Rule.Congruence R) {e e' : Rule Expr}

def name : R name name :=
  hR.one _ _

def parenthesized (h : R e e') : R (parenthesized e) (parenthesized e') :=
  hR.bind (hR.expect _ _) fun _ => hR.bind h fun _ => hR.bind (hR.expect _ _) fun _ => hR.pure _

def call (h : R e e') : R (call e) (call e') :=
  hR.bind hR.name fun _ => hR.bind (hR.expect _ _) fun _ =>
    hR.bind (hR.commaSeparated h _) fun _ => hR.pure _

def literal : R literal literal :=
  hR.bind (hR.one _ _) fun _ => hR.pure _

def reference : R reference reference :=
  hR.bind hR.name fun _ => hR.pure _

def primary (h : R e e') : R (primary e) (primary e') :=
  hR.firstOf (.cons (hR.call h) (.cons hR.literal (.cons (hR.parenthesized h)
    (.cons hR.reference .nil))))

/-- A relation that the refusal of a second operator keeps is kept by `unary`. -/
def withSingle (single : R (single opAfter?) (single opAfter?)) : Grammar.Congruence R where
  toCongruence := hR
  unary h := hR.bind (hR.eat? _) fun
    | none => hR.bind (hR.primary h) fun _ => hR.bind (hR.eat? _) fun
      | none => hR.pure _
      | some _ => hR.pure _
    | some _ => hR.bind (hR.primary h) fun _ => hR.bind single fun _ =>
      hR.pure _

end Rule.Congruence

namespace Grammar.Congruence

variable {R : ∀ {α : Type}, Rule α → Rule α → Sort u} (hR : Congruence R)

-- ---------------------------------------------------------------------------
-- Expressions
-- ---------------------------------------------------------------------------

section

variable {e e' : Rule Expr} (h : R e e')

def additive : R (additive e) (additive e') :=
  hR.leftChain (hR.leftChain (hR.unary h) _ _) _ _

def relational : R (relational e) (relational e') :=
  hR.bind (hR.additive h) fun _ => hR.bind (hR.eat? _) fun
    | none => hR.pure _
    | some _ => hR.bind (hR.additive h) fun _ => hR.pure _

def logicalOr : R (logicalOr e) (logicalOr e') :=
  hR.leftChain (hR.leftChain (hR.relational h) _ _) _ _

def assignment : R (assignment e) (assignment e') :=
  hR.bind hR.name fun _ => hR.bind (hR.expect _ _) fun _ => hR.bind h fun _ => hR.pure _

end

def expression : R expression expression :=
  hR.fix fun _ _ h => hR.firstOf (.cons (hR.assignment h) (.cons (hR.logicalOr h) .nil))

-- ---------------------------------------------------------------------------
-- Statements
-- ---------------------------------------------------------------------------

def condition : R (parenthesized Grammar.expression) (parenthesized Grammar.expression) :=
  hR.parenthesized hR.expression

def declaration : R declaration declaration :=
  hR.bind (hR.one _ _) fun _ => hR.bind hR.name fun _ => hR.ifEat _
    (hR.bind hR.expression fun _ => hR.bind (hR.expect _ _) fun _ =>
      hR.pure _)
    (hR.ifEat _ (hR.pure _) (hR.refuse _))

def declarationStatement : R declarationStatement declarationStatement :=
  hR.bind hR.declaration fun _ => hR.pure _

def expressionStatement : R expressionStatement expressionStatement :=
  hR.bind hR.expression fun _ => hR.bind (hR.expect _ _) fun _ => hR.pure _

def initializer : R (.firstOf [Grammar.declarationStatement, Grammar.expressionStatement])
    (.firstOf [Grammar.declarationStatement, Grammar.expressionStatement]) :=
  hR.firstOf (.cons hR.declarationStatement (.cons hR.expressionStatement .nil))

def returnStatement : R returnStatement returnStatement :=
  hR.bind (hR.expect _ _) fun _ => hR.bind (hR.optional hR.expression) fun _ =>
    hR.bind (hR.expect _ _) fun _ => hR.pure _

def printStatement : R printStatement printStatement :=
  hR.bind (hR.expect _ _) fun _ => hR.bind hR.condition fun _ =>
    hR.bind (hR.expect _ _) fun _ => hR.pure _

section

variable {s s' : Rule Stmt} (h : R s s')

def statements : R (statements s) (statements s') :=
  hR.fix fun _ _ hmore => hR.ifEat _ (hR.pure _) (hR.ifAtEnd (hR.refuse _)
    (hR.bind h fun _ => hR.bind hmore fun _ => hR.pure _))

def block : R (block s) (block s') :=
  hR.bind (hR.expect _ _) fun _ => hR.statements h

def blockStatement : R (blockStatement s) (blockStatement s') :=
  hR.bind (hR.block h) fun _ => hR.pure _

def ifStatement : R (ifStatement s) (ifStatement s') :=
  hR.bind (hR.expect _ _) fun _ => hR.bind hR.condition fun _ => hR.bind h fun _ =>
    hR.ifEat _ (hR.bind h fun _ => hR.pure _) (hR.pure _)

def whileStatement : R (whileStatement s) (whileStatement s') :=
  hR.bind (hR.expect _ _) fun _ => hR.bind hR.condition fun _ => hR.bind h fun _ => hR.pure _

def forStatement : R (forStatement s) (forStatement s') :=
  hR.bind (hR.expect _ _) fun _ => hR.bind (hR.expect _ _) fun _ => hR.bind hR.initializer fun _ =>
    hR.bind hR.expression fun _ => hR.bind (hR.expect _ _) fun _ =>
      hR.bind hR.expression fun _ => hR.bind (hR.expect _ _) fun _ => hR.bind h fun _ => hR.pure _

end

def statement : R statement statement :=
  hR.fix fun _ _ h => hR.firstOf (.cons hR.declarationStatement (.cons (hR.blockStatement h)
    (.cons (hR.ifStatement h) (.cons (hR.whileStatement h) (.cons (hR.forStatement h)
      (.cons hR.returnStatement (.cons hR.printStatement (.cons hR.expressionStatement .nil))))))))

-- ---------------------------------------------------------------------------
-- Programs
-- ---------------------------------------------------------------------------

def parameter : R parameter parameter :=
  hR.bind (hR.one _ _) fun _ => hR.bind hR.name fun _ => hR.pure _

def function : R function function :=
  hR.bind (hR.one _ _) fun _ => hR.bind hR.name fun _ => hR.bind (hR.expect _ _) fun _ =>
    hR.bind (hR.commaSeparated hR.parameter _) fun _ =>
      hR.bind (hR.block hR.statement) fun _ => hR.pure _

def functions : R functions functions :=
  hR.fix fun _ _ hmore => hR.ifAtEnd (hR.pure _)
    (hR.bind hR.function fun _ => hR.bind hmore fun _ => hR.pure _)

def program : R program program :=
  hR.bind hR.functions fun _ => hR.pure _

end Grammar.Congruence

end MiniC
