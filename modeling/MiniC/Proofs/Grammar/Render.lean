import MiniC.Proofs.Grammar.Derivation

/-!
# Programs as words

A tree is spelled with the parentheses that it needs and no others: around an operand that would
otherwise be drawn apart by the operator beside it. `Program.WellFormed` says which programs have a
text at all.
-/

namespace MiniC

-- ---------------------------------------------------------------------------
-- Words
-- ---------------------------------------------------------------------------

def parens (ts : List Token) : List Token :=
  .symbol .leftParen :: (ts ++ [.symbol .rightParen])

def braces (ts : List Token) : List Token :=
  .symbol .leftBrace :: (ts ++ [.symbol .rightBrace])

def commas : List (List Token) → List Token
  | [] => []
  | [ts] => ts
  | ts :: rest => ts ++ .symbol .comma :: commas rest

/-- Whether the left operand of an operator needs parentheses: if it is an assignment, or an
operation that binds less strongly, or if it and the operator are comparisons. -/
def BinaryOp.parensLeft (op : BinaryOp) : Expr → Bool
  | .assign _ _ => true
  | .binary inner _ _ =>
    inner.level.rank < op.level.rank || inner.level = .comparison && op.level = .comparison
  | _ => false

/-- Whether the right operand of an operator needs parentheses: if it is an assignment or an
operation that does not bind more strongly. -/
def BinaryOp.parensRight (op : BinaryOp) : Expr → Bool
  | .assign _ _ => true
  | .binary inner _ _ => inner.level.rank ≤ op.level.rank
  | _ => false

def Expr.parensAlone : Expr → Bool
  | .assign _ _ => true
  | .binary _ _ _ => true
  | .unary _ _ _ => true
  | _ => false

mutual

def Expr.spell : Expr → List Token
  | .literal v => [v.literal]
  | .var x => [.name x]
  | .binary op left right =>
    (if op.parensLeft left then parens left.spell else left.spell) ++ .symbol op.symbol ::
      (if op.parensRight right then parens right.spell else right.spell)
  | .unary op .before e =>
    .symbol op.symbol :: (if e.parensAlone then parens e.spell else e.spell)
  | .unary op .after e =>
    (if e.parensAlone then parens e.spell else e.spell) ++ [.symbol op.symbol]
  | .assign x e => .name x :: .symbol .equals :: e.spell
  | .call f args => .name f :: parens (commas (Expr.spellEach args))

def Expr.spellEach : List Expr → List (List Token)
  | [] => []
  | e :: es => e.spell :: Expr.spellEach es

end

theorem Expr.spellEach_eq_map (es : List Expr) : Expr.spellEach es = es.map Expr.spell := by
  induction es with
  | nil => rfl
  | cons e es ih => rw [Expr.spellEach, ih, List.map_cons]

def Decl.spell (d : Decl) : List Token :=
  .type d.type :: .name d.name ::
    match d.init with
    | none => [.symbol .semicolon]
    | some e => .symbol .equals :: (e.spell ++ [.symbol .semicolon])

def Decl.spellParam (d : Decl) : List Token :=
  [.type d.type, .name d.name]

mutual

/-- The words of a statement. A loop without an initializer or a step has none. -/
def Stmt.spell : Stmt → List Token
  | .expr e => e.spell ++ [.symbol .semicolon]
  | .decl d => d.spell
  | .block body => braces (Stmt.spellAll body)
  | .ifElse c yes none => .keyword .ifWord :: (parens c.spell ++ yes.spell)
  | .ifElse c yes (some no) =>
    .keyword .ifWord :: (parens c.spell ++ (yes.spell ++ .keyword .elseWord :: no.spell))
  | .whileLoop c body => .keyword .whileWord :: (parens c.spell ++ body.spell)
  | .forLoop (some init) c (some step) body =>
    .keyword .forWord ::
      (parens (init.spell ++ (c.spell ++ .symbol .semicolon :: step.spell)) ++ body.spell)
  | .forLoop _ _ _ _ => []
  | .ret none => [.keyword .returnWord, .symbol .semicolon]
  | .ret (some e) => .keyword .returnWord :: (e.spell ++ [.symbol .semicolon])
  | .print e => .keyword .printWord :: (parens e.spell ++ [.symbol .semicolon])

def Stmt.spellAll : List Stmt → List Token
  | [] => []
  | s :: rest => s.spell ++ Stmt.spellAll rest

end

def Function.spell (f : Function) : List Token :=
  .type f.type :: .name f.name ::
    (parens (commas (f.params.map Decl.spellParam)) ++ braces (Stmt.spellAll f.body))

def Program.spell (program : Program) : List Token :=
  program.functions.flatMap Function.spell

-- ---------------------------------------------------------------------------
-- Which trees have a text
-- ---------------------------------------------------------------------------

mutual

/-- Only an operator that steps a variable stands behind its operand. -/
def Expr.Shaped : Expr → Prop
  | .literal _ => True
  | .var _ => True
  | .binary _ left right => left.Shaped ∧ right.Shaped
  | .unary op side e => (op.Steps ∨ side = .before) ∧ e.Shaped
  | .assign _ e => e.Shaped
  | .call _ args => Expr.AllShaped args

def Expr.AllShaped : List Expr → Prop
  | [] => True
  | e :: es => e.Shaped ∧ Expr.AllShaped es

end

theorem Expr.allShaped_iff {es : List Expr} : Expr.AllShaped es ↔ ∀ e ∈ es, e.Shaped := by
  induction es with
  | nil => simp [Expr.AllShaped]
  | cons e es ih => simp [Expr.AllShaped, ih]

def Decl.Shaped (d : Decl) : Prop :=
  ∀ e, d.init = some e → e.Shaped

def Stmt.Initializes : Stmt → Prop
  | .decl _ => True
  | .expr _ => True
  | _ => False

mutual

def Stmt.Shaped : Stmt → Prop
  | .expr e => e.Shaped
  | .decl d => d.Shaped
  | .block body => Stmt.AllShaped body
  | .ifElse c yes none => c.Shaped ∧ yes.Shaped
  | .ifElse c yes (some no) => c.Shaped ∧ yes.Shaped ∧ no.Shaped
  | .whileLoop c body => c.Shaped ∧ body.Shaped
  | .forLoop (some init) c (some step) body =>
    init.Initializes ∧ init.Shaped ∧ c.Shaped ∧ step.Shaped ∧ body.Shaped
  | .forLoop _ _ _ _ => False
  | .ret none => True
  | .ret (some e) => e.Shaped
  | .print e => e.Shaped

def Stmt.AllShaped : List Stmt → Prop
  | [] => True
  | s :: rest => s.Shaped ∧ Stmt.AllShaped rest

end

def Function.Shaped (f : Function) : Prop :=
  (∀ d ∈ f.params, d.init = none) ∧ Stmt.AllShaped f.body

/-- The programs that have a text. -/
structure Program.WellFormed (program : Program) : Prop where
  globals : program.globals = []
  functions : ∀ f ∈ program.functions, f.Shaped
  elses : program.ElseNearest

end MiniC
