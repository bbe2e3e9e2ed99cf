import MiniC.Grammar.Program

/-!
# The grammar as a relation

`Derives n ts t`: the words `ts` can be derived from the nonterminal `n`, and `t` is the tree of
that derivation. The productions are those of the documented grammar,

    program        := function*
    function       := type name "(" (parameter ("," parameter)*)? ")" block
    block          := "{" statement* "}"
    statement      := declaration | block | if | while | for | return | print | expression ";"
    declaration    := type name ("=" expression)? ";"
    if             := "if" "(" expression ")" statement ("else" statement)?
    while          := "while" "(" expression ")" statement
    for            := "for" "(" initializer expression ";" expression ")" statement
    initializer    := declaration | expression ";"
    return         := "return" expression? ";"
    print          := "print" "(" expression ")" ";"
    expression     := name "=" expression | or
    or             := and ("||" and)*
    and            := comparison ("&&" comparison)*
    comparison     := additive (("<" | ">" | "<=" | ">=" | "==" | "!=") additive)?
    additive       := multiplicative (("+" | "-") multiplicative)*
    multiplicative := unary (("*" | "/" | "%") unary)*
    unary          := ("++" | "--" | "!" | "-") primary | primary ("++" | "--")?
    primary        := call | literal | "(" expression ")" | name
    call           := name "(" (expression ("," expression)*)? ")"

with no order among alternatives. Operations of one level group to the left, and parentheses leave
no node. The relation is ambiguous in one point only: which `if` an `else` belongs to. That is
settled by `Stmt.ElseNearest`, a property of the tree.
-/

namespace MiniC

-- ---------------------------------------------------------------------------
-- Words
-- ---------------------------------------------------------------------------

def BinaryOp.symbol : BinaryOp → Symbol
  | add => .plus
  | sub => .minus
  | mul => .star
  | div => .slash
  | mod => .percent
  | equal => .equalEqual
  | notEqual => .bangEqual
  | less => .less
  | greater => .greater
  | lessEqual => .lessEqual
  | greaterEqual => .greaterEqual
  | and => .andAnd
  | or => .orOr

def UnaryOp.symbol : UnaryOp → Symbol
  | negate => .minus
  | not => .bang
  | increment => .plusPlus
  | decrement => .minusMinus

theorem BinaryOp.spelling_symbol (op : BinaryOp) : op.symbol.spelling = op.spelling := by
  cases op <;> rfl

theorem UnaryOp.spelling_symbol (op : UnaryOp) : op.symbol.spelling = op.spelling := by
  cases op <;> rfl

def UnaryOp.Steps : UnaryOp → Prop
  | increment => True
  | decrement => True
  | negate => False
  | not => False

def Value.literal : Value → Token
  | int n => .int n
  | real r => .real r
  | bool b => .bool b
  | str s => .str s

inductive Level where
  | or
  | and
  | comparison
  | additive
  | multiplicative
  deriving DecidableEq, Repr

def Level.rank : Level → Nat
  | or => 1
  | and => 2
  | comparison => 3
  | additive => 4
  | multiplicative => 5

def BinaryOp.level : BinaryOp → Level
  | add => .additive
  | sub => .additive
  | mul => .multiplicative
  | div => .multiplicative
  | mod => .multiplicative
  | equal => .comparison
  | notEqual => .comparison
  | less => .comparison
  | greater => .comparison
  | lessEqual => .comparison
  | greaterEqual => .comparison
  | and => .and
  | or => .or

namespace Grammar

-- ---------------------------------------------------------------------------
-- Derivations
-- ---------------------------------------------------------------------------

inductive Term where
  | expression
  | level (l : Level)
  | unary
  | primary

inductive Nonterminal where
  | program
  /-- `function*` -/
  | functions
  | function
  | parameter
  /-- `(item ("," item)*)?` -/
  | listed (item : Nonterminal)
  /-- `item ("," item)*` -/
  | separated (item : Nonterminal)
  | block
  /-- `statement*` -/
  | statements
  | statement
  | declaration
  /-- What begins the header of a `for`. -/
  | initializer
  /-- `expression ";"` -/
  | effect
  | term (rank : Term)
  /-- `(operator operand)*` -/
  | operations (level : Level)

def operand : Level → Term
  | .or => .level .and
  | .and => .level .comparison
  | .comparison => .level .additive
  | .additive => .level .multiplicative
  | .multiplicative => .unary

@[reducible] def Nonterminal.Tree : Nonterminal → Type
  | program => Program
  | functions => List Function
  | function => Function
  | parameter => Decl
  | listed item => List item.Tree
  | separated item => List item.Tree
  | block => List Stmt
  | statements => List Stmt
  | statement => Stmt
  | declaration => Decl
  | initializer => Stmt
  | effect => Stmt
  | term _ => Expr
  | operations _ => List (BinaryOp × Expr)

/-- Operations one after the other, each on what those before it make. -/
def joinLeft (first : Expr) (others : List (BinaryOp × Expr)) : Expr :=
  others.foldl (fun left (op, right) => .binary op left right) first

inductive Derives : (n : Nonterminal) → List Token → n.Tree → Prop
  | program : Derives .functions ts fs → Derives .program ts ⟨fs, []⟩
  | noFunction : Derives .functions [] []
  | functions : Derives .function ts f → Derives .functions us fs →
      Derives .functions (ts ++ us) (f :: fs)
  | function (t : TypeName) (f : String) : Derives (.listed .parameter) ts ps →
      Derives .block us body →
      Derives .function
        (.type t :: .name f :: .symbol .leftParen :: (ts ++ .symbol .rightParen :: us))
        ⟨t, f, ps, body⟩
  | parameter (t : TypeName) (x : String) : Derives .parameter [.type t, .name x] ⟨t, x, none⟩
  | noItem : Derives (.listed item) [] []
  | items : Derives (.separated item) ts as → Derives (.listed item) ts as
  | lastItem : Derives item ts a → Derives (.separated item) ts [a]
  | moreItems : Derives item ts a → Derives (.separated item) us as →
      Derives (.separated item) (ts ++ .symbol .comma :: us) (a :: as)
  | block : Derives .statements ts body →
      Derives .block (.symbol .leftBrace :: (ts ++ [.symbol .rightBrace])) body
  | noStatement : Derives .statements [] []
  | statements : Derives .statement ts s → Derives .statements us rest →
      Derives .statements (ts ++ us) (s :: rest)
  | declaration (t : TypeName) (x : String) :
      Derives .declaration [.type t, .name x, .symbol .semicolon] ⟨t, x, none⟩
  | initialized (t : TypeName) (x : String) : Derives (.term .expression) ts e →
      Derives .declaration (.type t :: .name x :: .symbol .equals :: (ts ++ [.symbol .semicolon]))
        ⟨t, x, some e⟩
  | effect : Derives (.term .expression) ts e →
      Derives .effect (ts ++ [.symbol .semicolon]) (.expr e)
  | declare : Derives .declaration ts d → Derives .statement ts (.decl d)
  | nested : Derives .block ts body → Derives .statement ts (.block body)
  | ifThen : Derives (.term .expression) ts c → Derives .statement us yes →
      Derives .statement
        (.keyword .ifWord :: .symbol .leftParen :: (ts ++ .symbol .rightParen :: us))
        (.ifElse c yes none)
  | ifElse : Derives (.term .expression) ts c → Derives .statement us yes →
      Derives .statement vs no →
      Derives .statement
        (.keyword .ifWord :: .symbol .leftParen ::
          (ts ++ .symbol .rightParen :: (us ++ .keyword .elseWord :: vs)))
        (.ifElse c yes (some no))
  | whileLoop : Derives (.term .expression) ts c → Derives .statement us body →
      Derives .statement
        (.keyword .whileWord :: .symbol .leftParen :: (ts ++ .symbol .rightParen :: us))
        (.whileLoop c body)
  | forLoop : Derives .initializer is init → Derives (.term .expression) ts c →
      Derives (.term .expression) us step → Derives .statement vs body →
      Derives .statement
        (.keyword .forWord :: .symbol .leftParen ::
          (is ++ (ts ++ .symbol .semicolon :: (us ++ .symbol .rightParen :: vs))))
        (.forLoop (some init) c (some step) body)
  | returnNothing : Derives .statement [.keyword .returnWord, .symbol .semicolon] (.ret none)
  | returnValue : Derives (.term .expression) ts e →
      Derives .statement (.keyword .returnWord :: (ts ++ [.symbol .semicolon])) (.ret (some e))
  | print : Derives (.term .expression) ts e →
      Derives .statement
        (.keyword .printWord :: .symbol .leftParen ::
          (ts ++ [.symbol .rightParen, .symbol .semicolon]))
        (.print e)
  | perform : Derives .effect ts s → Derives .statement ts s
  | beginDeclared : Derives .declaration ts d → Derives .initializer ts (.decl d)
  | beginEffect : Derives .effect ts s → Derives .initializer ts s
  | assign (x : String) : Derives (.term .expression) ts e →
      Derives (.term .expression) (.name x :: .symbol .equals :: ts) (.assign x e)
  | operation : Derives (.term (.level .or)) ts e → Derives (.term .expression) ts e
  | chain (l : Level) (hl : l ≠ .comparison) : Derives (.term (operand l)) ts e →
      Derives (.operations l) us others → Derives (.term (.level l)) (ts ++ us) (joinLeft e others)
  | noOperation (l : Level) : Derives (.operations l) [] []
  | operations (op : BinaryOp) : Derives (.term (operand op.level)) ts e →
      Derives (.operations op.level) us others →
      Derives (.operations op.level) (.symbol op.symbol :: (ts ++ us)) ((op, e) :: others)
  | single : Derives (.term (.level .additive)) ts e → Derives (.term (.level .comparison)) ts e
  | compare (op : BinaryOp) (hop : op.level = .comparison) :
      Derives (.term (.level .additive)) ts a → Derives (.term (.level .additive)) us b →
      Derives (.term (.level .comparison)) (ts ++ .symbol op.symbol :: us) (.binary op a b)
  | plain : Derives (.term .primary) ts e → Derives (.term .unary) ts e
  | before (op : UnaryOp) : Derives (.term .primary) ts e →
      Derives (.term .unary) (.symbol op.symbol :: ts) (.unary op .before e)
  | after (op : UnaryOp) (hop : op.Steps) : Derives (.term .primary) ts e →
      Derives (.term .unary) (ts ++ [.symbol op.symbol]) (.unary op .after e)
  | call (f : String) : Derives (.listed (.term .expression)) ts args →
      Derives (.term .primary) (.name f :: .symbol .leftParen :: (ts ++ [.symbol .rightParen]))
        (.call f args)
  | literal (v : Value) : Derives (.term .primary) [v.literal] (.literal v)
  | parenthesized : Derives (.term .expression) ts e →
      Derives (.term .primary) (.symbol .leftParen :: (ts ++ [.symbol .rightParen])) e
  | var (x : String) : Derives (.term .primary) [.name x] (.var x)

theorem Derives.ofOperand {l : Level} (h : Derives (.term (operand l)) ts e) :
    Derives (.term (.level l)) ts e := by
  by_cases hl : l = .comparison
  · subst hl
    exact .single h
  · rw [← List.append_nil ts]
    exact .chain l hl h (.noOperation l)

theorem Derives.ofUnary (h : Derives (.term .unary) ts e) : Derives (.term .expression) ts e := by
  have hadditive : Derives (.term (.level .additive)) ts e :=
    .ofOperand (l := .additive) (.ofOperand (l := .multiplicative) h)
  exact .operation (.ofOperand (l := .or) (.ofOperand (l := .and) hadditive.single))

end Grammar

-- ---------------------------------------------------------------------------
-- Which `if` an `else` belongs to
-- ---------------------------------------------------------------------------

/-- A statement that ends in an `if` without an `else`, which an `else` behind it could go to. -/
def Stmt.Open : Stmt → Prop
  | ifElse _ _ none => True
  | ifElse _ _ (some no) => no.Open
  | whileLoop _ body => body.Open
  | forLoop _ _ _ body => body.Open
  | _ => False

mutual

/-- Every `else` belongs to the nearest `if` before it that can take it: what stands between an
`if` and its `else` is not open. -/
def Stmt.ElseNearest : Stmt → Prop
  | .block body => Stmt.ElseNearestAll body
  | .ifElse _ yes none => yes.ElseNearest
  | .ifElse _ yes (some no) => ¬yes.Open ∧ yes.ElseNearest ∧ no.ElseNearest
  | .whileLoop _ body => body.ElseNearest
  | .forLoop none _ _ body => body.ElseNearest
  | .forLoop (some init) _ _ body => init.ElseNearest ∧ body.ElseNearest
  | _ => True

def Stmt.ElseNearestAll : List Stmt → Prop
  | [] => True
  | s :: rest => s.ElseNearest ∧ Stmt.ElseNearestAll rest

end

def Program.ElseNearest (program : Program) : Prop :=
  ∀ f ∈ program.functions, Stmt.ElseNearestAll f.body

end MiniC
