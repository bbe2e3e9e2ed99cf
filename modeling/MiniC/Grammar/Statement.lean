import MiniC.Grammar.Expression

/-!
# The grammar of statements

    statement   := declaration | block | if | while | for | return | print | expression ";"
    declaration := type name ("=" expression)? ";"
    block       := "{" statement* "}"
    if          := "if" "(" expression ")" statement ("else" statement)?
    while       := "while" "(" expression ")" statement
    for         := "for" "(" (declaration | expression ";") expression ";" expression ")" statement
    return      := "return" expression? ";"
    print       := "print" "(" expression ")" ";"

An `else` belongs to the nearest `if` before it. Rules with statements inside take the rule for
them, and `statement` ties the knot.
-/

namespace MiniC.Grammar

def declaration : Rule Decl := do
  let type ← typeName
  let x ← name
  if ← .eat (.symbol .equals) then
    let init ← expression
    .expect (.symbol .semicolon)
    return ⟨type, x, some init⟩
  else if ← .eat (.symbol .semicolon) then
    return ⟨type, x, none⟩
  else
    .refuse [(Token.symbol .equals).description, (Token.symbol .semicolon).description]

def declarationStatement : Rule Stmt := do
  return .decl (← declaration)

def expressionStatement : Rule Stmt := do
  let e ← expression
  .expect (.symbol .semicolon)
  return .expr e

def statements (statement : Rule Stmt) : Rule (List Stmt) :=
  .fix fun more => do
    if ← .eat (.symbol .rightBrace) then return []
    else if ← .atEnd then .refuse [(Token.symbol .rightBrace).description]
    else
      let s ← statement
      return s :: (← more)

def block (statement : Rule Stmt) : Rule (List Stmt) := do
  .expect (.symbol .leftBrace)
  statements statement

def blockStatement (statement : Rule Stmt) : Rule Stmt := do
  return .block (← block statement)

/-- The inner statement takes an `else` first, so it goes to the nearest `if`. -/
def ifStatement (statement : Rule Stmt) : Rule Stmt := do
  .expect (.keyword .ifWord)
  let condition ← parenthesized expression
  let yes ← statement
  if ← .eat (.keyword .elseWord) then
    return .ifElse condition yes (some (← statement))
  else
    return .ifElse condition yes none

def whileStatement (statement : Rule Stmt) : Rule Stmt := do
  .expect (.keyword .whileWord)
  let condition ← parenthesized expression
  return .whileLoop condition (← statement)

def forStatement (statement : Rule Stmt) : Rule Stmt := do
  .expect (.keyword .forWord)
  .expect (.symbol .leftParen)
  let init ← .firstOf [declarationStatement, expressionStatement]
  let condition ← expression
  .expect (.symbol .semicolon)
  let step ← expression
  .expect (.symbol .rightParen)
  return .forLoop (some init) condition (some step) (← statement)

/-- A value that cannot be read is noted, and reading goes on as if there were none. -/
def returnStatement : Rule Stmt := do
  .expect (.keyword .returnWord)
  let value ← .optional expression
  .expect (.symbol .semicolon)
  return .ret value

def printStatement : Rule Stmt := do
  .expect (.keyword .printWord)
  let e ← parenthesized expression
  .expect (.symbol .semicolon)
  return .print e

/-- The rule for whole statements. Each kind but the last begins with a token of its own. -/
def statement : Rule Stmt :=
  .fix fun statement =>
    .firstOf [declarationStatement, blockStatement statement, ifStatement statement,
      whileStatement statement, forStatement statement, returnStatement, printStatement,
      expressionStatement]

end MiniC.Grammar
