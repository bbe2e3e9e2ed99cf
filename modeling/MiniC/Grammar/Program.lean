import MiniC.Grammar.Statement

/-!
# The grammar of programs

    program   := function*
    function  := type name "(" (parameter ("," parameter)*)? ")" block
    parameter := type name

A program is read to the end of its tokens. If that fails, the report is the furthest failure met
on the way.
-/

namespace MiniC

namespace Grammar

def parameter : Rule Decl := do
  let type ← typeName
  return ⟨type, ← name, none⟩

def function : Rule Function := do
  let type ← typeName
  let f ← name
  .expect (.symbol .leftParen)
  let params ← .commaSeparated parameter .rightParen
  return ⟨type, f, params, ← block statement⟩

def functions : Rule (List Function) :=
  .fix fun more => do
    if ← .atEnd then return []
    else
      let f ← function
      return f :: (← more)

def program : Rule Program := do
  return ⟨← functions, []⟩

end Grammar

/-- Reads all tokens by a rule, or gives the best report of why that fails. -/
def Rule.read (rule : Rule α) (tokens : Tokens) : Except Failure α :=
  match rule (.ofTokens tokens) with
  | .accepted a _ => .ok a
  | .refused failure c => .error (c.report failure)

def Program.ofTokens (tokens : Tokens) : Except Failure Program :=
  Grammar.program.read tokens

def Program.ofSource (source : String) : Except Failure Program := do
  Program.ofTokens (← Tokens.ofSource source)

end MiniC
