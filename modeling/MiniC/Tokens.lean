import MiniC.Failure
import MiniC.Token.Lexeme

/-!
# The tokens of a source

A source is read piece by piece. Its tokens keep the places where they begin, and blanks and
comments are dropped. The first invalid piece ends the reading.

Lines are counted where they can end: at a line feed, in a comment, and in a string, whose own place
is taken before.
-/

namespace MiniC

/-- The tokens of a source in order, each with the place where it begins, and the place after the
last character. -/
structure Tokens where
  list : List (Token × Position)
  stop : Position
  deriving DecidableEq, Repr

def Line.behindSkipped (line : Line) (offset : Nat) (piece : List Char) : Skipped → Line
  | .lineFeed => ⟨line.number + 1, offset + bytes piece⟩
  | .blockComment => line.track offset piece
  | .blanks => line
  | .lineComment => line

def Line.behindToken (line : Line) (offset : Nat) (piece : List Char) : Token → Line
  | .str _ => line.track offset piece
  | _ => line

namespace Tokens

def scan (source : List Char) :
    (text : List Char) → (offset : Nat) → (line : Line) → Except Failure Tokens
  | [], _, line => .ok ⟨[], .within line source (bytes source)⟩
  | c :: cs, offset, line =>
    let lexeme := Lexeme.front c cs
    let piece := c :: cs.take lexeme.more
    let rest := cs.drop lexeme.more
    let next := offset + bytes piece
    match lexeme.piece with
    | .invalid => .error (.invalidToken (String.ofList piece) (.within line source offset))
    | .skipped s => scan source rest next (line.behindSkipped offset piece s)
    | .token t => do
      let tokens ← scan source rest next (line.behindToken offset piece t)
      return { tokens with list := (t, .within line source offset) :: tokens.list }
termination_by text => text.length
decreasing_by all_goals (simp only [List.length_drop, List.length_cons]; omega)

def ofSource (source : String) : Except Failure Tokens :=
  scan source.toList source.toList 0 .first

end Tokens

end MiniC
