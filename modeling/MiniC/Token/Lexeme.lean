import MiniC.Token

/-!
# The piece at the front of a text

A text is cut into pieces from its front: blanks and comments, which mean nothing, tokens, and
characters that form no token. The first character decides which kind of piece stands there, and
each piece reaches as far as its kind allows.

* Blanks are spaces, tabs, carriage returns and form feeds; a line feed is a piece of its own.
* A comment from `//` ends before the next line feed or carriage return. One from `/*` ends with
  the first `*/` after these two characters, and without any the slash is a symbol.
* A word is ASCII letters, digits and underscores. A number is ASCII digits; a point belongs to it
  if digits follow the point.
* A string is everything between two quotes. Without a second quote the rest of the text is invalid.
-/

namespace MiniC

inductive Piece where
  | skipped (s : Skipped)
  | token (t : Token)
  | invalid
  deriving DecidableEq, Repr

/-- A piece, and how many characters belong to it after its first. -/
structure Lexeme where
  piece : Piece
  more : Nat
  deriving DecidableEq, Repr

namespace Lexeme

def isBlank (c : Char) : Bool :=
  c == ' ' || c == '\t' || c == '\r' || c == '\x0c'

def isWordStart (c : Char) : Bool :=
  c.isAlpha || c == '_'

def isWordPart (c : Char) : Bool :=
  c.isAlphanum || c == '_'

def digitsValue (digits : List Char) : Nat :=
  digits.foldl (fun n c => 10 * n + (c.toNat - '0'.toNat)) 0

def integer (digits : List Char) : Piece :=
  let n := digitsValue digits
  if n ≤ Int64.maxValue.toInt then .token (.int (Int64.ofNat n)) else .invalid

/-- The real that digits spell with a point before the last of them: the nearest double. -/
def real (whole fraction : List Char) : Piece :=
  .token (.real (Float.ofScientific (digitsValue (whole ++ fraction)) true fraction.length))

def number (c : Char) (cs : List Char) : Lexeme :=
  let whole := cs.takeWhile Char.isDigit
  match cs.dropWhile Char.isDigit with
  | '.' :: rest =>
    let fraction := rest.takeWhile Char.isDigit
    if fraction.isEmpty then ⟨integer (c :: whole), whole.length⟩
    else ⟨real (c :: whole) fraction, whole.length + 1 + fraction.length⟩
  | _ => ⟨integer (c :: whole), whole.length⟩

def word (c : Char) (cs : List Char) : Lexeme :=
  let rest := cs.takeWhile isWordPart
  ⟨.token (.ofWord (String.ofList (c :: rest))), rest.length⟩

/-- The string whose opening quote stands before `cs`. -/
def quoted (cs : List Char) : Lexeme :=
  let inside := cs.takeWhile (· != '"')
  if inside.length < cs.length then ⟨.token (.str (String.ofList inside)), inside.length + 1⟩
  else ⟨.invalid, cs.length⟩

/-- The number of characters up to the end of the first `*/`. -/
def throughClose : List Char → Option Nat
  | [] => none
  | '*' :: '/' :: _ => some 2
  | _ :: cs => (throughClose cs).map (· + 1)

def comment? : List Char → Option Lexeme
  | '/' :: cs =>
    some ⟨.skipped .lineComment, 1 + (cs.takeWhile fun c => c != '\n' && c != '\r').length⟩
  | '*' :: cs => (throughClose cs).map fun n => ⟨.skipped .blockComment, 1 + n⟩
  | _ => none

def symbol (c : Char) (cs : List Char) : Lexeme :=
  match Symbol.all.find? fun s => s.spelling.toList.isPrefixOf (c :: cs) with
  | some s => ⟨.token (.symbol s), s.spelling.length - 1⟩
  | none => ⟨.invalid, 0⟩

def front (c : Char) (cs : List Char) : Lexeme :=
  if c == '\n' then ⟨.skipped .lineFeed, 0⟩
  else if isBlank c then ⟨.skipped .blanks, (cs.takeWhile isBlank).length⟩
  else if c.isDigit then number c cs
  else if isWordStart c then word c cs
  else if c == '"' then quoted cs
  else if c == '/' then (comment? cs).getD (symbol c cs)
  else symbol c cs

end Lexeme

end MiniC
