import MiniC.Binary64.Text

/-!
# Tokens

A token is what the grammar sees of a source: a literal, a name, a word of the language or a
symbol. Words and symbols are finite lists with one spelling each.
-/

namespace MiniC

/-- The type names. They are written in declarations and have no effect on a run. -/
inductive TypeName where
  | int
  | float
  | char
  | bool
  | void
  deriving DecidableEq, Repr

namespace TypeName

def all : List TypeName := [int, float, char, bool, void]

def spelling : TypeName → String
  | int => "int"
  | float => "float"
  | char => "char"
  | bool => "bool"
  | void => "void"

end TypeName

inductive Keyword where
  | ifWord
  | elseWord
  | whileWord
  | forWord
  | returnWord
  | printWord
  deriving DecidableEq, Repr

namespace Keyword

def all : List Keyword := [ifWord, elseWord, whileWord, forWord, returnWord, printWord]

def spelling : Keyword → String
  | ifWord => "if"
  | elseWord => "else"
  | whileWord => "while"
  | forWord => "for"
  | returnWord => "return"
  | printWord => "print"

end Keyword

inductive Symbol where
  | plusPlus
  | minusMinus
  | equalEqual
  | bangEqual
  | lessEqual
  | greaterEqual
  | andAnd
  | orOr
  | plus
  | minus
  | star
  | slash
  | percent
  | less
  | greater
  | bang
  | equals
  | leftParen
  | rightParen
  | leftBrace
  | rightBrace
  | semicolon
  | comma
  deriving DecidableEq, Repr

namespace Symbol

/-- The symbols, those of two characters before those of one. -/
def all : List Symbol :=
  [plusPlus, minusMinus, equalEqual, bangEqual, lessEqual, greaterEqual, andAnd, orOr,
    plus, minus, star, slash, percent, less, greater, bang, equals,
    leftParen, rightParen, leftBrace, rightBrace, semicolon, comma]

def spelling : Symbol → String
  | plusPlus => "++"
  | minusMinus => "--"
  | equalEqual => "=="
  | bangEqual => "!="
  | lessEqual => "<="
  | greaterEqual => ">="
  | andAnd => "&&"
  | orOr => "||"
  | plus => "+"
  | minus => "-"
  | star => "*"
  | slash => "/"
  | percent => "%"
  | less => "<"
  | greater => ">"
  | bang => "!"
  | equals => "="
  | leftParen => "("
  | rightParen => ")"
  | leftBrace => "\x7b"
  | rightBrace => "\x7d"
  | semicolon => ";"
  | comma => ","

end Symbol

/-- What stands between the parts of a source that mean something. -/
inductive Skipped where
  | lineFeed
  | blanks
  | lineComment
  | blockComment
  deriving DecidableEq, Repr

inductive Token where
  | real (r : Float)
  | int (n : Int64)
  | str (s : String)
  | bool (b : Bool)
  | type (t : TypeName)
  | keyword (k : Keyword)
  | symbol (s : Symbol)
  | name (s : String)
  /-- Nothing that is read from a source: reading drops these, and no rule of the grammar takes
  one. -/
  | skipped (s : Skipped)
  deriving DecidableEq, Repr

namespace Token

def description : Token → String
  | real r => s!"real literal {Binary64.text r}"
  | int n => s!"integer literal {n.toInt}"
  | str s => s!"string literal \"{s}\""
  | bool b => s!"'{b}'"
  | type t => s!"'{t.spelling}'"
  | keyword k => s!"'{k.spelling}'"
  | symbol s => s!"'{s.spelling}'"
  | name s => s!"identifier '{s}'"
  | skipped _ => "'?'"

def reserved : List (String × Token) :=
  TypeName.all.map (fun t => (t.spelling, type t))
    ++ Keyword.all.map (fun k => (k.spelling, keyword k))
    ++ [("true", bool true), ("false", bool false)]

def ofWord (word : String) : Token :=
  (reserved.lookup word).getD (name word)

end Token

end MiniC
