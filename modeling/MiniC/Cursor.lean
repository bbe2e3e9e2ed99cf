import MiniC.Tokens

/-!
# A place among tokens

A cursor stands before a token and knows the tokens from there on. It also carries the furthest
failure noted so far. Going back to an earlier place keeps what has been noted, so a report can
name a failure behind which reading has given up.
-/

namespace MiniC

/-- A place among the tokens of a source, and what has been noted on the way. -/
structure Cursor where
  rest : List (Token × Position)
  /-- The place after the source. -/
  stop : Position
  /-- The furthest failure noted. -/
  noted : Option Failure
  deriving DecidableEq, Repr

namespace Cursor

def ofTokens (tokens : Tokens) : Cursor :=
  ⟨tokens.list, tokens.stop, none⟩

def peek? (c : Cursor) : Option Token :=
  c.rest.head?.map (·.1)

def position (c : Cursor) : Position :=
  match c.rest with
  | [] => c.stop
  | (_, p) :: _ => p

def atEnd (c : Cursor) : Bool :=
  c.rest.isEmpty

def skip (c : Cursor) : Cursor :=
  { c with rest := c.rest.tail }

def unexpected (c : Cursor) (expected : List String) : Failure :=
  match c.peek? with
  | some token => .unexpectedToken token.description expected c.position
  | none => .unexpectedEnd expected c.position

/-- Notes a failure that reading goes on after. -/
def note (c : Cursor) (failure : Failure) : Cursor :=
  { c with noted := some (Failure.furthestOf c.noted failure) }

/-- Goes back to `start`, keeping what has been noted here. -/
def backTo (c start : Cursor) : Cursor :=
  { start with noted := c.noted }

/-- The best report of a failure that ends all reading: the furthest of it and of those noted. -/
def report (c : Cursor) (failure : Failure) : Failure :=
  Failure.furthestOf c.noted failure

end Cursor

end MiniC
