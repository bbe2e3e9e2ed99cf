/-!
# Places in a source text

A position names the place between two characters of a text in three ways: by bytes of the UTF-8
encoding, by lines and by columns. Reading keeps count of bytes and lines as it goes. The column is
counted when a place is asked for, from where its line begins.
-/

namespace MiniC

/-- A place in a text. Only a line feed ends a line; a column counts characters. -/
structure Position where
  offset : Nat
  /-- Number of the line, from 1. -/
  line : Nat
  /-- Number of the column within the line, from 1. -/
  column : Nat
  deriving DecidableEq, Repr

def Position.text (p : Position) : String :=
  s!"line {p.line}, column {p.column}"

-- ---------------------------------------------------------------------------
-- Bytes
-- ---------------------------------------------------------------------------

def bytes (text : List Char) : Nat :=
  text.foldr (·.utf8Size + ·) 0

/-- What is left of a text without its first `n` bytes, if they are whole characters. -/
def dropBytes? : (n : Nat) → (text : List Char) → Option (List Char)
  | 0, text => some text
  | _ + 1, [] => none
  | n + 1, c :: text => if c.utf8Size ≤ n + 1 then dropBytes? (n + 1 - c.utf8Size) text else none

def takeBytes? : (n : Nat) → (text : List Char) → Option (List Char)
  | 0, _ => some []
  | _ + 1, [] => none
  | n + 1, c :: text =>
    if c.utf8Size ≤ n + 1 then (takeBytes? (n + 1 - c.utf8Size) text).map (c :: ·) else none

/-- The text between two offsets, if both lie between characters and the first comes first. -/
def slice? (source : List Char) (first last : Nat) : Option (List Char) :=
  if first ≤ last then (dropBytes? first source).bind (takeBytes? (last - first)) else none

def lastLineFeed? : List Char → Option Nat
  | [] => none
  | c :: text =>
    match lastLineFeed? text with
    | some offset => some (c.utf8Size + offset)
    | none => if c = '\n' then some 0 else none

-- ---------------------------------------------------------------------------
-- Lines
-- ---------------------------------------------------------------------------

structure Line where
  number : Nat
  /-- The offset of its first character. -/
  start : Nat
  deriving DecidableEq, Repr

namespace Line

def first : Line := ⟨1, 0⟩

/-- The line behind a piece of the text that begins at an offset, by the line feeds in the piece. -/
def track (line : Line) (offset : Nat) (piece : List Char) : Line :=
  match lastLineFeed? piece with
  | some last => ⟨line.number + piece.count '\n', offset + last + 1⟩
  | none => line

end Line

def Position.within (line : Line) (source : List Char) (offset : Nat) : Position where
  offset := offset
  line := line.number
  column := ((slice? source line.start offset).elim 0 List.length) + 1

end MiniC
