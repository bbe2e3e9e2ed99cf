/-!
# Control sequences

A terminal does not show control characters, nor the characters of a sequence that an escape begins.
It obeys them. What is left of a text without them is the text that it shows.

The character after the escape tells the form of a sequence. After `[` come parameters and a letter,
after `]` a command that a bell ends, and after `P`, `X`, `^` or `_` a string. Any other form ends
with its first character that is not one of those from the space to `/`.
-/

namespace MiniC.Text

inductive Sequence where
  /-- The text itself. -/
  | text
  /-- A sequence of which only the escape has been read. -/
  | escape
  /-- A sequence without a form of its own, of which more than the escape has been read. -/
  | short
  /-- The parameters of `[`. -/
  | parameters
  /-- The command of `]`. -/
  | command
  /-- The string of `P`, of which nothing has been read. -/
  | device
  /-- The parameters before the string of `P`. -/
  | deviceParameters
  /-- The end of the parameters before the string of `P`. -/
  | deviceIntermediates
  /-- A string. -/
  | string
  deriving DecidableEq, Repr

def isIntermediate (c : Char) : Bool :=
  ' ' ≤ c && c ≤ '/'

def isFinal (c : Char) : Bool :=
  '@' ≤ c && c ≤ '~'

/-- Whether a character ends a string: the byte that does so is one of those of its UTF-8 form. -/
def endsString (c : Char) : Bool :=
  (String.utf8EncodeChar c).contains 0x9c

def isLayout (c : Char) : Bool :=
  c == '\t' || c == '\n' || c == '\x0c' || c == '\r'

def isShown (c : Char) : Bool :=
  isLayout c || (' ' ≤ c && c != '\x7f')

namespace Sequence

/-- What follows a character that is not shown. An escape begins a sequence wherever it stands, and
a cancel (18) or a substitute (1a) ends one. -/
def next (s : Sequence) (c : Char) : Sequence :=
  if c == '\x1b' then .escape
  else if c == '\x18' || c == '\x1a' then .text
  else
    match s with
    | .text => .text
    | .escape =>
      if c == '[' then .parameters
      else if c == ']' then .command
      else if c == 'P' then .device
      else if c == 'X' || c == '^' || c == '_' then .string
      else if isIntermediate c then .short
      else if '0' ≤ c && c ≤ '~' then .text
      else .escape
    | .short => if '0' ≤ c && c ≤ '~' then .text else .short
    | .parameters => if isFinal c then .text else .parameters
    | .command => if c == '\x07' then .text else .command
    | .device =>
      if isIntermediate c then .deviceIntermediates
      else if '0' ≤ c && c ≤ '?' then .deviceParameters
      else if isFinal c then .string
      else .device
    | .deviceParameters =>
      if isIntermediate c then .deviceIntermediates
      else if '<' ≤ c && c ≤ '~' then .string
      else .deviceParameters
    | .deviceIntermediates =>
      if '0' ≤ c && c ≤ '~' then .string else .deviceIntermediates
    | .string => if endsString c then .text else .string

def showsLayout (s : Sequence) : Bool :=
  s == .escape || s == .short || s == .parameters

end Sequence

/-- The characters that a terminal shows. One that is shown within a sequence suspends it: those
after it are shown too, up to the next control character, and ASCII does not end the sequence. -/
def shown (s : Sequence) (suspended : Bool) : List Char → List Char
  | [] => []
  | c :: cs =>
    if suspended || s == .text then
      if isShown c then
        if c.toNat < 0x80 then c :: shown s suspended cs else c :: shown .text false cs
      else shown (s.next c) false cs
    else if isLayout c && s.showsLayout then c :: shown s true cs
    else shown (s.next c) false cs

def withoutControls (text : String) : String :=
  String.ofList (shown .text false text.toList)

end MiniC.Text
