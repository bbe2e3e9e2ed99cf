import Mathlib.Data.List.DropRight
import MiniC.Position

/-!
# Places by counting

A place can be moved over a text one character at a time. What comes of it is counted here from the
whole text before the place: its bytes, its line feeds, and the characters behind the last of them.
-/

namespace MiniC.Position

def start : Position := ⟨0, 1, 1⟩

def advance (p : Position) (c : Char) : Position :=
  if c = '\n' then ⟨p.offset + c.utf8Size, p.line + 1, 1⟩
  else ⟨p.offset + c.utf8Size, p.line, p.column + 1⟩

def advanceBy (p : Position) (text : List Char) : Position :=
  text.foldl advance p

@[simp] theorem advanceBy_nil (p : Position) : p.advanceBy [] = p := rfl

@[simp] theorem advanceBy_cons (p : Position) (c : Char) (cs : List Char) :
    p.advanceBy (c :: cs) = (p.advance c).advanceBy cs := rfl

theorem advanceBy_append (p : Position) (xs ys : List Char) :
    p.advanceBy (xs ++ ys) = (p.advanceBy xs).advanceBy ys :=
  List.foldl_append

/-- The place behind a text that begins at the start of a source. -/
def behind (before : List Char) : Position where
  offset := (String.ofList before).utf8ByteSize
  line := 1 + before.count '\n'
  column := 1 + (before.rtakeWhile (· ≠ '\n')).length

theorem advance_behind (before : List Char) (c : Char) :
    (behind before).advance c = behind (before ++ [c]) := by
  by_cases hc : c = '\n'
  · have hsize : '\n'.utf8Size = "\n".utf8ByteSize := rfl
    simp [advance, behind, hc, hsize, List.rtakeWhile_concat_neg, Nat.add_assoc]
  · simp [advance, behind, hc, List.rtakeWhile_concat_pos, Nat.add_assoc]

theorem advanceBy_behind (before text : List Char) :
    (behind before).advanceBy text = behind (before ++ text) := by
  induction text generalizing before with
  | nil => simp
  | cons c text ih => simp [advance_behind, ih]

end MiniC.Position
