import MiniC.Position

/-!
# Why a text is not a program

A failure says what stands in the way and where. Of two failures the one further into the text
is the better report. Two at the same place are one report whose expectations are put together.
-/

namespace MiniC

inductive Failure where
  /-- A token that no rule accepts here, and the descriptions of what would be accepted. -/
  | unexpectedToken (found : String) (expected : List String) (place : Position)
  /-- The text ends where a rule still needs something. -/
  | unexpectedEnd (expected : List String) (place : Position)
  /-- Characters that form no token. -/
  | invalidToken (slice : String) (place : Position)
  /-- An operand with an operator on both sides; the place is that of the second. -/
  | conflictingUnary (place : Position)
  deriving DecidableEq, Repr

namespace Failure

def place : Failure → Position
  | unexpectedToken _ _ p => p
  | unexpectedEnd _ p => p
  | invalidToken _ p => p
  | conflictingUnary p => p

def expected : Failure → List String
  | unexpectedToken _ names _ => names
  | unexpectedEnd names _ => names
  | invalidToken .. => []
  | conflictingUnary _ => []

def addName (name : String) : List String → List String
  | [] => [name]
  | x :: xs =>
    if name = x then x :: xs
    else if name < x then name :: x :: xs
    else x :: addName name xs

def ascending (names : List String) : List String :=
  names.foldr addName []

theorem mem_addName {x name : String} {names : List String} :
    x ∈ addName name names ↔ x = name ∨ x ∈ names := by
  induction names with
  | nil => simp [addName]
  | cons y ys ih =>
    simp only [addName]
    split
    · rename_i h; subst h; simp
    · split
      · simp
      · simp only [List.mem_cons, ih]
        exact or_left_comm

theorem mem_ascending {x : String} {names : List String} : x ∈ ascending names ↔ x ∈ names := by
  induction names with
  | nil => rfl
  | cons y ys ih =>
    have step : ascending (y :: ys) = addName y (ascending ys) := rfl
    rw [step, mem_addName, ih, List.mem_cons]

theorem pairwise_addName {name : String} {names : List String} (h : names.Pairwise (· < ·)) :
    (addName name names).Pairwise (· < ·) := by
  induction names with
  | nil => simp [addName]
  | cons y ys ih =>
    obtain ⟨least, rest⟩ := List.pairwise_cons.1 h
    simp only [addName]
    split
    · exact h
    · rename_i different
      split
      · rename_i before
        refine List.pairwise_cons.2 ⟨?_, h⟩
        intro z hz
        rcases List.mem_cons.1 hz with rfl | later
        · exact before
        · exact String.lt_trans before (least z later)
      · rename_i notBefore
        refine List.pairwise_cons.2 ⟨?_, ih rest⟩
        intro z hz
        rcases mem_addName.1 hz with rfl | later
        · refine Decidable.byContradiction fun notAfter => different ?_
          exact String.le_antisymm (String.not_lt.1 notAfter) (String.not_lt.1 notBefore)
        · exact least z later

theorem pairwise_ascending (names : List String) : (ascending names).Pairwise (· < ·) := by
  induction names with
  | nil => exact .nil
  | cons y ys ih => exact pairwise_addName ih

/-- Takes over the expectations of a failure at the same place. Only a failure that expects
something can take any over, and then its own become ascending too. -/
def absorb (failure other : Failure) : Failure :=
  match failure with
  | unexpectedToken found names p => unexpectedToken found (ascending (names ++ other.expected)) p
  | unexpectedEnd names p => unexpectedEnd (ascending (names ++ other.expected)) p
  | invalidToken .. => failure
  | conflictingUnary _ => failure

/-- The one of two failures that lies further into the text. At the same offset the first stays
and absorbs the second. -/
def furthest (first second : Failure) : Failure :=
  if second.place.offset < first.place.offset then first
  else if first.place.offset < second.place.offset then second
  else first.absorb second

/-- The furthest of a failure and of those noted before it, which come first. -/
def furthestOf (noted : Option Failure) (failure : Failure) : Failure :=
  match noted with
  | none => failure
  | some earlier => earlier.furthest failure

def alternatives : List String → String
  | [] => "nothing"
  | [name] => name
  | [name, last] => s!"{name} or {last}"
  | name :: rest => s!"{name}, {alternatives rest}"

def reason : Failure → String
  | unexpectedToken found names _ => s!"Unexpected token {found}, expected {alternatives names}"
  | unexpectedEnd names _ => s!"Unexpected end of input, expected {alternatives names}"
  | invalidToken slice _ => s!"Unrecognised input '{slice}'"
  | conflictingUnary _ => "An operand cannot carry both a prefix and a postfix operator"

def message (failure : Failure) : String :=
  s!"Error at {failure.place.text}: {failure.reason}."

end Failure

end MiniC
