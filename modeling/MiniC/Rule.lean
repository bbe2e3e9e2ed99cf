import MiniC.Cursor

/-!
# Grammar rules

A rule reads something at a cursor: it accepts with a result, or it refuses with a failure. Either
way it says where it has come to. Alternatives are tried in order and each from the same place;
the failures of those that are given up are noted, not lost.

A rule that contains itself is made by `fix`. The inner rule may be used only after a token has
been read, and this is what makes every rule end.
-/

namespace MiniC

/-- What a rule says at a cursor, and the cursor it leaves. -/
inductive Reply (α : Type) where
  | accepted (result : α) (next : Cursor)
  | refused (failure : Failure) (next : Cursor)
  deriving Repr

def Rule (α : Type) : Type :=
  Cursor → Reply α

namespace Rule

variable {α β : Type}

@[inline] protected def pure (a : α) : Rule α :=
  fun c => .accepted a c

@[inline] protected def bind (first : Rule α) (second : α → Rule β) : Rule β :=
  fun c =>
    match first c with
    | .accepted a next => second a next
    | .refused failure next => .refused failure next

instance : Monad Rule where
  pure := Rule.pure
  bind := Rule.bind

theorem bind_accepted {first : Rule α} {second : α → Rule β} {c d : Cursor} {a : α}
    (h : first c = .accepted a d) : (first >>= second) c = second a d := by
  change Rule.bind first second c = _
  rw [Rule.bind, h]

theorem bind_refused {first : Rule α} {second : α → Rule β} {c d : Cursor} {failure : Failure}
    (h : first c = .refused failure d) : (first >>= second) c = .refused failure d := by
  change Rule.bind first second c = _
  rw [Rule.bind, h]

def refuse (expected : List String) : Rule α :=
  fun c => .refused (c.unexpected expected) c

/-- Refuses a second operator: the operand that has been read has one already. -/
def single (operator : Token → Option β) : Rule Unit :=
  fun c =>
    match c.peek?.bind operator with
    | some _ => .refused (.conflictingUnary c.position) c
    | none => .accepted () c

def atEnd : Rule Bool :=
  fun c => .accepted c.atEnd c

def eat (token : Token) : Rule Bool :=
  fun c => if c.peek? = some token then .accepted true c.skip else .accepted false c

def eat? (view : Token → Option α) : Rule (Option α) :=
  fun c =>
    match c.peek?.bind view with
    | some a => .accepted (some a) c.skip
    | none => .accepted none c

def one (view : Token → Option α) (description : String) : Rule α := do
  match ← eat? view with
  | some a => return a
  | none => refuse [description]

def expect (token : Token) (description : String := token.description) : Rule Unit := do
  if ← eat token then return else refuse [description]

/-- Tries alternatives after `given`, the failure of those before them. -/
def firstOfAfter (given : Option Failure) : List (Rule α) → Rule α
  | [], c => .refused (given.getD (c.unexpected [])) c
  | rule :: rules, c =>
    match rule c with
    | .accepted a next => .accepted a (match given with | none => next | some f => next.note f)
    | .refused failure left =>
      let worst := match given with | none => failure | some f => failure.furthest f
      firstOfAfter (some worst) rules (left.backTo c)

/-- Reads by the first alternative that accepts. If none does, it refuses where it began, with the
furthest of their failures; later alternatives come first among equals. -/
def firstOf (alternatives : List (Rule α)) : Rule α :=
  firstOfAfter none alternatives

def optional (rule : Rule α) : Rule (Option α) :=
  fun c =>
    match rule c with
    | .accepted a next => .accepted (some a) next
    | .refused failure left => .accepted none ((left.backTo c).note failure)

/-- The rule that may use itself after it has read a token. Used without, it refuses. -/
def fix (rule : Rule α → Rule α) : Rule α :=
  fun c =>
    rule (fun d => if d.rest.length < c.rest.length then fix rule d else refuse [] d) c
termination_by c => c.rest.length

theorem fix_eq (rule : Rule α → Rule α) (c : Cursor) :
    fix rule c =
      rule (fun d => if d.rest.length < c.rest.length then fix rule d else refuse [] d) c := by
  rw [fix]

def items (item : Rule α) (closing : Symbol) : Rule (List α) :=
  fix fun more => do
    let a ← item
    if ← eat (.symbol .comma) then return a :: (← more)
    else if ← eat (.symbol closing) then return [a]
    else refuse [(Token.symbol .comma).description, (Token.symbol closing).description]

def commaSeparated (item : Rule α) (closing : Symbol) : Rule (List α) := do
  if ← eat (.symbol closing) then return [] else items item closing

def operations (operand : Rule α) (operator : Token → Option β) : Rule (List (β × α)) :=
  fix fun more => do
    match ← eat? operator with
    | none => return []
    | some op =>
      let right ← operand
      return (op, right) :: (← more)

def leftChain (operand : Rule α) (operator : Token → Option β) (join : α → β → α → α) : Rule α := do
  let first ← operand
  let others ← operations operand operator
  return others.foldl (fun left (op, right) => join left op right) first

end Rule

end MiniC
