import MiniC.Value

/-!
# Environments

The variables of a run live in scopes, the scopes in frames. Each call of a function has a frame of
its own, and names are looked up in the current frame only, from the innermost scope outward. A
name is given once in a scope.
-/

namespace MiniC

/-- The variables of one block, each name once. -/
structure Scope where
  bindings : List (String × Value)
  deriving DecidableEq, Repr

namespace Scope

def empty : Scope := ⟨[]⟩

def get? (scope : Scope) (name : String) : Option Value :=
  scope.bindings.lookup name

def has (scope : Scope) (name : String) : Bool :=
  (scope.get? name).isSome

def putIn (name : String) (value : Value) : List (String × Value) → List (String × Value)
  | [] => [(name, value)]
  | (x, v) :: rest => if name = x then (x, value) :: rest else (x, v) :: putIn name value rest

def put (scope : Scope) (name : String) (value : Value) : Scope :=
  ⟨putIn name value scope.bindings⟩

@[simp] theorem get?_empty (name : String) : empty.get? name = none := rfl

theorem lookup_putIn (name other : String) (value : Value) (bindings : List (String × Value)) :
    (putIn name value bindings).lookup other
      = if other = name then some value else bindings.lookup other := by
  have apart {x y : String} (h : x ≠ y) : (x == y) = false := beq_eq_false_iff_ne.2 h
  induction bindings with
  | nil => by_cases h : other = name <;> simp [putIn, List.lookup_cons, h, apart]
  | cons binding rest ih =>
    obtain ⟨x, v⟩ := binding
    by_cases hx : name = x
    · subst hx
      by_cases h : other = name <;> simp [putIn, List.lookup_cons, h, apart]
    · by_cases h : other = x
      · subst h
        simp [putIn, hx, Ne.symm hx]
      · simp [putIn, List.lookup_cons, hx, h, apart, ih]

@[simp] theorem get?_put (scope : Scope) (name other : String) (value : Value) :
    (scope.put name value).get? other = if other = name then some value else scope.get? other :=
  lookup_putIn name other value scope.bindings

end Scope

/-- The scopes of one call, the innermost first. -/
abbrev Frame := List Scope

namespace Frame

def fresh : Frame := [.empty]

def get? (frame : Frame) (name : String) : Option Value :=
  frame.findSome? (·.get? name)

def assign? (name : String) (value : Value) : Frame → Option Frame
  | [] => none
  | scope :: outer =>
    if scope.has name then some (scope.put name value :: outer)
    else (assign? name value outer).map (scope :: ·)

def define (name : String) (value : Value) : Frame → Frame
  | [] => []
  | scope :: outer => scope.put name value :: outer

@[simp] theorem get?_cons (scope : Scope) (outer : Frame) (name : String) :
    get? (scope :: outer) name = (scope.get? name).or (get? outer name) := by
  unfold get?
  rw [List.findSome?_cons]
  cases scope.get? name <;> rfl

theorem get?_define (scope : Scope) (outer : Frame) (name other : String) (value : Value) :
    get? (define name value (scope :: outer)) other
      = if other = name then some value else get? (scope :: outer) other := by
  by_cases h : other = name <;> simp [define, h]

theorem assign?_eq_none_iff {name : String} {value : Value} {frame : Frame} :
    assign? name value frame = none ↔ frame.get? name = none := by
  induction frame with
  | nil => simp [assign?, get?]
  | cons scope outer ih =>
    rw [get?_cons, assign?]
    cases h : scope.get? name with
    | none => simpa [Scope.has, h] using ih
    | some v => simp [Scope.has, h]

theorem get?_of_assign? {name : String} {value : Value} {frame after : Frame}
    (h : assign? name value frame = some after) (other : String) :
    after.get? other = if other = name then some value else frame.get? other := by
  induction frame generalizing after with
  | nil => simp [assign?] at h
  | cons scope outer ih =>
    rw [assign?] at h
    cases found : scope.get? name with
    | some v =>
      rw [if_pos (by simp [Scope.has, found])] at h
      obtain rfl := Option.some.inj h
      by_cases same : other = name <;> simp [same]
    | none =>
      rw [if_neg (by simp [Scope.has, found])] at h
      obtain ⟨changed, inner, rfl⟩ := Option.map_eq_some_iff.1 h
      rw [get?_cons, get?_cons, ih inner]
      by_cases same : other = name
      · simp [same, found]
      · simp [same]

end Frame

/-- The frames of all calls under way, the current one first. -/
structure Environment where
  frames : List Frame
  deriving DecidableEq, Repr

namespace Environment

def fresh : Environment := ⟨[.fresh]⟩

def modifyFrame (env : Environment) (change : Frame → Frame) : Environment :=
  match env.frames with
  | [] => env
  | frame :: callers => ⟨change frame :: callers⟩

def pushScope (env : Environment) : Environment :=
  env.modifyFrame (.empty :: ·)

/-- Closes the innermost scope. A frame may be left without any. -/
def popScope (env : Environment) : Environment :=
  env.modifyFrame List.tail

def pushFrame (env : Environment) : Environment :=
  ⟨.fresh :: env.frames⟩

def popFrame (env : Environment) : Environment :=
  ⟨env.frames.tail⟩

def get? (env : Environment) (name : String) : Option Value :=
  env.frames.head?.bind (Frame.get? · name)

def define (env : Environment) (name : String) (value : Value) : Environment :=
  env.modifyFrame (.define name value)

/-- Binds names in order, so the last value of a name stays. -/
def defineAll (env : Environment) (bindings : List (String × Value)) : Environment :=
  bindings.foldl (fun env (name, value) => env.define name value) env

def assign? (env : Environment) (name : String) (value : Value) : Option Environment :=
  match env.frames with
  | [] => none
  | frame :: callers => (Frame.assign? name value frame).map fun f => ⟨f :: callers⟩

theorem assign?_eq_none_iff {env : Environment} {name : String} {value : Value} :
    env.assign? name value = none ↔ env.get? name = none := by
  obtain ⟨_ | ⟨frame, callers⟩⟩ := env
  · simp [assign?, get?]
  · simpa [assign?, get?] using Frame.assign?_eq_none_iff

end Environment

end MiniC
