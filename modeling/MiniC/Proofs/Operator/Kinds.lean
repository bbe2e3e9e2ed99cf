import MiniC.Operator.Apply

/-!
# The kinds of results

An operator makes integers, bools and values of the kinds of its operands, and nothing else
(`Gives.apply`). It may find a divisor that is zero or a result that no word holds; apart from that
it only refuses the kinds of its operands, and only with a string among them.
-/

namespace MiniC

def Gives (x : Except Fault α) (Q : α → Prop) (E : Fault → Prop) : Prop :=
  match x with
  | .ok a => Q a
  | .error fault => E fault

/-- The value is of a kind that an operator may yield for the operands. -/
def Value.MadeOf (left right v : Value) : Prop :=
  v.kind ∈ [.integer, .bool, left.kind, right.kind]

def Fault.Arithmetical : Fault → Prop
  | .divisionByZero => True
  | .overflow _ => True
  | _ => False

/-- The faults of an operator: of arithmetic, or of the kinds of the operands, of which one is a
string. -/
def Fault.OfOperands (op : BinaryOp) (left right : Value) (fault : Fault) : Prop :=
  fault.Arithmetical ∨
    fault = op.misuse left right ∧ (left.kind = .string ∨ right.kind = .string)

theorem Value.number?_cases (v : Value) :
    (∃ n, v.number? = some (.int n)) ∨ ((∃ r, v.number? = some (.real r)) ∧ v.kind = .real) ∨
      v.number? = none ∧ v.kind = .string := by
  cases v with
  | int n => exact .inl ⟨n, rfl⟩
  | real r => exact .inr (.inl ⟨⟨r, rfl⟩, rfl⟩)
  | bool b => exact .inl ⟨_, rfl⟩
  | str s => exact .inr (.inr ⟨rfl, rfl⟩)

namespace Gives

variable {x : Except Fault α} {P Q : α → Prop} {E F : Fault → Prop}

theorem mono (h : Gives x P E) (hQ : ∀ a, P a → Q a) (hF : ∀ f, E f → F f) : Gives x Q F := by
  cases x with
  | ok a => exact hQ a h
  | error fault => exact hF fault h

theorem map {f : α → β} {R : β → Prop} (h : Gives x Q E) (hR : ∀ a, Q a → R (f a))
    (hF : ∀ fault, E fault → F fault) : Gives (x.map f) R F := by
  cases x with
  | ok a => exact hR a h
  | error fault => exact hF fault h

theorem error (h : Gives x Q E) {fault : Fault} (hx : x = .error fault) : E fault := by
  simpa only [Gives, hx] using h

-- ---------------------------------------------------------------------------
-- Arithmetic
-- ---------------------------------------------------------------------------

theorem exactly (c : Calculation) (result : Int) :
    Gives (Arithmetic.exactly c result) (fun _ => True) Fault.Arithmetical := by
  unfold Arithmetic.exactly
  split <;> exact trivial

theorem floorDiv (a b : Int64) :
    Gives (Arithmetic.floorDiv a b) (fun _ => True) Fault.Arithmetical := by
  unfold Arithmetic.floorDiv
  repeat' split
  all_goals exact trivial

theorem floorMod (a b : Int64) :
    Gives (Arithmetic.floorMod a b) (fun _ => True) Fault.Arithmetical := by
  unfold Arithmetic.floorMod
  repeat' split
  all_goals exact trivial

theorem realDiv (x y : Float) :
    Gives (Arithmetic.realDiv x y) (fun _ => True) Fault.Arithmetical := by
  unfold Arithmetic.realDiv
  split <;> exact trivial

theorem realFloorMod (x y : Float) :
    Gives (Arithmetic.realFloorMod x y) (fun _ => True) Fault.Arithmetical := by
  unfold Arithmetic.realFloorMod
  split
  · exact trivial
  · dsimp only
    split <;> exact trivial

theorem realDivision (a b : Number) :
    Gives (BinaryOp.realDivision a b) (fun _ => True) Fault.Arithmetical := by
  cases a with
  | int n => exact (realDiv _ _).map (fun _ _ => trivial) fun _ hf => hf
  | real x => exact realDiv _ _

-- ---------------------------------------------------------------------------
-- Operators
-- ---------------------------------------------------------------------------

variable (op : BinaryOp) (left right : Value)

theorem arithmetic {onIntegers : Int64 → Int64 → Except Fault Int64}
    {onReals : Number → Number → Except Fault Float}
    (hints : ∀ a b, Gives (onIntegers a b) (fun _ => True) Fault.Arithmetical)
    (hreals : ∀ a b, Gives (onReals a b) (fun _ => True) Fault.Arithmetical) :
    Gives (op.arithmetic left right onIntegers onReals) (left.MadeOf right)
      (Fault.OfOperands op left right) := by
  have hint : ∀ a b, Gives ((onIntegers a b).map Value.int) (left.MadeOf right)
      (Fault.OfOperands op left right) := fun a b =>
    (hints a b).map (fun _ _ => List.mem_cons_self) fun _ => .inl
  have hreal : ∀ a b, .real ∈ [left.kind, right.kind] →
      Gives ((onReals a b).map Value.real) (left.MadeOf right) (Fault.OfOperands op left right) :=
    fun a b hkind => (hreals a b).map (fun _ _ => .tail _ (.tail _ hkind)) fun _ => .inl
  unfold BinaryOp.arithmetic
  rcases left.number?_cases with ⟨a, ha⟩ | ⟨⟨a, ha⟩, hleft⟩ | ⟨ha, hleft⟩ <;>
    rcases right.number?_cases with ⟨b, hb⟩ | ⟨⟨b, hb⟩, hright⟩ | ⟨hb, hright⟩ <;>
    simp only [ha, hb]
  · exact hint a b
  · exact hreal _ _ (by simp [hright])
  · exact .inr ⟨rfl, .inr hright⟩
  · exact hreal _ _ (by simp [hleft])
  · exact hreal _ _ (by simp [hleft])
  · exact .inr ⟨rfl, .inr hright⟩
  all_goals exact .inr ⟨rfl, .inl hleft⟩

theorem comparison (test : Ordering → Bool) :
    Gives (op.comparison left right test) (fun v => v.kind = .bool)
      (Fault.OfOperands op left right) := by
  unfold BinaryOp.comparison
  split
  · exact rfl
  next hnone =>
    refine .inr ⟨rfl, ?_⟩
    cases left <;> cases right <;> first | exact .inl rfl | exact .inr rfl | cases hnone

theorem apply :
    Gives (op.apply left right) (left.MadeOf right) (Fault.OfOperands op left right) := by
  have hbool : ∀ v : Value, v.kind = .bool → left.MadeOf right v := fun v hv =>
    .tail _ (by rw [hv]; exact .head _)
  have hcompares := fun test => (comparison op left right test).mono hbool fun _ hf => hf
  have hreal : ∀ (f : Number → Number → Float) a b,
      Gives (.ok (f a b)) (fun _ => True) Fault.Arithmetical := fun _ _ _ => trivial
  cases op with
  | add =>
    unfold BinaryOp.apply
    dsimp only
    split
    · exact .tail _ (.tail _ (.head _))
    · exact arithmetic _ _ _ (fun _ _ => exactly _ _) (hreal _)
  | sub => exact arithmetic _ _ _ (fun _ _ => exactly _ _) (hreal _)
  | mul => exact arithmetic _ _ _ (fun _ _ => exactly _ _) (hreal _)
  | div => exact arithmetic _ _ _ floorDiv realDivision
  | mod => exact arithmetic _ _ _ floorMod fun _ _ => realFloorMod _ _
  | less => exact hcompares _
  | greater => exact hcompares _
  | lessEqual => exact hcompares _
  | greaterEqual => exact hcompares _
  | _ => exact hbool _ rfl

theorem negate (v : Value) : Gives v.negate (fun w => w.kind = .integer ∨ w.kind = v.kind)
    fun fault => fault.Arithmetical ∨ fault = .misuse (.negation v.kind) ∧ v.kind = .string := by
  unfold Value.negate
  rcases v.number?_cases with ⟨n, hn⟩ | ⟨⟨r, hr⟩, hkind⟩ | ⟨hnone, hkind⟩
  · simp only [hn]
    exact (exactly _ _).map (fun _ _ => .inl rfl) fun _ => .inl
  · simp only [hr]
    exact .inr hkind.symm
  · simp only [hnone]
    exact .inr ⟨rfl, hkind⟩

theorem result (v : Value) : Gives v.result (fun _ => True) fun fault =>
    fault = .misuse (.result v.kind) ∧ v.kind ≠ .integer ∧ v.kind ≠ .bool := by
  cases v with
  | int n => exact trivial
  | bool b => exact trivial
  | real r => exact ⟨rfl, nofun, nofun⟩
  | str s => exact ⟨rfl, nofun, nofun⟩

end Gives

end MiniC
