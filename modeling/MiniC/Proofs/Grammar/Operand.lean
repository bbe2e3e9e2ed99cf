import MiniC.Proofs.Grammar.Derivation

/-!
# Operands with an operator before them

Where words end in an operand with an operator before it, a second operator behind it is refused.
What the last of these words is says a lot about it: behind a closing parenthesis the operand goes
back to the opening one, and there is only one that it can be, since parentheses are balanced in
everything that can be derived.
-/

namespace MiniC.Grammar

-- ---------------------------------------------------------------------------
-- Parentheses
-- ---------------------------------------------------------------------------

/-- Reading backwards: how many closing parentheses wait for an opening one; `none` if one of the
latter finds nothing that waits. -/
def waiting (t : Token) : Option Nat → Option Nat
  | none => none
  | some k =>
    if t = .symbol .rightParen then some (k + 1)
    else if t ≠ .symbol .leftParen then some k
    else if k = 0 then none
    else some (k - 1)

def Balanced (ts : List Token) : Prop :=
  ∀ k, ts.foldr waiting (some k) = some k

@[simp] theorem foldr_waiting_none (ts : List Token) : ts.foldr waiting none = none := by
  induction ts with
  | nil => rfl
  | cons t ts ih => rw [List.foldr_cons, ih]; rfl

theorem unaryOp_not_paren (op : UnaryOp) :
    op.symbol ≠ .leftParen ∧ op.symbol ≠ .rightParen := by
  cases op <;> decide

theorem binaryOp_not_paren (op : BinaryOp) :
    op.symbol ≠ .leftParen ∧ op.symbol ≠ .rightParen := by
  cases op <;> decide

theorem literal_ne_symbol (v : Value) (s : Symbol) : v.literal ≠ .symbol s := by
  cases v <;> exact nofun

theorem Derives.balanced (h : Derives n ts t) : Balanced ts := by
  induction h <;> intro k <;>
    simp_all [Balanced, waiting, unaryOp_not_paren, binaryOp_not_paren, literal_ne_symbol]

theorem not_balanced_open (h : Balanced us) (ts : List Token) :
    ¬Balanced (ts ++ .symbol .leftParen :: us) := by
  intro hall
  have hzero := hall 0
  simp [h 0, waiting] at hzero

/-- The opening parenthesis that the last closing one belongs to. -/
theorem opening_unique (hts : Balanced ts) (hus : Balanced us)
    (h : before ++ .symbol .leftParen :: ts = before' ++ .symbol .leftParen :: us) :
    before = before' ∧ ts = us := by
  rcases List.append_eq_append_iff.1 h with ⟨more, rfl, hmore⟩ | ⟨more, rfl, hmore⟩
  · rcases List.cons_eq_append_iff.1 hmore with ⟨rfl, heq⟩ | ⟨inner, rfl, rfl⟩
    · simpa using heq.symm
    · exact absurd hts (not_balanced_open hus inner)
  · rcases List.cons_eq_append_iff.1 hmore with ⟨rfl, heq⟩ | ⟨inner, rfl, rfl⟩
    · simpa using heq
    · exact absurd hus (not_balanced_open hts inner)

-- ---------------------------------------------------------------------------
-- Operands
-- ---------------------------------------------------------------------------

/-- Words that end in an operand with an operator before it. -/
def Operand (ts : List Token) : Prop :=
  ∃ before op us e,
    ts = before ++ .symbol (UnaryOp.symbol op) :: us ∧ Derives (.term .primary) us e

theorem Operand.behind (h : Operand ts) (before : List Token) : Operand (before ++ ts) := by
  obtain ⟨more, op, us, e, rfl, he⟩ := h
  exact ⟨before ++ more, op, us, e, by simp, he⟩

theorem Operand.shape (h : Operand ts) :
    ∃ more op,
      (∃ t, ts = more ++ [.symbol (UnaryOp.symbol op)] ++ [t] ∧
        ((∃ x, t = .name x) ∨ ∃ v : Value, t = v.literal)) ∨
      ∃ before us, Balanced us ∧
        ts = before ++ .symbol .leftParen :: us ++ [.symbol .rightParen] ∧
        (before = more ++ [.symbol (UnaryOp.symbol op)] ∨
          ∃ f, before = more ++ [.symbol (UnaryOp.symbol op), .name f]) := by
  obtain ⟨more, op, us, e, rfl, he⟩ := h
  refine ⟨more, op, ?_⟩
  cases he with
  | @call us _ f h =>
    exact .inr ⟨more ++ [.symbol op.symbol, .name f], us, h.balanced, by simp, .inr ⟨f, rfl⟩⟩
  | literal v => exact .inl ⟨_, by simp, .inr ⟨v, rfl⟩⟩
  | @parenthesized us _ h =>
    exact .inr ⟨more ++ [.symbol op.symbol], us, h.balanced, by simp, .inl rfl⟩
  | var x => exact .inl ⟨_, by simp, .inl ⟨x, rfl⟩⟩

def EndsPrimary (t : Token) : Prop :=
  (∃ x, t = .name x) ∨ (∃ v : Value, t = v.literal) ∨ t = .symbol .rightParen

theorem Operand.last (h : Operand (ts ++ [t])) : EndsPrimary t := by
  obtain ⟨more, op, ⟨u, heq, hu⟩ | ⟨before, us, -, heq, -⟩⟩ := h.shape
  · obtain ⟨-, rfl⟩ := List.append_singleton_inj.1 heq
    exact hu.imp id .inl
  · obtain ⟨-, rfl⟩ := List.append_singleton_inj.1 heq
    exact .inr (.inr rfl)

theorem Operand.name (h : Operand (ts ++ [.name x])) :
    ∃ more op, ts = more ++ [.symbol (UnaryOp.symbol op)] := by
  obtain ⟨more, op, ⟨t, heq, -⟩ | ⟨before, us, -, heq, -⟩⟩ := h.shape
  · exact ⟨more, op, (List.append_singleton_inj.1 heq).1⟩
  · cases (List.append_singleton_inj.1 heq).2

/-- If the last word is a closing parenthesis, an operator stands before its counterpart, or a name
there and an operator before this. -/
theorem Operand.parenthesized (hts : Balanced ts)
    (h : Operand (before ++ t :: .symbol .leftParen :: (ts ++ [.symbol .rightParen]))) :
    ∃ op, t = .symbol (UnaryOp.symbol op) ∨
      ∃ f more, t = .name f ∧ before = more ++ [.symbol (UnaryOp.symbol op)] := by
  obtain ⟨more, op, ⟨u, heq, hu⟩ | ⟨before', us, hus, heq, hbefore⟩⟩ := h.shape
  · have hlast : before ++ t :: .symbol .leftParen :: ts = more ++ [.symbol op.symbol] ∧
        .symbol .rightParen = u := by
      simpa only [← List.append_assoc, ← List.cons_append, List.append_singleton_inj] using heq
    obtain ⟨-, rfl⟩ := hlast
    rcases hu with ⟨x, hx⟩ | ⟨v, hv⟩
    · cases hx
    · exact absurd hv.symm (literal_ne_symbol v _)
  · have hclosed : (before ++ [t]) ++ .symbol .leftParen :: ts ++ [.symbol .rightParen] =
        before' ++ .symbol .leftParen :: us ++ [.symbol .rightParen] := by
      simpa using heq
    obtain ⟨rfl, -⟩ := opening_unique hts hus (List.append_cancel_right hclosed)
    rcases hbefore with heq | ⟨f, heq⟩
    · exact ⟨op, .inl (List.append_singleton_inj.1 heq).2⟩
    · have hname : before ++ [t] = (more ++ [.symbol op.symbol]) ++ [.name f] := by simpa using heq
      obtain ⟨hbefore, ht⟩ := List.append_singleton_inj.1 hname
      exact ⟨op, .inr ⟨f, more, ht, hbefore⟩⟩

end MiniC.Grammar
