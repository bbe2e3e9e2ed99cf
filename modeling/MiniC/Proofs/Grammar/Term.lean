import MiniC.Proofs.Grammar.Unfold
import MiniC.Proofs.Rule.Takes

/-!
# Reading terms

Where the words of a term come next, its rule reads all of them, if the word behind them leaves the
term alone: it must not be an operator that would go on with it. One case for each production. No
alternative that is tried earlier accepts, and no loop ends too early or too late.
-/

namespace MiniC.Grammar

open Rule (Follows Takes)

-- ---------------------------------------------------------------------------
-- What may stand behind a term
-- ---------------------------------------------------------------------------

/-- How strongly a word draws the term before it into a larger one. -/
def grip : Token → Option Nat
  | .symbol .equals => some 0
  | .symbol .plusPlus => some 6
  | .symbol .minusMinus => some 6
  | .symbol .leftParen => some 7
  | t => (binaryOp? t).map (·.level.rank)

def Term.rank : Term → Nat
  | expression => 0
  | level l => l.rank
  | unary => 6
  | primary => 7

/-- What follows leaves a term alone: it draws less strongly than the term holds together. -/
def Leaves (r : Term) (rest : List Token) : Prop :=
  ∀ t k, rest.head? = some t → grip t = some k → k < r.rank

theorem grip_op (op : BinaryOp) : grip (.symbol op.symbol) = some op.level.rank := by
  cases op <;> rfl

theorem rank_operand (l : Level) : (operand l).rank = l.rank + 1 := by
  cases l <;> rfl

theorem Leaves.mono (h : Leaves r rest) (hr : r.rank ≤ q.rank) : Leaves q rest :=
  fun t k ht hk => Nat.lt_of_lt_of_le (h t k ht hk) hr

theorem Leaves.operand (h : Leaves (.level l) rest) : Leaves (operand l) rest :=
  h.mono (by rw [rank_operand]; exact Nat.le_succ _)

theorem Leaves.no_op (h : Leaves (.level l) rest) :
    ∀ t, rest.head? = some t → opOf (operators l) t = none := by
  intro t ht
  cases hop : opOf (operators l) t with
  | none => rfl
  | some op =>
    obtain ⟨rfl, rfl⟩ := opOf_eq_some.1 hop
    exact absurd (h _ _ ht (grip_op op)) (Nat.lt_irrefl _)

theorem Leaves.no_step (h : Leaves .unary rest) :
    ∀ t, rest.head? = some t → opAfter? t = none := by
  intro t ht
  cases hop : opAfter? t with
  | none => rfl
  | some op =>
    obtain ⟨rfl, hsteps⟩ := opAfter?_eq_some.1 hop
    cases op with
    | increment => exact absurd (h _ 6 ht rfl) (Nat.lt_irrefl _)
    | decrement => exact absurd (h _ 6 ht rfl) (Nat.lt_irrefl _)
    | negate => exact hsteps.elim
    | not => exact hsteps.elim

theorem Leaves.no_call (h : Leaves .primary rest) : rest.head? ≠ some (.symbol .leftParen) :=
  fun ht => absurd (h _ 7 ht rfl) (Nat.lt_irrefl _)

theorem Leaves.no_assignment (h : Leaves .expression rest) :
    rest.head? ≠ some (.symbol .equals) :=
  fun ht => absurd (h _ 0 ht rfl) (Nat.lt_irrefl _)

theorem leaves_op (op : BinaryOp) (rest : List Token) :
    Leaves (operand op.level) (.symbol op.symbol :: rest) := by
  rintro t k ht hk
  obtain rfl := Option.some.inj ht
  obtain rfl := Option.some.inj ((grip_op op).symm.trans hk)
  rw [rank_operand]
  exact Nat.lt_succ_self _

theorem leaves_cons (h : grip t = none) (r : Term) (rest : List Token) : Leaves r (t :: rest) := by
  rintro u k hu hk
  obtain rfl := Option.some.inj hu
  simp [h] at hk

theorem leaves_step (hop : op.Steps) (rest : List Token) :
    Leaves .primary (.symbol (UnaryOp.symbol op) :: rest) := by
  rintro t k ht hk
  obtain rfl := Option.some.inj ht
  cases op with
  | increment => cases hk; decide
  | decrement => cases hk; decide
  | negate => exact hop.elim
  | not => exact hop.elim

-- ---------------------------------------------------------------------------
-- Terms
-- ---------------------------------------------------------------------------

def termRule : Term → Rule Expr
  | .expression => expression
  | .level .or => logicalOr expression
  | .level .and => logicalAnd expression
  | .level .comparison => relational expression
  | .level .additive => additive expression
  | .level .multiplicative => multiplicative expression
  | .unary => unary expression
  | .primary => primary expression

theorem termRule_level (hl : l ≠ .comparison) :
    termRule (.level l) = .leftChain (termRule (operand l)) (opOf (operators l)) join := by
  cases l with
  | comparison => exact absurd rfl hl
  | _ => rfl

theorem termRule_follows (r : Term) : Follows (termRule r) (Derives (.term r)) := by
  have hadditive := additive_follows expression_follows
  have hrelational := relational_follows expression_follows
  match r with
  | .expression => exact expression_follows
  | .level .or => exact logicalOr_follows expression_follows
  | .level .and => exact level_follows (l := .and) nofun hrelational
  | .level .comparison => exact hrelational
  | .level .additive => exact hadditive
  | .level .multiplicative =>
    exact level_follows (l := .multiplicative) nofun (unary_follows expression_follows)
  | .unary => exact unary_follows expression_follows
  | .primary => exact primary_follows expression_follows

theorem termRule_ne_nil {r : Term} (ts : List Token) (e : Expr) (h : Derives (.term r) ts e) :
    ts ≠ [] :=
  h.ne_nil id

variable {rest ts us : List Token}

theorem name_takes (x : String) (rest : List Token) : name.Takes [.name x] x rest :=
  .one (name?_eq_some.2 rfl) _ _

theorem typeName_takes (k : TypeName) (rest : List Token) : typeName.Takes [.type k] k rest :=
  .one (typeName?_eq_some.2 rfl) _ _

theorem call_takes (h : Takes (.commaSeparated expression .rightParen) ts args rest) (f : String) :
    (termRule .primary).Takes (.name f :: .symbol .leftParen :: ts) (.call f args) rest := by
  refine .here (.bind_word (name_takes f _) ?_) _ none
  exact .bind_word (.expect _ _ _) (.bind_last h (.pure _ _))

theorem call_refuses (hname : ∀ f, ws.head? = some (.name f) →
      ws.tail.head? ≠ some (.symbol .leftParen)) : (call expression).Refuses ws := by
  have h : Follows (call expression) fun ts _ =>
      ∃ f us, ts = .name f :: .symbol .leftParen :: us := by
    refine name_follows.bind_words fun f => .expectThen ?_
    refine (listed_follows (.term .expression) expression_follows _).bind ?_
    exact fun us args _ => .pure ⟨f, us, by simp⟩
  refine h.refuses ?_
  rintro _ rest _ rfl ⟨f, us, rfl⟩
  exact hname f rfl rfl

theorem literal_takes (v : Value) :
    (termRule .primary).Takes [v.literal] (.literal v) rest := by
  refine .later (call_refuses fun f hf => ?_) (.here ?_ _) none
  · cases v <;> cases hf
  · exact .bind_last (.one (literalValue?_eq_some.2 rfl) _ _) (.pure _ _)

theorem literal_refuses (h : ∀ v : Value, ws.head? ≠ some v.literal) : literal.Refuses ws := by
  have hfollows : Follows literal fun ts _ => ∃ v : Value, ts = [v.literal] := by
    refine (Follows.reads (fun _ _ => literalValue?_eq_some) (.int 0) _).bind_words fun v => ?_
    exact .pure ⟨v, rfl⟩
  refine hfollows.refuses ?_
  rintro _ rest _ rfl ⟨v, rfl⟩
  exact h v rfl

theorem parenthesized_takes (h : expression.Takes ts e (.symbol .rightParen :: rest)) :
    (parenthesized expression).Takes (.symbol .leftParen :: (ts ++ [.symbol .rightParen])) e rest :=
  .bind_word (.expect _ _ _) (.bind h (.bind_last (.expect _ _ _) (.pure _ _)))

theorem parenthesized_refuses (h : ws.head? ≠ some (.symbol .leftParen)) :
    (parenthesized expression).Refuses ws := by
  refine (parenthesized_follows expression_follows).refuses ?_
  rintro _ rest _ rfl ⟨us, rfl, -⟩
  exact h rfl

theorem group_takes (h : expression.Takes ts e (.symbol .rightParen :: rest)) :
    (termRule .primary).Takes (.symbol .leftParen :: (ts ++ [.symbol .rightParen])) e rest := by
  refine .later (call_refuses ?_) (.later (literal_refuses ?_) (.here ?_ _)) none
  · rintro f ⟨⟩
  · rintro (_ | _) ⟨⟩
  · exact parenthesized_takes h

theorem var_takes (hrest : Leaves .primary rest) (x : String) :
    (termRule .primary).Takes [.name x] (.var x) rest := by
  refine .later (call_refuses ?_) (.later (literal_refuses ?_) ?_) none
  · exact fun _ _ => hrest.no_call
  · rintro (_ | _) ⟨⟩
  · refine .later (parenthesized_refuses nofun) (.here ?_ _)
    exact .bind_last (name_takes x _) (.pure _ _)

theorem plain_takes (h : (termRule .primary).Takes ts e rest)
    (hd : Derives (.term .primary) ts e) (hrest : Leaves .unary rest) :
    (termRule .unary).Takes ts e rest := by
  obtain ⟨w, hw, hstarts⟩ := hd.head? id
  refine .bind_nothing (.eat?_none fun t ht => ?_) (.bind_last h ?_)
  · obtain rfl : w = t := by simpa [hw] using ht
    exact opBefore?_of_startsPrimary hstarts
  · exact .bind_nothing (.eat?_none hrest.no_step) (.pure _ _)

theorem before_takes (op : UnaryOp) (h : (termRule .primary).Takes ts e rest)
    (hrest : Leaves .unary rest) :
    (termRule .unary).Takes (.symbol op.symbol :: ts) (.unary op .before e) rest := by
  refine .bind_word (.eat? (opBefore?_eq_some.2 rfl) _) (.bind_last h ?_)
  exact .bind_nothing (.single hrest.no_step) (.pure _ _)

theorem after_takes (op : UnaryOp) (hop : op.Steps) (hd : Derives (.term .primary) ts e)
    (h : (termRule .primary).Takes ts e (.symbol op.symbol :: rest)) :
    (termRule .unary).Takes (ts ++ [.symbol op.symbol]) (.unary op .after e) rest := by
  obtain ⟨w, hw, hstarts⟩ := hd.head? id
  refine .bind_nothing (.eat?_none fun t ht => ?_) (.bind h ?_)
  · obtain rfl : w = t := by simpa [hw] using ht
    exact opBefore?_of_startsPrimary hstarts
  · exact .bind_word (.eat? (opAfter?_eq_some.2 ⟨rfl, hop⟩) _) (.pure _ _)

theorem chain_takes (hl : l ≠ .comparison) (h : (termRule (operand l)).Takes ts e (us ++ rest))
    (k : (Rule.operations (termRule (operand l)) (opOf (operators l))).Takes us others rest) :
    (termRule (.level l)).Takes (ts ++ us) (joinLeft e others) rest := by
  rw [termRule_level hl]
  exact .bind h (.bind_last k (.pure _ _))

theorem noComparison_takes (h : (termRule (.level .additive)).Takes ts e rest)
    (hrest : Leaves (.level .comparison) rest) :
    (termRule (.level .comparison)).Takes ts e rest :=
  .bind_last h (.bind_nothing (.eat?_none hrest.no_op) (.pure _ _))

theorem comparison_takes (op : BinaryOp) (hop : op.level = .comparison)
    (h : (termRule (.level .additive)).Takes ts a (.symbol op.symbol :: (us ++ rest)))
    (k : (termRule (.level .additive)).Takes us b rest) :
    (termRule (.level .comparison)).Takes (ts ++ .symbol op.symbol :: us) (.binary op a b)
      rest := by
  have heat : opOf (operators .comparison) (.symbol op.symbol) = some op :=
    opOf_eq_some.2 ⟨rfl, hop⟩
  exact .bind h (.bind_word (.eat? heat _) (.bind_last k (.pure _ _)))

theorem assign_takes (x : String) (h : expression.Takes ts e rest) :
    expression.Takes (.name x :: .symbol .equals :: ts) (.assign x e) rest := by
  rw [expression_eq]
  refine .here (.bind_word (name_takes x _) ?_) _ none
  exact .bind_word (.expect _ _ _) (.bind_last h (.pure _ _))

def Assigns (ws : List Token) : Prop :=
  ∃ x us, ws = .name x :: .symbol .equals :: us

theorem operation_takes (h : (termRule (.level .or)).Takes ts e rest)
    (hno : ¬Assigns (ts ++ rest)) : expression.Takes ts e rest := by
  rw [expression_eq]
  refine .later ?_ (.here h _) none
  refine (assignment_follows expression_follows).refuses ?_
  rintro _ more _ hws ⟨x, us, value, rfl, -, -⟩
  exact hno ⟨x, us ++ more, hws⟩

/-- No text of operators and operands begins with a name and `=`, unless it is followed by `=`. -/
def Apart : (n : Nonterminal) → List Token → Prop
  | .term .expression, _ => True
  | .term _, ts => ∀ rest, rest.head? ≠ some (.symbol .equals) → ¬Assigns (ts ++ rest)
  | _, _ => True

theorem Apart.append {q : Term} (hq : q ≠ .expression) (h : Apart (.term q) ts)
    (hus : us.head? ≠ some (.symbol .equals)) (rest : List Token)
    (hrest : rest.head? ≠ some (.symbol .equals)) : ¬Assigns (ts ++ us ++ rest) := by
  have hmore : (us ++ rest).head? ≠ some (.symbol .equals) := by
    cases us with
    | nil => exact hrest
    | cons u us => exact hus
  rw [List.append_assoc]
  cases q with
  | expression => exact absurd rfl hq
  | _ => exact h _ hmore

theorem op_ne_equals (op : BinaryOp) : op.symbol ≠ .equals := by
  cases op <;> exact nofun

theorem step_ne_equals (op : UnaryOp) : op.symbol ≠ .equals := by
  cases op <;> exact nofun

theorem Derives.apart (h : Derives n ts t) : Apart n ts := by
  induction h with
  | chain l _ _ hus ih _ =>
    refine ih.append (q := operand l) (by cases l <;> exact nofun) fun heq => ?_
    obtain ⟨op, -, hop⟩ := hus.starts heq
    exact op_ne_equals op (Token.symbol.inj hop).symm
  | single _ ih => exact ih
  | compare op _ _ _ ih _ =>
    exact ih.append (q := .level .additive) nofun (by simpa using op_ne_equals op)
  | plain _ ih => exact ih
  | before op => rintro rest - ⟨x, us, ⟨⟩⟩
  | after op _ _ ih => exact ih.append (q := .primary) nofun (by simpa using step_ne_equals op)
  | call f => rintro rest - ⟨x, us, ⟨⟩⟩
  | literal v => rintro rest - ⟨x, us, heq⟩; cases v <;> cases heq
  | parenthesized => rintro rest - ⟨x, us, ⟨⟩⟩
  | var x => rintro rest hrest ⟨y, us, heq⟩; cases heq; exact hrest rfl
  | _ => trivial

end MiniC.Grammar
