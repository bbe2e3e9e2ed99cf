import MiniC.Proofs.Grammar.Term

/-!
# Reading ends

The rules of the grammar call each other, and themselves, from the same place: an expression is
tried as an assignment and then as operations, and both come back to where it began. `Goal` names
the rules, and `Goal.body` says what each of them does with the calls it makes, whatever these are.
A grammar that is followed to a depth only (`Goal.nested`) reads as the whole grammar does as soon
as the depth exceeds a bound that is linear in the number of tokens left, so no chain of calls and
no round of a loop goes on below it (`Goal.progress`).

The bound counts tokens first and ranks second. A rule that calls another from the same place calls
one of a lower rank, and every other call stands behind a token. This needs that a rule that
accepts has read something, and that alternatives begin where the one before them did.
-/

namespace MiniC.Grammar

open Rule (Follows AgreeBelow)

inductive Goal where
  | program
  | functions
  | function
  /-- Parameters with commas between them, and the parenthesis behind the last. -/
  | parameters
  | block
  /-- Statements up to the brace that closes a block. -/
  | statements
  | statement
  | declaration
  | ifElse
  | whileLoop
  | forLoop
  /-- What begins the header of a `for`. -/
  | initializer
  | ret
  | print
  | effect
  | term (r : Term)
  /-- `(operator operand)*` -/
  | operations (l : Level)
  | assignment
  | parenthesized
  | call
  /-- Arguments with commas between them, and the parenthesis behind the last. -/
  | arguments

namespace Goal

@[reducible] def Tree : Goal → Type
  | program => Program
  | functions => List Function
  | function => Function
  | parameters => List Decl
  | block => List Stmt
  | statements => List Stmt
  | declaration => Decl
  | statement => Stmt
  | ifElse => Stmt
  | whileLoop => Stmt
  | forLoop => Stmt
  | initializer => Stmt
  | ret => Stmt
  | print => Stmt
  | effect => Stmt
  | term _ => Expr
  | operations _ => List (BinaryOp × Expr)
  | assignment => Expr
  | parenthesized => Expr
  | call => Expr
  | arguments => List Expr

def rule : (g : Goal) → Rule g.Tree
  | program => Grammar.program
  | functions => Grammar.functions
  | function => Grammar.function
  | parameters => .items parameter .rightParen
  | block => Grammar.block Grammar.statement
  | statements => Grammar.statements Grammar.statement
  | statement => Grammar.statement
  | declaration => Grammar.declaration
  | ifElse => ifStatement Grammar.statement
  | whileLoop => whileStatement Grammar.statement
  | forLoop => forStatement Grammar.statement
  | initializer => .firstOf [declarationStatement, expressionStatement]
  | ret => returnStatement
  | print => printStatement
  | effect => expressionStatement
  | term r => termRule r
  | operations l => .operations (termRule (operand l)) (opOf (operators l))
  | assignment => Grammar.assignment expression
  | parenthesized => Grammar.parenthesized expression
  | call => Grammar.call expression
  | arguments => .items expression .rightParen

-- ---------------------------------------------------------------------------
-- The rules with their calls left open
-- ---------------------------------------------------------------------------

def itemsRound (item : Rule α) (more : Rule (List α)) : Rule (List α) := do
  let a ← item
  if ← .eat (.symbol .comma) then return a :: (← more)
  else if ← .eat (.symbol .rightParen) then return [a]
  else .refuse [(Token.symbol .comma).description, (Token.symbol .rightParen).description]

def listed (items : Rule (List α)) : Rule (List α) := do
  if ← .eat (.symbol .rightParen) then return [] else items

def termBody (self : (g : Goal) → Rule g.Tree) : Term → Rule Expr
  | .expression => .firstOf [self assignment, self (term (.level .or))]
  | .level .comparison => do
    let left ← self (term (.level .additive))
    match ← .eat? (opOf (operators .comparison)) with
    | none => return left
    | some op => return .binary op left (← self (term (.level .additive)))
  | .level l => do
    let first ← self (term (operand l))
    let others ← self (operations l)
    return joinLeft first others
  | .unary => do
    let before ← .eat? opBefore?
    let operand ← self (term .primary)
    match before with
    | none =>
      match ← .eat? opAfter? with
      | none => return operand
      | some op => return .unary op .after operand
    | some op =>
      .single opAfter?
      return .unary op .before operand
  | .primary => .firstOf [self call, literal, self parenthesized, reference]

/-- What a rule does, where every call of a rule is made through `self`. -/
def body (self : (g : Goal) → Rule g.Tree) : (g : Goal) → Rule g.Tree
  | program => do return ⟨← self functions, []⟩
  | functions => do
    if ← .atEnd then return []
    else
      let f ← self function
      return f :: (← self functions)
  | function => do
    let type ← typeName
    let f ← name
    .expect (.symbol .leftParen)
    let params ← listed (self parameters)
    return ⟨type, f, params, ← self block⟩
  | parameters => itemsRound parameter (self parameters)
  | block => do
    .expect (.symbol .leftBrace)
    self statements
  | statements => do
    if ← .eat (.symbol .rightBrace) then return []
    else if ← .atEnd then .refuse [(Token.symbol .rightBrace).description]
    else
      let s ← self statement
      return s :: (← self statements)
  | statement => .firstOf [do return .decl (← self declaration), do return .block (← self block),
      self ifElse, self whileLoop, self forLoop, self ret, self print, self effect]
  | declaration => do
    let type ← typeName
    let x ← name
    if ← .eat (.symbol .equals) then
      let init ← self (term .expression)
      .expect (.symbol .semicolon)
      return ⟨type, x, some init⟩
    else if ← .eat (.symbol .semicolon) then
      return ⟨type, x, none⟩
    else
      .refuse [(Token.symbol .equals).description, (Token.symbol .semicolon).description]
  | ifElse => do
    .expect (.keyword .ifWord)
    let condition ← self parenthesized
    let yes ← self statement
    if ← .eat (.keyword .elseWord) then
      return .ifElse condition yes (some (← self statement))
    else
      return .ifElse condition yes none
  | whileLoop => do
    .expect (.keyword .whileWord)
    let condition ← self parenthesized
    return .whileLoop condition (← self statement)
  | forLoop => do
    .expect (.keyword .forWord)
    .expect (.symbol .leftParen)
    let init ← self initializer
    let condition ← self (term .expression)
    .expect (.symbol .semicolon)
    let step ← self (term .expression)
    .expect (.symbol .rightParen)
    return .forLoop (some init) condition (some step) (← self statement)
  | initializer => .firstOf [do return .decl (← self declaration), self effect]
  | ret => do
    .expect (.keyword .returnWord)
    let value ← .optional (self (term .expression))
    .expect (.symbol .semicolon)
    return .ret value
  | print => do
    .expect (.keyword .printWord)
    let e ← self parenthesized
    .expect (.symbol .semicolon)
    return .print e
  | effect => do
    let e ← self (term .expression)
    .expect (.symbol .semicolon)
    return .expr e
  | term r => termBody self r
  | operations l => do
    match ← .eat? (opOf (operators l)) with
    | none => return []
    | some op =>
      let right ← self (term (operand l))
      return (op, right) :: (← self (operations l))
  | assignment => do
    let x ← name
    .expect (.symbol .equals)
    return .assign x (← self (term .expression))
  | parenthesized => do
    .expect (.symbol .leftParen)
    let e ← self (term .expression)
    .expect (.symbol .rightParen)
    return e
  | call => do
    let f ← name
    .expect (.symbol .leftParen)
    return .call f (← listed (self arguments))
  | arguments => itemsRound (self (term .expression)) (self arguments)

/-- The rules with calls to a depth only. A call at this depth is answered by `deepest`. -/
def nested (deepest : (g : Goal) → Rule g.Tree) : Nat → (g : Goal) → Rule g.Tree
  | 0 => deepest
  | depth + 1 => body (nested deepest depth)

/-- A rule that calls another from the place where it was called has a higher rank. -/
def rank : Goal → Nat
  | program => 2
  | functions => 1
  | term r => 8 - r.rank
  | effect => 9
  | arguments => 9
  | initializer => 10
  | statement => 10
  | statements => 11
  | _ => 0

theorem rank_lt (g : Goal) : g.rank < 12 := by
  cases g with
  | term r =>
    change 8 - r.rank < 12
    omega
  | operations l => exact Nat.zero_lt_succ _
  | _ => decide

-- ---------------------------------------------------------------------------
-- The rules are what they do
-- ---------------------------------------------------------------------------

section

variable {self : (g : Goal) → Rule g.Tree}

theorem items_agree {item item' : Rule α} {more : Rule (List α)} (hitem : Follows item form)
    (hne : ∀ ts a, form ts a → ts ≠ []) (h : AgreeBelow (n + 1) item item')
    (hmore : AgreeBelow n (.items item .rightParen) more) :
    AgreeBelow (n + 1) (.items item .rightParen) (itemsRound item' more) := by
  rw [Rule.items_eq hitem hne]
  exact .after hitem hne h fun a => .ifEat (hmore.bind_left _) (.refl _ _)

theorem listed_agree {item : Rule α} {items : Rule (List α)}
    (h : AgreeBelow n (.items item .rightParen) items) :
    AgreeBelow n (.commaSeparated item .rightParen) (listed items) :=
  .ifEat (.refl _ _) h

theorem firstOf_agree (alternatives : List (((g : Goal) → Rule g.Tree) → Rule α))
    (h : ∀ body ∈ alternatives, AgreeBelow n (body rule) (body self)) :
    AgreeBelow n (.firstOf (alternatives.map (· rule))) (.firstOf (alternatives.map (· self))) :=
  .firstOf alternatives h

theorem comparison_eq : termRule (.level .comparison) = (do
    let left ← termRule (.level .additive)
    match ← .eat? (opOf (operators .comparison)) with
    | none => return left
    | some op => return .binary op left (← termRule (.level .additive))) :=
  rfl

theorem termBody_level (hl : l ≠ .comparison) : termBody self (.level l) = (do
    let first ← self (term (operand l))
    let others ← self (operations l)
    return joinLeft first others) := by
  cases l with
  | comparison => exact absurd rfl hl
  | _ => rfl

theorem operand_rank_lt (l : Level) : (term (operand l)).rank < (term (.level l)).rank := by
  cases l <;> decide

theorem termBody_agree (r : Term) (hbehind : ∀ g : Goal, AgreeBelow n g.rule (self g))
    (hbefore : ∀ g : Goal, g.rank < (term r).rank → AgreeBelow (n + 1) g.rule (self g)) :
    AgreeBelow (n + 1) (termRule r) (termBody self r) := by
  match r with
  | .expression =>
    change AgreeBelow (n + 1) expression _
    rw [expression_eq]
    refine firstOf_agree [fun call => call assignment, fun call => call (term (.level .or))] ?_
    simp only [List.forall_mem_cons, List.not_mem_nil, false_imp_iff, implies_true, and_true]
    exact ⟨hbefore assignment (by decide), hbefore (term (.level .or)) (by decide)⟩
  | .level l =>
    have hoperand := hbefore (term (operand l)) (operand_rank_lt l)
    by_cases hl : l = .comparison
    · subst hl
      rw [comparison_eq]
      refine .after (termRule_follows _) termRule_ne_nil hoperand
        fun left => .bind_right (.eat? _) fun op => ?_
      cases op with
      | none => exact .refl _ _
      | some op => exact (hbehind (term (.level .additive))).bind_left _
    · rw [termRule_level hl, termBody_level hl]
      refine .after (termRule_follows _) termRule_ne_nil hoperand fun _ => ?_
      exact (hbehind (operations l)).bind_left _
  | .unary => exact .bind_right (.eat? _) fun _ => (hbefore (term .primary) (by decide)).bind_left _
  | .primary =>
    refine firstOf_agree [fun call => call Goal.call, fun _ => literal,
      fun call => call parenthesized, fun _ => reference] ?_
    simp only [List.forall_mem_cons, List.not_mem_nil, false_imp_iff, implies_true, and_true]
    exact ⟨hbefore Goal.call (by decide), .refl _ _, hbefore parenthesized (by decide), .refl _ _⟩

/-- Behind a token every call may be trusted, and before it those of lower rank. -/
theorem body_agree (g : Goal) (hbehind : ∀ h : Goal, AgreeBelow n h.rule (self h))
    (hbefore : ∀ h : Goal, h.rank < g.rank → AgreeBelow (n + 1) h.rule (self h)) :
    AgreeBelow (n + 1) g.rule (body self g) := by
  cases g with
  | program => exact (hbefore functions (by decide)).bind_left _
  | functions =>
    change AgreeBelow (n + 1) Grammar.functions _
    rw [functions_eq]
    refine .ifAtEnd (.refl _ _) ?_
    refine .after function_follows (fun _ _ h => h.ne_nil id) (hbefore function (by decide)) ?_
    exact fun f => (hbehind functions).bind_left _
  | function =>
    refine .behind typeName_follows (by rintro _ _ rfl; simp) fun type => ?_
    refine .bind_right name_follows fun f => .bind_right (.expect _ _) fun _ => ?_
    refine .bind (listed_follows .parameter parameter_follows _)
      (listed_agree (hbehind parameters)) fun params => ?_
    exact (hbehind block).bind_left _
  | parameters =>
    exact items_agree parameter_follows (fun _ _ h => h.ne_nil id) (.refl _ _) (hbehind parameters)
  | block => exact .behindExpect (hbehind statements)
  | statements =>
    change AgreeBelow (n + 1) (Grammar.statements Grammar.statement) _
    rw [statements_eq]
    refine .ifEat (.refl _ _) (.ifAtEnd (.refl _ _) ?_)
    refine .after statement_follows (fun _ _ h => h.ne_nil id) (hbefore statement (by decide)) ?_
    exact fun s => (hbehind statements).bind_left _
  | statement =>
    change AgreeBelow (n + 1) Grammar.statement _
    rw [statement_eq]
    refine firstOf_agree [fun call => do return .decl (← call declaration),
      fun call => do return .block (← call block), fun call => call ifElse,
      fun call => call whileLoop, fun call => call forLoop, fun call => call ret,
      fun call => call print, fun call => call effect] ?_
    simp only [List.forall_mem_cons, List.not_mem_nil, false_imp_iff, implies_true, and_true]
    exact ⟨(hbefore declaration (by decide)).bind_left _, (hbefore block (by decide)).bind_left _,
      hbefore ifElse (by decide), hbefore whileLoop (by decide), hbefore forLoop (by decide),
      hbefore ret (by decide), hbefore print (by decide), hbefore effect (by decide)⟩
  | declaration =>
    refine .behind typeName_follows (by rintro _ _ rfl; simp) fun type => ?_
    refine .bind_right name_follows fun x => .ifEat ?_ (.refl _ _)
    exact (hbehind (term .expression)).bind_left _
  | ifElse =>
    refine .behindExpect (.bind condition_follows (hbehind parenthesized) fun c => ?_)
    refine .bind statement_follows (hbehind statement) fun yes => .ifEat ?_ (.refl _ _)
    exact (hbehind statement).bind_left _
  | whileLoop =>
    refine .behindExpect (.bind condition_follows (hbehind parenthesized) fun c => ?_)
    exact (hbehind statement).bind_left _
  | forLoop =>
    have hexpression := hbehind (term .expression)
    refine .behindExpect (.bind_right (.expect _ _) fun _ => ?_)
    refine .bind initializer_follows (hbehind initializer) fun init => ?_
    refine .bind expression_follows hexpression fun c => .bind_right (.expect _ _) fun _ => ?_
    refine .bind expression_follows hexpression fun step => .bind_right (.expect _ _) fun _ => ?_
    exact (hbehind statement).bind_left _
  | initializer =>
    refine firstOf_agree [fun call => do return .decl (← call declaration),
      fun call => call effect] ?_
    simp only [List.forall_mem_cons, List.not_mem_nil, false_imp_iff, implies_true, and_true]
    exact ⟨(hbefore declaration (by decide)).bind_left _, hbefore effect (by decide)⟩
  | ret => exact .behindExpect ((hbehind (term .expression)).optional.bind_left _)
  | print => exact .behindExpect ((hbehind parenthesized).bind_left _)
  | effect => exact (hbefore (term .expression) (by decide)).bind_left _
  | term r => exact termBody_agree r hbehind hbefore
  | operations l =>
    change AgreeBelow (n + 1) (.operations (termRule (operand l)) (opOf (operators l))) _
    rw [Rule.operations_eq (termRule_follows _) termRule_ne_nil]
    refine .matchEat? (.refl _ _) fun op => ?_
    refine .bind (termRule_follows _) (hbehind (term (operand l))) fun right => ?_
    exact (hbehind (operations l)).bind_left _
  | assignment =>
    refine .behind name_follows (by rintro _ _ rfl; simp) fun x => ?_
    exact .bind_right (.expect _ _) fun _ => (hbehind (term .expression)).bind_left _
  | parenthesized => exact .behindExpect ((hbehind (term .expression)).bind_left _)
  | call =>
    refine .behind name_follows (by rintro _ _ rfl; simp) fun f => ?_
    exact .bind_right (.expect _ _) fun _ => (listed_agree (hbehind arguments)).bind_left _
  | arguments =>
    exact items_agree expression_follows (fun _ _ h => h.ne_nil id)
      (hbefore (term .expression) (by decide)) (hbehind arguments)

end

-- ---------------------------------------------------------------------------
-- Depth
-- ---------------------------------------------------------------------------

/-- A depth that no call reaches where fewer than `n + 1` tokens are left. -/
theorem nested_agree (deepest : (g : Goal) → Rule g.Tree) (depth : Nat) (g : Goal) (n : Nat)
    (hdepth : 12 * n + g.rank < depth) : AgreeBelow (n + 1) g.rule (nested deepest depth g) := by
  induction depth generalizing g n with
  | zero => exact absurd hdepth (Nat.not_lt_zero _)
  | succ depth ih =>
    refine body_agree g (fun h => ?_) fun h hrank => ih h n (by omega)
    cases n with
    | zero => exact fun c hc => absurd hc (Nat.not_lt_zero _)
    | succ n =>
      have hlt := h.rank_lt
      exact ih h n (by omega)

-- ---------------------------------------------------------------------------
-- Progress
-- ---------------------------------------------------------------------------

/-- The rules that read something whenever they accept: all but those of the loops that may have no
round, and of programs, which may have no function. -/
def Advances : Goal → Prop
  | program => False
  | functions => False
  | operations _ => False
  | _ => True

def Chooses : Goal → Prop
  | statement => True
  | initializer => True
  | term .expression => True
  | term .primary => True
  | _ => False

theorem closed_ne_nil {form : Form α} (h : form.closed t ts a) : ts ≠ [] := by
  obtain ⟨us, rfl, -⟩ := h
  simp

theorem follows (g : Goal) :
    ∃ form : Form g.Tree, Follows g.rule form ∧ (g.Advances → ∀ ts t, form ts t → ts ≠ []) := by
  have hs := statement_follows
  have he := expression_follows
  cases g with
  | program => exact ⟨_, program_follows, False.elim⟩
  | functions => exact ⟨_, functions_follow, False.elim⟩
  | function => exact ⟨_, function_follows, fun _ _ _ h => h.ne_nil id⟩
  | parameters =>
    exact ⟨_, separated_follows .parameter parameter_follows _, fun _ _ _ => closed_ne_nil⟩
  | block => exact ⟨_, block_follows hs, fun _ _ _ h => h.ne_nil id⟩
  | statements => exact ⟨_, statements_follow hs, fun _ _ _ => closed_ne_nil⟩
  | statement => exact ⟨_, hs, fun _ _ _ h => h.ne_nil id⟩
  | declaration => exact ⟨_, declaration_follows, fun _ _ _ h => h.ne_nil id⟩
  | ifElse => exact ⟨_, ifStatement_follows hs, fun _ _ _ h => h.ne_nil id⟩
  | whileLoop => exact ⟨_, whileStatement_follows hs, fun _ _ _ h => h.ne_nil id⟩
  | forLoop => exact ⟨_, forStatement_follows hs, fun _ _ _ h => h.ne_nil id⟩
  | initializer => exact ⟨_, initializer_follows, fun _ _ _ h => h.ne_nil id⟩
  | ret => exact ⟨_, returnStatement_follows, fun _ _ _ h => h.ne_nil id⟩
  | print => exact ⟨_, printStatement_follows, fun _ _ _ h => h.ne_nil id⟩
  | effect => exact ⟨_, expressionStatement_follows, fun _ _ _ h => h.ne_nil id⟩
  | term r => exact ⟨_, termRule_follows r, fun _ _ _ h => h.ne_nil id⟩
  | operations l => exact ⟨_, operations_follow (termRule_follows _), False.elim⟩
  | assignment =>
    refine ⟨_, assignment_follows he, ?_⟩
    rintro - _ _ ⟨x, us, value, rfl, -, -⟩
    exact List.cons_ne_nil _ _
  | parenthesized =>
    refine ⟨_, parenthesized_follows he, ?_⟩
    rintro - _ _ ⟨us, rfl, -⟩
    exact List.cons_ne_nil _ _
  | call => exact ⟨_, call_follows he, fun _ _ _ h => h.ne_nil id⟩
  | arguments => exact ⟨_, separated_follows (.term .expression) he _, fun _ _ _ => closed_ne_nil⟩

theorem eq_firstOf {g : Goal} (hg : g.Chooses) : ∃ rules, g.rule = .firstOf rules := by
  cases g with
  | statement => exact ⟨_, statement_eq⟩
  | initializer => exact ⟨_, rfl⟩
  | term r =>
    cases r with
    | expression => exact ⟨_, expression_eq⟩
    | primary => exact ⟨_, rfl⟩
    | level => exact hg.elim
    | unary => exact hg.elim
  | _ => exact hg.elim

end Goal

/-- Every rule ends, and further on. With calls followed to a depth that exceeds twelve for each
token left and the rank of the rule, it says what it says with all of them, whatever the tokens are
and whatever stands for the calls at that depth: there are none. A rule that accepts has read some
of the tokens left, the loops that may have no round apart. One that chooses among alternatives is
back where it began if all of them refuse, and so is an optional rule that reads nothing. -/
theorem Goal.progress (g : Goal) (c : Cursor) :
    (∀ deepest depth, 12 * c.rest.length + g.rank < depth →
      Goal.nested deepest depth g c = g.rule c) ∧
      (∀ t d, g.rule c = .accepted t d → ∃ ts, c.Spans ts d ∧ (g.Advances → ts ≠ [])) ∧
      (∀ f d, g.Chooses → g.rule c = .refused f d → c.Spans [] d) ∧
      ∀ {α : Type} (rule : Rule α) d, Rule.optional rule c = .accepted none d → c.Spans [] d := by
  refine ⟨fun deepest depth hdepth => ?_, fun t d hrule => ?_, fun f d hg hrule => ?_,
    fun rule d => Rule.spans_optional_none⟩
  · exact (Goal.nested_agree deepest depth g _ hdepth c (Nat.lt_succ_self _)).symm
  · obtain ⟨form, hfollows, hne⟩ := g.follows
    obtain ⟨ts, hs, hts⟩ := hfollows.accepted hrule
    exact ⟨ts, hs, fun hg => hne hg ts t hts⟩
  · obtain ⟨rules, hrules⟩ := Goal.eq_firstOf hg
    rw [hrules] at hrule
    exact Rule.spans_refused_firstOf hrule

/-- `if (x` ends too early to be a statement. Calls to a depth of 47 say so, and reading is back at
the `if`. -/
theorem Goal.progress_truncated :
    let c : Cursor := ⟨[(.keyword .ifWord, ⟨0, 1, 1⟩), (.symbol .leftParen, ⟨3, 1, 4⟩),
      (.name "x", ⟨4, 1, 5⟩)], ⟨5, 1, 6⟩, none⟩
    12 * c.rest.length + Goal.statement.rank < 47 ∧ Goal.statement.Chooses ∧
      ∃ f d, Goal.statement.rule c = .refused f d ∧ c.Spans [] d := by
  intro c
  obtain ⟨hends, -, hback, -⟩ := Goal.progress .statement c
  have hdepth : 12 * c.rest.length + Goal.statement.rank < 47 := by decide
  have hchooses : Goal.statement.Chooses := trivial
  have hnested : Goal.nested (fun _ => .refuse []) 47 .statement c = .refused _ _ := rfl
  have hrefused := (hends _ 47 hdepth).symm.trans hnested
  exact ⟨hdepth, hchooses, _, _, hrefused, hback _ _ hchooses hrefused⟩

end MiniC.Grammar
