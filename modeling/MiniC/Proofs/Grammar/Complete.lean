import MiniC.Proofs.Grammar.Term

/-!
# What can be derived is read

Where a derived text comes next, the rule of its nonterminal reads all of it and gives its tree, if
the word behind it leaves it alone: an expression must not be followed by an operator that would
go on with it, and an open statement not by an `else`.
-/

namespace MiniC.Grammar

open Rule (Follows Takes)

variable {rest ts us vs : List Token}

-- ---------------------------------------------------------------------------
-- Parts of statements
-- ---------------------------------------------------------------------------

theorem condition_takes {second : Expr → Rule α}
    (h : expression.Takes ts c (.symbol .rightParen :: (us ++ rest)))
    (k : (second c).Takes us a rest) :
    (parenthesized expression >>= second).Takes
      (.symbol .leftParen :: (ts ++ .symbol .rightParen :: us)) a rest := by
  simpa using (parenthesized_takes h).bind k

theorem declaration_takes (k : TypeName) (x : String) :
    declaration.Takes [.type k, .name x, .symbol .semicolon] ⟨k, x, none⟩ rest := by
  refine .bind_word (typeName_takes k _) (.bind_word (name_takes x _) ?_)
  exact .ifNotEat (by simp) (.ifEat (.pure _ _))

theorem initialized_takes (k : TypeName) (x : String)
    (h : expression.Takes ts e (.symbol .semicolon :: rest)) :
    declaration.Takes (.type k :: .name x :: .symbol .equals :: (ts ++ [.symbol .semicolon]))
      ⟨k, x, some e⟩ rest := by
  refine .bind_word (typeName_takes k _) (.bind_word (name_takes x _) (.ifEat ?_))
  exact .bind h (.bind_last (.expect _ _ _) (.pure _ _))

theorem effect_takes (h : expression.Takes ts e (.symbol .semicolon :: rest)) :
    expressionStatement.Takes (ts ++ [.symbol .semicolon]) (.expr e) rest :=
  .bind h (.bind_last (.expect _ _ _) (.pure _ _))

theorem declaration_refuses (h : ∀ k, ws.head? ≠ some (.type k)) :
    declarationStatement.Refuses ws := by
  have hfollows : Follows declarationStatement fun ts _ => ∃ d, Derives .declaration ts d :=
    declaration_follows.bind fun ts d hd => .pure ⟨d, by simpa using hd⟩
  refine hfollows.refuses ?_
  rintro ts rest _ rfl ⟨d, hd⟩
  obtain ⟨w, hw, k, rfl⟩ := hd.head? id
  exact h k (by simp [hw])

theorem initializer_declared_takes (h : declaration.Takes ts d rest) :
    (Rule.firstOf [declarationStatement, expressionStatement]).Takes ts (.decl d) rest :=
  .here (.bind_last h (.pure (Stmt.decl d) _)) _ none

theorem initializer_effect_takes (h : expressionStatement.Takes ts s rest)
    (hd : Derives .effect ts s) :
    (Rule.firstOf [declarationStatement, expressionStatement]).Takes ts s rest := by
  refine .later (declaration_refuses fun k hk => ?_) (.here h _) none
  obtain ⟨w, hw, hstarts⟩ := hd.head? id
  obtain rfl : w = .type k := by simpa [hw] using hk
  exact not_startsTerm_type k hstarts

theorem noStatement_takes : (statements statement).Takes [.symbol .rightBrace] [] rest := by
  rw [statements_eq]
  exact .ifEat (.pure _ _)

theorem moreStatements_takes (hd : Derives .statement ts s)
    (h : statement.Takes ts s (us ++ rest)) (k : (statements statement).Takes us body rest) :
    (statements statement).Takes (ts ++ us) (s :: body) rest := by
  obtain ⟨w, hw, hstarts⟩ := hd.head? id
  rw [statements_eq]
  refine .ifNotEat ?_ (.ifNotAtEnd (by simp [hd.ne_nil id]) ?_)
  · rintro heq
    obtain rfl : w = .symbol .rightBrace := by simpa [hw] using heq
    rcases hstarts with h | h
    · cases h
    · exact not_startsTerm_closing (by simp) h
  · exact .bind h (.bind_last k (.pure _ _))

theorem block_takes (h : (statements statement).Takes ts body rest) :
    (block statement).Takes (.symbol .leftBrace :: ts) body rest :=
  .bind_word (.expect _ _ _) h

-- ---------------------------------------------------------------------------
-- Statements
-- ---------------------------------------------------------------------------

def kinds : List (Rule Stmt × (Token → Prop)) :=
  [(declarationStatement, fun t => ∃ k, t = .type k),
    (blockStatement statement, (· = .symbol .leftBrace)),
    (ifStatement statement, (· = .keyword .ifWord)),
    (whileStatement statement, (· = .keyword .whileWord)),
    (forStatement statement, (· = .keyword .forWord)),
    (returnStatement, (· = .keyword .returnWord)),
    (printStatement, (· = .keyword .printWord))]

theorem kinds_apart (h : StartsTerm w) : ∀ kind ∈ kinds, ¬kind.2 w := by
  simp only [kinds, List.forall_mem_cons, List.not_mem_nil, false_imp_iff, implies_true, and_true]
  refine ⟨?_, ?_, ?_, ?_, ?_, ?_, ?_⟩
  · rintro ⟨k, rfl⟩
    exact not_startsTerm_type k h
  · rintro rfl
    exact not_startsTerm_closing (by simp) h
  all_goals
    rintro rfl
    exact not_startsTerm_keyword _ h

theorem expect_refuses {k : Unit → Rule α} (h : ws.head? ≠ some t) (description : String) :
    (Rule.expect t description >>= k).Refuses ws := by
  intro c hc
  have hfollows : (Rule.expect t description).Refuses ws := by
    refine (Follows.expect t description).refuses ?_
    rintro _ rest _ rfl rfl
    exact h rfl
  obtain ⟨f, d, hd⟩ := hfollows c hc
  exact ⟨f, d, Rule.bind_refused hd⟩

theorem kinds_refuse :
    ∀ kind ∈ kinds, ∀ ws, (∀ t, ws.head? = some t → ¬kind.2 t) → kind.1.Refuses ws := by
  simp only [kinds, List.forall_mem_cons, List.not_mem_nil, false_imp_iff, implies_true, and_true]
  refine ⟨?_, ?_, ?_⟩
  · exact fun ws h => declaration_refuses fun k hk => h _ hk ⟨k, rfl⟩
  · intro ws h c hc
    obtain ⟨f, d, hd⟩ := expect_refuses (k := fun _ => statements statement)
      (fun hw => h _ hw rfl) _ c hc
    exact ⟨f, d, Rule.bind_refused hd⟩
  · exact ⟨fun ws h => expect_refuses (fun hw => h _ hw rfl) _,
      fun ws h => expect_refuses (fun hw => h _ hw rfl) _,
      fun ws h => expect_refuses (fun hw => h _ hw rfl) _,
      fun ws h => expect_refuses (fun hw => h _ hw rfl) _,
      fun ws h => expect_refuses (fun hw => h _ hw rfl) _⟩

theorem firstOf_takes (before after : List (Rule α)) {rule : Rule α}
    (hbefore : ∀ r ∈ before, r.Refuses (ts ++ rest)) (h : rule.Takes ts a rest) :
    (Rule.firstOf (before ++ rule :: after)).Takes ts a rest := by
  unfold Rule.firstOf
  generalize (none : Option Failure) = given
  induction before generalizing given with
  | nil => exact .here h _ given
  | cons r before ih =>
    refine .later (hbefore r List.mem_cons_self) (fun given => ?_) given
    exact ih (fun q hq => hbefore q (List.mem_cons_of_mem r hq)) given

/-- Kinds that do not begin as a text does refuse it. -/
theorem kinds_refuse_text {before : List (Rule Stmt × (Token → Prop))} (hkinds : before ⊆ kinds)
    (hw : ts.head? = some w) (hbefore : ∀ k ∈ before, ¬k.2 w) (rest : List Token) :
    ∀ rule ∈ before.map Prod.fst, rule.Refuses (ts ++ rest) := by
  intro rule hrule
  obtain ⟨k, hk, rfl⟩ := List.mem_map.1 hrule
  refine kinds_refuse k (hkinds hk) _ fun t ht => ?_
  obtain rfl : w = t := by simpa [hw] using ht
  exact hbefore k hk

/-- A kind is read if no kind before it begins as this text does. -/
theorem kind_takes (before : List (Rule Stmt × (Token → Prop)))
    {after : List (Rule Stmt × (Token → Prop))} {kind : Rule Stmt × (Token → Prop)}
    (hkinds : kinds = before ++ kind :: after)
    (hw : ts.head? = some w) (hbefore : ∀ k ∈ before, ¬k.2 w) (h : kind.1.Takes ts s rest) :
    statement.Takes ts s rest := by
  have heq : statement = .firstOf (before.map Prod.fst ++ kind.1 ::
      (after.map Prod.fst ++ [expressionStatement])) := by
    rw [statement_eq]
    change Rule.firstOf (kinds.map Prod.fst ++ [expressionStatement]) = _
    simp [hkinds]
  rw [heq]
  have hsub : before ⊆ kinds := hkinds ▸ List.subset_append_left _ _
  exact firstOf_takes _ _ (kinds_refuse_text hsub hw hbefore rest) h

theorem declare_takes (hd : Derives .declaration ts d) (h : declaration.Takes ts d rest) :
    statement.Takes ts (.decl d) rest := by
  obtain ⟨w, hw, -⟩ := hd.head? id
  exact kind_takes [] rfl hw nofun (h.bind_last (.pure (Stmt.decl d) _))

theorem nested_takes (hd : Derives .block ts body) (h : (block statement).Takes ts body rest) :
    statement.Takes ts (.block body) rest := by
  obtain ⟨w, hw, rfl⟩ := hd.head? id
  refine kind_takes (kinds.take 1) rfl hw ?_ (h.bind_last (.pure (Stmt.block body) _))
  simp [kinds]

theorem ifThen_takes (hc : expression.Takes ts c (.symbol .rightParen :: (us ++ rest)))
    (h : statement.Takes us yes rest) (hrest : rest.head? ≠ some (.keyword .elseWord)) :
    statement.Takes (.keyword .ifWord :: .symbol .leftParen :: (ts ++ .symbol .rightParen :: us))
      (.ifElse c yes none) rest := by
  refine kind_takes (kinds.take 2) rfl rfl (by simp [kinds]) ?_
  refine .bind_word (.expect _ _ _) (condition_takes hc (.bind_last h ?_))
  exact .ifNotEat hrest (.pure _ _)

theorem ifElse_takes
    (hc : expression.Takes ts c
      (.symbol .rightParen :: (us ++ .keyword .elseWord :: (vs ++ rest))))
    (hyes : statement.Takes us yes (.keyword .elseWord :: (vs ++ rest)))
    (hno : statement.Takes vs no rest) :
    statement.Takes
      (.keyword .ifWord :: .symbol .leftParen ::
        (ts ++ .symbol .rightParen :: (us ++ .keyword .elseWord :: vs)))
      (.ifElse c yes (some no)) rest := by
  refine kind_takes (kinds.take 2) rfl rfl (by simp [kinds]) ?_
  refine .bind_word (.expect _ _ _) (condition_takes (by simpa using hc) (.bind hyes (.ifEat ?_)))
  exact .bind_last hno (.pure _ _)

theorem whileLoop_takes (hc : expression.Takes ts c (.symbol .rightParen :: (us ++ rest)))
    (h : statement.Takes us body rest) :
    statement.Takes (.keyword .whileWord :: .symbol .leftParen :: (ts ++ .symbol .rightParen :: us))
      (.whileLoop c body) rest := by
  refine kind_takes (kinds.take 3) rfl rfl (by simp [kinds]) ?_
  exact .bind_word (.expect _ _ _) (condition_takes hc (.bind_last h (.pure _ _)))

theorem forLoop_takes {is : List Token}
    (hi : (Rule.firstOf [declarationStatement, expressionStatement]).Takes is init
      (ts ++ .symbol .semicolon :: (us ++ .symbol .rightParen :: (vs ++ rest))))
    (hc : expression.Takes ts c (.symbol .semicolon :: (us ++ .symbol .rightParen :: (vs ++ rest))))
    (hstep : expression.Takes us step (.symbol .rightParen :: (vs ++ rest)))
    (h : statement.Takes vs body rest) :
    statement.Takes
      (.keyword .forWord :: .symbol .leftParen ::
        (is ++ (ts ++ .symbol .semicolon :: (us ++ .symbol .rightParen :: vs))))
      (.forLoop (some init) c (some step) body) rest := by
  refine kind_takes (kinds.take 4) rfl rfl (by simp [kinds]) ?_
  refine .bind_word (.expect _ _ _) (.bind_word (.expect _ _ _) (.bind (by simpa using hi) ?_))
  refine .bind (by simpa using hc) (.bind_word (.expect _ _ _) (.bind (by simpa using hstep) ?_))
  exact .bind_word (.expect _ _ _) (.bind_last h (.pure _ _))

theorem returnNothing_takes :
    statement.Takes [.keyword .returnWord, .symbol .semicolon] (.ret none) rest := by
  refine kind_takes (kinds.take 5) rfl rfl (by simp [kinds]) ?_
  refine .bind_word (.expect _ _ _) (.bind_nothing (.optional_none ?_) ?_)
  · refine expression_follows.refuses_head (fun _ _ hd => hd.head? id) ?_
    rintro _ ⟨⟩
    exact not_startsTerm_closing (by simp)
  · exact .bind_word (.expect _ _ _) (.pure _ _)

theorem returnValue_takes (h : expression.Takes ts e (.symbol .semicolon :: rest)) :
    statement.Takes (.keyword .returnWord :: (ts ++ [.symbol .semicolon])) (.ret (some e))
      rest := by
  refine kind_takes (kinds.take 5) rfl rfl (by simp [kinds]) ?_
  refine .bind_word (.expect _ _ _) (.bind (.optional h) ?_)
  exact .bind_word (.expect _ _ _) (.pure _ _)

theorem print_takes (h : expression.Takes ts e
      (.symbol .rightParen :: .symbol .semicolon :: rest)) :
    statement.Takes
      (.keyword .printWord :: .symbol .leftParen ::
        (ts ++ [.symbol .rightParen, .symbol .semicolon]))
      (.print e) rest := by
  refine kind_takes (kinds.take 6) rfl rfl (by simp [kinds]) ?_
  refine .bind_word (.expect _ _ _) (condition_takes h ?_)
  exact .bind_word (.expect _ _ _) (.pure _ _)

theorem perform_takes (hd : Derives .effect ts s) (h : expressionStatement.Takes ts s rest) :
    statement.Takes ts s rest := by
  obtain ⟨w, hw, hstarts⟩ := hd.head? id
  rw [statement_eq]
  have hrefuse := kinds_refuse_text (List.Subset.refl kinds) hw (kinds_apart hstarts) rest
  exact firstOf_takes (kinds.map Prod.fst) [] hrefuse h

-- ---------------------------------------------------------------------------
-- Programs
-- ---------------------------------------------------------------------------

theorem parameter_takes (k : TypeName) (x : String) :
    parameter.Takes [.type k, .name x] ⟨k, x, none⟩ rest :=
  .bind_word (typeName_takes k _) (.bind_last (name_takes x _) (.pure _ _))

theorem function_takes (k : TypeName) (f : String)
    (hparams : (Rule.commaSeparated parameter .rightParen).Takes (ts ++ [.symbol .rightParen])
      params (us ++ rest))
    (hbody : (block statement).Takes us body rest) :
    function.Takes (.type k :: .name f :: .symbol .leftParen :: (ts ++ .symbol .rightParen :: us))
      ⟨k, f, params, body⟩ rest := by
  refine .bind_word (typeName_takes k _) (.bind_word (name_takes f _) ?_)
  refine .bind_word (.expect _ _ _) ?_
  simpa using Takes.bind hparams (.bind_last hbody (.pure (Function.mk k f params body) rest))

theorem noFunction_takes : functions.Takes [] [] [] := by
  rw [functions_eq]
  exact .ifAtEnd (.pure _ _)

theorem moreFunctions_takes (hd : Derives .function ts f) (h : function.Takes ts f us)
    (k : functions.Takes us fs []) : functions.Takes (ts ++ us) (f :: fs) [] := by
  rw [functions_eq]
  refine .ifNotAtEnd (by simp [hd.ne_nil id]) ?_
  exact .bind (by simpa using h) (.bind_last k (.pure _ _))

-- ---------------------------------------------------------------------------
-- Derivations
-- ---------------------------------------------------------------------------

inductive ItemRule : (item : Nonterminal) → Rule item.Tree → Prop
  | parameter : ItemRule .parameter parameter
  | argument : ItemRule (.term .expression) expression

/-- What is shown of a derivation: where its words come next, the rule of the nonterminal reads
them, up to the word that closes them if the rule reads this too. -/
def Reads : (n : Nonterminal) → List Token → n.Tree → Prop
  | .program, ts, p => p.ElseNearest → program.Takes ts p []
  | .functions, ts, fs => (∀ f ∈ fs, Stmt.ElseNearestAll f.body) → functions.Takes ts fs []
  | .function, ts, f => Stmt.ElseNearestAll f.body → ∀ rest, function.Takes ts f rest
  | .parameter, ts, p => ∀ rest, parameter.Takes ts p rest
  | .listed item, ts, as => ∀ rule, ItemRule item rule → ∀ rest,
      (Rule.commaSeparated rule .rightParen).Takes (ts ++ [.symbol .rightParen]) as rest
  | .separated item, ts, as => ∀ rule, ItemRule item rule → ∀ rest,
      (Rule.items rule .rightParen).Takes (ts ++ [.symbol .rightParen]) as rest
  | .block, ts, body => Stmt.ElseNearestAll body → ∀ rest, (block statement).Takes ts body rest
  | .statements, ts, body => Stmt.ElseNearestAll body → ∀ rest,
      (statements statement).Takes (ts ++ [.symbol .rightBrace]) body rest
  | .statement, ts, s => s.ElseNearest → ∀ rest,
      (s.Open → rest.head? ≠ some (.keyword .elseWord)) → statement.Takes ts s rest
  | .declaration, ts, d => ∀ rest, declaration.Takes ts d rest
  | .initializer, ts, s => ∀ rest,
      (Rule.firstOf [declarationStatement, expressionStatement]).Takes ts s rest
  | .effect, ts, s => ∀ rest, expressionStatement.Takes ts s rest
  | .term r, ts, e => ∀ rest, Leaves r rest → (termRule r).Takes ts e rest
  | .operations l, ts, others => ∀ rest, Leaves (.level l) rest →
      (Rule.operations (termRule (operand l)) (opOf (operators l))).Takes ts others rest

theorem ItemRule.follows (h : ItemRule item rule) : Follows rule (Derives item) := by
  cases h with
  | parameter => exact parameter_follows
  | argument => exact expression_follows

theorem ItemRule.not_nullable (h : ItemRule item rule) : ¬item.Nullable := by
  cases h <;> exact id

theorem ItemRule.takes (h : ItemRule item rule) (ih : Reads item ts a)
    (hs : grip (.symbol s) = none) (rest : List Token) :
    rule.Takes ts a (.symbol s :: rest) := by
  cases h with
  | parameter => exact ih _
  | argument => exact ih _ (leaves_cons hs _ _)

theorem ItemRule.not_starts (h : ItemRule item rule) :
    ¬(Nonterminal.separated item).Starts (.symbol .rightParen) := by
  rintro (hn | hs)
  · exact h.not_nullable hn
  · cases h with
    | parameter => obtain ⟨_, ⟨⟩⟩ := hs
    | argument => exact not_startsTerm_closing (by simp) hs

theorem Derives.not_else (h : Derives .statements us body) (rest : List Token) :
    (us ++ .symbol .rightBrace :: rest).head? ≠ some (.keyword .elseWord) := by
  cases us with
  | nil => simp
  | cons u us =>
    rintro heq
    obtain rfl : u = .keyword .elseWord := by simpa using heq
    exact h.starts rfl rfl

theorem leaves_operations (h : Derives (.operations l) us others) (hrest : Leaves (.level l) rest) :
    Leaves (operand l) (us ++ rest) := by
  cases us with
  | nil => exact hrest.operand
  | cons u us =>
    obtain ⟨op, rfl, rfl⟩ := h.starts rfl
    exact leaves_op op _

theorem Derives.reads (h : Derives n ts t) : Reads n ts t := by
  induction h with
  | program _ ih => exact fun hp => .bind_last (ih hp) (.pure _ _)
  | noFunction => exact fun _ => noFunction_takes
  | functions hf _ ihf ihfs =>
    intro hall
    obtain ⟨hbody, hrest⟩ := List.forall_mem_cons.1 hall
    exact moreFunctions_takes hf (ihf hbody _) (ihfs hrest)
  | function k f _ _ ihps ihbody =>
    exact fun hbody rest => function_takes k f (ihps _ .parameter _) (ihbody hbody rest)
  | parameter k x => exact fun rest => parameter_takes k x
  | noItem => exact fun rule _ rest => .ifEat (.pure [] rest)
  | @items item ts as hd ih =>
    intro rule hrule rest
    refine .ifNotEat ?_ (ih rule hrule rest)
    cases ts with
    | nil => exact absurd hd.begins hrule.not_nullable
    | cons w us =>
      rintro heq
      obtain rfl : w = .symbol .rightParen := by simpa using heq
      exact hrule.not_starts (hd.starts rfl)
  | lastItem _ ih =>
    intro rule hrule rest
    refine .lastItem hrule.follows (fun _ _ hd => hd.ne_nil hrule.not_nullable) ?_ nofun
    exact hrule.takes ih rfl _
  | moreItems _ _ ih ihs =>
    intro rule hrule rest
    rw [List.append_assoc, List.cons_append]
    refine .moreItems hrule.follows (fun _ _ hd => hd.ne_nil hrule.not_nullable) ?_
      (ihs rule hrule rest)
    exact hrule.takes ih rfl _
  | block _ ih => exact fun hbody rest => block_takes (ih hbody rest)
  | noStatement => exact fun _ _ => noStatement_takes
  | statements hs hmore ih ihs =>
    rintro ⟨hnearest, hall⟩ rest
    rw [List.append_assoc]
    refine moreStatements_takes hs (ih hnearest _ fun _ => ?_) (ihs hall rest)
    simpa using hmore.not_else rest
  | declaration k x => exact fun _ => declaration_takes k x
  | initialized k x _ ih => exact fun _ => initialized_takes k x (ih _ (leaves_cons rfl _ _))
  | effect _ ih => exact fun _ => effect_takes (ih _ (leaves_cons rfl _ _))
  | declare hd ih => exact fun _ rest _ => declare_takes hd (ih rest)
  | nested hd ih => exact fun hnearest rest _ => nested_takes hd (ih hnearest rest)
  | ifThen _ _ ihc ih =>
    exact fun hnearest rest hrest => ifThen_takes (ihc _ (leaves_cons rfl _ _))
      (ih hnearest rest fun _ => hrest trivial) (hrest trivial)
  | ifElse _ _ _ ihc ihyes ihno =>
    rintro ⟨hclosed, hyes, hno⟩ rest hrest
    refine ifElse_takes (ihc _ (leaves_cons rfl _ _)) (ihyes hyes _ fun hopen => ?_)
      (ihno hno rest hrest)
    exact absurd hopen hclosed
  | whileLoop _ _ ihc ih =>
    exact fun hnearest rest hrest => whileLoop_takes (ihc _ (leaves_cons rfl _ _))
      (ih hnearest rest hrest)
  | forLoop _ _ _ _ ihi ihc ihstep ih =>
    exact fun hnearest rest hrest => forLoop_takes (ihi _) (ihc _ (leaves_cons rfl _ _))
      (ihstep _ (leaves_cons rfl _ _)) (ih hnearest.2 rest hrest)
  | returnNothing => exact fun _ _ _ => returnNothing_takes
  | returnValue _ ih => exact fun _ _ _ => returnValue_takes (ih _ (leaves_cons rfl _ _))
  | print _ ih => exact fun _ _ _ => print_takes (ih _ (leaves_cons rfl _ _))
  | perform hd ih => exact fun _ rest _ => perform_takes hd (ih rest)
  | beginDeclared _ ih => exact fun rest => initializer_declared_takes (ih rest)
  | beginEffect hd ih => exact fun rest => initializer_effect_takes (ih rest) hd
  | assign x _ ih => exact fun rest hrest => assign_takes x (ih rest hrest)
  | operation hd ih =>
    intro rest hrest
    exact operation_takes (ih rest (hrest.mono (Nat.zero_le _))) (hd.apart _ hrest.no_assignment)
  | chain l hl _ hothers ih ihothers =>
    intro rest hrest
    exact chain_takes hl (ih _ (leaves_operations hothers hrest)) (ihothers rest hrest)
  | noOperation l =>
    exact fun rest hrest => .noOperation (termRule_follows _) termRule_ne_nil hrest.no_op
  | operations op _ hothers ih ihothers =>
    intro rest hrest
    refine .operation (termRule_follows _) termRule_ne_nil (opOf_eq_some.2 ⟨rfl, rfl⟩) ?_
      (ihothers rest hrest)
    exact ih _ (leaves_operations hothers hrest)
  | single _ ih => exact fun rest hrest => noComparison_takes (ih rest hrest.operand) hrest
  | compare op hop _ _ iha ihb =>
    intro rest hrest
    refine comparison_takes op hop (iha _ ?_) (ihb rest hrest.operand)
    have hleaves := leaves_op op
    rw [hop] at hleaves
    exact hleaves _
  | plain hd ih =>
    exact fun rest hrest => plain_takes (ih rest (hrest.mono (Nat.le_succ _))) hd hrest
  | before op _ ih =>
    exact fun rest hrest => before_takes op (ih rest (hrest.mono (Nat.le_succ _))) hrest
  | after op hop hd ih =>
    exact fun rest _ => after_takes op hop hd (ih _ (leaves_step hop rest))
  | call f _ ih => exact fun rest _ => call_takes (ih _ .argument rest) f
  | literal v => exact fun _ _ => literal_takes v
  | parenthesized _ ih => exact fun rest _ => group_takes (ih _ (leaves_cons rfl _ _))
  | var x => exact fun rest hrest => var_takes hrest x

end MiniC.Grammar
