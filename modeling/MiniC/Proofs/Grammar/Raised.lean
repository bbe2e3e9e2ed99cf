import MiniC.Proofs.Grammar.Site
import MiniC.Proofs.Grammar.Start

/-!
# The failures of the grammar

Each rule of the grammar raises its failures at sites of its nonterminal. One lemma for each rule
follows it word by word: where a word has to come next, it is viable there, and behind an expression
no step is left over.
-/

namespace MiniC.Grammar

open Log (At)
open Rule (Follows Rests)

variable {c : Cursor} {n : Nat} {ts us : List Token}

theorem skip_lt (h : c.peek? = some t) : c.skip.rest.length < c.rest.length := by
  have hlength := (c.spans_skip h).length_eq
  simp only [List.length_singleton] at hlength
  omega

def grouped : Form Expr :=
  fun ts e => ∃ us, ts = .symbol .leftParen :: (us ++ [.symbol .rightParen]) ∧
    Derives (.term .expression) us e

theorem var_derives (x : String) : Derives (.term .expression) [.name x] (.var x) :=
  .ofUnary (.plain (.var x))

theorem step_derives (op : UnaryOp) :
    Derives (.term .expression) [.symbol op.symbol, .name "x"] (.unary op .before (.var "x")) :=
  .ofUnary (.before op (.var "x"))

theorem rested_of_accepted {rule : Rule α} (hrests : Rests rule) (hr : rule c = .accepted a d)
    (hs : c.Spans us d) : d.Rested us := by
  obtain ⟨vs, hs', hrested⟩ := hrests.accepted trivial hr
  obtain rfl := hs.unique hs'
  exact (List.nil_append us).symm ▸ hrested

-- ---------------------------------------------------------------------------
-- Lists
-- ---------------------------------------------------------------------------

/-- Items with commas between them, up to the parenthesis that closes them. Behind an item a step
must not find an operand. -/
theorem listed_sites (item : Nonterminal) {rule : Rule item.Tree} {L : Log.OfFirst rule rule}
    (hrule : Follows rule (Derives item))
    (h : ∀ d : Cursor, d.rest.length < n → Sites L (Derives item) [] d)
    (hfree : ∀ {c d a us}, rule c = .accepted a d → c.Spans us d → Derives item us a →
      ∀ (form : Form (List item.Tree)) before, Free form (before ++ us) d)
    (hc : c.rest.length < n) :
    Sites (logs.commaSeparated L .rightParen)
      (Form.closed (Derives (.listed item)) (.symbol .rightParen)) [] c := by
  have hitems : Sites (logs.items L .rightParen)
      (Form.closed (Derives (.separated item)) (.symbol .rightParen)) [] c := by
    refine At.fix (separated_follows item hrule _) (fun c more M hmore _ hc hinner => ?_) c hc
    refine .bind hrule (sites_within (h c hc) ?_ free_nil) fun a d us hr hs ha => ?_
    · exact fun ts a ha => ⟨[.symbol .rightParen], [a], ts, rfl, .lastItem ha⟩
    · have hle := hs.length_le
      refine .eat (fun hcomma => ?_) fun _ => .eat (fun _ => .pure) fun _ => ?_
      · have hlt := skip_lt hcomma
        refine .last (sites_within (hinner _ (by omega)) ?_ (free_symbol _ nofun))
        rintro _ as ⟨ts, rfl, has⟩
        exact ⟨[], a :: as, us ++ .symbol .comma :: ts, by simp, .moreItems ha has⟩
      · refine .refuse (.missing _ (List.cons_ne_nil _ _) (by decide) ?_
          (.inl (hfree hr hs ha _ _)))
        simp only [List.forall_mem_cons, List.not_mem_nil, false_imp_iff, implies_true, and_true]
        refine ⟨⟨_, .symbol .comma, ?_⟩, ⟨_, .symbol .rightParen, ?_⟩⟩
        · exact ⟨us ++ [.symbol .rightParen], [a, a], us ++ .symbol .comma :: us, by simp,
            .moreItems ha (.lastItem ha)⟩
        · exact ⟨[], [a], us, by simp, .lastItem ha⟩
  refine .eat (fun _ => .pure) fun _ => sites_within hitems ?_ free_nil
  rintro _ as ⟨ts, rfl, has⟩
  exact ⟨[], as, ts, by simp, .items has⟩

-- ---------------------------------------------------------------------------
-- Expressions
-- ---------------------------------------------------------------------------

section

variable {e : Rule Expr} {L : Log.OfFirst e e} (he : Follows e (Derives (.term .expression)))
  (hrests : Rests e)
  (h : ∀ d : Cursor, d.rest.length < n → Sites L (Derives (.term .expression)) [] d)

include he hrests h

theorem parenthesized_sites (hc : c.rest.length ≤ n) :
    Sites (logs.parenthesized L) grouped [] c := by
  have hbegins : grouped.Begins [.symbol .leftParen] :=
    ⟨_, _, [.name "x"], rfl, var_derives "x"⟩
  refine .expect (site_word (.symbol _) hbegins free_nil) fun hopen => ?_
  have hlt := skip_lt hopen
  refine .bind he (sites_within (h _ (by omega)) ?_ (free_symbol [] nofun))
    fun t d us hr hs ht => ?_
  · exact fun us t ht => ⟨[.symbol .rightParen], t, us, by simp, ht⟩
  · refine .expect (site_word (.symbol _) ⟨[], t, us, by simp, ht⟩ ?_) fun _ => .pure
    exact free_of_rested (rested_of_accepted hrests hr hs) _

theorem call_sites (hc : c.rest.length ≤ n) :
    Sites (logs.call L) (Derives (.term .primary)) [] c := by
  have hcall (f : String) :
      Form.Begins (Derives (.term .primary)) [.name f, .symbol .leftParen] :=
    ⟨_, _, .call f .noItem⟩
  refine .one (site_word (.name "f") (hcall "f").left free_nil) fun t f ht hf => ?_
  obtain rfl := name?_eq_some.1 hf
  have hlt := skip_lt ht
  refine .expect ?_ fun hopen => ?_
  · refine .missing _ (List.cons_ne_nil _ _) (by simp) ?_ (.inr ⟨rfl, [], f, rfl⟩)
    intro x hx
    obtain rfl := List.mem_singleton.1 hx
    exact ⟨_, .symbol _, hcall f⟩
  · have hlt' := skip_lt hopen
    have hargs : Sites (logs.commaSeparated L .rightParen)
        (Form.closed (Derives (.listed (.term .expression))) (.symbol .rightParen)) []
        c.skip.skip :=
      listed_sites (.term .expression) he h (fun hr hs _ _ before =>
        free_of_rested (rested_of_accepted hrests hr hs) before) (by omega)
    refine .last (sites_within hargs ?_ (free_symbol _ nofun))
    rintro _ args ⟨ts, rfl, hargs⟩
    exact .of_text (.call f hargs) (by simp)

theorem primary_sites (hc : c.rest.length ≤ n) :
    Sites (logs.primary L) (Derives (.term .primary)) [] c := by
  refine .firstOf fun noted => ⟨call_sites he hrests h hc, ?_, ?_, ?_, trivial⟩
  · exact .one (site_word (.literal (.int 0)) ⟨[], _, .literal _⟩ free_nil)
      fun _ _ _ _ => .pure
  · refine sites_within (parenthesized_sites he hrests h hc) ?_ free_nil
    rintro _ t ⟨us, rfl, ht⟩
    exact .of_text (.parenthesized ht) (by simp)
  · exact .one (site_word (.name "x") ⟨[], _, .var "x"⟩ free_nil) fun _ _ _ _ => .pure

theorem unary_sites (hc : c.rest.length ≤ n) :
    Sites (logs.unary L) (Derives (.term .unary)) [] c := by
  refine .eat? (fun _ => ?_) fun t op ht hop => ?_
  · refine .bind (primary_follows he) (sites_within (primary_sites he hrests h hc) ?_ free_nil)
      fun _ _ _ _ _ _ => ?_
    · exact fun ts t ht => .of_text (.plain ht) (by simp)
    · exact .eat? (fun _ => .pure) fun _ _ _ _ => .pure
  · obtain rfl := opBefore?_eq_some.1 hop
    have hlt := skip_lt ht
    refine .bind (primary_follows he) (sites_within (primary_sites he hrests h (by omega)) ?_
      (free_symbol _ (unaryOp_not_paren op).2)) fun t d us hr hs ht => ?_
    · exact fun ts t ht => .of_text (.before op ht) (by simp)
    · refine .last ?_
      rintro _ _ ⟨hstep, rfl, rfl⟩
      obtain ⟨op', hop'⟩ := Option.isSome_iff_exists.1 hstep
      obtain ⟨w, hw, hstep⟩ := Option.bind_eq_some_iff.1 hop'
      refine ⟨[], .refl _, .conflict w hw (by simp [hstep]) ⟨[], op, us, t, by simp, ht⟩ ?_⟩
      exact .of_text (.before op ht) (by simp)

end

section

variable {l : Level} {rule : Rule Expr} {L : Log.OfFirst rule rule}
  (hrule : Follows rule (Derives (.term (operand l)))) (hrests : Rests rule)

include hrule hrests

theorem operations_sites
    (h : ∀ d : Cursor, d.rest.length < n → Sites L (Derives (.term (operand l))) [] d)
    (hc : c.rest.length < n) :
    Sites (logs.operations L (opOf (operators l))) (Derives (.operations l)) [] c := by
  refine At.fix (operations_follow hrule) (fun c more M hmore _ hc hinner => ?_) c hc
  refine .eat? (fun _ => .pure) fun t op ht hop => ?_
  obtain ⟨rfl, rfl⟩ := opOf_eq_some.1 hop
  have hlt := skip_lt ht
  refine .bind hrule (sites_within (h _ (by omega)) ?_ (free_symbol _ (binaryOp_not_paren op).2))
    fun right d us hr hs hright => ?_
  · exact fun us e he => .of_text (.operations op he (.noOperation op.level)) (by simp)
  · have hle := hs.length_le
    refine .last (sites_within (hinner _ (by omega)) ?_ ?_)
    · exact fun vs others hothers => .of_text (.operations op hright hothers) (by simp)
    · exact free_of_rested (rested_of_accepted hrests hr hs) _

theorem level_sites (hl : l ≠ .comparison)
    (h : ∀ d : Cursor, d.rest.length ≤ n → Sites L (Derives (.term (operand l))) [] d)
    (hc : c.rest.length ≤ n) :
    Sites (logs.leftChain L (opOf (operators l)) join) (Derives (.term (.level l))) [] c := by
  refine .bind hrule (sites_within (h c hc) ?_ free_nil) fun first d us hr hs hfirst => ?_
  · exact fun us e he => .of_text (.ofOperand he) (by simp)
  · have hle := hs.length_le
    refine .last (sites_within (operations_sites hrule hrests
      (fun d hd => h d (Nat.le_of_lt_succ hd)) (by omega)) ?_ ?_)
    · exact fun vs others hothers => .of_text (.chain l hl hfirst hothers) (by simp)
    · exact free_of_rested (rested_of_accepted hrests hr hs) _

end

section

variable {e : Rule Expr} {L : Log.OfFirst e e} (he : Follows e (Derives (.term .expression)))
  (hrests : Rests e)
  (h : ∀ d : Cursor, d.rest.length < n → Sites L (Derives (.term .expression)) [] d)

include he hrests h

theorem additive_sites (hc : c.rest.length ≤ n) :
    Sites (logs.additive L) (Derives (.term (.level .additive))) [] c := by
  have hunary := unary_follows he
  refine level_sites (l := .additive) (level_follows (l := .multiplicative) nofun hunary)
    (.leftChain (unary_rests hrests) _ _) nofun (fun d hd => ?_) hc
  exact level_sites (l := .multiplicative) hunary (unary_rests hrests) nofun
    (fun d hd => unary_sites he hrests h hd) hd

theorem relational_sites (hc : c.rest.length ≤ n) :
    Sites (logs.relational L) (Derives (.term (.level .comparison))) [] c := by
  refine .bind (additive_follows he) (sites_within (additive_sites he hrests h hc) ?_ free_nil)
    fun left d us hr hs hleft => ?_
  · exact fun us e he => .of_text (.single he) (by simp)
  · have hle := hs.length_le
    refine .eat? (fun _ => .pure) fun t op ht hop => ?_
    obtain ⟨rfl, hlevel⟩ := (opOf_eq_some (l := .comparison)).1 hop
    have hlt := skip_lt ht
    refine .last (sites_within (additive_sites he hrests h (by omega)) ?_
      (free_symbol _ (binaryOp_not_paren op).2))
    exact fun vs e he => .of_text (.compare op hlevel hleft he) (by simp)

theorem logicalOr_sites (hc : c.rest.length ≤ n) :
    Sites (logs.logicalOr L) (Derives (.term (.level .or))) [] c := by
  have hrelational := relational_follows he
  refine level_sites (l := .or) (level_follows (l := .and) nofun hrelational)
    (.leftChain (relational_rests hrests) _ _) nofun (fun d hd => ?_) hc
  exact level_sites (l := .and) hrelational (relational_rests hrests) nofun
    (fun d hd => relational_sites he hrests h hd) hd

omit he hrests in
theorem assignment_sites (hc : c.rest.length ≤ n) :
    Sites (logs.assignment L) (Derives (.term .expression)) [] c := by
  refine .one (site_word (.name "x") ⟨[], _, var_derives "x"⟩ free_nil) fun t x ht hx => ?_
  obtain rfl := name?_eq_some.1 hx
  have hlt := skip_lt ht
  refine .expect (site_word (.symbol _) ⟨_, _, .assign x (var_derives "x")⟩ ?_) fun hequals => ?_
  · exact free_of_begins fun op hop => ⟨[], _, .ofUnary (.after op hop (.var x))⟩
  · have hlt' := skip_lt hequals
    refine .last (sites_within (h _ (by omega)) ?_ (free_symbol _ nofun))
    exact fun vs e he => .of_text (.assign x he) (by simp)

end

theorem expression_sites (c : Cursor) :
    Sites logs.expression (Derives (.term .expression)) [] c := by
  refine At.fix expression_follows (fun c e L he hfix _ h => ?_) c (Nat.lt_succ_self _)
  have hrests : Rests e := ⟨fun hP hr => expression_rests.accepted hP (hfix hr)⟩
  refine .firstOf fun noted => ⟨assignment_sites h (Nat.le_refl _), ?_, trivial⟩
  exact sites_within (logicalOr_sites he hrests h (Nat.le_refl _))
    (fun ts e he => .of_text (.operation he) (by simp)) free_nil

theorem free_behind (hr : expression c = .accepted e d) (hs : c.Spans us d) (form : Form α)
    (before : List Token) : Free form (before ++ us) d :=
  free_of_rested (rested_of_accepted expression_rests hr hs) before

-- ---------------------------------------------------------------------------
-- Statements
-- ---------------------------------------------------------------------------

theorem condition_sites (c : Cursor) : Sites logs.condition grouped [] c :=
  parenthesized_sites expression_follows expression_rests (fun d _ => expression_sites d)
    (Nat.le_refl _)

theorem effect_derives (op : UnaryOp) : Derives .effect
    [.symbol op.symbol, .name "x", .symbol .semicolon] (.expr (.unary op .before (.var "x"))) :=
  .effect (step_derives op)

theorem declaration_sites (c : Cursor) : Sites logs.declaration (Derives .declaration) [] c := by
  refine .one (site_word (.type .int) ⟨_, _, .declaration .int "x"⟩ free_nil) fun t k ht hk => ?_
  obtain rfl := typeName?_eq_some.1 hk
  refine .one (site_word (.name "x") ⟨_, _, .declaration k "x"⟩ (free_type [] k))
    fun t x ht hx => ?_
  obtain rfl := name?_eq_some.1 hx
  refine .eat (fun _ => ?_) fun _ => .eat (fun _ => .pure) fun _ => .refuse ?_
  · refine .bind expression_follows (sites_within (expression_sites _) ?_
      (free_symbol [.type k, .name x] nofun)) fun e d us hr hs he => ?_
    · exact fun us e he => .of_text (.initialized k x he) (by simp)
    · have hsemicolon := Derives.initialized k x he
      exact .expect (site_word (.symbol _) (.of_text hsemicolon (by simp)) (free_behind hr hs _ _))
        fun _ => .pure
  · refine .missing _ (List.cons_ne_nil _ _) (by decide) ?_ (.inl (free_declared [] k x))
    simp only [List.forall_mem_cons, List.not_mem_nil, false_imp_iff, implies_true, and_true]
    exact ⟨⟨_, .symbol .equals, .of_text (.initialized k x (var_derives "y")) (by simp)⟩,
      ⟨_, .symbol .semicolon, .of_text (.declaration k x) (by simp)⟩⟩

theorem declarationStatement_sites (c : Cursor) :
    Sites logs.declarationStatement (Derives .declaration) [] c :=
  .last (declaration_sites c)

theorem expressionStatement_sites (c : Cursor) :
    Sites logs.expressionStatement (Derives .effect) [] c := by
  refine .bind expression_follows (sites_within (expression_sites c) ?_ free_nil)
    fun e d us hr hs he => ?_
  · exact fun us e he => .of_text (.effect he) (by simp)
  · exact .expect (site_word (.symbol _) (.of_text (.effect he) (by simp)) (free_behind hr hs _ _))
      fun _ => .pure

theorem initializer_sites (c : Cursor) : Sites logs.initializer (Derives .initializer) [] c := by
  refine .firstOf fun noted => ⟨?_, ?_, trivial⟩
  · exact sites_within (declarationStatement_sites _)
      (fun ts d hd => .of_text (.beginDeclared hd) (by simp)) free_nil
  · exact sites_within (expressionStatement_sites _)
      (fun ts s hs => .of_text (.beginEffect hs) (by simp)) free_nil

theorem returnStatement_sites (c : Cursor) :
    Sites logs.returnStatement (Derives .statement) [] c := by
  refine .expect (site_word (.keyword _) ⟨_, _, .returnNothing⟩ free_nil) fun _ => ?_
  refine .bind expression_follows.optional (.optional (sites_within (expression_sites _) ?_
    (free_keyword [] _))) fun value d us hr hs hvalue => ?_
  · exact fun us e he => .of_text (.returnValue he) (by simp)
  · refine .expect (site_word (.symbol _) ?_ ?_) fun _ => .pure
    · cases value with
      | none =>
        obtain rfl := Form.optional_none.1 hvalue
        exact ⟨[], _, .returnNothing⟩
      | some e => exact .of_text (.returnValue hvalue) (by simp)
    · cases value with
      | none =>
        obtain rfl := Form.optional_none.1 hvalue
        exact free_keyword [] _
      | some e => exact free_behind (Rule.optional_eq_some.1 hr) hs _ _

theorem printStatement_sites (c : Cursor) :
    Sites logs.printStatement (Derives .statement) [] c := by
  refine .expect (site_word (.keyword _) ⟨_, _, .print (var_derives "x")⟩ free_nil) fun _ => ?_
  refine .bind condition_follows (sites_within (condition_sites _) ?_ (free_keyword [] _)) ?_
  · rintro _ e ⟨us, rfl, he⟩
    exact .of_text (.print he) (by simp)
  · rintro e d _ hr hs ⟨us, rfl, he⟩
    refine .expect (site_word (.symbol _) (.of_text (.print he) (by simp))
      (free_of_not_operand fun before h => ?_)) fun _ => .pure
    obtain ⟨op, heq | ⟨f, more, heq, -⟩⟩ := @Operand.parenthesized us before _ he.balanced h
    · cases heq
    · cases heq

section

variable {s : Rule Stmt} {L : Log.OfFirst s s} (hs : Follows s (Derives .statement))
  (h : ∀ d : Cursor, d.rest.length < n → Sites L (Derives .statement) [] d)

include hs h

omit hs in
/-- A statement that stands within another form, where a statement can begin with a step. -/
theorem statement_within {form : Form α} {before : List Token} (hc : c.rest.length < n)
    (hwhole : ∀ ts s, Derives .statement ts s → form.Begins (before ++ ts)) :
    Sites L form before c := by
  refine sites_within (h c hc) hwhole (free_of_begins fun op _ => ?_)
  exact Form.Begins.left (by simpa using hwhole _ _ (.perform (effect_derives op)))

theorem statements_sites (hc : c.rest.length < n) : Sites (logs.statements L)
    (Form.closed (Derives .statements) (.symbol .rightBrace)) [] c := by
  refine At.fix (statements_follow hs) (fun c more M hmore _ hc hinner => ?_) c hc
  refine .eat (fun _ => .pure) fun _ => .atEnd ?_
  cases c.atEnd with
  | true => exact .refuse (site_word (.symbol _) ⟨[], [], [], rfl, .noStatement⟩ free_nil)
  | false =>
    refine .bind hs (statement_within h hc ?_) fun t d us hr hspans ht => ?_
    · exact fun ts t ht => .of_text ⟨ts ++ [], rfl, .statements ht .noStatement⟩ (by simp)
    · have hlength := hspans.length_eq
      have hpos := List.length_pos_iff.2 (ht.ne_nil id)
      refine .last (sites_within (hinner d (by omega)) ?_ (free_of_begins fun op _ => ?_))
      · rintro _ rest ⟨vs, rfl, hrest⟩
        exact .of_text ⟨_, rfl, .statements ht hrest⟩ (by simp)
      · have hstep := Derives.statements (.perform (effect_derives op)) .noStatement
        exact .of_text ⟨_, rfl, .statements ht hstep⟩ (by simp)

theorem block_sites (hc : c.rest.length ≤ n) : Sites (logs.block L) (Derives .block) [] c := by
  refine .expect (site_word (.symbol _) ⟨_, _, .block .noStatement⟩ free_nil) fun hopen => ?_
  have hlt := skip_lt hopen
  refine sites_within (statements_sites hs h (by omega)) ?_ (free_symbol [] nofun)
  rintro _ body ⟨ts, rfl, hbody⟩
  exact .of_text (.block hbody) (by simp)

theorem blockStatement_sites (hc : c.rest.length ≤ n) :
    Sites (logs.blockStatement L) (Derives .statement) [] c := by
  refine .last (sites_within (block_sites hs h hc) ?_ free_nil)
  exact fun ts body hbody => .of_text (.nested hbody) (by simp)

theorem ifStatement_sites (hc : c.rest.length ≤ n) :
    Sites (logs.ifStatement L) (Derives .statement) [] c := by
  refine .expect (site_word (.keyword _) ?_ free_nil) fun hif => ?_
  · exact .of_text (.ifThen (var_derives "x") .returnNothing) (by simp)
  have hlt := skip_lt hif
  refine .bind condition_follows (sites_within (condition_sites _) ?_ (free_keyword [] _)) ?_
  · rintro _ e ⟨us, rfl, he⟩
    exact .of_text (.ifThen he .returnNothing) (by simp)
  · rintro e d _ - hspans ⟨us, rfl, he⟩
    have hle := hspans.length_le
    refine .bind hs (statement_within h (by omega) ?_) fun yes d' vs _ hspans' hyes =>
      .eat (fun helse => .last (statement_within h ?_ ?_)) fun _ => .pure
    · exact fun vs yes hyes => .of_text (.ifThen he hyes) (by simp)
    · have hle' := hspans'.length_le
      have hlt' := skip_lt helse
      omega
    · exact fun ws no hno => .of_text (.ifElse he hyes hno) (by simp)

omit hs in
theorem whileStatement_sites (hc : c.rest.length ≤ n) :
    Sites (logs.whileStatement L) (Derives .statement) [] c := by
  refine .expect (site_word (.keyword _) ?_ free_nil) fun hwhile => ?_
  · exact .of_text (.whileLoop (var_derives "x") .returnNothing) (by simp)
  have hlt := skip_lt hwhile
  refine .bind condition_follows (sites_within (condition_sites _) ?_ (free_keyword [] _)) ?_
  · rintro _ e ⟨us, rfl, he⟩
    exact .of_text (.whileLoop he .returnNothing) (by simp)
  · rintro e d _ - hspans ⟨us, rfl, he⟩
    have hle := hspans.length_le
    refine .last (statement_within h (by omega) ?_)
    exact fun vs body hbody => .of_text (.whileLoop he hbody) (by simp)

omit hs in
theorem forStatement_sites (hc : c.rest.length ≤ n) :
    Sites (logs.forStatement L) (Derives .statement) [] c := by
  have hbegin := Derives.beginDeclared (.declaration .int "x")
  have hx := var_derives "x"
  refine .expect (site_word (.keyword _) ?_ free_nil) fun hfor => ?_
  · exact .of_text (.forLoop hbegin hx hx .returnNothing) (by simp)
  refine .expect (site_word (.symbol _) ?_ (free_keyword [] _)) fun hopen => ?_
  · exact .of_text (.forLoop hbegin hx hx .returnNothing) (by simp)
  refine .bind initializer_follows (sites_within (initializer_sites _) ?_ (free_symbol _ nofun))
    fun init d is _ hi hinit => ?_
  · exact fun is init hinit => .of_text (.forLoop hinit hx hx .returnNothing) (by simp)
  refine .bind expression_follows (sites_within (expression_sites _) ?_
    (free_of_begins fun op _ => ?_)) fun e d us hr hus he => ?_
  · exact fun us e he => .of_text (.forLoop hinit he hx .returnNothing) (by simp)
  · exact .of_text (.forLoop hinit (step_derives op) hx .returnNothing) (by simp)
  refine .expect (site_word (.symbol _) ?_ (free_behind hr hus _ _)) fun hsemicolon => ?_
  · exact .of_text (.forLoop hinit he hx .returnNothing) (by simp)
  refine .bind expression_follows (sites_within (expression_sites _) ?_ (free_symbol _ nofun))
    fun e d vs hr hvs hstep => ?_
  · exact fun vs step hstep => .of_text (.forLoop hinit he hstep .returnNothing) (by simp)
  refine .expect (site_word (.symbol _) ?_ (free_behind hr hvs _ _)) fun hclose => ?_
  · exact .of_text (.forLoop hinit he hstep .returnNothing) (by simp)
  refine .last (statement_within h ?_ ?_)
  · have hread := ((c.spans_skip hfor).trans (c.skip.spans_skip hopen)).trans
      (hi.trans (hus.trans ((Cursor.spans_skip hsemicolon).trans hvs)))
    have hlength := (hread.trans (Cursor.spans_skip hclose)).length_eq
    simp only [List.length_append, List.length_singleton] at hlength
    omega
  · exact fun ws body hbody => .of_text (.forLoop hinit he hstep hbody) (by simp)

end

theorem statement_sites (c : Cursor) : Sites logs.statement (Derives .statement) [] c := by
  refine At.fix statement_follows (fun c s L hs _ _ h => ?_) c (Nat.lt_succ_self _)
  refine .firstOf fun noted => ⟨?_, blockStatement_sites hs h (Nat.le_refl _),
    ifStatement_sites hs h (Nat.le_refl _), whileStatement_sites h (Nat.le_refl _),
    forStatement_sites h (Nat.le_refl _), returnStatement_sites _, printStatement_sites _,
    ?_, trivial⟩
  · exact sites_within (declarationStatement_sites _)
      (fun ts d hd => .of_text (.declare hd) (by simp)) free_nil
  · exact sites_within (expressionStatement_sites _)
      (fun ts s hs => .of_text (.perform hs) (by simp)) free_nil

-- ---------------------------------------------------------------------------
-- Programs
-- ---------------------------------------------------------------------------

theorem parameter_sites (c : Cursor) : Sites logs.parameter (Derives .parameter) [] c := by
  refine .one (site_word (.type .int) (.of_text (.parameter .int "x") (by simp)) free_nil)
    fun t k ht hk => ?_
  obtain rfl := typeName?_eq_some.1 hk
  exact .one (site_word (.name "x") (.of_text (.parameter k "x") (by simp)) (free_type [] k))
    fun _ _ _ _ => .pure

theorem function_sites (c : Cursor) : Sites logs.function (Derives .function) [] c := by
  have hfunction (k : TypeName) (f : String) := Derives.function k f .noItem (.block .noStatement)
  refine .one (site_word (.type .int) (.of_text (hfunction .int "f") (by simp)) free_nil)
    fun t k ht hk => ?_
  obtain rfl := typeName?_eq_some.1 hk
  refine .one (site_word (.name "f") (.of_text (hfunction k "f") (by simp)) (free_type [] k))
    fun t f ht hf => ?_
  obtain rfl := name?_eq_some.1 hf
  refine .expect (site_word (.symbol _) (.of_text (hfunction k f) (by simp)) (free_declared [] k f))
    fun hopen => ?_
  have hparams : Sites (logs.commaSeparated logs.parameter .rightParen)
      (Form.closed (Derives (.listed .parameter)) (.symbol .rightParen)) [] c.skip.skip.skip := by
    refine listed_sites .parameter parameter_follows (fun d _ => parameter_sites d) ?_
      (Nat.lt_succ_self _)
    rintro _ _ _ _ - - ⟨⟩ form before
    exact free_declared before _ _
  refine .bind (listed_follows .parameter parameter_follows _)
    (sites_within hparams ?_ (free_symbol _ nofun)) ?_
  · rintro _ params ⟨ts, rfl, hparams⟩
    exact .of_text (.function k f hparams (.block .noStatement)) (by simp)
  · rintro params d _ - - ⟨ts, rfl, hparams⟩
    refine .last (sites_within (block_sites statement_follows
      (fun d _ => statement_sites d) (Nat.le_refl _)) ?_ (free_of_not_operand fun before h => ?_))
    · exact fun us body hbody => .of_text (.function k f hparams hbody) (by simp)
    · obtain ⟨op, heq | ⟨_, more, -, heq⟩⟩ :=
        @Operand.parenthesized ts (before ++ [.type k]) _ hparams.balanced (by simpa using h)
      · cases heq
      · cases (List.append_singleton_inj.1 heq).2

theorem Derives.function_last (h : Derives .function ts f) :
    ∃ us, ts = us ++ [.symbol .rightBrace] := by
  cases h with
  | @function ps _ _ _ k f hparams hbody =>
    cases hbody with
    | @block us _ hbody =>
      exact ⟨.type k :: .name f :: .symbol .leftParen ::
        (ps ++ .symbol .rightParen :: .symbol .leftBrace :: us), by simp⟩

theorem functions_sites (c : Cursor) : Sites logs.functions (Derives .functions) [] c := by
  refine At.fix functions_follow (fun c more M hmore _ _ hinner => ?_) c (Nat.lt_succ_self _)
  refine .atEnd ?_
  cases c.atEnd with
  | true => exact .pure
  | false =>
    refine .bind function_follows (sites_within (function_sites c) ?_ free_nil)
      fun f d us _ hspans hf => ?_
    · exact fun ts f hf => .of_text (.functions hf .noFunction) (ts.prefix_append [])
    · have hlength := hspans.length_eq
      have hpos := List.length_pos_iff.2 (hf.ne_nil id)
      refine .last (sites_within (hinner d (by omega)) ?_ ?_)
      · exact fun vs fs hfs => .of_text (.functions hf hfs) (by simp)
      · obtain ⟨vs, rfl⟩ := hf.function_last
        exact free_symbol _ nofun

theorem program_sites (c : Cursor) : Sites logs.program (Derives .program) [] c := by
  refine .last (sites_within (functions_sites c) ?_ free_nil)
  exact fun ts fs hfs => .of_text (.program hfs) (by simp)

end MiniC.Grammar
