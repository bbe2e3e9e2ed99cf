import MiniC.Proofs.Grammar.Derivation
import MiniC.Proofs.Rule.Form

/-!
# What the grammar reads

Each rule of the grammar follows the form of its nonterminal. So a tree that is read is the tree of
a derivation, and whatever is refused on the way is refused behind the beginning of some text that
can be derived.
-/

namespace MiniC.Grammar

open Rule (Follows)

-- ---------------------------------------------------------------------------
-- What words mean
-- ---------------------------------------------------------------------------

theorem binaryOp?_eq_some : binaryOp? t = some op ↔ t = .symbol op.symbol := by
  constructor
  · intro h
    cases t with
    | symbol s =>
      cases s <;> simp only [binaryOp?, Option.some.injEq, reduceCtorEq] at h <;> subst h <;> rfl
    | _ => cases h
  · rintro rfl
    cases op <;> rfl

def operators : Level → List BinaryOp
  | .or => [.or]
  | .and => [.and]
  | .comparison => [.less, .greater, .lessEqual, .greaterEqual, .equal, .notEqual]
  | .additive => [.add, .sub]
  | .multiplicative => [.mul, .div, .mod]

theorem mem_operators : op ∈ operators l ↔ op.level = l := by
  cases l <;> cases op <;> simp [operators, BinaryOp.level]

theorem opOf_eq_some : opOf (operators l) t = some op ↔ t = .symbol op.symbol ∧ op.level = l := by
  simp [opOf, Option.filter_eq_some_iff, binaryOp?_eq_some, mem_operators]

theorem opBefore?_eq_some : opBefore? t = some op ↔ t = .symbol op.symbol := by
  constructor
  · intro h
    cases t with
    | symbol s =>
      cases s <;> simp only [opBefore?, Option.some.injEq, reduceCtorEq] at h <;> subst h <;> rfl
    | _ => cases h
  · rintro rfl
    cases op <;> rfl

theorem opAfter?_eq_some : opAfter? t = some op ↔ t = .symbol op.symbol ∧ op.Steps := by
  constructor
  · intro h
    cases t with
    | symbol s =>
      cases s <;> simp only [opAfter?, Option.some.injEq, reduceCtorEq] at h <;> subst h <;>
        exact ⟨rfl, trivial⟩
    | _ => cases h
  · rintro ⟨rfl, h⟩
    cases op with
    | increment => rfl
    | decrement => rfl
    | negate => exact h.elim
    | not => exact h.elim

theorem literalValue?_eq_some : literalValue? t = some v ↔ t = v.literal := by
  constructor
  · intro h
    cases t <;> simp only [literalValue?, Option.some.injEq, reduceCtorEq] at h <;> subst h <;> rfl
  · rintro rfl
    cases v <;> rfl

theorem name?_eq_some : name? t = some x ↔ t = .name x := by
  cases t <;> simp [name?]

theorem typeName?_eq_some : typeName? t = some k ↔ t = .type k := by
  cases t <;> simp [typeName?]

theorem name_follows : Follows name fun ts x => ts = [.name x] :=
  .reads (fun _ _ => name?_eq_some) "x" _

theorem typeName_follows : Follows typeName fun ts k => ts = [.type k] :=
  .reads (fun _ _ => typeName?_eq_some) .int _

-- ---------------------------------------------------------------------------
-- Expressions
-- ---------------------------------------------------------------------------

theorem separated_follows (item : Nonterminal) {rule : Rule item.Tree}
    (h : Follows rule (Derives item)) (closing : Symbol) :
    Follows (.items rule closing) (Form.closed (Derives (.separated item)) (.symbol closing)) := by
  refine .items h ?_ ?_
  · exact fun ts a ha => ⟨ts, rfl, .lastItem ha⟩
  · rintro ts a _ as ha ⟨us, rfl, has⟩
    exact ⟨_, by simp, .moreItems ha has⟩

theorem listed_follows (item : Nonterminal) {rule : Rule item.Tree}
    (h : Follows rule (Derives item)) (closing : Symbol) :
    Follows (.commaSeparated rule closing)
      (Form.closed (Derives (.listed item)) (.symbol closing)) := by
  refine .ifEat (.pure ⟨[], rfl, .noItem⟩) ((separated_follows item h closing).mono ?_)
  rintro _ as ⟨ts, rfl, has⟩
  exact ⟨ts, rfl, .items has⟩

theorem operations_follow {l : Level} {rule : Rule Expr}
    (h : Follows rule (Derives (.term (operand l)))) :
    Follows (.operations rule (opOf (operators l))) (Derives (.operations l)) := by
  refine .operations h (.noOperation l) ?_
  intro t op ts right us others ht hright hothers
  obtain ⟨rfl, rfl⟩ := opOf_eq_some.1 ht
  exact .operations op hright hothers

theorem level_follows {l : Level} (hl : l ≠ .comparison) {rule : Rule Expr}
    (h : Follows rule (Derives (.term (operand l)))) :
    Follows (.leftChain rule (opOf (operators l)) join) (Derives (.term (.level l))) := by
  refine h.bind fun ts t ht => (operations_follow h).bind fun us others hothers => .pure ?_
  simpa using .chain l hl ht hothers

section

variable {e : Rule Expr} (he : Follows e (Derives (.term .expression)))

include he

theorem parenthesized_follows : Follows (parenthesized e) fun ts t =>
    ∃ us, ts = .symbol .leftParen :: (us ++ [.symbol .rightParen]) ∧
      Derives (.term .expression) us t := by
  refine .expectThen ?_
  refine he.bind fun ts t ht => .expectThen ?_
  exact .pure ⟨ts, by simp, ht⟩

theorem call_follows : Follows (call e) (Derives (.term .primary)) := by
  refine name_follows.bind_words fun f => ?_
  refine .expectThen ?_
  refine (listed_follows (.term .expression) he _).bind ?_
  rintro _ args ⟨ts, rfl, hargs⟩
  exact .pure (by simpa using .call f hargs)

theorem primary_follows : Follows (primary e) (Derives (.term .primary)) := by
  refine .firstOf ⟨_, _, .var "x"⟩ ?_
  simp only [List.forall_mem_cons, List.not_mem_nil, false_imp_iff, implies_true, and_true]
  refine ⟨call_follows he, ?_, ?_, ?_⟩
  · refine (Follows.reads (fun _ _ => literalValue?_eq_some) (.int 0) _).bind_words fun v => ?_
    exact .pure (.literal v)
  · refine (parenthesized_follows he).mono ?_
    rintro _ t ⟨ts, rfl, ht⟩
    exact .parenthesized ht
  · refine name_follows.bind_words fun x => ?_
    exact .pure (.var x)

theorem unary_follows : Follows (unary e) (Derives (.term .unary)) := by
  refine .matchEat? ?_ fun word op hword => ?_
  · refine (primary_follows he).bind fun us t ht => .matchEat? ?_ fun word op hword => ?_
    · exact .pure (by simpa using .plain ht)
    · obtain ⟨rfl, hsteps⟩ := opAfter?_eq_some.1 hword
      exact .pure (by simpa using .after op hsteps ht)
  · obtain rfl := opBefore?_eq_some.1 hword
    refine (primary_follows he).bind fun us t ht => (Follows.single _).bind ?_
    rintro _ _ rfl
    exact .pure (by simpa using .before op ht)

theorem additive_follows : Follows (additive e) (Derives (.term (.level .additive))) :=
  level_follows (l := .additive) nofun
    (level_follows (l := .multiplicative) nofun (unary_follows he))

theorem relational_follows : Follows (relational e) (Derives (.term (.level .comparison))) := by
  refine (additive_follows he).bind fun ts left hleft => .matchEat? ?_ fun word op hword => ?_
  · exact .pure (by simpa using .single hleft)
  · obtain ⟨rfl, hlevel⟩ := (opOf_eq_some (l := .comparison)).1 hword
    refine (additive_follows he).bind fun us right hright => .pure ?_
    simpa using .compare op hlevel hleft hright

theorem logicalOr_follows : Follows (logicalOr e) (Derives (.term (.level .or))) :=
  level_follows (l := .or) nofun (level_follows (l := .and) nofun (relational_follows he))

theorem assignment_follows : Follows (assignment e) fun ts t =>
    ∃ x us value, ts = .name x :: .symbol .equals :: us ∧ t = .assign x value ∧
      Derives (.term .expression) us value := by
  refine name_follows.bind_words fun x => ?_
  refine .expectThen ?_
  exact he.bind fun ts t ht => .pure ⟨x, ts, t, by simp, rfl, ht⟩

end

theorem expression_follows : Follows expression (Derives (.term .expression)) := by
  have inhabited : ∃ ts e, Derives (.term .expression) ts e :=
    ⟨_, _, .ofUnary (.plain (.var "x"))⟩
  refine .fix inhabited fun e he => .firstOf inhabited ?_
  simp only [List.forall_mem_cons, List.not_mem_nil, false_imp_iff, implies_true, and_true]
  refine ⟨(assignment_follows he).mono ?_, (logicalOr_follows he).mono fun ts t ht => .operation ht⟩
  rintro _ _ ⟨x, ts, t, rfl, rfl, ht⟩
  exact .assign x ht

theorem condition_follows : Follows (parenthesized expression) fun ts t =>
    ∃ us, ts = .symbol .leftParen :: (us ++ [.symbol .rightParen]) ∧
      Derives (.term .expression) us t :=
  parenthesized_follows expression_follows

-- ---------------------------------------------------------------------------
-- Statements
-- ---------------------------------------------------------------------------

theorem declaration_follows : Follows declaration (Derives .declaration) := by
  refine typeName_follows.bind_words fun k => ?_
  refine name_follows.bind_words fun x => ?_
  refine .ifEat ?_ (.ifEat ?_ ?_)
  · refine expression_follows.bind fun ts e he => .expectThen ?_
    exact .pure (by simpa using .initialized k x he)
  · exact .pure (.declaration k x)
  · exact .refuse ⟨_, _, .declaration k x⟩ _

theorem expressionStatement_follows : Follows expressionStatement (Derives .effect) := by
  refine expression_follows.bind fun ts e he => .expectThen ?_
  exact .pure (by simpa using .effect he)

theorem initializer_follows :
    Follows (.firstOf [declarationStatement, expressionStatement]) (Derives .initializer) := by
  refine .firstOf ⟨_, _, .beginDeclared (.declaration .int "x")⟩ ?_
  simp only [List.forall_mem_cons, List.not_mem_nil, false_imp_iff, implies_true, and_true]
  refine ⟨declaration_follows.bind fun ts d hd => .pure ?_, ?_⟩
  · simpa using .beginDeclared hd
  · exact expressionStatement_follows.mono fun ts e he => .beginEffect he

theorem returnStatement_follows : Follows returnStatement (Derives .statement) := by
  refine .expectThen ?_
  refine expression_follows.optional.bind ?_
  rintro ts (_ | e) he
  · obtain rfl := Form.optional_none.1 he
    refine .expectThen ?_
    exact .pure .returnNothing
  · refine .expectThen ?_
    exact .pure (by simpa using .returnValue he)

theorem printStatement_follows : Follows printStatement (Derives .statement) := by
  refine .expectThen ?_
  refine condition_follows.bind ?_
  rintro _ e ⟨ts, rfl, he⟩
  refine .expectThen ?_
  exact .pure (by simpa using .print he)

section

variable {s : Rule Stmt} (hs : Follows s (Derives .statement))

include hs

theorem statements_follow :
    Follows (statements s) (Form.closed (Derives .statements) (.symbol .rightBrace)) := by
  have inhabited : ∃ ts body, Form.closed (Derives .statements) (.symbol .rightBrace) ts body :=
    ⟨_, _, [], rfl, .noStatement⟩
  refine .fix inhabited fun more hmore => .ifEat ?_ (.ifAtEnd ?_ ?_)
  · exact .pure ⟨[], rfl, .noStatement⟩
  · exact .refuse inhabited _
  · refine hs.bind fun ts t ht => hmore.bind ?_
    rintro _ rest ⟨us, rfl, hrest⟩
    exact .pure ⟨_, by simp, .statements ht hrest⟩

theorem block_follows : Follows (block s) (Derives .block) := by
  refine .expectThen ?_
  refine (statements_follow hs).mono ?_
  rintro _ body ⟨ts, rfl, hbody⟩
  exact .block hbody

theorem ifStatement_follows : Follows (ifStatement s) (Derives .statement) := by
  refine .expectThen ?_
  refine condition_follows.bind ?_
  rintro _ c ⟨ts, rfl, hc⟩
  refine hs.bind fun us yes hyes => .ifEat ?_ ?_
  · exact hs.bind fun vs no hno => .pure (by simpa using .ifElse hc hyes hno)
  · exact .pure (by simpa using .ifThen hc hyes)

theorem whileStatement_follows : Follows (whileStatement s) (Derives .statement) := by
  refine .expectThen ?_
  refine condition_follows.bind ?_
  rintro _ c ⟨ts, rfl, hc⟩
  exact hs.bind fun us body hbody => .pure (by simpa using .whileLoop hc hbody)

theorem forStatement_follows : Follows (forStatement s) (Derives .statement) := by
  refine .expectThen ?_
  refine .expectThen ?_
  refine initializer_follows.bind fun is init hi => expression_follows.bind fun ts c hc => ?_
  refine .expectThen ?_
  refine expression_follows.bind fun us step hstep => .expectThen ?_
  exact hs.bind fun vs body hbody => .pure (by simpa using .forLoop hi hc hstep hbody)

end

theorem statement_follows : Follows statement (Derives .statement) := by
  refine .fix ⟨_, _, .returnNothing⟩ fun s hs => .firstOf ⟨_, _, .returnNothing⟩ ?_
  simp only [List.forall_mem_cons, List.not_mem_nil, false_imp_iff, implies_true, and_true]
  refine ⟨?_, ?_, ifStatement_follows hs, whileStatement_follows hs, forStatement_follows hs,
    returnStatement_follows, printStatement_follows, ?_⟩
  · exact declaration_follows.bind fun ts d hd => .pure (by simpa using .declare hd)
  · exact (block_follows hs).bind fun ts body hbody => .pure (by simpa using .nested hbody)
  · exact expressionStatement_follows.mono fun ts e he => .perform he

-- ---------------------------------------------------------------------------
-- Programs
-- ---------------------------------------------------------------------------

theorem parameter_follows : Follows parameter (Derives .parameter) := by
  refine typeName_follows.bind_words fun k => ?_
  refine name_follows.bind_words fun x => ?_
  exact .pure (.parameter k x)

theorem function_follows : Follows function (Derives .function) := by
  refine typeName_follows.bind_words fun k => ?_
  refine name_follows.bind_words fun f => ?_
  refine .expectThen ?_
  refine (listed_follows .parameter parameter_follows _).bind ?_
  rintro _ params ⟨ts, rfl, hparams⟩
  refine (block_follows statement_follows).bind fun us body hbody => .pure ?_
  simpa using .function k f hparams hbody

theorem functions_follow : Follows functions (Derives .functions) := by
  refine .fix ⟨[], [], .noFunction⟩ fun more hmore => .ifAtEnd (.pure .noFunction) ?_
  refine function_follows.bind fun ts f hf => hmore.bind fun us fs hfs => .pure ?_
  simpa using .functions hf hfs

theorem program_follows : Follows program (Derives .program) :=
  functions_follow.bind fun ts fs hfs => .pure (by simpa using .program hfs)

end MiniC.Grammar
