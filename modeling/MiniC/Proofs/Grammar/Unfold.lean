import MiniC.Proofs.Grammar.Sound
import MiniC.Proofs.Grammar.Start
import MiniC.Proofs.Rule.Unfold

/-!
# The rules for expressions and statements contain themselves

`expression` and `statement` satisfy the equations of the grammar: inside them stand the rules
themselves, as they are. So do the loops over statements and functions.
-/

namespace MiniC.Grammar

open Rule (Follows AgreeBelow)

section

variable {e e' : Rule Expr} (he : Follows e (Derives (.term .expression)))
  (h : AgreeBelow n e e')

include h

theorem parenthesized_agree : AgreeBelow (n + 1) (parenthesized e) (parenthesized e') :=
  .behindExpect (h.bind_left _)

theorem call_agree : AgreeBelow (n + 1) (call e) (call e') := by
  refine .behind name_follows (by rintro _ _ rfl; simp) fun f => ?_
  exact .bind_right (.expect _ _) fun _ => (h.commaSeparated _).bind_left _

theorem primary_agree : AgreeBelow (n + 1) (primary e) (primary e') := by
  refine .firstOf [call, fun _ => literal, parenthesized, fun _ => reference] ?_
  simp only [List.forall_mem_cons, List.not_mem_nil, false_imp_iff, implies_true, and_true]
  exact ⟨call_agree h, .refl _ _, parenthesized_agree h, .refl _ _⟩

theorem unary_agree : AgreeBelow (n + 1) (unary e) (unary e') :=
  .bind_right (.eat? _) fun _ => (primary_agree h).bind_left _

include he

theorem additive_agree : AgreeBelow (n + 1) (additive e) (additive e') :=
  .leftChain (.leftChain (unary_agree h) (unary_follows he) _ _)
    (level_follows (l := .multiplicative) nofun (unary_follows he)) _ _

theorem relational_agree : AgreeBelow (n + 1) (relational e) (relational e') := by
  have hadditive := additive_agree he h
  refine .bind (additive_follows he) hadditive fun left => ?_
  refine .bind_right (.eat? _) fun op => ?_
  cases op with
  | none => exact .refl _ _
  | some op => exact hadditive.bind_left _

theorem logicalOr_agree : AgreeBelow (n + 1) (logicalOr e) (logicalOr e') :=
  .leftChain (.leftChain (relational_agree he h) (relational_follows he) _ _)
    (level_follows (l := .and) nofun (relational_follows he)) _ _

omit he

theorem assignment_agree : AgreeBelow (n + 1) (assignment e) (assignment e') := by
  refine .behind name_follows (by rintro _ _ rfl; simp) fun x => ?_
  exact .bind_right (.expect _ _) fun _ => h.bind_left _

end

theorem expression_eq :
    expression = .firstOf [assignment expression, logicalOr expression] := by
  refine Rule.fix_unfold expression_follows fun {n e e'} he h => ?_
  refine .firstOf [assignment, logicalOr] ?_
  simp only [List.forall_mem_cons, List.not_mem_nil, false_imp_iff, implies_true, and_true]
  exact ⟨assignment_agree h, logicalOr_agree he h⟩

section

variable {s s' : Rule Stmt} (hs : Follows s (Derives .statement)) (h : AgreeBelow n s s')

include h

theorem block_agree : AgreeBelow (n + 1) (block s) (block s') := by
  refine .behindExpect <| .fix fun more => ?_
  exact .ifEat (.refl _ _) (.ifAtEnd (.refl _ _) (h.bind_left _))

theorem whileStatement_agree : AgreeBelow (n + 1) (whileStatement s) (whileStatement s') := by
  refine .behindExpect ?_
  exact .bind_right condition_follows fun c => h.bind_left _

theorem forStatement_agree : AgreeBelow (n + 1) (forStatement s) (forStatement s') := by
  refine .behindExpect ?_
  refine .bind_right (.expect _ _) fun _ => ?_
  refine .bind_right initializer_follows fun init => ?_
  refine .bind_right expression_follows fun c => .bind_right (.expect _ _) fun _ => ?_
  refine .bind_right expression_follows fun step => ?_
  exact .bind_right (.expect _ _) fun _ => h.bind_left _

include hs

theorem ifStatement_agree : AgreeBelow (n + 1) (ifStatement s) (ifStatement s') := by
  refine .behindExpect ?_
  refine .bind_right condition_follows fun c => .bind hs h fun yes => ?_
  exact .ifEat (h.bind_left _) (.refl n _)

end

theorem statement_eq : statement = .firstOf [declarationStatement, blockStatement statement,
    ifStatement statement, whileStatement statement, forStatement statement, returnStatement,
    printStatement, expressionStatement] := by
  refine Rule.fix_unfold statement_follows fun {n s s'} hs h => ?_
  refine .firstOf [fun _ => declarationStatement, blockStatement, ifStatement, whileStatement,
    forStatement, fun _ => returnStatement, fun _ => printStatement,
    fun _ => expressionStatement] ?_
  simp only [List.forall_mem_cons, List.not_mem_nil, false_imp_iff, implies_true, and_true]
  exact ⟨.refl _ _, (block_agree h).bind_left _, ifStatement_agree hs h, whileStatement_agree h,
    forStatement_agree h, .refl _ _, .refl _ _, .refl _ _⟩

theorem statements_eq : statements statement = (do
    if ← .eat (.symbol .rightBrace) then return []
    else if ← .atEnd then .refuse [(Token.symbol .rightBrace).description]
    else
      let s ← statement
      return s :: (← statements statement)) := by
  refine Rule.fix_unfold (statements_follow statement_follows) fun _ h => ?_
  refine .ifEat (.refl _ _) (.ifAtEnd (.refl _ _) ?_)
  exact .behind statement_follows (fun _ _ h => h.ne_nil id) fun s => h.bind_left _

theorem functions_eq : functions = (do
    if ← .atEnd then return []
    else
      let f ← function
      return f :: (← functions)) := by
  refine Rule.fix_unfold functions_follow fun _ h => .ifAtEnd (.refl _ _) ?_
  exact .behind function_follows (fun _ _ h => h.ne_nil id) fun f => h.bind_left _

end MiniC.Grammar
