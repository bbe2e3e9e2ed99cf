import MiniC.Proofs.Grammar.Operand
import MiniC.Proofs.Grammar.Sound
import MiniC.Proofs.Rule.Leads
import MiniC.Proofs.Rule.Unfold

/-!
# Steps behind a term

A rule for terms does not stop before `++` or `--`, except behind another one: it reads such an
operator, or refuses it as the second one of its operand. So behind a term that has been read, a
step that comes next finds no operand with an operator before it.
-/

namespace MiniC

open Rule (Follows)

/-- If a step comes next, the words end in one. -/
def Cursor.Rested (ts : List Token) (d : Cursor) : Prop :=
  ∀ w, d.peek? = some w → (Grammar.opAfter? w).isSome →
    ∃ us v, ts = us ++ [v] ∧ (Grammar.opAfter? v).isSome

namespace Rule

def Rests (rule : Rule α) : Prop :=
  Leads (fun _ _ => True) rule fun _ => Cursor.Rested

namespace Rests

theorem firstOf {rules : List (Rule α)} (h : ∀ rule ∈ rules, Rests rule) :
    Rests (Rule.firstOf rules) :=
  Leads.firstOf h (fun h => h) fun h => h

theorem operations {operand : Rule α} (h : Rests operand) (operator : Token → Option β) :
    Leads Cursor.Rested (Rule.operations operand operator) fun _ => Cursor.Rested := by
  refine .fix fun n hmore => (Leads.eat? operator).bind fun o => ?_
  cases o with
  | none => exact .pure fun _ _ hP => hP rfl
  | some op =>
    exact (h.weaken fun _ _ _ => trivial).bind fun _ => hmore.bind fun _ => .pure fun _ _ h => h

theorem leftChain {operand : Rule α} (h : Rests operand) (operator : Token → Option β)
    (join : α → β → α → α) : Rests (Rule.leftChain operand operator join) :=
  h.bind fun _ => (operations h operator).bind fun _ => .pure fun _ _ h => h

end Rests

end Rule

namespace Grammar

open Rule (Rests Leads)

variable {e : Rule Expr}

theorem step_rests : Rests (Rule.eat? opAfter?) := by
  refine ⟨fun {ts c o d} _ hr => ?_⟩
  unfold Rule.eat? at hr
  split at hr
  next op h =>
    obtain ⟨t, ht, hop⟩ := Option.bind_eq_some_iff.1 h
    cases hr
    exact ⟨[t], c.spans_skip ht, fun _ _ _ => ⟨ts, t, rfl, by simp [hop]⟩⟩
  next h =>
    cases hr
    refine ⟨[], .refl _, fun w hw hop => ?_⟩
    rw [Option.bind_eq_none_iff.1 h w hw] at hop
    cases hop

theorem single_rests : Rests (Rule.single opAfter?) := by
  refine ⟨fun {ts c o d} _ hr => ?_⟩
  unfold Rule.single at hr
  split at hr
  next => cases hr
  next h =>
    cases hr
    refine ⟨[], .refl _, fun w hw hop => ?_⟩
    rw [Option.bind_eq_none_iff.1 h w hw] at hop
    cases hop

theorem parenthesized_leads (h : Leads (fun _ _ => True) e fun _ _ _ => True) :
    Leads (fun _ _ => True) (parenthesized e)
      fun _ ts _ => ∃ us, ts = us ++ [.symbol .rightParen] := by
  have hexpect (s : Symbol) : Leads (fun _ _ => True) (Rule.expect (.symbol s))
      fun _ ts _ => ∃ us, ts = us ++ [.symbol s] := by
    refine .of_follows (.expect _ _) fun {ts _ _ _} _ _ hus => ?_
    rw [hus]
    exact ⟨ts, rfl⟩
  exact ((hexpect _).weaken fun _ _ _ => trivial).bind fun _ => (h.weaken fun _ _ _ => trivial).bind
    fun _ => (hexpect _).bind fun _ => .pure fun _ _ h => h

theorem call_leads (h : Leads (fun _ _ => True) e fun _ _ _ => True) :
    Leads (fun _ _ => True) (call e) fun _ ts _ => ∃ us, ts = us ++ [.symbol .rightParen] := by
  refine (Leads.anyhow name_follows).bind fun _ => ?_
  refine (Leads.anyhow (.expect _ _)).bind fun _ => ?_
  exact (h.commaSeparated .rightParen).bind fun _ => .pure fun _ _ h => h

/-- There is a last word, and if it is a name, it is the only word. -/
def NameAlone (ts : List Token) : Prop :=
  ∃ us t, ts = us ++ [t] ∧ ∀ x, t = .name x → us = []

theorem nameAlone_word (t : Token) : NameAlone [t] :=
  ⟨[], t, rfl, fun _ _ => rfl⟩

theorem primary_leads (h : Leads (fun _ _ => True) e fun _ _ _ => True) :
    Leads (fun ts _ => ts = []) (primary e) fun _ ts _ => NameAlone ts := by
  refine .firstOf ?_ (fun h => h) fun h => h
  have hclosed {rule : Rule Expr} (hrule : Leads (fun _ _ => True) rule
      fun _ ts _ => ∃ us, ts = us ++ [.symbol .rightParen]) :
      Leads (fun ts _ => ts = []) rule fun _ ts _ => NameAlone ts := by
    refine (hrule.weaken fun _ _ _ => trivial).mono ?_
    rintro _ _ _ ⟨us, rfl⟩
    exact ⟨us, _, rfl, nofun⟩
  have hword {β : Type} (view : Token → Option β) {t : Token} {b : β} (ht : view t = some b)
      (description : String) :
      Leads (fun ts _ => ts = []) (Rule.one view description) fun _ ts _ => NameAlone ts := by
    refine .of_follows (.one ht _) ?_
    rintro _ _ _ _ - rfl ⟨t, rfl, -⟩
    exact nameAlone_word t
  simp only [List.forall_mem_cons, List.not_mem_nil, false_imp_iff, implies_true, and_true]
  exact ⟨hclosed (call_leads h),
    (hword literalValue? (t := .int 0) rfl _).bind fun _ => .pure fun _ _ h => h,
    hclosed (parenthesized_leads h),
    (hword name? (t := .name "x") rfl _).bind fun _ => .pure fun _ _ h => h⟩

section

variable (h : Rests e)

include h

theorem unary_rests : Rests (unary e) := by
  have hprimary : Leads (fun _ _ => True) (primary e) fun _ _ _ => True := by
    refine ⟨fun _ hr => ?_⟩
    obtain ⟨us, hs, -⟩ := (primary_leads (h.mono fun _ _ _ _ => trivial)).accepted rfl hr
    exact ⟨us, hs, trivial⟩
  refine (Leads.anyhow (.eat? _)).bind fun before =>
    hprimary.bind fun operand => ?_
  cases before with
  | none =>
    refine step_rests.bind fun after => ?_
    cases after <;> exact .pure fun _ _ h => h
  | some op => exact single_rests.bind fun _ => .pure fun _ _ h => h

theorem additive_rests : Rests (additive e) :=
  .leftChain (.leftChain (unary_rests h) _ _) _ _

theorem relational_rests : Rests (relational e) := by
  refine (additive_rests h).bind fun left => (Leads.eat? _).bind fun op => ?_
  cases op with
  | none => exact .pure fun _ _ hP => hP rfl
  | some op =>
    exact ((additive_rests h).weaken fun _ _ _ => trivial).bind fun right => .pure fun _ _ h => h

theorem logicalOr_rests : Rests (logicalOr e) :=
  .leftChain (.leftChain (relational_rests h) _ _) _ _

theorem assignment_rests : Rests (assignment e) :=
  (Leads.anyhow name_follows).bind fun _ =>
    (Leads.anyhow (.expect _ _)).bind fun _ =>
      h.bind fun _ => .pure fun _ _ h => h

end

theorem expression_rests : Rests expression := by
  refine .fix fun _ h => Rests.firstOf ?_
  simp only [List.forall_mem_cons, List.not_mem_nil, false_imp_iff, implies_true, and_true]
  exact ⟨assignment_rests h, logicalOr_rests h⟩

end Grammar

end MiniC
