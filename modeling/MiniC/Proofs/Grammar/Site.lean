import MiniC.Proofs.Grammar.Congruence
import MiniC.Proofs.Grammar.Step
import MiniC.Proofs.Rule.Raised

/-!
# What failures are raised, and where

Each failure that a rule of the grammar raises has its reason (`Site`). Either something is missing,
and for everything that it names there is a word with which the text could go on. Or a step comes
next, and an operand with an operator before it ends here. Where the latter is the case, nothing
else is missing than a parenthesis behind a name, or the step could have gone on the text.
-/

namespace MiniC

/-- The words that a description in a report stands for. -/
inductive Token.Answers : Token → String → Prop
  | name (x : String) : Answers (.name x) "identifier"
  | type (k : TypeName) : Answers (.type k) "type name"
  | literal (v : Value) : Answers v.literal "literal"
  | keyword (k : Keyword) : Answers (.keyword k) (Token.keyword k).description
  | symbol (s : Symbol) : Answers (.symbol s) (Token.symbol s).description

theorem Form.Begins.of_text {form : Form α} (h : form us a) (hts : ts <+: us) : form.Begins ts := by
  obtain ⟨vs, rfl⟩ := hts
  exact ⟨vs, a, h⟩

theorem Form.Begins.left {form : Form α} (h : form.Begins (ts ++ us)) : form.Begins ts := by
  obtain ⟨vs, a, ha⟩ := h
  exact ⟨us ++ vs, a, by rwa [← List.append_assoc]⟩

namespace Grammar

variable {α β : Type} {form : Form α} {part : Form β} {before ts us : List Token} {c d : Cursor}

/-- If a step comes next, then no operand with an operator before it ends here, or the text may go
on with the step. -/
def Free (form : Form α) (ts : List Token) (d : Cursor) : Prop :=
  ∀ w, d.peek? = some w → (opAfter? w).isSome → ts ≠ [] →
    (∀ before, ¬Operand (before ++ ts)) ∨ form.Begins (ts ++ [w])

/-- Why a failure is raised behind words with which a text of the form begins. -/
inductive Site (form : Form α) (ts : List Token) (d : Cursor) : Failure → Prop
  | missing (names : List String) : names ≠ [] → names.Nodup →
      (∀ x ∈ names, ∃ t : Token, t.Answers x ∧ form.Begins (ts ++ [t])) →
      (Free form ts d ∨
        names = [(Token.symbol .leftParen).description] ∧ ∃ us x, ts = us ++ [.name x]) →
      Site form ts d (d.unexpected names)
  | conflict (w : Token) : d.peek? = some w → (opAfter? w).isSome → Operand ts → form.Begins ts →
      Site form ts d (.conflictingUnary d.position)

/-- What is raised from `c` on has its reason in a text of the form that begins with `before`. -/
abbrev Sites {rule : Rule β} (L : Log rule) (form : Form α) (before : List Token) (c : Cursor) :
    Prop :=
  L.At (Site form) before c

theorem Site.place (h : Site form ts d g) : g.place = d.position := by
  cases h with
  | missing => exact d.place_unexpected _
  | conflict => rfl

-- ---------------------------------------------------------------------------
-- Words behind which a step finds no operand
-- ---------------------------------------------------------------------------

theorem free_nil : Free form [] d :=
  fun _ _ _ h => absurd rfl h

theorem free_of_not_operand (h : ∀ before, ¬Operand (before ++ ts)) : Free form ts d :=
  fun _ _ _ _ => .inl h

theorem free_word (h : ¬EndsPrimary t) : Free form (ts ++ [t]) d :=
  free_of_not_operand fun before hoperand => h (Operand.last (by rwa [List.append_assoc]))

theorem not_endsPrimary_symbol (h : s ≠ .rightParen) : ¬EndsPrimary (.symbol s) := by
  rintro (⟨x, hx⟩ | ⟨v, hv⟩ | hparen)
  · cases hx
  · exact literal_ne_symbol v s hv.symm
  · exact h (Token.symbol.inj hparen)

theorem free_symbol (ts : List Token) (h : s ≠ .rightParen) : Free form (ts ++ [.symbol s]) d :=
  free_word (not_endsPrimary_symbol h)

theorem free_keyword (ts : List Token) (k : Keyword) : Free form (ts ++ [.keyword k]) d := by
  refine free_word ?_
  rintro (⟨x, hx⟩ | ⟨v, hv⟩ | hparen)
  · cases hx
  · cases v <;> cases hv
  · cases hparen

theorem free_type (ts : List Token) (k : TypeName) : Free form (ts ++ [.type k]) d := by
  refine free_word ?_
  rintro (⟨x, hx⟩ | ⟨v, hv⟩ | hparen)
  · cases hx
  · cases v <;> cases hv
  · cases hparen

theorem free_of_rested (h : d.Rested ts) (before : List Token) : Free form (before ++ ts) d := by
  intro w hw hop _
  obtain ⟨us, v, rfl, hv⟩ := h w hw hop
  obtain ⟨op, hstep⟩ := Option.isSome_iff_exists.1 hv
  obtain ⟨rfl, -⟩ := opAfter?_eq_some.1 hstep
  refine .inl fun more hoperand => not_endsPrimary_symbol (unaryOp_not_paren op).2 ?_
  exact @Operand.last (more ++ before ++ us) _ (by simpa using hoperand)

theorem free_declared (ts : List Token) (k : TypeName) (x : String) :
    Free form (ts ++ [.type k, .name x]) d := by
  refine free_of_not_operand fun before hoperand => ?_
  obtain ⟨more, op, heq⟩ := @Operand.name (before ++ ts ++ [.type k]) x (by simpa using hoperand)
  cases (List.append_singleton_inj.1 heq).2

theorem free_of_begins (h : ∀ op : UnaryOp, op.Steps → form.Begins (ts ++ [.symbol op.symbol])) :
    Free form ts d := by
  intro w _ hw _
  obtain ⟨op, hop⟩ := Option.isSome_iff_exists.1 hw
  obtain ⟨rfl, hsteps⟩ := opAfter?_eq_some.1 hop
  exact .inr (h op hsteps)

-- ---------------------------------------------------------------------------
-- Texts within texts
-- ---------------------------------------------------------------------------

theorem Site.within (h : Site part us d f) (hwhole : ∀ ts a, part ts a → form.Begins (before ++ ts))
    (hstart : us = [] → Free form before d) : Site form (before ++ us) d f := by
  have hbegins {ts} (h : part.Begins ts) : form.Begins (before ++ ts) := by
    obtain ⟨more, a, ha⟩ := h
    have hall := hwhole _ a ha
    rw [← List.append_assoc] at hall
    exact hall.left
  cases h with
  | missing names hne hnodup hviable hfree =>
    refine .missing names hne hnodup ?_ ?_
    · intro x hx
      obtain ⟨t, ht, hb⟩ := hviable x hx
      exact ⟨t, ht, by simpa using hbegins hb⟩
    · rcases hfree with hfree | ⟨hnames, us, x, rfl⟩
      · by_cases hus : us = []
        · subst hus
          rw [List.append_nil]
          exact .inl (hstart rfl)
        · refine .inl fun w hw hop _ => (hfree w hw hop hus).imp (fun h before' => ?_) fun h => ?_
          · rw [← List.append_assoc]
            exact h _
          · simpa using hbegins h
      · exact .inr ⟨hnames, before ++ us, x, by simp⟩
  | conflict w hw hop hoperand hts =>
    exact .conflict w hw hop (hoperand.behind before) (hbegins hts)

theorem sites_within {rule : Rule γ} {L : Log rule} (h : Sites L part [] c)
    (hwhole : ∀ ts a, part ts a → form.Begins (before ++ ts)) (hstart : Free form before c) :
    Sites L form before c := by
  refine h.within fun us d f hs hsite => hsite.within hwhole ?_
  rintro rfl
  obtain ⟨read, hc, hstop, hread⟩ := hs
  obtain rfl : read = [] := List.map_eq_nil_iff.1 hread.symm
  have hpeek : d.peek? = c.peek? := by rw [Cursor.peek?, Cursor.peek?, hc, List.nil_append]
  rwa [Free, hpeek]

theorem site_word (hx : t.Answers x) (h : form.Begins (ts ++ [t])) (hfree : Free form ts d) :
    Site form ts d (d.unexpected [x]) := by
  refine .missing [x] (List.cons_ne_nil x []) (by simp) ?_ (.inl hfree)
  intro y hy
  obtain rfl := List.mem_singleton.1 hy
  exact ⟨t, hx, h⟩

def logs : Congruence Log.OfFirst :=
  Rule.logs.withSingle (.single opAfter?)

end Grammar

end MiniC
