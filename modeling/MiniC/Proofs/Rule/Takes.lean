import MiniC.Proofs.Rule.Unfold

/-!
# What a rule cannot help reading

A rule takes certain words for a result if it accepts them wherever they come next and the words
behind them are as given. Alternatives are tried in order, so one of them is only taken where those
before it refuse.
-/

namespace MiniC

/-- Where these words come next, with `rest` behind them, the rule reads them and nothing else. -/
def Rule.Takes (rule : Rule α) (ts : List Token) (a : α) (rest : List Token) : Prop :=
  ∀ c : Cursor, c.words = ts ++ rest → ∃ d, rule c = .accepted a d ∧ d.words = rest

def Rule.Refuses (rule : Rule α) (ws : List Token) : Prop :=
  ∀ c : Cursor, c.words = ws → ∃ f d, rule c = .refused f d

namespace Rule

/-- A rule refuses where no text of its form begins. -/
theorem Follows.refuses (h : Follows rule form)
    (hno : ∀ ts rest a, ws = ts ++ rest → ¬form ts a) : rule.Refuses ws := by
  intro c hc
  cases hr : rule c with
  | accepted a d =>
    obtain ⟨ts, hs, hform⟩ := h.accepted hr
    exact absurd hform (hno ts d.words a (hc.symm.trans hs.words))
  | refused f d => exact ⟨f, d, rfl⟩

theorem Follows.refuses_head (h : Follows rule form) {P : Token → Prop}
    (hstart : ∀ ts a, form ts a → ∃ t, ts.head? = some t ∧ P t)
    (hw : ∀ t, ws.head? = some t → ¬P t) : rule.Refuses ws := by
  refine h.refuses ?_
  rintro ts rest a rfl hform
  obtain ⟨t, ht, hP⟩ := hstart ts a hform
  exact hw t (by simp [ht]) hP

namespace Takes

variable {rest ts us : List Token}

protected theorem pure (a : α) (rest : List Token) : Takes (pure a) [] a rest :=
  fun c hc => ⟨c, rfl, hc⟩

protected theorem bind {first : Rule α} {second : α → Rule β}
    (h : first.Takes ts a (us ++ rest)) (k : (second a).Takes us b rest) :
    (first >>= second).Takes (ts ++ us) b rest := by
  intro c hc
  obtain ⟨d, hd, hwords⟩ := h c (by rw [hc, List.append_assoc])
  rw [bind_accepted hd]
  exact k d hwords

theorem bind_last {first : Rule α} {second : α → Rule β} (h : first.Takes ts a rest)
    (k : (second a).Takes [] b rest) : (first >>= second).Takes ts b rest := by
  have hfirst : first.Takes ts a ([] ++ rest) := h
  simpa using hfirst.bind k

theorem bind_word {first : Rule α} {second : α → Rule β} (h : first.Takes [t] a (us ++ rest))
    (k : (second a).Takes us b rest) : (first >>= second).Takes (t :: us) b rest :=
  h.bind k

theorem bind_nothing {first : Rule α} {second : α → Rule β} (h : first.Takes [] a (ts ++ rest))
    (k : (second a).Takes ts b rest) : (first >>= second).Takes ts b rest :=
  h.bind k

theorem eat (t : Token) (rest : List Token) : Takes (eat t) [t] true rest := by
  intro c hc
  refine ⟨c.skip, if_pos ?_, by simp [hc]⟩
  simp [Cursor.peek?_eq_head?, hc]

theorem eat_none (h : rest.head? ≠ some t) : Takes (Rule.eat t) [] false rest := by
  intro c hc
  refine ⟨c, if_neg ?_, hc⟩
  rwa [Cursor.peek?_eq_head?, hc]

theorem ifEat {yes no : Rule α} (h : yes.Takes ts a rest) :
    Takes (do if ← Rule.eat t then yes else no) (t :: ts) a rest :=
  .bind_word (.eat t _) h

theorem ifNotEat {yes no : Rule α} (hne : (ts ++ rest).head? ≠ some t) (h : no.Takes ts a rest) :
    Takes (do if ← Rule.eat t then yes else no) ts a rest :=
  .bind_nothing (.eat_none hne) h

theorem ifAtEnd {yes no : Rule α} (h : yes.Takes [] a []) :
    Takes (do if ← atEnd then yes else no) [] a [] := by
  intro c hc
  have hend : c.atEnd = true := by
    simpa [Cursor.words, MiniC.words, Cursor.atEnd] using hc
  rw [ifAtEnd_apply, if_pos hend]
  exact h c hc

theorem ifNotAtEnd {yes no : Rule α} (hne : ts ≠ []) (h : no.Takes ts a rest) :
    Takes (do if ← atEnd then yes else no) ts a rest := by
  intro c hc
  have hend : c.atEnd = false := by
    cases hrest : c.rest with
    | nil => simp [Cursor.words, hrest, hne] at hc
    | cons head tail => simp [Cursor.atEnd, hrest]
  rw [ifAtEnd_apply, if_neg (by simp [hend])]
  exact h c hc

theorem eat? {view : Token → Option α} (h : view t = some a) (rest : List Token) :
    Takes (eat? view) [t] (some a) rest := by
  intro c hc
  refine ⟨c.skip, ?_, by simp [hc]⟩
  simp [Rule.eat?, Cursor.peek?_eq_head?, hc, h]

theorem eat?_none {view : Token → Option α} (h : ∀ t, rest.head? = some t → view t = none) :
    Takes (Rule.eat? view) [] none rest := by
  intro c hc
  refine ⟨c, ?_, hc⟩
  have hview : c.peek?.bind view = none := by
    rw [Cursor.peek?_eq_head?, hc]
    exact Option.bind_eq_none_iff.2 h
  simp [Rule.eat?, hview]

theorem expect (t : Token) (description : String) (rest : List Token) :
    Takes (expect t description) [t] () rest :=
  .ifEat (.pure () rest)

theorem one {view : Token → Option α} (h : view t = some a) (description : String)
    (rest : List Token) : Takes (one view description) [t] a rest :=
  .bind_word (.eat? h _) (.pure a rest)

theorem single {operator : Token → Option β} (h : ∀ t, rest.head? = some t → operator t = none) :
    Takes (single operator) [] () rest := by
  intro c hc
  refine ⟨c, ?_, hc⟩
  have hview : c.peek?.bind operator = none := by
    rw [Cursor.peek?_eq_head?, hc]
    exact Option.bind_eq_none_iff.2 h
  simp [Rule.single, hview]

theorem optional {rule : Rule α} (h : rule.Takes ts a rest) :
    Takes (optional rule) ts (some a) rest := by
  intro c hc
  obtain ⟨d, hd, hwords⟩ := h c hc
  exact ⟨d, by rw [Rule.optional, hd], hwords⟩

theorem optional_none {rule : Rule α} (h : rule.Refuses rest) :
    Takes (Rule.optional rule) [] none rest := by
  intro c hc
  obtain ⟨f, d, hd⟩ := h c hc
  exact ⟨(d.backTo c).note f, by rw [Rule.optional, hd], hc⟩

theorem here {rule : Rule α} (h : rule.Takes ts a rest) (rules : List (Rule α))
    (given : Option Failure) : Takes (firstOfAfter given (rule :: rules)) ts a rest := by
  intro c hc
  obtain ⟨d, hd, hwords⟩ := h c hc
  rw [firstOfAfter, hd]
  refine ⟨_, rfl, ?_⟩
  cases given <;> exact hwords

theorem later {rule : Rule α} {rules : List (Rule α)} (hrefuses : rule.Refuses (ts ++ rest))
    (h : ∀ given, Takes (firstOfAfter given rules) ts a rest) (given : Option Failure) :
    Takes (firstOfAfter given (rule :: rules)) ts a rest := by
  intro c hc
  obtain ⟨f, d, hd⟩ := hrefuses c hc
  rw [firstOfAfter, hd]
  exact h _ (d.backTo c) hc

section

variable {item : Rule α} {form : Form α} (hform : Follows item form)
  (hne : ∀ ts a, form ts a → ts ≠ [])

include hform hne

theorem lastItem (h : item.Takes ts a (.symbol closing :: rest)) (hclosing : closing ≠ .comma) :
    Takes (items item closing) (ts ++ [.symbol closing]) [a] rest := by
  rw [items_eq hform hne]
  exact .bind h (.ifNotEat (by simpa using hclosing) (.ifEat (.pure [a] rest)))

theorem moreItems (h : item.Takes ts a (.symbol .comma :: (us ++ rest)))
    (k : (items item closing).Takes us as rest) :
    Takes (items item closing) (ts ++ .symbol .comma :: us) (a :: as) rest := by
  rw [items_eq hform hne]
  exact .bind h (.ifEat (.bind_last k (.pure _ rest)))

theorem noOperation {operator : Token → Option β}
    (h : ∀ t, rest.head? = some t → operator t = none) :
    Takes (operations item operator) [] [] rest := by
  rw [operations_eq hform hne]
  exact .bind_nothing (.eat?_none h) (.pure [] rest)

theorem operation {operator : Token → Option β} (ht : operator t = some op)
    (h : item.Takes ts a (us ++ rest)) (k : (operations item operator).Takes us as rest) :
    Takes (operations item operator) (t :: (ts ++ us)) ((op, a) :: as) rest := by
  rw [operations_eq hform hne]
  exact .bind_word (.eat? ht _) (.bind h (.bind_last k (.pure _ rest)))

end

end Takes

end Rule

end MiniC
