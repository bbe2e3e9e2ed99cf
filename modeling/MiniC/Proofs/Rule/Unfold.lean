import MiniC.Proofs.Rule.Form

/-!
# Rules that contain themselves

`fix` lets a rule use itself only where fewer tokens are left. A rule that reads a token before it
uses itself does not notice this: there `fix body = body (fix body)`. That it does is shown along
its parts. Two inner rules that agree below `n` tokens make outer rules that agree below `n + 1`.
-/

namespace MiniC

namespace Cursor

variable {c d : Cursor} {ts : List Token}

theorem Spans.length_eq (h : c.Spans ts d) : c.rest.length = ts.length + d.rest.length := by
  obtain ⟨read, hc, -, rfl⟩ := h
  simp [hc]

end Cursor

namespace Rule

/-- Two rules do the same wherever fewer than `n` tokens are left. -/
def AgreeBelow (n : Nat) (rule other : Rule α) : Prop :=
  ∀ c, c.rest.length < n → rule c = other c

theorem Follows.below (h : Follows rule form) (n : Nat) : Follows (rule.below n) form := by
  refine .of_pointwise h.inhabited fun c => ?_
  by_cases hc : c.rest.length < n
  · exact ⟨rule, h, below_of_lt hc⟩
  · exact ⟨_, .refuse h.inhabited [], below_of_not_lt hc⟩

theorem fix_unfold {body : Rule α → Rule α} (h : Follows (fix body) form)
    (step : ∀ {n inner other}, Follows inner form → AgreeBelow n inner other →
      AgreeBelow (n + 1) (body inner) (body other)) :
    fix body = body (fix body) := by
  funext c
  rw [fix_eq_below]
  have hagree : AgreeBelow c.rest.length ((fix body).below c.rest.length) (fix body) :=
    fun d hd => below_of_lt hd
  exact step (h.below _) hagree c (Nat.lt_succ_self _)

namespace AgreeBelow

theorem refl (n : Nat) (rule : Rule α) : AgreeBelow n rule rule :=
  fun _ _ => rfl

theorem trans {first second third : Rule α} (h : AgreeBelow n first second)
    (k : AgreeBelow n second third) : AgreeBelow n first third :=
  fun c hc => (h c hc).trans (k c hc)

protected theorem bind {first first' : Rule α} {second second' : α → Rule β} {form : Form α}
    (hform : Follows first form) (h : AgreeBelow n first first')
    (k : ∀ a, AgreeBelow n (second a) (second' a)) :
    AgreeBelow n (first >>= second) (first' >>= second') := by
  intro c hc
  cases hfirst : first c with
  | accepted a d =>
    obtain ⟨ts, hs, -⟩ := hform.accepted hfirst
    rw [bind_accepted hfirst, bind_accepted ((h c hc).symm.trans hfirst)]
    exact k a d (Nat.lt_of_le_of_lt hs.length_le hc)
  | refused f d => rw [bind_refused hfirst, bind_refused ((h c hc).symm.trans hfirst)]

theorem bind_right {first : Rule α} {second second' : α → Rule β} {form : Form α}
    (hform : Follows first form) (k : ∀ a, AgreeBelow n (second a) (second' a)) :
    AgreeBelow n (first >>= second) (first >>= second') :=
  .bind hform (.refl n first) k

theorem bind_left {first first' : Rule α} (h : AgreeBelow n first first') (second : α → Rule β) :
    AgreeBelow n (first >>= second) (first' >>= second) := by
  intro c hc
  change Rule.bind first second c = Rule.bind first' second c
  rw [Rule.bind, Rule.bind, h c hc]

theorem behind {first : Rule α} {second second' : α → Rule β} {form : Form α}
    (hform : Follows first form) (hne : ∀ ts a, form ts a → ts ≠ [])
    (k : ∀ a, AgreeBelow n (second a) (second' a)) :
    AgreeBelow (n + 1) (first >>= second) (first >>= second') := by
  intro c hc
  cases hfirst : first c with
  | accepted a d =>
    obtain ⟨ts, hs, hts⟩ := hform.accepted hfirst
    rw [bind_accepted hfirst, bind_accepted hfirst]
    refine k a d ?_
    have hlength := hs.length_eq
    have hpos := List.length_pos_iff.2 (hne ts a hts)
    omega
  | refused f d => rw [bind_refused hfirst, bind_refused hfirst]

theorem behindExpect {second second' : Unit → Rule β} {description : String}
    (k : AgreeBelow n (second ()) (second' ())) :
    AgreeBelow (n + 1) (expect t description >>= second) (expect t description >>= second') :=
  .behind (.expect t description) (by rintro _ _ rfl; exact List.cons_ne_nil t []) fun _ => k

/-- Two rules agree, and what is read behind them has one token less to agree on. -/
theorem after {first first' : Rule α} {second second' : α → Rule β} {form : Form α}
    (hform : Follows first form) (hne : ∀ ts a, form ts a → ts ≠ [])
    (h : AgreeBelow (n + 1) first first') (k : ∀ a, AgreeBelow n (second a) (second' a)) :
    AgreeBelow (n + 1) (first >>= second) (first' >>= second') :=
  (behind hform hne k).trans (h.bind_left second')

theorem optional {rule other : Rule α} (h : AgreeBelow n rule other) :
    AgreeBelow n (optional rule) (optional other) := by
  intro c hc
  rw [Rule.optional, Rule.optional, h c hc]

theorem firstOf {ι : Type} {inner other : ι} (alternatives : List (ι → Rule β))
    (h : ∀ body ∈ alternatives, AgreeBelow n (body inner) (body other)) :
    AgreeBelow n (firstOf (alternatives.map (· inner))) (firstOf (alternatives.map (· other))) := by
  intro c hc
  unfold Rule.firstOf
  generalize (none : Option Failure) = given
  induction alternatives generalizing given c with
  | nil => rfl
  | cons body rest ih =>
    have hbody := h body List.mem_cons_self c hc
    have hrest := ih fun b hb => h b (List.mem_cons_of_mem body hb)
    simp only [List.map_cons, firstOfAfter, hbody]
    cases body other c with
    | accepted a d => rfl
    | refused f d => exact hrest (d.backTo c) hc _

theorem fix {body body' : Rule α → Rule α}
    (h : ∀ inner, AgreeBelow n (body inner) (body' inner)) :
    AgreeBelow n (fix body) (fix body') := by
  intro c hc
  induction hlength : c.rest.length using Nat.strongRecOn generalizing c with
  | ind m ih =>
    rw [fix_eq_below, fix_eq_below, h _ c hc]
    congr 1
    funext d
    by_cases hd : d.rest.length < c.rest.length
    · rw [below_of_lt hd, below_of_lt hd]
      exact ih _ (hlength ▸ hd) d (Nat.lt_trans hd hc) rfl
    · rw [below_of_not_lt hd, below_of_not_lt hd]

theorem matchEat? {view : Token → Option α} {second second' : Option α → Rule β}
    (hnone : AgreeBelow (n + 1) (second none) (second' none))
    (hsome : ∀ a, AgreeBelow n (second (some a)) (second' (some a))) :
    AgreeBelow (n + 1) (eat? view >>= second) (eat? view >>= second') := by
  intro c hc
  cases heat : eat? view c with
  | accepted o d =>
    obtain ⟨ts, hs, hts⟩ := (Follows.eat? view).accepted heat
    rw [bind_accepted heat, bind_accepted heat]
    cases o with
    | none => exact hnone d (Nat.lt_of_le_of_lt hs.length_le hc)
    | some a =>
      obtain ⟨t, rfl, -⟩ := hts
      refine hsome a d ?_
      have hlength := hs.length_eq
      simp only [List.length_singleton] at hlength
      omega
  | refused f d => rw [bind_refused heat, bind_refused heat]

theorem ifEat {yes yes' no no' : Rule α} (hy : AgreeBelow n yes yes') (hn : AgreeBelow n no no') :
    AgreeBelow n (do if ← eat t then yes else no) (do if ← eat t then yes' else no') := by
  refine .bind_right (.eat t) fun eaten => ?_
  cases eaten with
  | true => exact hy
  | false => exact hn

theorem ifAtEnd {yes yes' no no' : Rule α} (hy : AgreeBelow n yes yes')
    (hn : AgreeBelow n no no') :
    AgreeBelow n (do if ← atEnd then yes else no) (do if ← atEnd then yes' else no') := by
  refine .bind_right .atEnd fun ended => ?_
  cases ended with
  | true => exact hy
  | false => exact hn

theorem commaSeparated {item item' : Rule α} (h : AgreeBelow n item item') (closing : Symbol) :
    AgreeBelow n (commaSeparated item closing) (commaSeparated item' closing) :=
  .ifEat (.refl n _) (.fix fun _ => h.bind_left _)

theorem leftChain {operand operand' : Rule α} (h : AgreeBelow n operand operand')
    (hform : Follows operand form) (operator : Token → Option β) (join : α → β → α → α) :
    AgreeBelow n (leftChain operand operator join) (leftChain operand' operator join) := by
  have hoperations : AgreeBelow n (operations operand operator) (operations operand' operator) := by
    refine .fix fun more => .bind_right (.eat? _) fun op => ?_
    cases op with
    | none => exact .refl n _
    | some op => exact h.bind_left _
  exact .bind hform h fun first => hoperations.bind_left _

end AgreeBelow

-- ---------------------------------------------------------------------------
-- Lists
-- ---------------------------------------------------------------------------

theorem items_eq {item : Rule α} (h : Follows item form) (hne : ∀ ts a, form ts a → ts ≠ [])
    (closing : Symbol) : items item closing = (do
      let a ← item
      if ← eat (.symbol .comma) then return a :: (← items item closing)
      else if ← eat (.symbol closing) then return [a]
      else refuse [(Token.symbol .comma).description, (Token.symbol closing).description]) := by
  have hitems : Follows (items item closing) fun _ _ => True :=
    .items h (fun _ _ _ => trivial) fun _ _ _ _ _ _ => trivial
  refine fix_unfold hitems fun _ hinner => .behind h hne fun a => ?_
  exact .ifEat (hinner.bind_left _) (.refl _ _)

theorem operations_eq {operand : Rule α} (h : Follows operand form)
    (hne : ∀ ts a, form ts a → ts ≠ []) (operator : Token → Option β) :
    operations operand operator = (do
      match ← eat? operator with
      | none => return []
      | some op =>
        let right ← operand
        return (op, right) :: (← operations operand operator)) := by
  have hoperations : Follows (operations operand operator) fun _ _ => True :=
    .operations h trivial fun _ _ _ _ _ _ _ _ _ => trivial
  refine fix_unfold hoperations fun _ hinner => .bind_right (.eat? _) fun op => ?_
  cases op with
  | none => exact .refl _ _
  | some op => exact .behind h hne fun right => hinner.bind_left _

end Rule

end MiniC
