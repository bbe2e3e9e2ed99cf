import MiniC.Proofs.Rule.Log
import MiniC.Proofs.Rule.Unfold

/-!
# Where failures are raised

`Log.At S before c`: whatever a rule raises while it reads from `c` on, it raises behind words `us`
such that `S` holds of `before ++ us`, of the place there and of the failure. Here `before` are the
words that were read to come to `c`. So what is shown of a rule is shown step by step, from what is
behind each of its parts.
-/

namespace MiniC

theorem Cursor.Spans.unique {c d : Cursor} (h : c.Spans ts d) (k : c.Spans us d) : ts = us :=
  List.append_cancel_right (h.words.symm.trans k.words)

theorem Cursor.Spans.skip {c d : Cursor} (h : c.Spans [t] d) :
    c.peek? = some t ∧ d.rest = c.skip.rest ∧ d.stop = c.skip.stop := by
  have hpeek : c.peek? = some t := by rw [Cursor.peek?_eq_head?, h.words]; rfl
  obtain ⟨read, hc, hstop, hread⟩ := h
  obtain ⟨head, rfl, -⟩ := List.map_eq_singleton_iff.1 hread.symm
  exact ⟨hpeek, by simp [Cursor.skip, hc], hstop⟩

theorem Rule.expect_eq_accepted {t : Token} {description : String} :
    Rule.expect t description c = .accepted u d ↔ c.peek? = some t ∧ d = c.skip := by
  change (Rule.eat t >>= fun eaten =>
    if eaten = true then pure () else Rule.refuse [description]) c = _ ↔ _
  by_cases h : c.peek? = some t
  · have heat : Rule.eat t c = .accepted true c.skip := if_pos h
    rw [Rule.bind_accepted heat]
    exact ⟨fun hd => ⟨h, (Reply.accepted.inj hd).2.symm⟩, fun ⟨_, hd⟩ => hd ▸ rfl⟩
  · have heat : Rule.eat t c = .accepted false c := if_neg h
    rw [Rule.bind_accepted heat]
    exact ⟨nofun, fun ⟨ht, _⟩ => absurd ht h⟩

theorem Rule.expect_refused {t : Token} {description : String} (h : c.peek? ≠ some t) :
    Rule.expect t description c = .refused (c.unexpected [description]) c := by
  change (Rule.eat t >>= fun eaten =>
    if eaten = true then pure () else Rule.refuse [description]) c = _
  have heat : Rule.eat t c = .accepted false c := if_neg h
  rw [Rule.bind_accepted heat]
  rfl

theorem Rule.one_eq_accepted {view : Token → Option α} {description : String} :
    Rule.one view description c = .accepted a d ↔
      ∃ t, c.peek? = some t ∧ view t = some a ∧ d = c.skip := by
  change (Rule.eat? view >>= _) c = _ ↔ _
  cases h : c.peek?.bind view with
  | none =>
    have heat : Rule.eat? view c = .accepted none c := by rw [Rule.eat?, h]
    rw [Rule.bind_accepted heat]
    refine ⟨nofun, fun ⟨t, ht, ha, _⟩ => ?_⟩
    simp [ht, ha] at h
  | some b =>
    have heat : Rule.eat? view c = .accepted (some b) c.skip := by rw [Rule.eat?, h]
    obtain ⟨t, ht, hb⟩ := Option.bind_eq_some_iff.1 h
    rw [Rule.bind_accepted heat]
    constructor
    · rintro ⟨⟩
      exact ⟨t, ht, hb, rfl⟩
    · rintro ⟨u, hu, ha, rfl⟩
      obtain rfl := Option.some.inj (ht.symm.trans hu)
      obtain rfl := Option.some.inj (hb.symm.trans ha)
      rfl

namespace Log

open Rule (Follows)

variable {α β : Type} {rule : Rule α} {S T : List Token → Cursor → Failure → Prop}
  {before : List Token} {c d : Cursor} {n : Nat}

/-- What the rule raises from `c` on is raised where `S` says. -/
def At (L : Log rule) (S : List Token → Cursor → Failure → Prop) (before : List Token)
    (c : Cursor) : Prop :=
  ∀ d f, L.raised c d f → ∃ us, c.Spans us d ∧ S (before ++ us) d f

theorem At.within {L : Log rule} (h : L.At T [] c)
    (hT : ∀ us d f, c.Spans us d → T us d f → S (before ++ us) d f) : L.At S before c := by
  intro d f hf
  obtain ⟨us, hs, hsite⟩ := h d f hf
  exact ⟨us, hs, hT us d f hs hsite⟩

theorem At.silent {L : Log rule} (h : ∀ d f, ¬L.raised c d f) : L.At S before c :=
  fun d f hf => absurd hf (h d f)

theorem At.pure {a : α} : (Rule.logs.pure a).At S before c :=
  .silent fun _ _ => id

theorem At.refuse {expected : List String} (h : S before c (c.unexpected expected)) :
    (refuse expected : Log (Rule.refuse expected : Rule α)).At S before c := by
  rintro _ _ ⟨rfl, rfl⟩
  exact ⟨[], .refl _, by rwa [List.append_nil]⟩

theorem At.bind {first : Rule α} {second : α → Rule β} {L : Log first} {M : ∀ a, Log (second a)}
    {part : Form α} (hpart : Follows first part) (h : L.At S before c)
    (k : ∀ a e us, first c = .accepted a e → c.Spans us e → part us a →
      (M a).At S (before ++ us) e) :
    (L.bind M).At S before c := by
  rintro d f (hf | ⟨a, e, hr, hf⟩)
  · exact h d f hf
  · obtain ⟨us, hs, hus⟩ := hpart.accepted hr
    obtain ⟨vs, hs', hsite⟩ := k a e us hr hs hus d f hf
    exact ⟨us ++ vs, hs.trans hs', by rwa [← List.append_assoc]⟩

/-- Behind the rule nothing else is read. -/
theorem At.last {L : Log rule} {result : α → β} (h : L.At S before c) :
    (L.bind fun a => Rule.logs.pure (result a)).At S before c := by
  rintro d f (hf | ⟨a, e, hr, hf⟩)
  · exact h d f hf
  · exact hf.elim

theorem At.optional {L : Log rule} (h : L.At S before c) : L.optional.At S before c :=
  h

-- ---------------------------------------------------------------------------
-- Single words
-- ---------------------------------------------------------------------------

theorem At.eat {t : Token} {second : Bool → Rule α} {M : ∀ eaten, Log (second eaten)}
    (hyes : c.peek? = some t → (M true).At S (before ++ [t]) c.skip)
    (hno : c.peek? ≠ some t → (M false).At S before c) :
    ((Rule.logs.eat t).bind M).At S before c := by
  rintro d f (hf | ⟨eaten, e, hr, hf⟩)
  · exact hf.elim
  · unfold Rule.eat at hr
    split at hr
    next ht =>
      cases hr
      obtain ⟨us, hs, hsite⟩ := hyes ht d f hf
      exact ⟨t :: us, (c.spans_skip ht).trans hs, by simpa using hsite⟩
    next ht =>
      cases hr
      exact hno ht d f hf

theorem At.atEnd {second : Bool → Rule α} {M : ∀ ended, Log (second ended)}
    (h : (M c.atEnd).At S before c) : (Rule.logs.atEnd.bind M).At S before c := by
  rintro d f (hf | ⟨ended, e, hr, hf⟩)
  · exact hf.elim
  · cases hr
    exact h d f hf

theorem At.eat? {view : Token → Option α} {second : Option α → Rule β} {M : ∀ o, Log (second o)}
    (none : (∀ t, c.peek? = some t → view t = none) → (M none).At S before c)
    (some : ∀ t a, c.peek? = some t → view t = some a → (M (some a)).At S (before ++ [t]) c.skip) :
    ((Rule.logs.eat? view).bind M).At S before c := by
  rintro d f (hf | ⟨o, e, hr, hf⟩)
  · exact hf.elim
  · unfold Rule.eat? at hr
    split at hr
    next a h =>
      obtain ⟨t, ht, ha⟩ := Option.bind_eq_some_iff.1 h
      cases hr
      obtain ⟨us, hs, hsite⟩ := some t a ht ha d f hf
      exact ⟨t :: us, (c.spans_skip ht).trans hs, by simpa using hsite⟩
    next h =>
      cases hr
      exact none (Option.bind_eq_none_iff.1 h) d f hf

theorem At.expect {t : Token} {description : String} {second : Unit → Rule α}
    {M : ∀ u, Log (second u)} (h : S before c (c.unexpected [description]))
    (k : c.peek? = some t → (M ()).At S (before ++ [t]) c.skip) :
    ((Rule.logs.expect t description).bind M).At S before c := by
  rintro d f (hf | ⟨u, e, hr, hf⟩)
  · exact At.eat (fun _ => .silent fun _ _ => id) (fun _ => .refuse h) d f hf
  · obtain ⟨ht, rfl⟩ := Rule.expect_eq_accepted.1 hr
    obtain ⟨us, hs, hsite⟩ := k ht d f hf
    exact ⟨t :: us, (c.spans_skip ht).trans hs, by simpa using hsite⟩

theorem At.one {view : Token → Option α} {description : String} {second : α → Rule β}
    {M : ∀ a, Log (second a)} (h : S before c (c.unexpected [description]))
    (k : ∀ t a, c.peek? = some t → view t = some a → (M a).At S (before ++ [t]) c.skip) :
    ((Rule.logs.one view description).bind M).At S before c := by
  rintro d f (hf | ⟨a, e, hr, hf⟩)
  · exact At.eat? (fun _ => .refuse h) (fun _ _ _ _ => .silent fun _ _ => id) d f hf
  · obtain ⟨t, ht, ha, rfl⟩ := Rule.one_eq_accepted.1 hr
    obtain ⟨us, hs, hsite⟩ := k t a ht ha d f hf
    exact ⟨t :: us, (c.spans_skip ht).trans hs, by simpa using hsite⟩

-- ---------------------------------------------------------------------------
-- Alternatives
-- ---------------------------------------------------------------------------

def Each.At {rules rules' : List (Rule α)} (S : List Token → Cursor → Failure → Prop)
    (before : List Token) (c : Cursor) : Each rules rules' → Prop
  | .nil => True
  | .cons L Ls => L.At S before c ∧ Each.At S before c Ls

theorem At.firstOf {rules rules' : List (Rule α)} {Ls : Each (rule :: rules) rules'}
    (h : ∀ noted, Each.At S before { c with noted := noted } Ls) :
    (Log.firstOf Ls).At S before c := by
  have hany {rules rules' : List (Rule α)} (Ls : Each rules rules')
      (h : ∀ noted, Each.At S before { c with noted := noted } Ls) (noted : Option Failure)
      (d f) (hf : tried Ls { c with noted := noted } d f) :
      ∃ us, c.Spans us d ∧ S (before ++ us) d f := by
    induction Ls generalizing noted with
    | nil => exact hf.elim
    | cons L Ls ih =>
      rcases hf with hf | ⟨g, left, -, hf⟩
      · obtain ⟨us, hs, hsite⟩ := (h noted).1 d f hf
        exact ⟨us, hs.congr ⟨rfl, rfl⟩ ⟨rfl, rfl⟩, hsite⟩
      · exact ih (fun noted => (h noted).2) left.noted hf
  rintro d f (hf | ⟨hnil, -⟩)
  · exact hany Ls h c.noted d f hf
  · cases hnil

-- ---------------------------------------------------------------------------
-- Rules that contain themselves
-- ---------------------------------------------------------------------------

/-- What is raised by a rule that contains itself: the rule inside is used only where fewer tokens
are left, and there the same is already known of it. -/
theorem At.fix {body : Rule α → Rule α} {step : ∀ inner, Log inner → Log (body inner)}
    {form : Form α} (hform : Follows (Rule.fix body) form)
    (h : ∀ c inner (L : Log inner), Follows inner form →
      (∀ {d a e}, inner d = .accepted a e → Rule.fix body d = .accepted a e) → c.rest.length < n →
      (∀ d, d.rest.length < c.rest.length → L.At S [] d) → (step inner L).At S [] c) :
    ∀ c, c.rest.length < n → (Log.fix step).At S [] c := by
  intro c hc
  induction hlength : c.rest.length using Nat.strongRecOn generalizing c with
  | ind m ih =>
    subst hlength
    refine h c _ (Log.below step c.rest.length) (hform.below _) (fun {d a e} hr => ?_) hc
      fun d hd e f hf => ?_
    · unfold Rule.below at hr
      split at hr
      · exact hr
      · cases hr
    · rw [raised_below step hd] at hf
      exact ih _ hd d (Nat.lt_trans hd hc) rfl e f hf

end Log

end MiniC
