import MiniC.Proofs.Rule.Place

/-!
# What a rule reads

A form relates words to what they spell. A rule follows a form if the words it reads always spell
its result, and if every failure it reports stands behind words with which some text of the form
begins. Every way of putting rules together keeps this, so the forms of its parts make up a form
of a rule.
-/

namespace MiniC

abbrev Form (α : Type) : Type :=
  List Token → α → Prop

namespace Form

def Begins (form : Form α) (ts : List Token) : Prop :=
  ∃ us a, form (ts ++ us) a

def word (t : Token) : Form Unit :=
  fun ts _ => ts = [t]

def meaning (view : Token → Option α) : Form α :=
  fun ts a => ∃ t, ts = [t] ∧ view t = some a

def optional (form : Form α) : Form (Option α) :=
  fun ts o =>
    match o with
    | some a => form ts a
    | none => ts = []

def closed (form : Form α) (t : Token) : Form α :=
  fun ts a => ∃ us, ts = us ++ [t] ∧ form us a

@[simp] theorem optional_none {form : Form α} : form.optional ts none ↔ ts = [] := Iff.rfl

end Form

namespace Rule

theorem bind_eq_accepted {first : Rule α} {second : α → Rule β} :
    (first >>= second) c = .accepted b d ↔
      ∃ a e, first c = .accepted a e ∧ second a e = .accepted b d := by
  cases h : first c with
  | accepted a e =>
    rw [bind_accepted h]
    constructor
    · exact fun hd => ⟨a, e, rfl, hd⟩
    · rintro ⟨_, _, ⟨⟩, hd⟩
      exact hd
  | refused f e => simp [bind_refused h]

theorem optional_eq_some {rule : Rule α} :
    optional rule c = .accepted (some a) d ↔ rule c = .accepted a d := by
  unfold optional
  cases rule c <;> simp

theorem spans_optional_none {rule : Rule α} (h : optional rule c = .accepted none d) :
    c.Spans [] d := by
  unfold optional at h
  split at h
  · cases h
  · cases h
    exact (Cursor.Spans.refl c).congr ⟨rfl, rfl⟩ ⟨rfl, rfl⟩

/-- A choice that refuses has not moved. -/
theorem spans_refused_firstOf {rules : List (Rule α)} {c d : Cursor}
    (h : firstOf rules c = .refused f d) : c.Spans [] d := by
  unfold firstOf at h
  generalize (none : Option Failure) = given at h
  induction rules generalizing given c with
  | nil =>
    cases h
    exact .refl d
  | cons rule rules ih =>
    rw [firstOfAfter] at h
    cases hrule : rule c with
    | accepted a e =>
      rw [hrule] at h
      cases h
    | refused g e =>
      rw [hrule] at h
      exact (ih _ h).congr ⟨rfl, rfl⟩ ⟨rfl, rfl⟩

theorem ifAtEnd_apply (yes no : Rule α) (c : Cursor) :
    (do if ← atEnd then yes else no) c = if c.atEnd then yes c else no c := by
  have hend : atEnd c = .accepted c.atEnd c := rfl
  rw [bind_accepted hend]
  split <;> rfl

def below (n : Nat) (rule : Rule α) : Rule α :=
  fun c => if c.rest.length < n then rule c else refuse [] c

theorem below_of_lt {rule : Rule α} (h : c.rest.length < n) : rule.below n c = rule c :=
  if_pos h

theorem below_of_not_lt {rule : Rule α} (h : ¬c.rest.length < n) :
    rule.below n c = refuse [] c :=
  if_neg h

theorem fix_eq_below (body : Rule α → Rule α) (c : Cursor) :
    fix body c = body ((fix body).below c.rest.length) c :=
  fix_eq body c

/-- The rule reads nothing but texts of a form, and what it reports stands behind words with which
a text of the form begins. The latter is said for every property `Φ` of failures that merging
keeps and that the failures noted before have. -/
structure Follows (rule : Rule α) (form : Form α) : Prop where
  inhabited : ∃ ts a, form ts a
  accepted : ∀ {c a d}, rule c = .accepted a d → ∃ ts, c.Spans ts d ∧ form ts a
  reports : ∀ {Φ : Failure → Prop}, Failure.Merges Φ → ∀ {c},
    (∀ f, c.noted = some f → Φ f) → (∀ f, c.Meets form.Begins f → Φ f) →
    ∀ f, (rule c).Reports f → Φ f

namespace Follows

variable {rule : Rule α} {form : Form α}

theorem mono {wider : Form α} (h : Follows rule form) (hw : ∀ ts a, form ts a → wider ts a) :
    Follows rule wider where
  inhabited := by
    obtain ⟨ts, a, hf⟩ := h.inhabited
    exact ⟨ts, a, hw ts a hf⟩
  accepted hr := by
    obtain ⟨ts, hs, hf⟩ := h.accepted hr
    exact ⟨ts, hs, hw ts _ hf⟩
  reports hΦ c hn hm := by
    refine h.reports hΦ hn fun f hf => hm f (hf.mono ?_)
    rintro ts ⟨us, a, hu⟩
    exact ⟨us, a, hw _ a hu⟩

theorem of_accepts (inhabited : ∃ ts a, form ts a)
    (h : ∀ c, ∃ a d ts, rule c = .accepted a d ∧ d.noted = c.noted ∧ c.Spans ts d ∧ form ts a) :
    Follows rule form where
  inhabited := inhabited
  accepted {c a d} hr := by
    obtain ⟨b, e, ts, he, -, hs, hf⟩ := h c
    obtain ⟨rfl, rfl⟩ := Reply.accepted.inj (he.symm.trans hr)
    exact ⟨ts, hs, hf⟩
  reports hΦ c hn _ f hf := by
    obtain ⟨a, d, -, he, hd, -, -⟩ := h c
    rw [he] at hf
    exact hn f (hd ▸ hf)

protected theorem pure (h : form [] a) : Follows (pure a) form :=
  of_accepts ⟨[], a, h⟩ fun c => ⟨a, c, [], rfl, rfl, .refl c, h⟩

theorem refuse (inhabited : ∃ ts a, form ts a) (expected : List String) :
    Follows (refuse expected) form where
  inhabited := inhabited
  accepted hr := nomatch hr
  reports hΦ c hn hm f hf := by
    rcases hf with rfl | hf
    · obtain ⟨ts, a, hb⟩ := inhabited
      exact hm _ ⟨[], c, .refl c, c.raises_unexpected expected, ts, a, hb⟩
    · exact hn f hf

protected theorem bind {first : Rule α} {second : α → Rule β} {part : Form α} {form : Form β}
    (h : Follows first part)
    (k : ∀ ts a, part ts a → Follows (second a) fun us b => form (ts ++ us) b) :
    Follows (first >>= second) form where
  inhabited := by
    obtain ⟨ts, a, hf⟩ := h.inhabited
    obtain ⟨us, b, hm⟩ := (k ts a hf).inhabited
    exact ⟨ts ++ us, b, hm⟩
  accepted {c b d} hr := by
    obtain ⟨a, e, hc, hd⟩ := bind_eq_accepted.1 hr
    obtain ⟨ts, hs, hf⟩ := h.accepted hc
    obtain ⟨us, hs', hm⟩ := (k ts a hf).accepted hd
    exact ⟨ts ++ us, hs.trans hs', hm⟩
  reports {Φ} hΦ c hn hm := by
    -- A failure of the first rule stands in a text of the form: any end from the second will do.
    have hfirst : ∀ f, (first c).Reports f → Φ f := by
      refine h.reports hΦ hn fun f hf => hm f (hf.mono ?_)
      rintro ts ⟨us, a, hu⟩
      obtain ⟨vs, b, hv⟩ := (k _ a hu).inhabited
      exact ⟨us ++ vs, b, by rwa [← List.append_assoc]⟩
    cases hc : first c with
    | accepted a e =>
      rw [bind_accepted hc]
      obtain ⟨ts, hs, hf⟩ := h.accepted hc
      refine (k ts a hf).reports hΦ (fun f hf => hfirst f (by rwa [hc])) fun f hf' => hm f ?_
      refine .behind hs (hf'.mono ?_)
      rintro us ⟨vs, b, hv⟩
      exact ⟨vs, b, by rwa [List.append_assoc]⟩
    | refused f e =>
      rw [bind_refused hc]
      rwa [hc] at hfirst

theorem bind_words {first : Rule α} {second : α → Rule β} {spell : α → List Token}
    {form : Form β} (h : Follows first fun ts a => ts = spell a)
    (k : ∀ a, Follows (second a) fun us b => form (spell a ++ us) b) :
    Follows (first >>= second) form := by
  refine h.bind ?_
  rintro _ a rfl
  exact k a

theorem eat (t : Token) : Follows (eat t) fun ts b => ts = if b then [t] else [] := by
  refine of_accepts ⟨[], false, rfl⟩ fun c => ?_
  unfold Rule.eat
  split
  next h => exact ⟨true, c.skip, [t], rfl, rfl, c.spans_skip h, rfl⟩
  next => exact ⟨false, c, [], rfl, rfl, .refl c, rfl⟩

theorem ifEat {yes no : Rule α} (hy : Follows yes fun us a => form (t :: us) a)
    (hn : Follows no form) : Follows (do if ← Rule.eat t then yes else no) form := by
  refine (Follows.eat t).bind ?_
  rintro ts (_ | _) rfl
  · exact hn
  · exact hy

theorem atEnd : Follows atEnd fun ts _ => ts = [] :=
  of_accepts ⟨[], true, rfl⟩ fun c => ⟨_, c, [], rfl, rfl, .refl c, rfl⟩

theorem ifAtEnd {yes no : Rule α} (hy : Follows yes form) (hn : Follows no form) :
    Follows (do if ← Rule.atEnd then yes else no) form := by
  refine Follows.atEnd.bind ?_
  rintro ts (_ | _) rfl
  · exact hn
  · exact hy

theorem eat? (view : Token → Option α) : Follows (eat? view) (Form.meaning view).optional := by
  refine of_accepts ⟨[], none, rfl⟩ fun c => ?_
  unfold Rule.eat?
  split
  next a h =>
    obtain ⟨t, ht, ha⟩ := Option.bind_eq_some_iff.1 h
    exact ⟨some a, c.skip, [t], rfl, rfl, c.spans_skip ht, t, rfl, ha⟩
  next => exact ⟨none, c, [], rfl, rfl, .refl c, rfl⟩

theorem matchEat? {view : Token → Option α} {second : Option α → Rule β} {form : Form β}
    (none : Follows (second none) form)
    (some : ∀ t a, view t = some a → Follows (second (some a)) fun us b => form (t :: us) b) :
    Follows (Rule.eat? view >>= second) form := by
  refine (Follows.eat? view).bind ?_
  rintro ts (_ | a) h
  · obtain rfl := Form.optional_none.1 h
    exact none
  · obtain ⟨t, rfl, ht⟩ := h
    exact some t a ht

theorem expect (t : Token) (description : String) :
    Follows (expect t description) (.word t) := by
  refine .ifEat ?_ ?_
  · exact .pure rfl
  · exact .refuse ⟨[t], (), rfl⟩ _

theorem expectThen {second : Unit → Rule α} {description : String}
    (k : Follows (second ()) fun us a => form (t :: us) a) :
    Follows (Rule.expect t description >>= second) form :=
  (Follows.expect t description).bind_words fun _ => k

theorem one {view : Token → Option α} (h : view t = some a) (description : String) :
    Follows (one view description) (.meaning view) := by
  refine .matchEat? ?_ fun u b hb => ?_
  · exact .refuse ⟨[t], a, t, rfl, h⟩ _
  · exact .pure ⟨u, rfl, hb⟩

theorem reads {view : Token → Option α} {word : α → Token}
    (h : ∀ t a, view t = some a ↔ t = word a) (a : α) (description : String) :
    Follows (Rule.one view description) fun ts a => ts = [word a] := by
  refine (Follows.one ((h (word a) a).2 rfl) description).mono ?_
  rintro ts b ⟨t, rfl, ht⟩
  rw [(h t b).1 ht]

theorem single (operator : Token → Option β) : Follows (single operator) fun ts _ => ts = [] where
  inhabited := ⟨[], (), rfl⟩
  accepted {c a d} hr := by
    unfold Rule.single at hr
    split at hr
    · cases hr
    · cases hr
      exact ⟨[], .refl _, rfl⟩
  reports hΦ c hn hm f hf := by
    unfold Rule.single at hf
    split at hf
    next b h =>
      obtain ⟨t, ht, -⟩ := Option.bind_eq_some_iff.1 h
      rcases hf with rfl | hf
      · exact hm _ ⟨[], c, .refl c, c.raises_conflictingUnary ht, [], (), rfl⟩
      · exact hn f hf
    next => exact hn f hf

theorem of_pointwise (inhabited : ∃ ts a, form ts a)
    (h : ∀ c, ∃ other, Follows other form ∧ rule c = other c) : Follows rule form where
  inhabited := inhabited
  accepted {c a d} hr := by
    obtain ⟨other, ho, hc⟩ := h c
    exact ho.accepted (hc ▸ hr)
  reports hΦ c hn hm f hf := by
    obtain ⟨other, ho, hc⟩ := h c
    exact ho.reports hΦ hn hm f (hc ▸ hf)

theorem fix {body : Rule α → Rule α} (inhabited : ∃ ts a, form ts a)
    (step : ∀ inner, Follows inner form → Follows (body inner) form) : Follows (fix body) form := by
  have below (n : Nat) : Follows ((Rule.fix body).below n) form := by
    induction n using Nat.strongRecOn with
    | ind n ih =>
      refine of_pointwise inhabited fun c => ?_
      by_cases hc : c.rest.length < n
      · exact ⟨_, step _ (ih _ hc), by rw [below_of_lt hc, fix_eq_below]⟩
      · exact ⟨_, .refuse inhabited [], below_of_not_lt hc⟩
  exact of_pointwise inhabited fun c => ⟨_, step _ (below _), fix_eq_below body c⟩

/-- The alternatives are tried from the same place, and what they note on the way is kept. -/
theorem firstOfAfter {alternatives : List (Rule α)} (inhabited : ∃ ts a, form ts a)
    (h : ∀ rule ∈ alternatives, Follows rule form) (given : Option Failure) (c : Cursor) :
    (∀ {a d}, firstOfAfter given alternatives c = .accepted a d →
        ∃ ts, c.Spans ts d ∧ form ts a) ∧
      ∀ {Φ : Failure → Prop}, Failure.Merges Φ → (∀ f, given = some f → Φ f) →
        (∀ f, c.noted = some f → Φ f) → (∀ f, c.Meets form.Begins f → Φ f) →
        ∀ f, (firstOfAfter given alternatives c).Reports f → Φ f := by
  induction alternatives generalizing given c with
  | nil =>
    refine ⟨fun hr => (nomatch hr), fun hΦ hg hn hm f hf => ?_⟩
    rcases hf with rfl | hf
    · cases given with
      | none => exact (Follows.refuse inhabited []).reports hΦ hn hm _ (.inl rfl)
      | some g => exact hg g rfl
    · exact hn f hf
  | cons rule rules ih =>
    have hrule := h rule List.mem_cons_self
    have hrules := ih fun r hr => h r (List.mem_cons_of_mem rule hr)
    rw [Rule.firstOfAfter]
    cases hc : rule c with
    | accepted a next =>
      refine ⟨fun {b d} hr => ?_, fun hΦ hg hn hm f hf => ?_⟩
      · obtain ⟨ts, hs, ha⟩ := hrule.accepted hc
        cases hr
        exact ⟨ts, hs.congr ⟨rfl, rfl⟩ (by cases given <;> exact ⟨rfl, rfl⟩), ha⟩
      · have hnext := hrule.reports hΦ hn hm
        rw [hc] at hnext
        cases given with
        | none => exact hnext f hf
        | some g =>
          obtain rfl := Option.some.inj hf
          exact hΦ.furthestOf hnext (hg g rfl)
    | refused failure left =>
      obtain ⟨haccepted, hreports⟩ := hrules _ (left.backTo c)
      refine ⟨fun hr => ?_, fun hΦ hg hn hm => ?_⟩
      · obtain ⟨ts, hs, ha⟩ := haccepted hr
        exact ⟨ts, hs.congr ⟨rfl, rfl⟩ ⟨rfl, rfl⟩, ha⟩
      · have hleft := hrule.reports hΦ hn hm
        rw [hc] at hleft
        refine hreports hΦ ?_ (fun f hf => hleft f (.inr hf)) fun f hf => hm f (hf.congr rfl rfl)
        rintro f hf
        cases given with
        | none => exact hleft f (.inl (Option.some.inj hf))
        | some g =>
          obtain rfl := Option.some.inj hf
          exact hΦ _ _ (hleft _ (.inl rfl)) (hg g rfl)

theorem firstOf {alternatives : List (Rule α)} (inhabited : ∃ ts a, form ts a)
    (h : ∀ rule ∈ alternatives, Follows rule form) : Follows (firstOf alternatives) form where
  inhabited := inhabited
  accepted {c _ _} hr := (firstOfAfter inhabited h none c).1 hr
  reports hΦ c hn hm := (firstOfAfter inhabited h none c).2 hΦ (fun _ hf => nomatch hf) hn hm

theorem optional (h : Follows rule form) : Follows (optional rule) form.optional where
  inhabited := ⟨[], none, rfl⟩
  accepted {c o d} hr := by
    unfold Rule.optional at hr
    cases hc : rule c with
    | accepted a next =>
      rw [hc] at hr
      cases hr
      exact h.accepted hc
    | refused failure left =>
      rw [hc] at hr
      cases hr
      exact ⟨[], (Cursor.Spans.refl c).congr ⟨rfl, rfl⟩ ⟨rfl, rfl⟩, rfl⟩
  reports {Φ} hΦ c hn hm f hf := by
    have hrule : ∀ f, (rule c).Reports f → Φ f := by
      refine h.reports hΦ hn fun f hf => hm f (hf.mono ?_)
      rintro ts ⟨us, a, hu⟩
      exact ⟨us, some a, hu⟩
    unfold Rule.optional at hf
    cases hc : rule c with
    | accepted a next =>
      rw [hc] at hf hrule
      exact hrule f hf
    | refused failure left =>
      rw [hc] at hf hrule
      obtain rfl := Option.some.inj hf
      exact hΦ.furthestOf (fun g hg => hrule g (.inr hg)) (hrule failure (.inl rfl))

-- ---------------------------------------------------------------------------
-- Lists
-- ---------------------------------------------------------------------------

theorem items {item : Rule α} {closing : Symbol} {list : Form (List α)} (h : Follows item form)
    (last : ∀ ts a, form ts a → list (ts ++ [.symbol closing]) [a])
    (more : ∀ ts a us as, form ts a → list us as → list (ts ++ .symbol .comma :: us) (a :: as)) :
    Follows (items item closing) list := by
  have inhabited : ∃ ts as, list ts as := by
    obtain ⟨ts, a, ha⟩ := h.inhabited
    exact ⟨_, _, last ts a ha⟩
  refine .fix inhabited fun inner hinner => h.bind fun ts a ha => ?_
  refine .ifEat ?_ (.ifEat ?_ ?_)
  · exact hinner.bind fun us as has => .pure (by simpa using more ts a us as ha has)
  · exact .pure (last ts a ha)
  · exact .refuse ⟨[.symbol closing], [a], last ts a ha⟩ _

theorem operations {operand : Rule α} {operator : Token → Option β} {list : Form (List (β × α))}
    (h : Follows operand form) (none : list [] [])
    (more : ∀ t op ts a us as, operator t = some op → form ts a → list us as →
      list (t :: (ts ++ us)) ((op, a) :: as)) :
    Follows (operations operand operator) list := by
  refine .fix ⟨[], [], none⟩ fun inner hinner => .matchEat? (.pure none) fun t op ht => ?_
  refine h.bind fun ts a ha => hinner.bind fun us as has => .pure ?_
  simpa using more t op ts a us as ht ha has

end Follows

end Rule

end MiniC
