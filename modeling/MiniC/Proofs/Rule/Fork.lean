import MiniC.Proofs.Rule.Congruence
import MiniC.Proofs.Rule.Form

/-!
# Reading two texts that begin alike

Two texts agree up to a fork and go on in different ways. As long as a rule has not come to the fork
in the first text, it cannot tell the texts apart. And if it comes there it says so: either it
stands there, or one of its failures does. So a rule whose failures all lie before the fork does in
the second text what it does in the first.
-/

namespace MiniC

/-- Where two texts part: what is left of the first, at or behind a certain offset, and the words
left of the second. -/
structure Fork where
  rest : List (Token × Position)
  stop : Position
  other : List Token
  offset : Nat
  tokens_behind : ∀ t ∈ rest, offset ≤ t.2.offset
  stop_behind : offset ≤ stop.offset

namespace Fork

variable {F : Fork} {c c' d d' : Cursor}

def Far (F : Fork) (f : Failure) : Prop :=
  F.offset ≤ f.place.offset

def Noted (F : Fork) (c : Cursor) : Prop :=
  ∃ f, c.noted = some f ∧ F.Far f

def Past (F : Fork) (c : Cursor) : Prop :=
  (c.rest <:+ F.rest ∧ c.stop = F.stop) ∨ F.Noted c

def Before (F : Fork) (c c' : Cursor) : Prop :=
  ∃ shared, shared ≠ [] ∧ c.rest = shared ++ F.rest ∧ c.stop = F.stop ∧
    c'.words = words shared ++ F.other

def Reaches (F : Fork) : Reply α → Prop
  | .accepted _ d => F.Past d
  | .refused f d => F.Far f ∨ F.Noted d

def Same (F : Fork) : Reply α → Reply α → Prop
  | .accepted a d, .accepted b d' => a = b ∧ F.Before d d'
  | .refused _ _, .refused _ _ => True
  | _, _ => False

/-- A rule in the first text and one in the second do the same up to the fork. -/
structure Parallel (F : Fork) (rule rule' : Rule α) : Prop where
  past : ∀ {c}, F.Past c → F.Reaches (rule c)
  before : ∀ {c c'}, F.Before c c' → F.Reaches (rule c) ∨ F.Same (rule c) (rule' c')

theorem Same.accepted {r : Reply α} (h : F.Same (.accepted a d) r) :
    ∃ d', r = .accepted a d' ∧ F.Before d d' := by
  cases r with
  | accepted b d' => exact ⟨d', by rw [h.1], h.2⟩
  | refused f d' => exact h.elim

theorem Same.refused {r : Reply α} (h : F.Same (.refused f d) r) :
    ∃ f' d', r = .refused f' d' := by
  cases r with
  | accepted b d' => exact h.elim
  | refused f' d' => exact ⟨f', d', rfl⟩

-- ---------------------------------------------------------------------------
-- Failures
-- ---------------------------------------------------------------------------

theorem Far.furthest_left (h : F.Far f) (g : Failure) : F.Far (f.furthest g) := by
  unfold Far Failure.furthest at *
  split
  · exact h
  · split
    · omega
    · rwa [Failure.place_absorb]

theorem Far.furthest_right (h : F.Far g) (f : Failure) : F.Far (f.furthest g) := by
  unfold Far Failure.furthest at *
  split
  · omega
  · split
    · exact h
    · rw [Failure.place_absorb]
      omega

theorem Far.furthestOf (h : F.Far f) (noted : Option Failure) :
    F.Far (Failure.furthestOf noted f) := by
  cases noted with
  | none => exact h
  | some g => exact h.furthest_right g

theorem Far.worst (h : F.Far f) (given : Option Failure) :
    F.Far (match given with | none => f | some g => f.furthest g) := by
  cases given with
  | none => exact h
  | some g => exact h.furthest_left g

theorem Noted.furthestOf (h : F.Noted c) (f : Failure) :
    F.Far (Failure.furthestOf c.noted f) := by
  obtain ⟨g, hg, hfar⟩ := h
  rw [hg]
  exact hfar.furthest_left f

theorem Past.note (h : F.Past c) (f : Failure) : F.Past (c.note f) :=
  h.imp id fun hn => ⟨_, rfl, hn.furthestOf f⟩

theorem noted_note (h : F.Far f) (c : Cursor) : F.Noted (c.note f) :=
  ⟨_, rfl, h.furthestOf c.noted⟩

/-- Whatever is reported once the fork has been come to lies at the fork or behind. -/
theorem Reaches.report (h : F.Reaches (.refused f d : Reply α)) : F.Far (d.report f) := by
  rcases h with h | h
  · exact h.furthestOf d.noted
  · exact h.furthestOf f

theorem far_position (h : c.rest <:+ F.rest) (hstop : c.stop = F.stop) :
    F.offset ≤ c.position.offset := by
  unfold Cursor.position
  split
  next => exact hstop ▸ F.stop_behind
  next t p rest hc => exact F.tokens_behind (t, p) (h.subset (by simp [hc]))

theorem Past.raises (h : F.Past c) (hplace : f.place = c.position) :
    F.Reaches (.refused f c : Reply α) :=
  h.imp (fun ⟨hrest, hstop⟩ => by rw [Far, hplace]; exact far_position hrest hstop) id

theorem Past.skip (h : F.Past c) : F.Past c.skip :=
  h.imp (fun ⟨hrest, hstop⟩ => ⟨(List.tail_suffix _).trans hrest, hstop⟩) id

-- ---------------------------------------------------------------------------
-- Before the fork
-- ---------------------------------------------------------------------------

theorem Before.peek? (h : F.Before c c') : c'.peek? = c.peek? := by
  obtain ⟨shared, hne, hrest, -, hwords⟩ := h
  rw [Cursor.peek?_eq_head?, hwords, Cursor.peek?, hrest]
  cases shared with
  | nil => exact absurd rfl hne
  | cons t shared => rfl

theorem Before.atEnd (h : F.Before c c') : c'.atEnd = c.atEnd := by
  obtain ⟨shared, hne, hrest, -, hwords⟩ := h
  cases shared with
  | nil => exact absurd rfl hne
  | cons t shared =>
    cases hc' : c'.rest with
    | nil => simp [Cursor.words, hc'] at hwords
    | cons t' rest' => simp [Cursor.atEnd, hrest, hc']

theorem Before.skip (h : F.Before c c') : F.Past c.skip ∨ F.Before c.skip c'.skip := by
  obtain ⟨shared, hne, hrest, hstop, hwords⟩ := h
  cases shared with
  | nil => exact absurd rfl hne
  | cons t shared =>
    cases shared with
    | nil => exact .inl (.inl ⟨by simp [Cursor.skip, hrest], hstop⟩)
    | cons u shared =>
      exact .inr ⟨u :: shared, List.cons_ne_nil u shared, by simp [Cursor.skip, hrest], hstop,
        by simp [hwords]⟩

theorem Before.congr {e e' : Cursor} (h : F.Before c c') (he : e.rest = c.rest ∧ e.stop = c.stop)
    (he' : e'.rest = c'.rest) : F.Before e e' := by
  obtain ⟨shared, hne, hrest, hstop, hwords⟩ := h
  exact ⟨shared, hne, he.1.trans hrest, he.2.trans hstop, by rwa [Cursor.words, he']⟩

theorem Before.length_eq (h : F.Before c c') : F.rest.length < c.rest.length ∧
    c'.rest.length = c.rest.length - F.rest.length + F.other.length := by
  obtain ⟨shared, hne, hrest, -, hwords⟩ := h
  have hlength := congrArg List.length hwords
  have hpos := List.length_pos_iff.2 hne
  simp only [Cursor.words, length_words, List.length_append] at hlength
  rw [hrest, List.length_append]
  omega

/-- How much is left is compared in both texts with the same outcome. -/
theorem Before.length_lt (h : F.Before c c') (n : Nat) :
    c.rest.length < n ↔ c'.rest.length < n - F.rest.length + F.other.length := by
  obtain ⟨hlt, heq⟩ := h.length_eq
  omega

-- ---------------------------------------------------------------------------
-- Rules
-- ---------------------------------------------------------------------------

namespace Parallel

variable {rule rule' : Rule α}

protected theorem pure (a : α) : F.Parallel (pure a) (pure a) where
  past h := h
  before h := .inr ⟨rfl, h⟩

theorem refuse (expected : List String) :
    F.Parallel (Rule.refuse expected : Rule α) (Rule.refuse expected) where
  past h := h.raises (Cursor.place_unexpected _ _)
  before _ := .inr trivial

protected theorem bind {first first' : Rule α} {second second' : α → Rule β}
    (h : F.Parallel first first') (k : ∀ a, F.Parallel (second a) (second' a)) :
    F.Parallel (first >>= second) (first' >>= second') where
  past {c} hc := by
    have hfirst := h.past hc
    cases hr : first c with
    | accepted a d =>
      rw [hr] at hfirst
      rw [Rule.bind_accepted hr]
      exact (k a).past hfirst
    | refused f d =>
      rw [hr] at hfirst
      rw [Rule.bind_refused hr]
      exact hfirst
  before {c c'} hc := by
    have hfirst := h.before hc
    cases hr : first c with
    | accepted a d =>
      rw [hr] at hfirst
      rw [Rule.bind_accepted hr]
      rcases hfirst with hpast | hsame
      · exact .inl ((k a).past hpast)
      · obtain ⟨d', hr', hbefore⟩ := hsame.accepted
        rw [Rule.bind_accepted hr']
        exact (k a).before hbefore
    | refused f d =>
      rw [hr] at hfirst
      rw [Rule.bind_refused hr]
      refine hfirst.imp id fun hsame => ?_
      obtain ⟨f', d', hr'⟩ := hsame.refused
      rw [Rule.bind_refused hr']
      trivial

theorem eat (t : Token) : F.Parallel (Rule.eat t) (Rule.eat t) where
  past {c} h := by
    unfold Rule.eat
    split
    · exact h.skip
    · exact h
  before {c c'} h := by
    unfold Rule.eat
    rw [h.peek?]
    split
    · exact h.skip.imp id fun hskip => ⟨rfl, hskip⟩
    · exact .inr ⟨rfl, h⟩

theorem eat? (view : Token → Option α) : F.Parallel (Rule.eat? view) (Rule.eat? view) where
  past {c} h := by
    unfold Rule.eat?
    split
    · exact h.skip
    · exact h
  before {c c'} h := by
    unfold Rule.eat?
    rw [h.peek?]
    split
    · exact h.skip.imp id fun hskip => ⟨rfl, hskip⟩
    · exact .inr ⟨rfl, h⟩

theorem atEnd : F.Parallel Rule.atEnd Rule.atEnd where
  past h := h
  before h := .inr ⟨h.atEnd.symm, h⟩

theorem single (operator : Token → Option β) :
    F.Parallel (Rule.single operator) (Rule.single operator) where
  past {c} h := by
    unfold Rule.single
    split
    · exact h.raises rfl
    · exact h
  before {c c'} h := by
    unfold Rule.single
    rw [h.peek?]
    split
    · exact .inr trivial
    · exact .inr ⟨rfl, h⟩

theorem optional (h : F.Parallel rule rule') :
    F.Parallel (Rule.optional rule) (Rule.optional rule') where
  past {c} hc := by
    have hrule := h.past hc
    unfold Rule.optional
    cases hr : rule c with
    | accepted a d => rwa [hr] at hrule
    | refused f d =>
      rw [hr] at hrule
      rcases hrule with hfar | hnoted
      · exact .inr (noted_note hfar _)
      · exact Past.note (c := d.backTo c) (.inr hnoted) f
  before {c c'} hc := by
    have hrule := h.before hc
    unfold Rule.optional
    cases hr : rule c with
    | accepted a d =>
      rw [hr] at hrule
      refine hrule.imp id fun hsame => ?_
      obtain ⟨d', hr', hbefore⟩ := hsame.accepted
      rw [hr']
      exact ⟨rfl, hbefore⟩
    | refused f d =>
      rw [hr] at hrule
      rcases hrule with (hfar | hnoted) | hsame
      · exact .inl (.inr (noted_note hfar _))
      · exact .inl (Past.note (c := d.backTo c) (.inr hnoted) f)
      · obtain ⟨f', d', hr'⟩ := hsame.refused
        rw [hr']
        exact .inr ⟨rfl, hc.congr ⟨rfl, rfl⟩ rfl⟩

theorem far_firstOfAfter (hg : F.Far g) (rules : List (Rule α)) (c : Cursor) :
    F.Reaches (Rule.firstOfAfter (some g) rules c) := by
  induction rules generalizing g c with
  | nil => exact .inl hg
  | cons rule rules ih =>
    rw [Rule.firstOfAfter]
    cases rule c with
    | accepted a d => exact .inr (noted_note hg d)
    | refused f d => exact ih (hg.furthest_right f) _

section

variable {rules rules' : List (Rule α)} (hrules : Rule.Each F.Parallel rules rules')

include hrules

theorem past_firstOfAfter (given : Option Failure)
    (hc : F.Noted c ∨ given = none ∧ F.Past c) :
    F.Reaches (Rule.firstOfAfter given rules c) := by
  induction hrules generalizing given c with
  | nil =>
    rcases hc with hnoted | ⟨rfl, hpast⟩
    · exact .inr hnoted
    · exact hpast.raises (Cursor.place_unexpected _ _)
  | @cons rule _ rules _ h _ ih =>
    have hrule := h.past (hc.elim .inr And.right)
    rw [Rule.firstOfAfter]
    cases hr : rule c with
    | accepted a d =>
      rw [hr] at hrule
      cases given with
      | none => exact hrule
      | some g => exact hrule.note g
    | refused f d =>
      rw [hr] at hrule
      rcases hrule with hfar | hnoted
      · exact far_firstOfAfter (hfar.worst given) _ _
      · exact ih _ (.inl hnoted)

theorem before_firstOfAfter (given given' : Option Failure) (hc : F.Before c c') :
    F.Reaches (Rule.firstOfAfter given rules c) ∨
      F.Same (Rule.firstOfAfter given rules c) (Rule.firstOfAfter given' rules' c') := by
  induction hrules generalizing given given' c c' with
  | nil => exact .inr trivial
  | @cons rule rule' rules rules' h hmore ih =>
    have hrule := h.before hc
    rw [Rule.firstOfAfter, Rule.firstOfAfter]
    cases hr : rule c with
    | accepted a d =>
      rw [hr] at hrule
      rcases hrule with hpast | hsame
      · cases given with
        | none => exact .inl hpast
        | some g => exact .inl (hpast.note g)
      · obtain ⟨d', hr', hbefore⟩ := hsame.accepted
        rw [hr']
        refine .inr ⟨rfl, hbefore.congr ?_ ?_⟩
        · cases given <;> exact ⟨rfl, rfl⟩
        · cases given' <;> rfl
    | refused f d =>
      rw [hr] at hrule
      rcases hrule with (hfar | hnoted) | hsame
      · exact .inl (far_firstOfAfter (hfar.worst given) _ _)
      · exact .inl (past_firstOfAfter hmore _ (.inl hnoted))
      · obtain ⟨f', d', hr'⟩ := hsame.refused
        rw [hr']
        exact ih _ _ (hc.congr ⟨rfl, rfl⟩ rfl)

theorem firstOf : F.Parallel (Rule.firstOf rules) (Rule.firstOf rules') where
  past hc := past_firstOfAfter hrules none (.inr ⟨rfl, hc⟩)
  before hc := before_firstOfAfter hrules none none hc

end

theorem fix {body body' : Rule α → Rule α}
    (step : ∀ inner inner', F.Parallel inner inner' → F.Parallel (body inner) (body' inner')) :
    F.Parallel (Rule.fix body) (Rule.fix body') := by
  -- An inner rule for texts shorter than `n` matches one for texts that have the same number of
  -- tokens before the fork.
  have below (n : Nat) : F.Parallel ((Rule.fix body).below n)
      ((Rule.fix body').below (n - F.rest.length + F.other.length)) := by
    induction n using Nat.strongRecOn with
    | ind n ih =>
      refine ⟨fun {c} hc => ?_, fun {c c'} hc => ?_⟩
      · by_cases hlt : c.rest.length < n
        · rw [Rule.below_of_lt hlt, Rule.fix_eq_below]
          exact (step _ _ (ih _ hlt)).past hc
        · rw [Rule.below_of_not_lt hlt]
          exact (refuse []).past hc
      · by_cases hlt : c.rest.length < n
        · rw [Rule.below_of_lt hlt, Rule.below_of_lt ((hc.length_lt n).1 hlt), Rule.fix_eq_below,
            Rule.fix_eq_below, hc.length_eq.2]
          exact (step _ _ (ih _ hlt)).before hc
        · rw [Rule.below_of_not_lt hlt, Rule.below_of_not_lt (mt (hc.length_lt n).2 hlt)]
          exact (refuse []).before hc
  refine ⟨fun {c} hc => ?_, fun {c c'} hc => ?_⟩
  · rw [Rule.fix_eq_below]
    exact (step _ _ (below _)).past hc
  · rw [Rule.fix_eq_below, Rule.fix_eq_below, hc.length_eq.2]
    exact (step _ _ (below _)).before hc

end Parallel

def parallel (F : Fork) : Rule.Congruence F.Parallel where
  pure := .pure
  refuse := .refuse
  bind := .bind
  eat := .eat
  eat? := .eat?
  atEnd := .atEnd
  firstOf := .firstOf
  optional := .optional
  fix := .fix

end Fork

end MiniC
