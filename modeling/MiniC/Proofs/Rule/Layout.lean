import Mathlib.Data.List.Forall2
import MiniC.Proofs.Rule.Congruence
import MiniC.Proofs.Rule.Form

/-!
# The same words in two places

Two texts have the same words, at places that go together. A rule does the same in both of them,
and its failures are the same but for their places: it asks for a place only to report it and to
find the furthest failure, and the places of both texts have the same order. The second text may
have had failures before these words. They are outdone by any failure among the words.
-/

namespace MiniC

/-- Which places of two texts go together. They are in the same order. -/
structure Layout where
  Pairs : Position → Position → Prop
  lt_iff : ∀ {p p' q q'}, Pairs p p' → Pairs q q' → (p.offset < q.offset ↔ p'.offset < q'.offset)

namespace Layout

variable (L : Layout)

inductive Fails : Failure → Failure → Prop
  | unexpectedToken (found names) : L.Pairs p p' →
      Fails (.unexpectedToken found names p) (.unexpectedToken found names p')
  | unexpectedEnd (names) : L.Pairs p p' → Fails (.unexpectedEnd names p) (.unexpectedEnd names p')
  | invalidToken (slice) : L.Pairs p p' → Fails (.invalidToken slice p) (.invalidToken slice p')
  | conflictingUnary : L.Pairs p p' → Fails (.conflictingUnary p) (.conflictingUnary p')

/-- What has been noted in both texts. Before anything is noted in the first, the second may have
noted what lies before all places that go together. -/
inductive Notes : Option Failure → Option Failure → Prop
  | none : Notes none none
  | earlier : (∀ {p p'}, L.Pairs p p' → f.place.offset < p'.offset) → Notes none (some f)
  | some : L.Fails f f' → Notes (some f) (some f')

structure Stands (c c' : Cursor) : Prop where
  rest : List.Forall₂ (fun t t' => t.1 = t'.1 ∧ L.Pairs t.2 t'.2) c.rest c'.rest
  stop : L.Pairs c.stop c'.stop
  noted : L.Notes c.noted c'.noted

inductive Replies : Reply α → Reply α → Prop
  | accepted (a) : L.Stands d d' → Replies (.accepted a d) (.accepted a d')
  | refused : L.Fails f f' → L.Stands d d' → Replies (.refused f d) (.refused f' d')

def Alike (rule rule' : Rule α) : Prop :=
  ∀ {c c'}, L.Stands c c' → L.Replies (rule c) (rule' c')

variable {L} {c c' d d' : Cursor} {f f' g g' : Failure}

-- ---------------------------------------------------------------------------
-- Failures
-- ---------------------------------------------------------------------------

theorem Fails.place (h : L.Fails f f') : L.Pairs f.place f'.place := by
  cases h <;> assumption

theorem Fails.expected (h : L.Fails f f') : f'.expected = f.expected := by
  cases h <;> rfl

theorem Fails.absorb (h : L.Fails f f') (k : L.Fails g g') :
    L.Fails (f.absorb g) (f'.absorb g') := by
  cases h with
  | unexpectedToken found names hp =>
    unfold Failure.absorb
    rw [k.expected]
    exact .unexpectedToken found _ hp
  | unexpectedEnd names hp =>
    unfold Failure.absorb
    rw [k.expected]
    exact .unexpectedEnd _ hp
  | invalidToken slice hp => exact .invalidToken slice hp
  | conflictingUnary hp => exact .conflictingUnary hp

theorem Fails.furthest (h : L.Fails f f') (k : L.Fails g g') :
    L.Fails (f.furthest g) (f'.furthest g') := by
  unfold Failure.furthest
  simp only [← L.lt_iff h.place k.place, ← L.lt_iff k.place h.place]
  split
  · exact h
  · split
    · exact k
    · exact h.absorb k

theorem Notes.furthestOf {noted noted' : Option Failure} (h : L.Notes noted noted')
    (hf : L.Fails f f') : L.Fails (Failure.furthestOf noted f) (Failure.furthestOf noted' f') := by
  cases h with
  | none => exact hf
  | earlier hlt =>
    have hbehind := hlt hf.place
    rwa [Failure.furthestOf, Failure.furthestOf, Failure.furthest, if_neg (by omega),
      if_pos hbehind]
  | some hg => exact hg.furthest hf

-- ---------------------------------------------------------------------------
-- Cursors
-- ---------------------------------------------------------------------------

namespace Stands

theorem length_eq (h : L.Stands c c') : c.rest.length = c'.rest.length :=
  h.rest.length_eq

theorem head (h : L.Stands c c') :
    c.rest = [] ∧ c'.rest = [] ∨ ∃ t p p' rest rest', c.rest = (t, p) :: rest ∧
      c'.rest = (t, p') :: rest' ∧ L.Pairs p p' := by
  have hrest := h.rest
  generalize c.rest = ts, c'.rest = ts' at hrest
  cases hrest with
  | nil => exact .inl ⟨rfl, rfl⟩
  | @cons t t' rest rest' ht =>
    obtain ⟨t, p⟩ := t
    obtain ⟨t', p'⟩ := t'
    obtain ⟨rfl, hp⟩ := ht
    exact .inr ⟨t, p, p', rest, rest', rfl, rfl, hp⟩

theorem peek? (h : L.Stands c c') : c'.peek? = c.peek? := by
  obtain ⟨hc, hc'⟩ | ⟨t, p, p', rest, rest', hc, hc', -⟩ := h.head <;> simp [Cursor.peek?, hc, hc']

theorem atEnd (h : L.Stands c c') : c'.atEnd = c.atEnd := by
  obtain ⟨hc, hc'⟩ | ⟨t, p, p', rest, rest', hc, hc', -⟩ := h.head <;> simp [Cursor.atEnd, hc, hc']

theorem position (h : L.Stands c c') : L.Pairs c.position c'.position := by
  unfold Cursor.position
  obtain ⟨hc, hc'⟩ | ⟨t, p, p', rest, rest', hc, hc', hp⟩ := h.head
  · rw [hc, hc']
    exact h.stop
  · rw [hc, hc']
    exact hp

theorem skip (h : L.Stands c c') : L.Stands c.skip c'.skip := by
  refine ⟨?_, h.stop, h.noted⟩
  simpa [Cursor.skip] using List.forall₂_drop 1 h.rest

theorem note (h : L.Stands c c') (hf : L.Fails f f') : L.Stands (c.note f) (c'.note f') :=
  ⟨h.rest, h.stop, .some (h.noted.furthestOf hf)⟩

theorem report (h : L.Stands c c') (hf : L.Fails f f') : L.Fails (c.report f) (c'.report f') :=
  h.noted.furthestOf hf

theorem backTo (h : L.Stands d d') (k : L.Stands c c') : L.Stands (d.backTo c) (d'.backTo c') :=
  ⟨k.rest, k.stop, h.noted⟩

theorem unexpected (h : L.Stands c c') (names : List String) :
    L.Fails (c.unexpected names) (c'.unexpected names) := by
  unfold Cursor.unexpected
  rw [h.peek?]
  split
  · exact .unexpectedToken _ _ h.position
  · exact .unexpectedEnd _ h.position

end Stands

theorem Replies.cases {r r' : Reply α} (h : L.Replies r r') :
    (∃ a d d', r = .accepted a d ∧ r' = .accepted a d' ∧ L.Stands d d') ∨
      ∃ f f' d d', r = .refused f d ∧ r' = .refused f' d' ∧ L.Fails f f' ∧ L.Stands d d' := by
  cases h with
  | accepted a hd => exact .inl ⟨a, _, _, rfl, rfl, hd⟩
  | refused hf hd => exact .inr ⟨_, _, _, _, rfl, rfl, hf, hd⟩

-- ---------------------------------------------------------------------------
-- Rules
-- ---------------------------------------------------------------------------

namespace Alike

variable {α β : Type} {rule rule' : Rule α}

protected theorem bind {first first' : Rule α} {second second' : α → Rule β}
    (h : L.Alike first first') (k : ∀ a, L.Alike (second a) (second' a)) :
    L.Alike (first >>= second) (first' >>= second') := by
  intro c c' hc
  obtain ⟨a, d, d', hr, hr', hd⟩ | ⟨f, f', d, d', hr, hr', hf, hd⟩ := (h hc).cases
  · rw [Rule.bind_accepted hr, Rule.bind_accepted hr']
    exact k a hd
  · rw [Rule.bind_refused hr, Rule.bind_refused hr']
    exact .refused hf hd

theorem eat (token : Token) : L.Alike (Rule.eat token) (Rule.eat token) := by
  intro c c' hc
  unfold Rule.eat
  rw [hc.peek?]
  split
  · exact .accepted true hc.skip
  · exact .accepted false hc

theorem eat? (view : Token → Option α) : L.Alike (Rule.eat? view) (Rule.eat? view) := by
  intro c c' hc
  unfold Rule.eat?
  rw [hc.peek?]
  split
  · exact .accepted _ hc.skip
  · exact .accepted none hc

theorem atEnd : L.Alike Rule.atEnd Rule.atEnd := by
  intro c c' hc
  unfold Rule.atEnd
  rw [hc.atEnd]
  exact .accepted _ hc

theorem single (operator : Token → Option β) :
    L.Alike (Rule.single operator) (Rule.single operator) := by
  intro c c' hc
  unfold Rule.single
  rw [hc.peek?]
  split
  · exact .refused (.conflictingUnary hc.position) hc
  · exact .accepted () hc

theorem optional (h : L.Alike rule rule') : L.Alike (Rule.optional rule) (Rule.optional rule') := by
  intro c c' hc
  unfold Rule.optional
  obtain ⟨a, d, d', hr, hr', hd⟩ | ⟨f, f', d, d', hr, hr', hf, hd⟩ := (h hc).cases
  · rw [hr, hr']
    exact .accepted (some a) hd
  · rw [hr, hr']
    exact .accepted none ((hd.backTo hc).note hf)

theorem firstOfAfter {rules rules' : List (Rule α)} (hrules : Rule.Each L.Alike rules rules')
    {given given' : Option Failure} (hgiven : Option.Rel L.Fails given given') :
    L.Alike (Rule.firstOfAfter given rules) (Rule.firstOfAfter given' rules') := by
  induction hrules generalizing given given' with
  | nil =>
    intro c c' hc
    cases hgiven with
    | none => exact .refused (hc.unexpected []) hc
    | some hg => exact .refused hg hc
  | cons h _ ih =>
    intro c c' hc
    rw [Rule.firstOfAfter, Rule.firstOfAfter]
    obtain ⟨a, d, d', hr, hr', hd⟩ | ⟨f, f', d, d', hr, hr', hf, hd⟩ := (h hc).cases
    · rw [hr, hr']
      cases hgiven with
      | none => exact .accepted a hd
      | some hg => exact .accepted a (hd.note hg)
    · rw [hr, hr']
      cases hgiven with
      | none => exact ih (.some hf) (hd.backTo hc)
      | some hg => exact ih (.some (hf.furthest hg)) (hd.backTo hc)

/-- The rules inside are used only where fewer tokens are left, and it is the same in both texts how
many are left. -/
theorem fix {body body' : Rule α → Rule α}
    (h : ∀ inner inner', L.Alike inner inner' → L.Alike (body inner) (body' inner')) :
    L.Alike (Rule.fix body) (Rule.fix body') := by
  have below (n : Nat) : L.Alike ((Rule.fix body).below n) ((Rule.fix body').below n) := by
    induction n using Nat.strongRecOn with
    | ind n ih =>
      intro c c' hc
      by_cases hlt : c.rest.length < n
      · rw [Rule.below_of_lt hlt, Rule.below_of_lt (hc.length_eq ▸ hlt), Rule.fix_eq_below,
          Rule.fix_eq_below, ← hc.length_eq]
        exact h _ _ (ih _ hlt) hc
      · rw [Rule.below_of_not_lt hlt, Rule.below_of_not_lt (hc.length_eq ▸ hlt)]
        exact .refused (hc.unexpected []) hc
  intro c c' hc
  rw [Rule.fix_eq_below, Rule.fix_eq_below, ← hc.length_eq]
  exact h _ _ (below _) hc

end Alike

def alike (L : Layout) : Rule.Congruence L.Alike where
  pure a := .accepted a
  refuse expected _ _ hc := .refused (hc.unexpected expected) hc
  bind := .bind
  eat := .eat
  eat? := .eat?
  atEnd := Alike.atEnd
  firstOf h := Alike.firstOfAfter h .none
  optional := .optional
  fix := .fix

end Layout

end MiniC
