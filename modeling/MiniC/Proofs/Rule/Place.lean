import MiniC.Rule

/-!
# Places and failures

Where a cursor stands is told by the words it has left behind. A failure is raised at a place, and
merging failures never moves one to a place where none was raised.
-/

namespace MiniC

def words (tokens : List (Token × Position)) : List Token :=
  tokens.map Prod.fst

@[simp] theorem words_nil : words [] = [] := rfl

@[simp] theorem words_cons (t : Token × Position) (rest : List (Token × Position)) :
    words (t :: rest) = t.1 :: words rest := rfl

@[simp] theorem words_append : words (first ++ second) = words first ++ words second :=
  List.map_append

@[simp] theorem length_words (tokens : List (Token × Position)) :
    (words tokens).length = tokens.length :=
  List.length_map ..

namespace Failure

@[simp] theorem place_absorb (f g : Failure) : (f.absorb g).place = f.place := by
  cases f <;> rfl

theorem furthest_cases (f g : Failure) :
    f.furthest g = f ∧ g.place.offset < f.place.offset ∨
      f.furthest g = g ∧ f.place.offset < g.place.offset ∨
      f.furthest g = f.absorb g ∧ f.place.offset = g.place.offset := by
  unfold furthest
  split
  next h => exact .inl ⟨rfl, h⟩
  next h =>
    split
    next h' => exact .inr (.inl ⟨rfl, h'⟩)
    next h' => exact .inr (.inr ⟨rfl, by omega⟩)

end Failure

namespace Cursor

variable {b c d e : Cursor} {f : Failure} {t : Token} {ts us : List Token}

def words (c : Cursor) : List Token :=
  MiniC.words c.rest

theorem peek?_eq_head? (c : Cursor) : c.peek? = c.words.head? := by
  simp [peek?, words, MiniC.words]

@[simp] theorem words_skip (c : Cursor) : c.skip.words = c.words.tail := by
  simp [skip, words, MiniC.words]

/-- `d` stands behind the words `ts` that come next at `c`. What they have noted may differ. -/
def Spans (c : Cursor) (ts : List Token) (d : Cursor) : Prop :=
  ∃ read, c.rest = read ++ d.rest ∧ d.stop = c.stop ∧ ts = MiniC.words read

theorem Spans.refl (c : Cursor) : c.Spans [] c :=
  ⟨[], rfl, rfl, rfl⟩

theorem Spans.trans (h : c.Spans ts d) (k : d.Spans us e) : c.Spans (ts ++ us) e := by
  obtain ⟨read, hc, hd, rfl⟩ := h
  obtain ⟨more, hd', he, rfl⟩ := k
  exact ⟨read ++ more, by rw [hc, hd', List.append_assoc], he.trans hd, by simp⟩

theorem Spans.words (h : c.Spans ts d) : c.words = ts ++ d.words := by
  obtain ⟨read, hc, -, rfl⟩ := h
  simp [Cursor.words, hc]

theorem Spans.length_le (h : c.Spans ts d) : d.rest.length ≤ c.rest.length := by
  obtain ⟨read, hc, -, -⟩ := h
  simp [hc]

theorem Spans.congr (h : c.Spans ts d) (hb : b.rest = c.rest ∧ b.stop = c.stop)
    (he : e.rest = d.rest ∧ e.stop = d.stop) : b.Spans ts e := by
  obtain ⟨read, hc, hd, rfl⟩ := h
  exact ⟨read, by rw [hb.1, he.1, hc], by rw [he.2, hb.2, hd], rfl⟩

theorem spans_skip (h : c.peek? = some t) : c.Spans [t] c.skip := by
  unfold peek? at h
  cases hc : c.rest with
  | nil => simp [hc] at h
  | cons head rest =>
    simp only [hc, List.head?_cons, Option.map_some, Option.some.injEq] at h
    exact ⟨[head], by simp [skip, hc], rfl, by simp [MiniC.words, h]⟩

/-- A failure that a rule may raise where a cursor stands: it names this place, and it is about
the end of the tokens exactly at their end. -/
def Raises (c : Cursor) (f : Failure) : Prop :=
  f.place = c.position ∧
    match f with
    | .unexpectedToken .. => c.rest ≠ []
    | .conflictingUnary _ => c.rest ≠ []
    | .unexpectedEnd .. => c.rest = []
    | .invalidToken .. => False

@[simp] theorem place_unexpected (c : Cursor) (expected : List String) :
    (c.unexpected expected).place = c.position := by
  unfold unexpected
  split <;> rfl

theorem raises_unexpected (c : Cursor) (expected : List String) :
    c.Raises (c.unexpected expected) := by
  unfold unexpected
  cases hc : c.rest <;> simp [peek?, hc, Raises, Failure.place]

theorem raises_conflictingUnary (h : c.peek? = some t) :
    c.Raises (.conflictingUnary c.position) := by
  refine ⟨rfl, ?_⟩
  rintro hc
  simp [peek?, hc] at h

theorem Raises.absorb (h : c.Raises f) (g : Failure) : c.Raises (f.absorb g) := by
  cases f <;> exact h

def Meets (c : Cursor) (V : List Token → Prop) (f : Failure) : Prop :=
  ∃ ts d, c.Spans ts d ∧ d.Raises f ∧ V ts

theorem Meets.mono {V W : List Token → Prop} (h : c.Meets V f) (hVW : ∀ ts, V ts → W ts) :
    c.Meets W f := by
  obtain ⟨ts, d, hs, hf, hV⟩ := h
  exact ⟨ts, d, hs, hf, hVW ts hV⟩

theorem Meets.behind {V : List Token → Prop} (hs : c.Spans ts d)
    (h : d.Meets (fun us => V (ts ++ us)) f) : c.Meets V f := by
  obtain ⟨us, e, hs', hf, hV⟩ := h
  exact ⟨ts ++ us, e, hs.trans hs', hf, hV⟩

theorem Meets.congr {V : List Token → Prop} (h : c.Meets V f) (hrest : b.rest = c.rest)
    (hstop : b.stop = c.stop) : b.Meets V f := by
  obtain ⟨ts, d, hs, hf, hV⟩ := h
  exact ⟨ts, d, hs.congr ⟨hrest, hstop⟩ ⟨rfl, rfl⟩, hf, hV⟩

end Cursor

def Failure.Merges (Φ : Failure → Prop) : Prop :=
  ∀ f g, Φ f → Φ g → Φ (f.furthest g)

theorem Failure.Merges.furthestOf {Φ : Failure → Prop} (h : Merges Φ) {noted : Option Failure}
    {f : Failure} (hn : ∀ g, noted = some g → Φ g) (hf : Φ f) : Φ (furthestOf noted f) := by
  cases noted with
  | none => exact hf
  | some g => exact h g f (hn g rfl) hf

/-- Being raised somewhere is kept by merging, since the merged failure has the place and the kind
of one of the two. -/
theorem Cursor.merges_meets (c : Cursor) (V : List Token → Prop) : Failure.Merges (c.Meets V) := by
  rintro f g ⟨ts, d, hs, hf, hV⟩ hg
  unfold Failure.furthest
  split
  · exact ⟨ts, d, hs, hf, hV⟩
  · split
    · exact hg
    · exact ⟨ts, d, hs, hf.absorb g, hV⟩

/-- The failures that a reply passes on: the one it refuses with and those noted. -/
def Reply.Reports : Reply α → Failure → Prop
  | .accepted _ next, f => next.noted = some f
  | .refused failure next, f => failure = f ∨ next.noted = some f

end MiniC
