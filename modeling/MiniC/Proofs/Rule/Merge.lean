import MiniC.Proofs.Rule.Log

/-!
# What a merged failure tells

A failure that has been merged from others has the place and the kind of one of them, and expects
nothing that none of them expects at this place (`Failure.MadeOf`). None of them lies further into
the text. What one of them expects at the place can be lost in one way only, namely to a failure
there that expects nothing.
-/

namespace MiniC

namespace Failure

variable {S T : Failure → Prop} {f g : Failure} {x : String}

def Expects : Failure → Prop
  | unexpectedToken .. => True
  | unexpectedEnd .. => True
  | invalidToken .. => False
  | conflictingUnary _ => False

def bare : Failure → Failure
  | unexpectedToken found _ p => unexpectedToken found [] p
  | unexpectedEnd _ p => unexpectedEnd [] p
  | invalidToken slice p => invalidToken slice p
  | conflictingUnary p => conflictingUnary p

@[simp] theorem bare_absorb (f g : Failure) : (f.absorb g).bare = f.bare := by
  cases f <;> rfl

theorem place_eq_of_bare (h : f.bare = g.bare) : f.place = g.place := by
  have hplace (f : Failure) : f.bare.place = f.place := by cases f <;> rfl
  rw [← hplace, h, hplace]

theorem expects_iff_of_bare (h : f.bare = g.bare) : f.Expects ↔ g.Expects := by
  have hexpects (f : Failure) : f.bare.Expects ↔ f.Expects := by cases f <;> rfl
  rw [← hexpects, h, hexpects]

theorem eq_of_bare_unexpectedToken (h : f.bare = (unexpectedToken found names p).bare) :
    f = unexpectedToken found f.expected f.place := by
  cases f with
  | unexpectedToken found' => cases h; rfl
  | _ => cases h

theorem eq_of_bare_conflictingUnary (h : f.bare = (conflictingUnary p).bare) :
    f = conflictingUnary f.place := by
  cases f with
  | conflictingUnary => rfl
  | _ => cases h

@[simp] theorem expects_absorb : (f.absorb g).Expects ↔ f.Expects := by
  cases f <;> rfl

theorem mem_expected_absorb :
    x ∈ (f.absorb g).expected ↔ x ∈ f.expected ∨ f.Expects ∧ x ∈ g.expected := by
  cases f <;> simp [absorb, expected, Expects, mem_ascending]

theorem expects_of_mem (h : x ∈ f.expected) : f.Expects := by
  cases f with
  | unexpectedToken => trivial
  | unexpectedEnd => trivial
  | invalidToken => cases h
  | conflictingUnary => cases h

theorem nodup_absorb (h : f.expected.Nodup) : (f.absorb g).expected.Nodup := by
  have hascending (names : List String) : (ascending names).Nodup := by
    refine (pairwise_ascending names).imp ?_
    rintro a _ hlt rfl
    exact String.lt_irrefl a hlt
  cases f with
  | unexpectedToken => exact hascending _
  | unexpectedEnd => exact hascending _
  | invalidToken => exact h
  | conflictingUnary => exact h

/-- A list of expectations as every rule gives it. -/
structure Tidy (f : Failure) : Prop where
  nodup : f.expected.Nodup
  ne_nil : f.Expects → f.expected ≠ []

/-- All that a failure tells comes from those in `S`. -/
structure MadeOf (S : Failure → Prop) (f : Failure) : Prop extends Tidy f where
  origin : ∃ g, S g ∧ g.bare = f.bare
  names : ∀ x ∈ f.expected, ∃ g, S g ∧ g.place.offset = f.place.offset ∧ x ∈ g.expected

theorem madeOf_self (hf : S f) (htidy : f.Tidy) : MadeOf S f where
  toTidy := htidy
  origin := ⟨f, hf, rfl⟩
  names _ hx := ⟨f, hf, rfl, hx⟩

theorem MadeOf.absorb (hf : MadeOf S f) (hg : MadeOf S g)
    (hplace : f.place.offset = g.place.offset) : MadeOf S (f.absorb g) where
  nodup := nodup_absorb hf.nodup
  ne_nil hexpects := by
    obtain ⟨x, hx⟩ := List.exists_mem_of_ne_nil _ (hf.ne_nil (expects_absorb.1 hexpects))
    exact List.ne_nil_of_mem (mem_expected_absorb.2 (.inl hx))
  origin := by simpa using hf.origin
  names x hx := by
    rcases mem_expected_absorb.1 hx with hx | ⟨-, hx⟩
    · simpa using hf.names x hx
    · simpa [hplace] using hg.names x hx

theorem merges_madeOf : Merges (MadeOf S) := by
  intro f g hf hg
  obtain ⟨heq, -⟩ | ⟨heq, -⟩ | ⟨heq, hplace⟩ := furthest_cases f g
  · rwa [heq]
  · rwa [heq]
  · rw [heq]
    exact hf.absorb hg hplace

namespace Passes

theorem madeOf (h : Passes S (· = f)) (htidy : ∀ g, S g → g.Tidy) : MadeOf S f := by
  have hcarries : Carries (MadeOf S) fun _ => True := ⟨merges_madeOf, fun _ _ _ _ _ => trivial⟩
  exact (h.carry hcarries fun g hg => madeOf_self hg (htidy g hg)).1 f rfl

theorem place_lt (h : Passes S T) (hS : ∀ f, S f → f.place.offset < n) :
    ∀ f, T f → f.place.offset < n := by
  have hcarries : Carries (fun f => f.place.offset < n) fun _ => True := by
    refine ⟨fun a b ha hb => ?_, fun _ _ _ _ _ => trivial⟩
    obtain ⟨heq, -⟩ | ⟨heq, -⟩ | ⟨heq, -⟩ := furthest_cases a b
    · rwa [heq]
    · rwa [heq]
    · rwa [heq, place_absorb]
  exact (h.carry hcarries hS).1

theorem offset_le (h : Passes S (· = f)) (hg : S g) : g.place.offset ≤ f.place.offset := by
  have hcarries : Carries (fun _ => True) fun f => g.place.offset ≤ f.place.offset := by
    refine ⟨fun _ _ _ _ => trivial, fun a b _ _ hab => ?_⟩
    obtain ⟨heq, hlt⟩ | ⟨heq, hlt⟩ | ⟨heq, hlt⟩ := furthest_cases a b
    · rw [heq]; omega
    · rw [heq]; omega
    · rw [heq, place_absorb]; omega
  obtain ⟨_, rfl, hle⟩ := (h.carry hcarries fun _ _ => trivial).2 ⟨g, hg, Nat.le_refl _⟩
  exact hle

/-- Nothing that is expected there is lost, if every failure there expects something. -/
theorem mem_expected (h : Passes S (· = f)) (hg : S g)
    (hexpects : ∀ b, S b → b.place.offset = g.place.offset → b.Expects)
    (hfar : ∀ b, S b → b.place.offset ≤ g.place.offset) (hx : x ∈ g.expected) :
    x ∈ f.expected := by
  have hcarries : Carries
      (fun a => a.place.offset ≤ g.place.offset ∧ (a.place.offset = g.place.offset → a.Expects))
      fun a => a.place.offset = g.place.offset ∧ x ∈ a.expected := by
    constructor
    · intro a b ha hb
      obtain ⟨heq, -⟩ | ⟨heq, -⟩ | ⟨heq, -⟩ := furthest_cases a b
      · rwa [heq]
      · rwa [heq]
      · rw [heq]
        simpa using ha
    · intro a b ha hb hab
      obtain ⟨heq, hlt⟩ | ⟨heq, hlt⟩ | ⟨heq, hplace⟩ := furthest_cases a b
      · rw [heq]
        exact hab.resolve_right fun hb' => by omega
      · rw [heq]
        exact hab.resolve_left fun ha' => by omega
      · rw [heq, place_absorb, mem_expected_absorb]
        rcases hab with ⟨ha', hxa⟩ | ⟨hb', hxb⟩
        · exact ⟨ha', .inl hxa⟩
        · have hplace' := hplace.trans hb'
          exact ⟨hplace', .inr ⟨ha.2 hplace', hxb⟩⟩
  obtain ⟨_, rfl, -, hmem⟩ :=
    (h.carry hcarries fun b hb => ⟨hfar b hb, hexpects b hb⟩).2 ⟨g, hg, rfl, hx⟩
  exact hmem

end Passes

end Failure

theorem Cursor.expected_unexpected (d : Cursor) (names : List String) :
    (d.unexpected names).expected = names := by
  unfold Cursor.unexpected
  split <;> rfl

theorem Cursor.expects_unexpected (d : Cursor) (names : List String) :
    (d.unexpected names).Expects := by
  unfold Cursor.unexpected
  split <;> trivial

end MiniC
