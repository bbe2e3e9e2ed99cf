import Mathlib.Data.List.Sort
import MiniC.Proofs.Rule.Merge

/-!
# How failures are grouped

Failures that say what they expect are merged two at a time, some by alternatives and some by the
cursor that notes them. However they are grouped, what comes out is one and the same failure
(`Failure.merged_regrouped`): the first of those that lie furthest into the text, with the
expectations of all of them. Another order can only put another of these in its place.

The reason is that the result can be told from the list of the failures alone (`Failure.MergeOf`).
-/

namespace MiniC

namespace Failure

inductive Grouping where
  | single (failure : Failure)
  | join (first second : Grouping)

namespace Grouping

def failures : Grouping → List Failure
  | single failure => [failure]
  | join first second => first.failures ++ second.failures

def merged : Grouping → Failure
  | single failure => failure
  | join first second => first.merged.furthest second.merged

end Grouping

def tied (failures : List Failure) (offset : Nat) : List Failure :=
  failures.filter (·.place.offset = offset)

/-- What failures in order come to when they are merged: the first of the furthest ones, which
expects what any of these expects. It has the names in ascending order, each once, unless it is
alone there. -/
structure MergeOf (failures : List Failure) (f : Failure) : Prop where
  highest : ∀ g ∈ failures, g.place.offset ≤ f.place.offset
  first : (tied failures f.place.offset).head?.map bare = some f.bare
  names : ∀ x, x ∈ f.expected ↔ ∃ g ∈ tied failures f.place.offset, x ∈ g.expected
  ascends : 2 ≤ (tied failures f.place.offset).length → f.expected.Pairwise (· < ·)
  alone : ∀ g, tied failures f.place.offset = [g] → f = g

variable {fs gs : List Failure} {f g : Failure} {offset : Nat}

theorem mem_tied : g ∈ tied fs offset ↔ g ∈ fs ∧ g.place.offset = offset := by
  simp [tied]

theorem tied_append : tied (fs ++ gs) offset = tied fs offset ++ tied gs offset :=
  List.filter_append ..

theorem tied_eq_nil (h : ∀ g ∈ fs, g.place.offset < offset) : tied fs offset = [] :=
  List.filter_eq_nil_iff.2 fun g hg => by simpa using (h g hg).ne

theorem eq_of_bare (hbare : f.bare = g.bare) (hexpected : f.expected = g.expected) : f = g := by
  cases f <;> cases g <;> simp_all [bare, expected]

theorem pairwise_absorb (h : f.Expects) : (f.absorb g).expected.Pairwise (· < ·) := by
  cases f with
  | unexpectedToken => exact pairwise_ascending _
  | unexpectedEnd => exact pairwise_ascending _
  | invalidToken => exact h.elim
  | conflictingUnary => exact h.elim

-- ---------------------------------------------------------------------------
-- What comes out
-- ---------------------------------------------------------------------------

theorem mergeOf_single (f : Failure) : MergeOf [f] f where
  highest := by simp
  first := by simp [tied]
  names x := by simp [tied]
  ascends h := by simp [tied] at h
  alone g h := by simpa [tied] using h

namespace MergeOf

theorem exists_first (h : MergeOf fs f) :
    ∃ g rest, tied fs f.place.offset = g :: rest ∧ g.bare = f.bare := by
  obtain ⟨g, hhead, hbare⟩ := Option.map_eq_some_iff.1 h.first
  obtain ⟨rest, hrest⟩ := List.head?_eq_some_iff.1 hhead
  exact ⟨g, rest, hrest, hbare⟩

theorem expects (h : MergeOf fs f) (hfs : ∀ g ∈ fs, g.Expects) : f.Expects := by
  obtain ⟨g, rest, htied, hbare⟩ := h.exists_first
  have hg : g ∈ tied fs f.place.offset := htied ▸ List.mem_cons_self
  exact (expects_iff_of_bare hbare).1 (hfs g (mem_tied.1 hg).1)

/-- The furthest failures of a list decide. -/
theorem of_tied (h : MergeOf fs f) (hhighest : ∀ g ∈ gs, g.place.offset ≤ f.place.offset)
    (htied : tied gs f.place.offset = tied fs f.place.offset) : MergeOf gs f where
  highest := hhighest
  first := htied ▸ h.first
  names := htied ▸ h.names
  ascends := htied ▸ h.ascends
  alone := htied ▸ h.alone

theorem furthest (hf : MergeOf fs f) (hg : MergeOf gs g) (hfs : ∀ a ∈ fs, a.Expects) :
    MergeOf (fs ++ gs) (f.furthest g) := by
  obtain ⟨heq, hlt⟩ | ⟨heq, hlt⟩ | ⟨heq, hplace⟩ := furthest_cases f g
  · have hgs : ∀ a ∈ gs, a.place.offset < f.place.offset := fun a ha =>
      (hg.highest a ha).trans_lt hlt
    rw [heq]
    refine hf.of_tied (List.forall_mem_append.2 ⟨hf.highest, fun a ha => (hgs a ha).le⟩) ?_
    rw [tied_append, tied_eq_nil hgs, List.append_nil]
  · have hfs' : ∀ a ∈ fs, a.place.offset < g.place.offset := fun a ha =>
      (hf.highest a ha).trans_lt hlt
    rw [heq]
    refine hg.of_tied (List.forall_mem_append.2 ⟨fun a ha => (hfs' a ha).le, hg.highest⟩) ?_
    rw [tied_append, tied_eq_nil hfs', List.nil_append]
  · have hexpects := hf.expects hfs
    obtain ⟨a, as, hfirst, hbare⟩ := hf.exists_first
    obtain ⟨b, bs, hsecond, -⟩ := hg.exists_first
    rw [← hplace] at hsecond
    have hhighest : ∀ a ∈ gs, a.place.offset ≤ f.place.offset := hplace ▸ hg.highest
    rw [heq]
    refine ⟨?_, ?_, ?_, fun _ => pairwise_absorb hexpects, ?_⟩
    · simpa using List.forall_mem_append.2 ⟨hf.highest, hhighest⟩
    · simp [tied_append, hfirst, hbare]
    · intro x
      rw [mem_expected_absorb, place_absorb, tied_append, hf.names, hg.names, hplace]
      simp [hexpects, or_and_right, exists_or]
    · intro c hc
      simp [tied_append, hfirst, hsecond] at hc

theorem exists_tied (h : MergeOf fs f) : ∃ g ∈ tied fs f.place.offset, g.bare = f.bare := by
  obtain ⟨g, rest, htied, hbare⟩ := h.exists_first
  exact ⟨g, htied ▸ List.mem_cons_self, hbare⟩

theorem offset_le (hf : MergeOf fs f) (hg : MergeOf gs g) (hsub : fs ⊆ gs) :
    f.place.offset ≤ g.place.offset := by
  obtain ⟨a, ha, -⟩ := hf.exists_tied
  obtain ⟨hmem, hoffset⟩ := mem_tied.1 ha
  exact hoffset ▸ hg.highest a (hsub hmem)

theorem of_perm (hf : MergeOf fs f) (hg : MergeOf gs g) (hperm : gs.Perm fs) :
    g.place.offset = f.place.offset ∧ g.expected = f.expected ∧
      ∃ a ∈ tied fs f.place.offset, a.bare = g.bare := by
  have hoffset : g.place.offset = f.place.offset :=
    Nat.le_antisymm (hg.offset_le hf hperm.subset) (hf.offset_le hg hperm.symm.subset)
  have htied : (tied gs g.place.offset).Perm (tied fs f.place.offset) :=
    hoffset ▸ hperm.filter _
  refine ⟨hoffset, ?_, ?_⟩
  · obtain ⟨a, rest, hfirst, -⟩ := hf.exists_first
    cases rest with
    | nil =>
      rw [hfirst] at htied
      rw [hf.alone a hfirst, hg.alone a (List.perm_singleton.1 htied)]
    | cons b rest =>
      have hlength : 2 ≤ (tied fs f.place.offset).length := by simp [hfirst]
      refine (hg.ascends (htied.length_eq ▸ hlength)).eq_of_mem_iff (hf.ascends hlength) fun x => ?_
      rw [hg.names, hf.names]
      exact exists_congr fun a => and_congr_left fun _ => htied.mem_iff
  · obtain ⟨a, ha, hbare⟩ := hg.exists_tied
    exact ⟨a, htied.mem_iff.1 ha, hbare⟩

theorem unique (hf : MergeOf fs f) (hg : MergeOf fs g) : f = g := by
  obtain ⟨hoffset, hexpected, -⟩ := hf.of_perm hg (.refl fs)
  have hfirst := hg.first
  rw [hoffset, hf.first] at hfirst
  exact eq_of_bare (Option.some.inj hfirst) hexpected.symm

end MergeOf

theorem absorb_of_not_expects (h : ¬f.Expects) (g : Failure) : f.absorb g = f := by
  cases f with
  | unexpectedToken => exact absurd trivial h
  | unexpectedEnd => exact absurd trivial h
  | invalidToken => rfl
  | conflictingUnary => rfl

/-- Whichever two of three failures are merged first, the result is the same if the middle one says
what it expects. Of the others this is not asked: the first hides what comes behind it, and the last
is absorbed. -/
theorem furthest_assoc (f : Failure) {g : Failure} (hg : g.Expects) (h : Failure) :
    (f.furthest g).furthest h = f.furthest (g.furthest h) := by
  by_cases hf : f.Expects
  · have hfg : ∀ a ∈ [f] ++ [g], a.Expects := by simp [hf, hg]
    have hleft := ((mergeOf_single f).furthest (mergeOf_single g) (by simpa)).furthest
      (mergeOf_single h) hfg
    have hright := (mergeOf_single f).furthest
      ((mergeOf_single g).furthest (mergeOf_single h) (by simpa)) (by simpa)
    rw [List.append_assoc] at hleft
    exact hleft.unique hright
  · -- `f` keeps what it expects, so all that is left is to compare offsets
    have hmute := absorb_of_not_expects hf
    grind [furthest, place_absorb]

namespace Grouping

theorem failures_ne_nil (grouping : Grouping) : grouping.failures ≠ [] := by
  induction grouping with
  | single f => exact List.cons_ne_nil _ _
  | join first second ihfirst _ => exact List.append_ne_nil_of_left_ne_nil ihfirst _

abbrev Expects (grouping : Grouping) : Prop :=
  ∀ f ∈ grouping.failures, f.Expects

theorem mergeOf {grouping : Grouping} (h : grouping.Expects) :
    MergeOf grouping.failures grouping.merged := by
  induction grouping with
  | single f => exact mergeOf_single f
  | join first second ihfirst ihsecond =>
    obtain ⟨hfirst, hsecond⟩ := List.forall_mem_append.1 h
    exact (ihfirst hfirst).furthest (ihsecond hsecond) hfirst

theorem expects_merged {grouping : Grouping} (h : grouping.Expects) : grouping.merged.Expects :=
  (mergeOf h).expects h

theorem merged_eq {grouping grouping' : Grouping} (h : grouping.Expects)
    (heq : grouping'.failures = grouping.failures) : grouping'.merged = grouping.merged := by
  have h' : grouping'.Expects := fun f hf => h f (heq ▸ hf)
  exact (heq ▸ mergeOf h').unique (mergeOf h)

end Grouping

end Failure

-- ---------------------------------------------------------------------------
-- What is noted
-- ---------------------------------------------------------------------------

open Failure (Grouping MergeOf)

namespace Cursor

variable {f : Failure} {groupings groupings' : List Grouping}

def noteAll (c : Cursor) (failures : List Failure) : Cursor :=
  failures.foldl note c

theorem report_note (c : Cursor) (hf : f.Expects) (g : Failure) :
    (c.note f).report g = c.report (f.furthest g) := by
  unfold report note Failure.furthestOf
  cases c.noted with
  | none => rfl
  | some noted => exact noted.furthest_assoc hf g

theorem note_note (c : Cursor) (hf : f.Expects) (g : Failure) :
    (c.note f).note g = c.note (f.furthest g) :=
  congrArg (fun failure => { c with noted := some failure }) (c.report_note hf g)

theorem noteAll_cons (c : Cursor) (grouping : Grouping)
    (h : ∀ f ∈ (grouping :: groupings).flatMap Grouping.failures, f.Expects) :
    ∃ all : Grouping, all.failures = (grouping :: groupings).flatMap Grouping.failures ∧
      c.noteAll ((grouping :: groupings).map Grouping.merged) = c.note all.merged := by
  induction groupings generalizing grouping with
  | nil => exact ⟨grouping, by simp, rfl⟩
  | cons next rest ih =>
    have hflat : (grouping.join next :: rest).flatMap Grouping.failures =
        (grouping :: next :: rest).flatMap Grouping.failures := by
      simp [Grouping.failures]
    obtain ⟨all, hall, hnote⟩ := ih (grouping.join next) (hflat ▸ h)
    have hexpects : grouping.Expects := (List.forall_mem_append.1 h).1
    have hjoin := c.note_note (Grouping.expects_merged hexpects) next.merged
    refine ⟨all, hall.trans hflat, ?_⟩
    rw [← hnote]
    exact congrArg (noteAll · (rest.map Grouping.merged)) hjoin

theorem noteAll_regrouped (c : Cursor) (h : ∀ f ∈ groupings.flatMap Grouping.failures, f.Expects)
    (heq : groupings'.flatMap Grouping.failures = groupings.flatMap Grouping.failures) :
    c.noteAll (groupings'.map Grouping.merged) = c.noteAll (groupings.map Grouping.merged) := by
  have hne (g : Grouping) (rest : List Grouping) :
      (g :: rest).flatMap Grouping.failures ≠ [] :=
    List.append_ne_nil_of_left_ne_nil g.failures_ne_nil _
  cases groupings with
  | nil =>
    cases groupings' with
    | nil => rfl
    | cons g rest => exact absurd heq (hne g rest)
  | cons g rest =>
    cases groupings' with
    | nil => exact absurd heq.symm (hne g rest)
    | cons g' rest' =>
      obtain ⟨all, hall, hnote⟩ := c.noteAll_cons g h
      obtain ⟨all', hall', hnote'⟩ := c.noteAll_cons g' (heq ▸ h)
      have hexpects : all.Expects := fun f hf => h f (hall ▸ hf)
      have hfailures : all'.failures = all.failures := hall'.trans (heq.trans hall.symm)
      rw [hnote, hnote', Grouping.merged_eq hexpects hfailures]

theorem report_noteAll (c : Cursor) (last : Grouping)
    (h : ∀ f ∈ groupings.flatMap Grouping.failures, f.Expects) :
    ∃ all : Grouping, all.failures = groupings.flatMap Grouping.failures ++ last.failures ∧
      (c.noteAll (groupings.map Grouping.merged)).report last.merged = c.report all.merged := by
  cases groupings with
  | nil => exact ⟨last, rfl, rfl⟩
  | cons grouping rest =>
    obtain ⟨noted, hnoted, hnote⟩ := c.noteAll_cons grouping h
    have hexpects : noted.Expects := fun f hf => h f (hnoted ▸ hf)
    refine ⟨noted.join last, congrArg (· ++ last.failures) hnoted, ?_⟩
    rw [hnote, report_note c (Grouping.expects_merged hexpects)]
    rfl

end Cursor

namespace Failure

/-- However failures that expect something are grouped, in one order they come to the same, which
can be told from their list. Another order comes to the same offset and the same expectations, at
the place and of the kind of another of the furthest ones if not of the same. So it does not matter
how failures have been grouped before they are noted, neither to what is noted nor to the report of
the last. -/
theorem merged_regrouped :
    (∀ g : Grouping, g.Expects → MergeOf g.failures g.merged) ∧
    (∀ g h : Grouping, g.Expects → h.failures = g.failures → h.merged = g.merged) ∧
    (∀ g h : Grouping, g.Expects → h.failures.Perm g.failures →
      h.merged.place.offset = g.merged.place.offset ∧ h.merged.expected = g.merged.expected ∧
        ∃ f ∈ tied g.failures g.merged.place.offset, f.bare = h.merged.bare) ∧
    ∀ (c : Cursor) (gs hs : List Grouping), (∀ f ∈ gs.flatMap Grouping.failures, f.Expects) →
      (hs.flatMap Grouping.failures = gs.flatMap Grouping.failures →
        c.noteAll (hs.map Grouping.merged) = c.noteAll (gs.map Grouping.merged)) ∧
      ∀ g h : Grouping, g.Expects →
        hs.flatMap Grouping.failures ++ h.failures = gs.flatMap Grouping.failures ++ g.failures →
        (c.noteAll (hs.map Grouping.merged)).report h.merged =
          (c.noteAll (gs.map Grouping.merged)).report g.merged := by
  refine ⟨fun g hg => Grouping.mergeOf hg, fun g h hg heq => Grouping.merged_eq hg heq,
    fun g h hg hperm => ?_, fun c gs hs hgs => ⟨c.noteAll_regrouped hgs, fun g h hg heq => ?_⟩⟩
  · have hh : h.Expects := fun f hf => hg f (hperm.mem_iff.1 hf)
    exact (Grouping.mergeOf hg).of_perm (Grouping.mergeOf hh) hperm
  · have hall := List.forall_mem_append.2 ⟨hgs, hg⟩
    have hhs := (List.forall_mem_append.1 (heq ▸ hall)).1
    obtain ⟨all, hfailures, hreport⟩ := c.report_noteAll g hgs
    obtain ⟨all', hfailures', hreport'⟩ := c.report_noteAll h hhs
    have hexpects : all.Expects := fun f hf => hall f (hfailures ▸ hf)
    have hsame : all'.failures = all.failures := hfailures'.trans (heq.trans hfailures.symm)
    rw [hreport, hreport', Grouping.merged_eq hexpects hsame]

/-- Two failures at offset 9, and one before them, in two groupings, in the opposite order, and
noted behind a second operator in two ways. -/
theorem merged_regrouped_three :
    let near : Grouping := .single (.unexpectedToken "'x'" ["'('"] ⟨3, 1, 4⟩)
    let token : Grouping := .single (.unexpectedToken "';'" ["','", "')'"] ⟨9, 2, 1⟩)
    let stop : Grouping := .single (.unexpectedEnd ["'='", "')'"] ⟨9, 2, 1⟩)
    let g : Grouping := .join near (.join token stop)
    let h : Grouping := .join (.join near token) stop
    let back : Grouping := .join stop (.join token near)
    let c : Cursor := ⟨[], ⟨20, 3, 1⟩, some (.conflictingUnary ⟨5, 1, 6⟩)⟩
    g.Expects ∧ g.merged = .unexpectedToken "';'" ["')'", "','", "'='"] ⟨9, 2, 1⟩ ∧
      MergeOf g.failures g.merged ∧
      h.failures = g.failures ∧ h.merged = g.merged ∧
      back.failures.Perm g.failures ∧ back.merged.expected = g.merged.expected ∧
      back.merged = .unexpectedEnd ["')'", "','", "'='"] ⟨9, 2, 1⟩ ∧
      c.noteAll [near.merged, (token.join stop).merged] =
        c.noteAll [(near.join token).merged, stop.merged] ∧
      (c.noteAll [near.merged]).report (token.join stop).merged =
        (c.noteAll [(near.join token).merged]).report stop.merged := by
  intro near token stop g h back c
  obtain ⟨hmerge, hregroup, hpermute, hnote⟩ := merged_regrouped
  have hg : g.Expects := by
    simp [Grouping.Expects, g, near, token, stop, Grouping.failures, Failure.Expects]
  have htoken : (token.join stop).Expects := (List.forall_mem_append.1 hg).2
  have hstop : stop.Expects := (List.forall_mem_append.1 htoken).2
  have hboth : ∀ f ∈ [near.join token, stop].flatMap Grouping.failures, f.Expects := hg
  have hfirst : ∀ f ∈ [near.join token].flatMap Grouping.failures, f.Expects := by
    simp [near, token, Grouping.failures, Failure.Expects]
  have hperm : back.failures.Perm g.failures := List.reverse_perm g.failures
  exact ⟨hg, by decide, hmerge g hg, rfl, hregroup g h hg rfl, hperm,
    (hpermute g back hg hperm).2.1, by decide,
    (hnote c [near.join token, stop] [near, token.join stop] hboth).1 rfl,
    (hnote c [near.join token] [near] hfirst).2 stop (token.join stop) hstop rfl⟩

end Failure

end MiniC
