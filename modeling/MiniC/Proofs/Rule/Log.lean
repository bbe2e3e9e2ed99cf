import MiniC.Proofs.Rule.Congruence
import MiniC.Proofs.Rule.Form

/-!
# What goes wrong on the way

A rule tells of one failure, or of two: the one that it refuses with and the one that it notes.
`Log` says which failures are raised while a rule reads, also those of alternatives that are given
up and those behind which reading goes on. It is put together along with the rule. All of them are
in what the rule tells: by merging, each may lose its place or its kind to another, and nothing
else (`Log.passes`).
-/

namespace MiniC

-- ---------------------------------------------------------------------------
-- Merging
-- ---------------------------------------------------------------------------

namespace Failure

/-- Merging two failures with `Φ` gives one with `Φ`, and one with `Ψ` too if one of them has it. -/
structure Carries (Φ Ψ : Failure → Prop) : Prop where
  merges : Merges Φ
  told : ∀ f g, Φ f → Φ g → Ψ f ∨ Ψ g → Ψ (f.furthest g)

/-- The failures in `T` come from those in `S` by merging, and each of these has gone into one. -/
structure Passes (S T : Failure → Prop) : Prop where
  carry : ∀ {Φ Ψ : Failure → Prop}, Carries Φ Ψ → (∀ f, S f → Φ f) →
    (∀ f, T f → Φ f) ∧ ((∃ f, S f ∧ Ψ f) → ∃ f, T f ∧ Ψ f)

namespace Passes

variable {S T U V : Failure → Prop}

theorem of_iff (h : ∀ f, S f ↔ T f) : Passes S T :=
  ⟨fun _ hS => ⟨fun f hf => hS f ((h f).2 hf), fun ⟨f, hf, hΨ⟩ => ⟨f, (h f).1 hf, hΨ⟩⟩⟩

theorem trans (h : Passes S T) (k : Passes T U) : Passes S U := by
  refine ⟨fun hcarries hS => ?_⟩
  obtain ⟨hT, htold⟩ := h.carry hcarries hS
  obtain ⟨hU, htold'⟩ := k.carry hcarries hT
  exact ⟨hU, fun hex => htold' (htold hex)⟩

theorem beside (h : Passes S T) (V : Failure → Prop) :
    Passes (fun f => S f ∨ V f) fun f => T f ∨ V f := by
  refine ⟨fun hcarries hS => ?_⟩
  obtain ⟨hT, htold⟩ := h.carry hcarries fun f hf => hS f (.inl hf)
  refine ⟨fun f hf => hf.elim (hT f) fun hV => hS f (.inr hV), ?_⟩
  rintro ⟨f, hf | hf, hΨ⟩
  · obtain ⟨g, hg, hΨ⟩ := htold ⟨f, hf, hΨ⟩
    exact ⟨g, .inl hg, hΨ⟩
  · exact ⟨f, .inr hf, hΨ⟩

theorem furthest (f g : Failure) :
    Passes (fun a => a = f ∨ a = g) fun a => a = f.furthest g := by
  refine ⟨fun hcarries hS => ?_⟩
  have hf := hS f (.inl rfl)
  have hg := hS g (.inr rfl)
  refine ⟨fun _ h => h ▸ hcarries.merges f g hf hg, ?_⟩
  rintro ⟨_, rfl | rfl, hΨ⟩
  · exact ⟨_, rfl, hcarries.told _ _ hf hg (.inl hΨ)⟩
  · exact ⟨_, rfl, hcarries.told _ _ hf hg (.inr hΨ)⟩

theorem furthestOf (noted : Option Failure) (f : Failure) :
    Passes (fun a => noted = some a ∨ a = f) fun a => a = Failure.furthestOf noted f := by
  cases noted with
  | none => exact .of_iff fun a => by simp [Failure.furthestOf]
  | some g => exact .trans (.of_iff fun a => by rw [Option.some.injEq, eq_comm]) (.furthest g f)

end Passes

end Failure

-- ---------------------------------------------------------------------------
-- Logs
-- ---------------------------------------------------------------------------

structure Log (rule : Rule α) where
  /-- While the rule reads from the first cursor on, the failure is raised at the second. -/
  raised : Cursor → Cursor → Failure → Prop
  passes : ∀ c, Failure.Passes (fun f => c.noted = some f ∨ ∃ d, raised c d f) (rule c).Reports

namespace Log

open Failure (Passes)

variable {α β : Type} {rule : Rule α}

def silent (rule : Rule α) (h : ∀ c, ∃ a d, rule c = .accepted a d ∧ d.noted = c.noted) :
    Log rule where
  raised _ _ _ := False
  passes c := by
    obtain ⟨a, d, hr, hd⟩ := h c
    refine .of_iff fun f => ?_
    rw [hr]
    simp [Reply.Reports, hd]

def refuse (expected : List String) : Log (Rule.refuse expected : Rule α) where
  raised c d f := d = c ∧ f = c.unexpected expected
  passes c := by
    refine .of_iff fun f => ?_
    simp [Rule.refuse, Reply.Reports, or_comm, eq_comm]

def single (operator : Token → Option β) : Log (Rule.single operator) where
  raised c d f := (c.peek?.bind operator).isSome ∧ d = c ∧ f = .conflictingUnary c.position
  passes c := by
    refine .of_iff fun f => ?_
    unfold Rule.single
    cases c.peek?.bind operator with
    | some op => simp [Reply.Reports, or_comm, eq_comm]
    | none => simp [Reply.Reports]

def bind {first : Rule α} {second : α → Rule β} (L : Log first) (M : ∀ a, Log (second a)) :
    Log (first >>= second) where
  raised c d f := L.raised c d f ∨ ∃ a e, first c = .accepted a e ∧ (M a).raised e d f
  passes c := by
    have hfirst := L.passes c
    cases hr : first c with
    | accepted a e =>
      rw [hr] at hfirst
      rw [Rule.bind_accepted hr]
      refine .trans (.of_iff fun f => ?_) ((hfirst.beside _).trans ((M a).passes e))
      simp [exists_or, or_assoc, and_assoc]
    | refused g e =>
      rw [hr] at hfirst
      rw [Rule.bind_refused hr]
      refine .trans (.of_iff fun f => ?_) hfirst
      simp

def optional (L : Log rule) : Log (Rule.optional rule) where
  raised := L.raised
  passes c := by
    have hrule := L.passes c
    unfold Rule.optional
    cases hr : rule c with
    | accepted a d => rwa [hr] at hrule
    | refused g left =>
      rw [hr] at hrule
      refine hrule.trans (.trans (.of_iff fun f => ?_) ((Passes.furthestOf left.noted g).trans ?_))
      · simp [Reply.Reports, or_comm, eq_comm]
      · exact .of_iff fun f => by simp [Reply.Reports, Cursor.note, Cursor.backTo, eq_comm]

-- ---------------------------------------------------------------------------
-- Alternatives
-- ---------------------------------------------------------------------------

/-- A log of the first of two rules. The second has no part in it. -/
def OfFirst (rule _other : Rule α) : Type :=
  Log rule

abbrev Each (rules rules' : List (Rule α)) : Type 1 :=
  Rule.Each OfFirst rules rules'

/-- What is raised while alternatives are tried: each begins at the same place, with what those
before it have noted, and only if they have refused. -/
def tried : {rules rules' : List (Rule α)} → Each rules rules' → Cursor → Cursor → Failure → Prop
  | _, _, .nil, _, _, _ => False
  | rule :: _, _, .cons L Ls, c, d, f =>
    Log.raised L c d f ∨ ∃ g left, rule c = .refused g left ∧ tried Ls (left.backTo c) d f

theorem passes_note (c : Cursor) (f : Failure) :
    Passes (fun a => c.noted = some a ∨ a = f) fun a => (c.note f).noted = some a :=
  (Passes.furthestOf c.noted f).trans (.of_iff fun a => by simp [Cursor.note, eq_comm])

theorem passes_firstOfAfter {rules rules' : List (Rule α)} (Ls : Each rules rules') (g : Failure)
    (c : Cursor) :
    Passes (fun f => (c.noted = some f ∨ f = g) ∨ ∃ d, tried Ls c d f)
      (Rule.firstOfAfter (some g) rules c).Reports := by
  induction Ls generalizing g c with
  | nil =>
    exact .of_iff fun f => by simp [tried, Rule.firstOfAfter, Reply.Reports, or_comm, eq_comm]
  | @cons rule _ rules _ L Ls ih =>
    have hrule := Log.passes L c
    rw [Rule.firstOfAfter]
    cases hr : rule c with
    | accepted a next =>
      rw [hr] at hrule
      refine .trans (.of_iff fun f => ?_) ((hrule.beside (· = g)).trans (passes_note next g))
      simp [tried, hr, or_right_comm]
    | refused f left =>
      rw [hr] at hrule
      have hworst : Passes (fun a => (a = f ∨ left.noted = some a) ∨ a = g)
          fun a => left.noted = some a ∨ a = f.furthest g := by
        refine .trans (.of_iff fun a => or_right_comm) ?_
        exact ((Passes.furthest f g).beside _).trans (.of_iff fun a => or_comm)
      refine .trans (.of_iff fun a => ?_) (((hrule.beside (· = g)).beside
        (fun a => ∃ d, tried Ls (left.backTo c) d a)).trans
          (.trans (.beside (.trans (.of_iff fun a => ?_) hworst) _) (ih _ (left.backTo c))))
      · simp [tried, hr, exists_or, or_assoc, and_assoc, or_comm, or_left_comm]
      · simp [Reply.Reports, eq_comm]

def firstOf {rules rules' : List (Rule α)} (Ls : Each rules rules') : Log (Rule.firstOf rules) where
  raised c d f := tried Ls c d f ∨ rules = [] ∧ d = c ∧ f = c.unexpected []
  passes c := by
    unfold Rule.firstOf
    cases Ls with
    | nil =>
      exact .of_iff fun f => by
        simp [tried, Rule.firstOfAfter, Reply.Reports, or_comm, eq_comm]
    | @cons rule _ rules _ L Ls =>
      have hrule := Log.passes L c
      rw [Rule.firstOfAfter]
      cases hr : rule c with
      | accepted a next =>
        rw [hr] at hrule
        refine .trans (.of_iff fun f => ?_) hrule
        simp [tried, hr]
      | refused f left =>
        rw [hr] at hrule
        have hrest := hrule.beside fun a => ∃ d, tried Ls (left.backTo c) d a
        refine .trans (.of_iff fun a => ?_)
          (hrest.trans (.trans (.of_iff fun a => ?_) (passes_firstOfAfter Ls f (left.backTo c))))
        · simp [tried, hr, exists_or, or_assoc, and_assoc]
        · simp [Reply.Reports, Cursor.backTo, or_comm, eq_comm]

-- ---------------------------------------------------------------------------
-- Rules that contain themselves
-- ---------------------------------------------------------------------------

section

variable {body body' : Rule α → Rule α} (step : ∀ inner, Log inner → Log (body inner))

def belowOf (n : Nat) (less : ∀ m < n, Log ((Rule.fix body).below m)) :
    Log ((Rule.fix body).below n) where
  raised c d f :=
    if h : c.rest.length < n then (step _ (less c.rest.length h)).raised c d f
    else d = c ∧ f = c.unexpected []
  passes c := by
    by_cases h : c.rest.length < n
    · rw [Rule.below_of_lt h, Rule.fix_eq_below]
      simp only [h, dif_pos]
      exact (step _ (less c.rest.length h)).passes c
    · rw [Rule.below_of_not_lt h]
      simp only [h, dif_neg, not_false_eq_true]
      exact (refuse []).passes c

def below (n : Nat) : Log ((Rule.fix body).below n) :=
  belowOf step n fun m _ => below m

def fix : Log (Rule.fix body) where
  raised c := (step _ (below step c.rest.length)).raised c
  passes c := by
    rw [Rule.fix_eq_below]
    exact (step _ (below step c.rest.length)).passes c

theorem raised_below (h : c.rest.length < n) : (below step n).raised c = (fix step).raised c := by
  rw [below]
  simp only [belowOf, h, dif_pos]
  rfl

end

end Log

def Rule.logs : Rule.Congruence Log.OfFirst where
  pure a := .silent _ fun c => ⟨a, c, rfl, rfl⟩
  refuse := .refuse
  bind := .bind
  eat token := .silent _ fun c => by
    unfold Rule.eat
    split
    · exact ⟨_, _, rfl, rfl⟩
    · exact ⟨_, _, rfl, rfl⟩
  eat? view := .silent _ fun c => by
    unfold Rule.eat?
    split
    · exact ⟨_, _, rfl, rfl⟩
    · exact ⟨_, _, rfl, rfl⟩
  atEnd := .silent _ fun c => ⟨_, c, rfl, rfl⟩
  firstOf := .firstOf
  optional := .optional
  fix step := .fix fun inner L => step inner inner L

end MiniC
