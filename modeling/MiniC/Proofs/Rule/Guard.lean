import MiniC.Proofs.Rule.Congruence
import MiniC.Proofs.Rule.Leads
import MiniC.Proofs.Rule.Merge

/-!
# Failures that nothing takes the place of

Of two failures at one offset the one noted first gives the kind. So if a failure there that expects
something has been noted in time, no failure that expects nothing comes to be reported there. A rule
guards an offset if it never leaves behind a mute failure there, and if it refuses with one, then
only where a louder one has been noted.
-/

namespace MiniC

namespace Failure

variable {n : Nat} {f g : Failure}

/-- The failure lies at the offset and expects nothing. -/
def Mute (n : Nat) (f : Failure) : Prop :=
  f.place.offset = n ∧ ¬f.Expects

/-- The failure lies at the offset and expects something, or it lies behind. -/
def Loud (n : Nat) (f : Failure) : Prop :=
  n < f.place.offset ∨ f.place.offset = n ∧ f.Expects

theorem Loud.not_mute (h : f.Loud n) : ¬f.Mute n := by
  rintro ⟨hplace, hno⟩
  rcases h with hlt | ⟨-, hexpects⟩
  · omega
  · exact hno hexpects

theorem Loud.furthest_left (h : f.Loud n) (g : Failure) : (f.furthest g).Loud n := by
  unfold Loud at *
  obtain ⟨heq, -⟩ | ⟨heq, hlt⟩ | ⟨heq, -⟩ := furthest_cases f g
  · rwa [heq]
  · rw [heq]
    omega
  · rwa [heq, place_absorb, expects_absorb]

theorem Loud.furthest_right (h : g.Loud n) (hf : ¬f.Mute n) : (f.furthest g).Loud n := by
  obtain ⟨heq, hlt⟩ | ⟨heq, -⟩ | ⟨heq, hplace⟩ := furthest_cases f g
  · unfold Loud at *
    rw [heq]
    omega
  · rwa [heq]
  · rw [heq, Loud, place_absorb, expects_absorb]
    rcases h with hlt | ⟨hg, -⟩
    · exact .inl (hplace ▸ hlt)
    · have hn := hplace.trans hg
      exact .inr ⟨hn, Classical.byContradiction fun hno => hf ⟨hn, hno⟩⟩

theorem not_mute_furthest (hf : ¬f.Mute n) (hg : ¬g.Mute n) : ¬(f.furthest g).Mute n := by
  obtain ⟨heq, -⟩ | ⟨heq, -⟩ | ⟨heq, -⟩ := furthest_cases f g
  · rwa [heq]
  · rwa [heq]
  · rwa [heq, Mute, place_absorb, expects_absorb]

end Failure

namespace Cursor

variable {n : Nat} {c d : Cursor} {f : Failure}

def Unmuted (n : Nat) (c : Cursor) : Prop :=
  ∀ f, c.noted = some f → ¬f.Mute n

def Loud (n : Nat) (c : Cursor) : Prop :=
  ∃ f, c.noted = some f ∧ f.Loud n

theorem Loud.furthestOf (h : c.Loud n) (f : Failure) : (Failure.furthestOf c.noted f).Loud n := by
  obtain ⟨g, hg, hloud⟩ := h
  rw [hg]
  exact hloud.furthest_left f

theorem Loud.note (h : c.Loud n) (f : Failure) : (c.note f).Loud n :=
  ⟨_, rfl, h.furthestOf f⟩

theorem Unmuted.note_loud (h : c.Unmuted n) (hf : f.Loud n) : (c.note f).Loud n := by
  refine ⟨_, rfl, ?_⟩
  cases hc : c.noted with
  | none => exact hf
  | some g => exact hf.furthest_right (h g hc)

theorem Unmuted.furthestOf (h : c.Unmuted n) (hf : ¬f.Mute n ∨ c.Loud n) :
    ¬(Failure.furthestOf c.noted f).Mute n := by
  rcases hf with hf | hloud
  · cases hc : c.noted with
    | none => exact hf
    | some g => exact Failure.not_mute_furthest (h g hc) hf
  · exact (hloud.furthestOf f).not_mute

theorem Unmuted.note (h : c.Unmuted n) (hf : ¬f.Mute n ∨ c.Loud n) : (c.note f).Unmuted n := by
  rintro _ ⟨⟩
  exact h.furthestOf hf

def Among (tokens : Tokens) (c : Cursor) : Prop :=
  ∃ ts, (Cursor.ofTokens tokens).Spans ts c

theorem Among.behind (h : c.Among tokens) (hs : c.Spans ts d) : d.Among tokens := by
  obtain ⟨us, hus⟩ := h
  exact ⟨us ++ ts, hus.trans hs⟩

theorem Among.backTo (h : c.Among tokens) (left : Cursor) : (left.backTo c).Among tokens := by
  obtain ⟨us, hus⟩ := h
  exact ⟨us, hus.congr ⟨rfl, rfl⟩ ⟨rfl, rfl⟩⟩

end Cursor

/-- What a rule that guards the offset has done, if no mute failure had been noted before. -/
def Reply.Guards (n : Nat) (c : Cursor) : Reply α → Prop
  | .accepted _ d => d.Unmuted n ∧ (c.Loud n → d.Loud n)
  | .refused f d => d.Unmuted n ∧ (c.Loud n → d.Loud n) ∧ (¬f.Mute n ∨ d.Loud n)

theorem Reply.Guards.behind {r : Reply α} {c d : Cursor} (h : r.Guards n d)
    (hloud : c.Loud n → d.Loud n) : r.Guards n c := by
  cases r with
  | accepted a e =>
    obtain ⟨he, hloud'⟩ := h
    exact ⟨he, hloud' ∘ hloud⟩
  | refused f e =>
    obtain ⟨he, hloud', hf⟩ := h
    exact ⟨he, hloud' ∘ hloud, hf⟩

namespace Rule

structure Guards (tokens : Tokens) (n : Nat) (rule : Rule α) : Prop where
  reads : Leads (fun _ _ => True) rule fun _ _ _ => True
  keeps : ∀ {c : Cursor}, c.Among tokens → c.Unmuted n → (rule c).Guards n c

namespace Guards

variable {tokens : Tokens} {n : Nat} {rule : Rule α} {c d : Cursor}

theorem of_follows (hform : Follows rule form)
    (h : ∀ c, ∃ a d, rule c = .accepted a d ∧ d.noted = c.noted) : Guards tokens n rule := by
  refine ⟨.anyhow hform, fun {c} _ hunmuted => ?_⟩
  obtain ⟨a, d, hr, hnoted⟩ := h c
  rw [hr]
  refine ⟨fun f hf => hunmuted f (hnoted ▸ hf), ?_⟩
  rintro ⟨f, hf, hloud⟩
  exact ⟨f, hnoted.trans hf, hloud⟩

theorem of_pointwise (h : ∀ c, ∃ other, Guards tokens n other ∧ rule c = other c) :
    Guards tokens n rule := by
  refine ⟨⟨fun {_ c _ _} _ hr => ?_⟩, fun {c} hamong hunmuted => ?_⟩
  · obtain ⟨other, hother, heq⟩ := h c
    obtain ⟨us, hs⟩ := hother.reads.spans (heq ▸ hr)
    exact ⟨us, hs, trivial⟩
  · obtain ⟨other, hother, heq⟩ := h c
    exact heq ▸ hother.keeps hamong hunmuted

theorem refuse (expected : List String) : Guards tokens n (Rule.refuse expected : Rule α) :=
  ⟨.refuse _, fun {c} _ hunmuted => ⟨hunmuted, id, .inl fun hmute =>
    hmute.2 (c.expects_unexpected expected)⟩⟩

protected theorem bind {first : Rule α} {second : α → Rule β} (h : Guards tokens n first)
    (k : ∀ a, Guards tokens n (second a)) : Guards tokens n (first >>= second) := by
  refine ⟨h.reads.bind fun a => (k a).reads, fun {c} hamong hunmuted => ?_⟩
  have hfirst := h.keeps hamong hunmuted
  cases hr : first c with
  | accepted a e =>
    rw [hr] at hfirst
    obtain ⟨hunmuted', hloud⟩ := hfirst
    obtain ⟨us, hs⟩ := h.reads.spans hr
    rw [bind_accepted hr]
    exact ((k a).keeps (hamong.behind hs) hunmuted').behind hloud
  | refused f e =>
    rw [hr] at hfirst
    rwa [bind_refused hr]

theorem firstOfAfter {rules : List (Rule α)} (h : ∀ rule ∈ rules, Guards tokens n rule)
    {given : Option Failure} (hamong : c.Among tokens) (hunmuted : c.Unmuted n)
    (hgiven : ∀ f, given = some f → ¬f.Mute n ∨ c.Loud n) :
    (firstOfAfter given rules c).Guards n c := by
  induction rules generalizing given c with
  | nil =>
    refine ⟨hunmuted, id, ?_⟩
    cases given with
    | none => exact .inl fun hmute => hmute.2 (c.expects_unexpected [])
    | some f => exact hgiven f rfl
  | cons rule rules ih =>
    have hrule := (h rule List.mem_cons_self).keeps hamong hunmuted
    rw [Rule.firstOfAfter]
    cases hr : rule c with
    | accepted a d =>
      rw [hr] at hrule
      obtain ⟨hd, hloud⟩ := hrule
      cases given with
      | none => exact ⟨hd, hloud⟩
      | some f =>
        exact ⟨hd.note ((hgiven f rfl).imp id hloud), fun hc => (hloud hc).note f⟩
    | refused f left =>
      rw [hr] at hrule
      obtain ⟨hleft, hloud, hf⟩ := hrule
      refine Reply.Guards.behind (ih (fun r hr => h r (List.mem_cons_of_mem rule hr))
        (hamong.backTo left) hleft ?_) hloud
      rintro _ ⟨⟩
      cases given with
      | none => exact hf
      | some g =>
        rcases hf with hf | hleft
        · exact (hgiven g rfl).imp (Failure.not_mute_furthest hf) hloud
        · exact .inr hleft

theorem firstOf {rules : List (Rule α)} (h : ∀ rule ∈ rules, Guards tokens n rule) :
    Guards tokens n (Rule.firstOf rules) where
  reads := .firstOf (fun rule hrule => (h rule hrule).reads) id id
  keeps hamong hunmuted := firstOfAfter h hamong hunmuted nofun

/-- If an alternative has refused with a loud failure and another accepts, a loud one is noted. -/
theorem loud_firstOfAfter {rules : List (Rule α)} (h : ∀ rule ∈ rules, Guards tokens n rule)
    {given : Option Failure} (hamong : c.Among tokens) (hunmuted : c.Unmuted n)
    (hgiven : (∃ f, given = some f ∧ f.Loud n) ∨ c.Loud n)
    (hr : Rule.firstOfAfter given rules c = .accepted a d) : d.Loud n := by
  induction rules generalizing given c with
  | nil => cases hr
  | cons rule rules ih =>
    have hrule := (h rule List.mem_cons_self).keeps hamong hunmuted
    rw [Rule.firstOfAfter] at hr
    cases hr' : rule c with
    | accepted b e =>
      rw [hr'] at hrule hr
      obtain ⟨he, hloud⟩ := hrule
      cases hr
      rcases hgiven with ⟨f, rfl, hf⟩ | hc
      · exact he.note_loud hf
      · cases given with
        | none => exact hloud hc
        | some f => exact (hloud hc).note f
    | refused f left =>
      rw [hr'] at hrule hr
      obtain ⟨hleft, hloud, hf⟩ := hrule
      refine ih (fun r hr => h r (List.mem_cons_of_mem rule hr)) (hamong.backTo left) hleft ?_ hr
      rcases hgiven with ⟨g, rfl, hg⟩ | hc
      · exact hf.imp (fun hf => ⟨_, rfl, hg.furthest_right hf⟩) id
      · exact .inr (hloud hc)

theorem optional (h : Guards tokens n rule) : Guards tokens n (Rule.optional rule) := by
  refine ⟨⟨fun {_ _ o _} _ hr => ?_⟩, fun {c} hamong hunmuted => ?_⟩
  · cases o with
    | none => exact ⟨[], Rule.spans_optional_none hr, trivial⟩
    | some a =>
      obtain ⟨us, hs⟩ := h.reads.spans (Rule.optional_eq_some.1 hr)
      exact ⟨us, hs, trivial⟩
  · have hrule := h.keeps hamong hunmuted
    unfold Rule.optional
    cases hr : rule c with
    | accepted a d =>
      rw [hr] at hrule
      exact hrule
    | refused f left =>
      rw [hr] at hrule
      obtain ⟨hleft, hloud, hf⟩ := hrule
      have hback : (left.backTo c).Unmuted n := hleft
      exact ⟨hback.note hf, fun hc => Cursor.Loud.note (c := left.backTo c) (hloud hc) f⟩

theorem fix {body : Rule α → Rule α}
    (step : ∀ inner, Guards tokens n inner → Guards tokens n (body inner)) :
    Guards tokens n (Rule.fix body) := by
  have below (m : Nat) : Guards tokens n ((Rule.fix body).below m) := by
    induction m using Nat.strongRecOn with
    | ind m ih =>
      refine .of_pointwise fun c => ?_
      by_cases hc : c.rest.length < m
      · exact ⟨_, step _ (ih _ hc), by rw [below_of_lt hc, fix_eq_below]⟩
      · exact ⟨_, refuse [], below_of_not_lt hc⟩
  exact .of_pointwise fun c => ⟨_, step _ (below _), fix_eq_below body c⟩

end Guards

/-- The first of two rules guards the offset. The second has no part in it. -/
def Guards.OfFirst (tokens : Tokens) (n : Nat) (rule _other : Rule α) : Prop :=
  Guards tokens n rule

def guards (tokens : Tokens) (n : Nat) : Congruence (Guards.OfFirst tokens n) where
  pure a :=
    have hform : Follows (pure a) fun ts _ => ts = [] := .pure rfl
    .of_follows hform fun c => ⟨a, c, rfl, rfl⟩
  refuse := .refuse
  bind h k := .bind h k
  eat token := .of_follows (.eat token) fun c => by
    unfold Rule.eat
    split
    · exact ⟨_, _, rfl, rfl⟩
    · exact ⟨_, _, rfl, rfl⟩
  eat? view := .of_follows (.eat? view) fun c => by
    unfold Rule.eat?
    split
    · exact ⟨_, _, rfl, rfl⟩
    · exact ⟨_, _, rfl, rfl⟩
  atEnd := .of_follows .atEnd fun c => ⟨_, c, rfl, rfl⟩
  firstOf h := .firstOf fun rule hrule => by
    induction h with
    | nil => cases hrule
    | cons hfirst _ ih =>
      rcases List.mem_cons.1 hrule with rfl | hrest
      · exact hfirst
      · exact ih hrest
  optional := .optional
  fix step := .fix fun inner h => step inner inner h

end Rule

end MiniC
