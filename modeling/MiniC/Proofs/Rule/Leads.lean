import MiniC.Proofs.Rule.Form

/-!
# From before a rule to behind it

`Leads P rule Q`: what holds of the words read before a rule and of the place there, and what then
holds of all words read when the rule has accepted. Forms say nothing about the place, and nothing
about the words before.
-/

namespace MiniC.Rule

/-- If `P` holds of the words read before and of the cursor, then after the rule has accepted, `Q`
holds of its result, of all words read and of the cursor. -/
structure Leads (P : List Token → Cursor → Prop) (rule : Rule α)
    (Q : α → List Token → Cursor → Prop) : Prop where
  accepted : ∀ {ts c a d}, P ts c → rule c = .accepted a d → ∃ us, c.Spans us d ∧ Q a (ts ++ us) d

namespace Leads

variable {P P' : List Token → Cursor → Prop} {Q Q' : α → List Token → Cursor → Prop}
  {rule : Rule α}

theorem of_follows (h : Follows rule form)
    (hQ : ∀ {ts us c a} (d : Cursor), P ts c → form us a → Q a (ts ++ us) d) : Leads P rule Q := by
  refine ⟨fun hts hr => ?_⟩
  obtain ⟨us, hs, hus⟩ := h.accepted hr
  exact ⟨us, hs, hQ _ hts hus⟩

theorem anyhow (h : Follows rule form) : Leads P rule fun _ _ _ => True :=
  of_follows h fun _ _ _ => trivial

theorem weaken (h : Leads P rule Q) (hP : ∀ ts c, P' ts c → P ts c) : Leads P' rule Q :=
  ⟨fun hts hr => h.accepted (hP _ _ hts) hr⟩

theorem mono (h : Leads P rule Q) (hQ : ∀ a ts d, Q a ts d → Q' a ts d) : Leads P rule Q' := by
  refine ⟨fun hts hr => ?_⟩
  obtain ⟨us, hs, hus⟩ := h.accepted hts hr
  exact ⟨us, hs, hQ _ _ _ hus⟩

theorem spans (h : Leads (fun _ _ => True) rule Q) (hr : rule c = .accepted a d) :
    ∃ us, c.Spans us d := by
  obtain ⟨us, hs, -⟩ := @accepted _ _ _ _ h [] c a d trivial hr
  exact ⟨us, hs⟩

protected theorem pure {a : α} (h : ∀ ts d, P ts d → Q a ts d) : Leads P (pure a) Q := by
  refine ⟨fun {ts c b d} hP hr => ?_⟩
  cases hr
  exact ⟨[], .refl _, by simpa using h ts c hP⟩

theorem refuse (expected : List String) : Leads P (refuse expected) Q :=
  ⟨fun _ hr => nomatch hr⟩

protected theorem bind {first : Rule α} {second : α → Rule β} {R : β → List Token → Cursor → Prop}
    (h : Leads P first Q) (k : ∀ a, Leads (Q a) (second a) R) : Leads P (first >>= second) R := by
  refine ⟨fun hP hr => ?_⟩
  obtain ⟨a, e, hc, hd⟩ := bind_eq_accepted.1 hr
  obtain ⟨us, hs, hQ⟩ := h.accepted hP hc
  obtain ⟨vs, hs', hR⟩ := (k a).accepted hQ hd
  exact ⟨us ++ vs, hs.trans hs', by rwa [← List.append_assoc]⟩

theorem eat? (view : Token → Option α) :
    Leads P (Rule.eat? view) fun o ts d => o = none → P ts d := by
  refine ⟨fun {ts c o d} hP hr => ?_⟩
  unfold Rule.eat? at hr
  split at hr
  next a h =>
    obtain ⟨t, ht, -⟩ := Option.bind_eq_some_iff.1 h
    cases hr
    exact ⟨[t], c.spans_skip ht, nofun⟩
  next =>
    cases hr
    exact ⟨[], .refl _, fun _ => by rwa [List.append_nil]⟩

/-- The alternatives are tried at the same place. What holds behind them must not depend on what has
been noted. -/
theorem firstOf {rules : List (Rule α)} (h : ∀ rule ∈ rules, Leads P rule Q)
    (hP : ∀ {ts c noted}, P ts c → P ts { c with noted := noted })
    (hQ : ∀ {a ts d noted}, Q a ts d → Q a ts { d with noted := noted }) :
    Leads P (firstOf rules) Q := by
  unfold Rule.firstOf
  generalize (none : Option Failure) = given
  refine ⟨fun {ts c a d} hc hr => ?_⟩
  induction rules generalizing given c with
  | nil => cases hr
  | cons rule rules ih =>
    rw [firstOfAfter] at hr
    cases hrule : rule c with
    | accepted b next =>
      rw [hrule] at hr
      obtain ⟨us, hs, hrest⟩ := (h rule List.mem_cons_self).accepted hc hrule
      cases hr
      cases given with
      | none => exact ⟨us, hs, hrest⟩
      | some f => exact ⟨us, hs.congr ⟨rfl, rfl⟩ ⟨rfl, rfl⟩, hQ hrest⟩
    | refused f left =>
      rw [hrule] at hr
      obtain ⟨us, hs, hrest⟩ := ih (fun r hr => h r (List.mem_cons_of_mem rule hr)) _ (hP hc) hr
      exact ⟨us, hs.congr ⟨rfl, rfl⟩ ⟨rfl, rfl⟩, hrest⟩

theorem fix {body : Rule α → Rule α}
    (step : ∀ n, Leads P ((Rule.fix body).below n) Q → Leads P (body ((Rule.fix body).below n)) Q) :
    Leads P (Rule.fix body) Q := by
  have below (n : Nat) : Leads P ((Rule.fix body).below n) Q := by
    induction n using Nat.strongRecOn with
    | ind n ih =>
      refine ⟨fun {ts c a d} hP hr => ?_⟩
      by_cases hc : c.rest.length < n
      · rw [below_of_lt hc, fix_eq_below] at hr
        exact (step _ (ih _ hc)).accepted hP hr
      · rw [below_of_not_lt hc] at hr
        cases hr
  refine ⟨fun hP hr => ?_⟩
  rw [fix_eq_below] at hr
  exact (step _ (below _)).accepted hP hr

theorem commaSeparated {item : Rule α}
    (h : Leads (fun _ _ => True) item fun _ _ _ => True) (closing : Symbol) :
    Leads (fun _ _ => True) (commaSeparated item closing)
      fun _ ts _ => ∃ us, ts = us ++ [.symbol closing] := by
  have heat (t : Token) : Leads (fun _ _ => True) (eat t) fun eaten ts _ =>
      eaten = true → ∃ us, ts = us ++ [t] := by
    refine .of_follows (.eat t) fun {ts _ _ _} _ _ hus heaten => ?_
    rw [hus, if_pos heaten]
    exact ⟨ts, rfl⟩
  have hitems : Leads (fun _ _ => True) (items item closing)
      fun _ ts _ => ∃ us, ts = us ++ [.symbol closing] := by
    refine .fix fun n hmore => h.bind fun a => (heat _).bind fun
      | true => ?_
      | false => ?_
    · exact (hmore.weaken fun _ _ _ => trivial).bind fun _ => .pure fun _ _ h => h
    · refine ((heat _).weaken fun _ _ _ => trivial).bind fun
        | true => .pure fun _ _ h => h rfl
        | false => .refuse _
  exact (heat _).bind fun
    | true => .pure fun _ _ h => h rfl
    | false => hitems.weaken fun _ _ _ => trivial

end Leads

end MiniC.Rule
