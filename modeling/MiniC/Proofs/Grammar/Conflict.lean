import MiniC.Proofs.Grammar.Expected
import MiniC.Proofs.Rule.Guard

/-!
# Operators on both sides of an operand

An operand with an operator before it and a step behind it is refused at the step, as one that has
two operators. If the operand is a name, this never comes to be reported: a call has been tried
before, and has been given up at the step for want of a parenthesis. This failure is noted first.
-/

namespace MiniC

open Rule (Guards Leads)

namespace Grammar

variable {tokens : Tokens} {p : Position} {k : Nat} {x : String} {before : List Token}
  {e : Rule Expr} {c d : Cursor}

section

variable (hascend : tokens.Ascend p) (hk : k ≤ tokens.list.length)
  (hname : (words tokens.list).take k = before ++ [.name x])
  (he : Guards.OfFirst tokens (tokens.place k).offset e e)

include hascend hk hname he

/-- Where an operand that is a name has been read and a step comes behind it, the failure of the
call that was tried before has been noted. -/
theorem primary_loud (hamong : c.Among tokens) (hunmuted : c.Unmuted (tokens.place k).offset)
    (hr : primary e c = .accepted a d) (hw : d.peek? = some w) (hstep : (opAfter? w).isSome)
    (hplace : d.position.offset = (tokens.place k).offset) : d.Loud (tokens.place k).offset := by
  have hguards := Rule.guards tokens (tokens.place k).offset
  obtain ⟨us, hs, vs, t, hus, halone⟩ := (primary_leads (Guards.reads he)).accepted rfl hr
  obtain ⟨ts, hts⟩ := hamong
  -- The words read are those up to the place, so the last of them is the name.
  obtain ⟨hlength, htake, -, hposition⟩ := Tokens.place_of_spans (hts.trans hs)
  rw [hposition] at hplace
  have hread : ts ++ us = before ++ [.name x] := by
    rw [htake, hascend.place_inj hlength hk hplace, hname]
  obtain rfl : us = vs ++ [t] := hus
  rw [← List.append_assoc] at hread
  obtain ⟨-, rfl⟩ := List.append_singleton_inj.1 hread
  obtain rfl := halone x rfl
  -- So a call misses its parenthesis there.
  obtain ⟨hpeek, hrest, hstop⟩ := hs.skip
  have hskip : c.skip.peek? = some w := by rwa [Cursor.peek?, ← hrest]
  have hat : c.skip.position = d.position := by
    rw [Cursor.position, Cursor.position, hrest, hstop]
  have hparen : c.skip.peek? ≠ some (.symbol .leftParen) := by
    rw [hskip]
    rintro ⟨⟩
    cases hstep
  have hcall : call e c = .refused (c.skip.unexpected [(Token.symbol .leftParen).description])
      c.skip := by
    have hx : name c = .accepted x c.skip := Rule.one_eq_accepted.2 ⟨_, hpeek, rfl, rfl⟩
    rw [call, Rule.bind_accepted hx, Rule.bind_refused (Rule.expect_refused hparen)]
  rw [primary, Rule.firstOf, Rule.firstOfAfter, hcall] at hr
  refine Guards.loud_firstOfAfter ?_ (Cursor.Among.backTo ⟨ts, hts⟩ c.skip) hunmuted
    (.inl ⟨_, rfl, .inr ⟨?_, Cursor.expects_unexpected _ _⟩⟩) hr
  · simp only [List.forall_mem_cons, List.not_mem_nil, false_imp_iff, implies_true, and_true]
    exact ⟨hguards.literal, hguards.parenthesized he, hguards.reference⟩
  · rw [Cursor.place_unexpected, hat, hposition]
    exact hplace

theorem unary_guards :
    Guards.OfFirst tokens (tokens.place k).offset (unary e) (unary e) := by
  have hguards := Rule.guards tokens (tokens.place k).offset
  refine (hguards.eat? opBefore?).bind fun op => ?_
  cases op with
  | none =>
    refine (hguards.primary he).bind fun operand => (hguards.eat? opAfter?).bind fun op => ?_
    cases op with
    | none => exact hguards.pure _
    | some op => exact hguards.pure _
  | some op =>
    have hprimary : Guards tokens (tokens.place k).offset (primary e) := hguards.primary he
    refine ⟨hprimary.reads.bind fun _ => (Leads.anyhow (.single _)).bind fun _ =>
      .pure fun _ _ h => h, fun {c} hamong hunmuted => ?_⟩
    have hoperand := hprimary.keeps hamong hunmuted
    cases hr : primary e c with
    | refused f d =>
      rw [hr] at hoperand
      rwa [Rule.bind_refused hr]
    | accepted a d =>
      rw [hr] at hoperand
      obtain ⟨hd, hloud⟩ := hoperand
      rw [Rule.bind_accepted hr]
      change Reply.Guards _ c
        ((Rule.single opAfter? >>= fun _ => (pure (Expr.unary op .before a) : Rule Expr)) d)
      cases hstep : d.peek?.bind opAfter? with
      | none =>
        have hsingle : Rule.single opAfter? d = .accepted () d := by rw [Rule.single, hstep]
        rw [Rule.bind_accepted hsingle]
        exact ⟨hd, hloud⟩
      | some step =>
        have hsingle : Rule.single opAfter? d = .refused (.conflictingUnary d.position) d := by
          rw [Rule.single, hstep]
        rw [Rule.bind_refused hsingle]
        obtain ⟨w, hw, hop⟩ := Option.bind_eq_some_iff.1 hstep
        refine ⟨hd, hloud, ?_⟩
        by_cases hplace : d.position.offset = (tokens.place k).offset
        · exact .inr (primary_loud hascend hk hname he hamong hunmuted hr hw (by simp [hop]) hplace)
        · exact .inl fun hmute => hplace hmute.1

end

/-- Reading a program guards the place behind a name. -/
theorem program_guards (hascend : tokens.Ascend p) (hk : k ≤ tokens.list.length)
    (hname : (words tokens.list).take k = before ++ [.name x]) :
    Guards tokens (tokens.place k).offset program := by
  have hguards : Congruence (Guards.OfFirst tokens (tokens.place k).offset) :=
    { toCongruence := Rule.guards tokens _
      unary := fun he => unary_guards hascend hk hname he }
  exact hguards.program

end Grammar

namespace Program

open Grammar

variable {tokens : Tokens} {f : Failure} {p : Position} {before : List Token}

theorem expects_behind_name (hascend : tokens.Ascend p) (h : Program.ofTokens tokens = .error f)
    (hk : k ≤ tokens.list.length) (hname : (words tokens.list).take k = before ++ [.name x])
    (hplace : f.place = tokens.place k) : f.Expects := by
  obtain ⟨g, d, hd, rfl⟩ := Rule.read_eq_error h
  have hguards := (program_guards hascend hk hname).keeps ⟨[], .refl _⟩ nofun
  rw [hd] at hguards
  obtain ⟨hunmuted, -, hg⟩ := hguards
  exact Classical.byContradiction fun hno => hunmuted.furthestOf hg ⟨congrArg _ hplace, hno⟩

theorem primary_alone (h : Derives (.term .primary) (us ++ [.name x]) e) : us = [] := by
  generalize hts : us ++ [.name x] = ts at h
  have hlast (vs : List Token) {t : Token} (heq : ts = vs ++ [t]) : us = vs ∧ .name x = t :=
    List.append_singleton_inj.1 (hts.trans heq)
  cases h with
  | @call vs _ f => cases (hlast (.name f :: .symbol .leftParen :: vs) rfl).2
  | @parenthesized vs => cases (hlast (.symbol .leftParen :: vs) rfl).2
  | literal v => exact (hlast [] rfl).1
  | var y => exact (hlast [] rfl).1

section

variable {front us : List Token} {op step : UnaryOp} {e : Expr}

theorem ofTokens_refuses_second (hascend : tokens.Ascend p) (h : Program.ofTokens tokens = .error f)
    (htake : (words tokens.list).take k = front ++ .symbol op.symbol :: us)
    (hnext : (tokens.list[k]?).map Prod.fst = some (.symbol step.symbol))
    (hus : Derives (.term .primary) us e) (hstep : step.Steps) (hplace : f.place = tokens.place k) :
    ((∀ x, us ≠ [.name x]) → f = .conflictingUnary f.place) ∧
      ∀ x, us = [.name x] →
        f = .unexpectedToken (Token.symbol step.symbol).description
          [(Token.symbol .leftParen).description] f.place := by
  have hk : k ≤ tokens.list.length := by
    obtain ⟨t, ht, -⟩ := Option.map_eq_some_iff.1 hnext
    exact Nat.le_of_lt (List.getElem?_eq_some_iff.1 ht).1
  have hsome : (opAfter? (.symbol step.symbol)).isSome := by
    rw [opAfter?_eq_some.2 ⟨rfl, hstep⟩]
    rfl
  have hoperand : Operand ((words tokens.list).take k) := ⟨front, op, us, e, htake, hus⟩
  obtain ⟨g, ⟨j, hj⟩, hbare⟩ := (madeOf_of_ofTokens h).origin
  have hg := hj.at_report hascend hk hplace (congrArg _ (Failure.place_eq_of_bare hbare))
  obtain ⟨d, hpeek, -, hsite⟩ := hg.site
  by_cases hexpects : f.Expects
  · -- Only a parenthesis behind a name can be missing.
    obtain ⟨-, vs, x, hname⟩ := hg.behind_operand hascend h hplace hnext hsome hoperand
      ((Failure.expects_iff_of_bare hbare).2 hexpects)
    have hx : us = [.name x] := by
      rcases List.eq_nil_or_concat us with rfl | ⟨ws, t, rfl⟩
      · exact absurd rfl (hus.ne_nil id)
      · have hlast : front ++ .symbol op.symbol :: ws ++ [t] = vs ++ [.name x] := by
          rw [← hname, htake]
          simp
        obtain ⟨-, rfl⟩ := List.append_singleton_inj.1 hlast
        rw [List.concat_eq_append] at hus ⊢
        rw [primary_alone hus, List.nil_append]
    refine ⟨fun hno => absurd hx (hno x), fun _ _ => ?_⟩
    rw [← expected_behind_operand hascend h hk hplace hnext hsome hoperand hexpects]
    cases hsite with
    | conflict => exact ((Failure.expects_iff_of_bare hbare).2 hexpects).elim
    | missing names =>
      rw [Cursor.unexpected, hpeek.trans hnext] at hbare
      exact Failure.eq_of_bare_unexpectedToken hbare.symm
  · refine ⟨fun _ => ?_, ?_⟩
    · cases hsite with
      | conflict => exact Failure.eq_of_bare_conflictingUnary hbare.symm
      | missing names =>
        exact absurd ((Failure.expects_iff_of_bare hbare).1 (d.expects_unexpected names)) hexpects
    · rintro x rfl
      have hname : (words tokens.list).take k = (front ++ [.symbol op.symbol]) ++ [.name x] := by
        simp [htake]
      exact absurd (expects_behind_name hascend h hk hname hplace) hexpects

/-- A source that is refused at a step, behind an operand with an operator before it, is refused for
the second operator, unless the operand is a name. Then the report says that a call of it lacks its
parenthesis. -/
theorem ofSource_refuses_second (htokens : Tokens.ofSource source = .ok tokens)
    (h : Program.ofSource source = .error f)
    (hwords : words tokens.list =
      front ++ .symbol op.symbol :: (us ++ .symbol step.symbol :: rest))
    (hus : Derives (.term .primary) us e) (hstep : step.Steps)
    (hplace : f.place = tokens.place (front.length + 1 + us.length)) :
    ((∀ x, us ≠ [.name x]) → f = .conflictingUnary f.place) ∧
      ∀ x, us = [.name x] →
        f = .unexpectedToken (Token.symbol step.symbol).description
          [(Token.symbol .leftParen).description] f.place := by
  rw [Program.ofSource, htokens] at h
  have hlength : front.length + 1 + us.length = (front ++ .symbol op.symbol :: us).length := by
    simp only [List.length_append, List.length_cons]
    omega
  have hread : words tokens.list =
      (front ++ .symbol op.symbol :: us) ++ .symbol step.symbol :: rest := by
    simpa using hwords
  rw [hlength] at hplace
  have htake : (words tokens.list).take (front ++ .symbol op.symbol :: us).length =
      front ++ .symbol op.symbol :: us := by
    rw [hread, List.take_left]
  refine ofTokens_refuses_second (Tokens.ofSource_ascend htokens) h htake ?_ hus hstep hplace
  rw [← List.getElem?_map]
  change (words tokens.list)[_]? = _
  rw [hread]
  simp

end

/-- In `++x++` the operand is a name, so the report is that of a call. -/
theorem ofSource_refuses_second_name :
    let tokens : Tokens := ⟨[(.type .int, ⟨0, 1, 1⟩), (.name "f", ⟨4, 1, 5⟩),
      (.symbol .leftParen, ⟨5, 1, 6⟩), (.symbol .rightParen, ⟨6, 1, 7⟩),
      (.symbol .leftBrace, ⟨7, 1, 8⟩), (.symbol .plusPlus, ⟨8, 1, 9⟩), (.name "x", ⟨10, 1, 11⟩),
      (.symbol .plusPlus, ⟨11, 1, 12⟩), (.symbol .semicolon, ⟨13, 1, 14⟩),
      (.symbol .rightBrace, ⟨14, 1, 15⟩)], ⟨15, 1, 16⟩⟩
    let f : Failure := .unexpectedToken "'++'" ["'('"] ⟨11, 1, 12⟩
    Tokens.ofSource "int f()\x7b++x++;\x7d" = .ok tokens ∧
      Program.ofSource "int f()\x7b++x++;\x7d" = .error f ∧
      Derives (.term .primary) [.name "x"] (.var "x") ∧ UnaryOp.increment.Steps ∧
      f.place = tokens.place 7 ∧
      ((∀ x, [Token.name "x"] ≠ [.name x]) → f = .conflictingUnary f.place) ∧
      ∀ x, [Token.name "x"] = [.name x] →
        f = .unexpectedToken (Token.symbol UnaryOp.increment.symbol).description
          [(Token.symbol .leftParen).description] f.place := by
  intro tokens f
  have htokens : Tokens.ofSource "int f()\x7b++x++;\x7d" = .ok tokens := by cbv
  have hrefused : Program.ofSource "int f()\x7b++x++;\x7d" = .error f := by
    rw [Program.ofSource, htokens]
    exact refusal?_eq_some.1 (by decide +kernel)
  have hwords : words tokens.list = [Token.type .int, Token.name "f", Token.symbol .leftParen,
      Token.symbol .rightParen, Token.symbol .leftBrace] ++
        Token.symbol UnaryOp.increment.symbol :: ([Token.name "x"] ++
          Token.symbol UnaryOp.increment.symbol ::
            [Token.symbol .semicolon, Token.symbol .rightBrace]) := rfl
  exact ⟨htokens, hrefused, .var "x", trivial, rfl,
    ofSource_refuses_second htokens hrefused hwords (.var "x") trivial rfl⟩

/-- In `++1++` it is not. -/
example : refusal? ⟨[(.type .int, ⟨0, 1, 1⟩), (.name "f", ⟨4, 1, 5⟩),
      (.symbol .leftParen, ⟨5, 1, 6⟩), (.symbol .rightParen, ⟨6, 1, 7⟩),
      (.symbol .leftBrace, ⟨7, 1, 8⟩), (.symbol .plusPlus, ⟨8, 1, 9⟩), (.int 1, ⟨10, 1, 11⟩),
      (.symbol .plusPlus, ⟨11, 1, 12⟩), (.symbol .semicolon, ⟨13, 1, 14⟩),
      (.symbol .rightBrace, ⟨14, 1, 15⟩)], ⟨15, 1, 16⟩⟩ = some (.conflictingUnary ⟨11, 1, 12⟩) := by
  decide +kernel

end Program

end MiniC
