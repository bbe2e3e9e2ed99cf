import Mathlib
import MiniC.Proofs.Grammar.Raised
import MiniC.Proofs.Grammar.Report
import MiniC.Proofs.Rule.Merge

/-!
# What a refusal expects

A report expects all that any rule expects at its place, and nothing else: for each name there is a
word with which the tokens before the place go on to begin a program. The list could only be short
where a second operator is refused at the same place. But there nothing else is missing than a
parenthesis behind a name.
-/

namespace MiniC

open Grammar

variable {tokens : Tokens} {f g : Failure} {d : Cursor} {p : Position}

namespace Grammar

theorem Site.tidy (h : Site form ts d g) : g.Tidy := by
  cases h with
  | missing names hne hnodup =>
    exact ⟨by rwa [Cursor.expected_unexpected], fun _ => by rwa [Cursor.expected_unexpected]⟩
  | conflict => exact ⟨.nil, False.elim⟩

end Grammar

namespace Program

/-- While the tokens are read, a rule raises this failure where `k` of them have been read. Rules
that are given up and rules behind which reading goes on are among them. -/
def Raises (tokens : Tokens) (k : Nat) (g : Failure) : Prop :=
  k ≤ tokens.list.length ∧
    ∃ d, logs.program.raised (.ofTokens tokens) d g ∧ d.rest = tokens.list.drop k

theorem exists_raises (h : logs.program.raised (.ofTokens tokens) d g) :
    ∃ k, Raises tokens k g := by
  obtain ⟨ts, hspans, -⟩ := program_sites _ d g h
  obtain ⟨hk, -, hrest, -⟩ := Tokens.place_of_spans hspans
  exact ⟨ts.length, hk, d, h, hrest⟩

theorem Raises.site (h : Raises tokens k g) :
    ∃ d : Cursor, d.peek? = (tokens.list[k]?).map Prod.fst ∧ g.place = tokens.place k ∧
      Site (Derives .program) ((words tokens.list).take k) d g := by
  obtain ⟨hk, d, hraised, hrest⟩ := h
  obtain ⟨ts, hspans, hsite⟩ := program_sites _ d g hraised
  obtain ⟨hlength, hts, hrest', hposition⟩ := Tokens.place_of_spans hspans
  obtain rfl : ts.length = k := by
    have hdrop := congrArg List.length (hrest'.symm.trans hrest)
    simp only [List.length_drop] at hdrop
    omega
  refine ⟨d, ?_, hsite.place.trans hposition, hts ▸ hsite⟩
  rw [Cursor.peek?, hrest, List.head?_drop]

theorem Raises.place (h : Raises tokens k g) : g.place = tokens.place k := by
  obtain ⟨-, -, hplace, -⟩ := h.site
  exact hplace

/-- All failures that are raised while tokens are read go into the report. -/
theorem passes_of_ofTokens (h : Program.ofTokens tokens = .error f) :
    Failure.Passes (fun g => ∃ k, Raises tokens k g) (· = f) := by
  obtain ⟨g, d, hd, rfl⟩ := Rule.read_eq_error h
  have hpasses := logs.program.passes (.ofTokens tokens)
  rw [hd] at hpasses
  refine .trans (.of_iff fun f => ?_) (hpasses.trans (.trans (.of_iff fun f => ?_)
    (Failure.Passes.furthestOf d.noted g)))
  · constructor
    · rintro ⟨k, -, d, hraised, -⟩
      exact .inr ⟨d, hraised⟩
    · rintro (⟨⟨⟩⟩ | ⟨d, hraised⟩)
      exact exists_raises hraised
  · simp [Reply.Reports, or_comm, eq_comm]

theorem madeOf_of_ofTokens (h : Program.ofTokens tokens = .error f) :
    Failure.MadeOf (fun g => ∃ k, Raises tokens k g) f := by
  refine (passes_of_ofTokens h).madeOf ?_
  rintro g ⟨k, hg⟩
  obtain ⟨d, -, -, hsite⟩ := hg.site
  exact hsite.tidy

section

variable (hascend : tokens.Ascend p) (h : Program.ofTokens tokens = .error f)
  (hk : k ≤ tokens.list.length) (hplace : f.place = tokens.place k)

include hascend hk hplace in
theorem Raises.at_report (hg : Raises tokens j g) (hoffset : g.place.offset = f.place.offset) :
    Raises tokens k g := by
  rw [hg.place, hplace] at hoffset
  exact hascend.place_inj hg.1 hk hoffset ▸ hg

variable (hw : (tokens.list[k]?).map Prod.fst = some w) (hstep : (opAfter? w).isSome)
  (hoperand : Operand ((words tokens.list).take k))

include hascend h hplace hw hstep hoperand

/-- Where a step comes behind an operand with an operator before it, nothing can be missing but a
parenthesis behind a name. -/
theorem Raises.behind_operand (hg : Raises tokens k g) (hexpects : g.Expects) :
    g.expected = [(Token.symbol .leftParen).description] ∧
      ∃ us x, (words tokens.list).take k = us ++ [.name x] := by
  obtain ⟨d, hpeek, -, hsite⟩ := hg.site
  cases hsite with
  | conflict => exact hexpects.elim
  | missing names hne hnodup hviable hfree =>
    rcases hfree with hfree | ⟨hnames, hname⟩
    · obtain ⟨t, ht, -⟩ := Option.map_eq_some_iff.1 hw
      obtain ⟨hlt, -⟩ := List.getElem?_eq_some_iff.1 ht
      have hnil : (words tokens.list).take k ≠ [] := by
        obtain ⟨before, op, us, e, heq, -⟩ := hoperand
        rw [heq]
        simp
      rcases hfree w (hpeek.trans hw) hstep hnil with hno | ⟨us, program, hprogram⟩
      · exact absurd hoperand (hno [])
      · refine absurd (Program.begins_of_derives hprogram) ?_
        have htake : (words tokens.list).take k ++ [w] = (words tokens.list).take (k + 1) := by
          rw [List.take_add_one, words, List.getElem?_map, hw, Option.toList_some]
        rw [htake]
        exact Program.not_begins_of_ofTokens hascend h hlt hplace
    · exact ⟨by rw [Cursor.expected_unexpected, hnames], hname⟩

include hk in
theorem expected_behind_operand (hexpects : f.Expects) :
    f.expected = [(Token.symbol .leftParen).description] := by
  have hmade := madeOf_of_ofTokens h
  have hparen : ∀ x ∈ f.expected, x = (Token.symbol .leftParen).description := by
    intro x hx
    obtain ⟨g, ⟨j, hg⟩, hoffset, hxg⟩ := hmade.names x hx
    have hat := hg.at_report hascend hk hplace hoffset
    obtain ⟨hexpected, -⟩ := hat.behind_operand hascend h hplace hw hstep hoperand
      (Failure.expects_of_mem hxg)
    simpa [hexpected] using hxg
  obtain ⟨x, rest, hlist⟩ := List.exists_cons_of_ne_nil (hmade.ne_nil hexpects)
  have hnodup := hmade.nodup
  rw [hlist] at hparen hnodup ⊢
  obtain ⟨rfl, hrest⟩ := List.forall_mem_cons.1 hparen
  cases rest with
  | nil => rfl
  | cons y ys =>
    obtain ⟨rfl, -⟩ := List.forall_mem_cons.1 hrest
    exact absurd List.mem_cons_self (List.nodup_cons.1 hnodup).1

end

/-- A refusal of tokens whose places ascend, as those of every source do (`Tokens.ofSource_ascend`),
stands before one of them or behind the last. It expects just what the rules expect that fail there.
It expects something, nothing twice, and nothing that is not the name of a word with which the
tokens before go on to begin a program. -/
theorem ofTokens_expects (hascend : tokens.Ascend p) (h : Program.ofTokens tokens = .error f)
    (hexpects : f.Expects) :
    ∃ k ≤ tokens.list.length, f.place = tokens.place k ∧
      (∀ x, x ∈ f.expected ↔ ∃ g, Raises tokens k g ∧ x ∈ g.expected) ∧
      f.expected ≠ [] ∧ f.expected.Nodup ∧
      ∀ x ∈ f.expected, ∃ t : Token, t.Answers x ∧
        Program.Begins ((words tokens.list).take k ++ [t]) := by
  have hmade := madeOf_of_ofTokens h
  have hpasses := passes_of_ofTokens h
  obtain ⟨g, ⟨k, hg⟩, hbare⟩ := hmade.origin
  have hk := hg.1
  have hplace := (Failure.place_eq_of_bare hbare).symm.trans hg.place
  have hnames (x : String) (hx : x ∈ f.expected) : ∃ g, Raises tokens k g ∧ x ∈ g.expected := by
    obtain ⟨b, ⟨j, hb⟩, hoffset, hxb⟩ := hmade.names x hx
    exact ⟨b, hb.at_report hascend hk hplace hoffset, hxb⟩
  refine ⟨k, hk, hplace, fun x => ⟨hnames x, ?_⟩, hmade.ne_nil hexpects, hmade.nodup, ?_⟩
  · rintro ⟨b, hb, hxb⟩
    have hbplace := hb.place
    by_cases hall : ∀ a, (∃ j, Raises tokens j a) → a.place.offset = b.place.offset → a.Expects
    · refine hpasses.mem_expected ⟨k, hb⟩ hall (fun a ha => ?_) hxb
      rw [hbplace, ← hplace]
      exact hpasses.offset_le ha
    · -- A second operator is refused there too, and may have taken the place of what was expected.
      obtain ⟨a, hall⟩ := Classical.not_forall.1 hall
      obtain ⟨⟨j, ha⟩, hall⟩ := Classical.not_imp.1 hall
      obtain ⟨hoffset, hno⟩ := Classical.not_imp.1 hall
      rw [hbplace, ← hplace] at hoffset
      obtain ⟨d, hpeek, -, hsite⟩ := (ha.at_report hascend hk hplace hoffset).site
      cases hsite with
      | missing => exact absurd (Cursor.expects_unexpected d _) hno
      | conflict w hw hstep hoperand =>
        have hnext := hpeek.symm.trans hw
        obtain ⟨hparen, -⟩ := hb.behind_operand hascend h hplace hnext hstep hoperand
          (Failure.expects_of_mem hxb)
        rw [expected_behind_operand hascend h hk hplace hnext hstep hoperand hexpects, ← hparen]
        exact hxb
  · intro x hx
    obtain ⟨b, hb, hxb⟩ := hnames x hx
    obtain ⟨d, -, -, hsite⟩ := hb.site
    cases hsite with
    | conflict => cases hxb
    | missing names hne hnodup hviable =>
      rw [Cursor.expected_unexpected] at hxb
      obtain ⟨t, ht, us, program, hprogram⟩ := hviable x hxb
      exact ⟨t, ht, Program.begins_of_derives hprogram⟩

/-- In `int f(){x}` the report puts together what three rules miss behind the name: a call, an
assignment and the end of a statement. -/
theorem ofTokens_expects_three :
    let tokens : Tokens := ⟨[(.type .int, ⟨0, 1, 1⟩), (.name "f", ⟨4, 1, 5⟩),
      (.symbol .leftParen, ⟨5, 1, 6⟩), (.symbol .rightParen, ⟨6, 1, 7⟩),
      (.symbol .leftBrace, ⟨7, 1, 8⟩), (.name "x", ⟨8, 1, 9⟩), (.symbol .rightBrace, ⟨9, 1, 10⟩)],
      ⟨10, 1, 11⟩⟩
    let f : Failure := .unexpectedToken "'\x7d'" ["'('", "';'", "'='"] ⟨9, 1, 10⟩
    Tokens.ofSource "int f()\x7bx\x7d" = .ok tokens ∧ Program.ofTokens tokens = .error f ∧
      f.Expects ∧ ∃ k ≤ tokens.list.length, f.place = tokens.place k ∧
        (∀ x, x ∈ f.expected ↔ ∃ g, Raises tokens k g ∧ x ∈ g.expected) ∧
        f.expected ≠ [] ∧ f.expected.Nodup ∧
        ∀ x ∈ f.expected, ∃ t : Token, t.Answers x ∧
          Program.Begins ((words tokens.list).take k ++ [t]) := by
  intro tokens f
  have htokens : Tokens.ofSource "int f()\x7bx\x7d" = .ok tokens := by cbv
  have hrefused : Program.ofTokens tokens = .error f := refusal?_eq_some.1 (by decide +kernel)
  exact ⟨htokens, hrefused, trivial,
    ofTokens_expects (Tokens.ofSource_ascend htokens) hrefused trivial⟩

end Program

end MiniC
