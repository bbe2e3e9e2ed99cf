import MiniC.Proofs.Grammar.Congruence
import MiniC.Proofs.Grammar.Exact
import MiniC.Proofs.Rule.Fork
import MiniC.Proofs.Tokens.Place

/-!
# What a refusal tells

A report names the first token that no program has there: the tokens before it begin some program,
and together with it they begin none. If no token is to blame, the program ends too early.
-/

namespace MiniC

open Grammar

def Program.Begins (ws : List Token) : Prop :=
  ∃ tokens p, ws <+: words tokens.list ∧ Program.ofTokens tokens = .ok p

theorem Rule.read_eq_error {rule : Rule α} (h : rule.read tokens = .error f) :
    ∃ g d, rule (.ofTokens tokens) = .refused g d ∧ f = d.report g := by
  unfold Rule.read at h
  split at h
  next => cases h
  next g d hd =>
    cases h
    exact ⟨g, d, hd, rfl⟩

def Program.refusal? (tokens : Tokens) : Option Failure :=
  match Program.ofTokens tokens with
  | .ok _ => none
  | .error f => some f

theorem Program.refusal?_eq_some :
    Program.refusal? tokens = some f ↔ Program.ofTokens tokens = .error f := by
  unfold Program.refusal?
  cases Program.ofTokens tokens <;> simp

theorem Tokens.place_of_spans {tokens : Tokens} (h : (Cursor.ofTokens tokens).Spans ts d) :
    ts.length ≤ tokens.list.length ∧ ts = (words tokens.list).take ts.length ∧
      d.rest = tokens.list.drop ts.length ∧ d.position = tokens.place ts.length := by
  obtain ⟨read, hread, hstop, rfl⟩ := h
  have hlist : tokens.list = read ++ d.rest := hread
  have hrest : d.rest = tokens.list.drop (words read).length := by simp [hlist]
  refine ⟨by simp [hlist], by simp [hlist], hrest, Tokens.position_eq_place hrest hstop⟩

theorem Program.begins_of_derives (h : Derives .program (ts ++ us) p) : Program.Begins ts := by
  have hwords : words ((ts ++ us).map (·, Position.start)) = ts ++ us := by
    simp [words, Function.comp_def]
  obtain ⟨q, hq⟩ := (Program.exists_ofTokens ⟨_, .start⟩).2 ⟨p, hwords.symm ▸ h⟩
  exact ⟨_, q, by rw [hwords]; exact List.prefix_append ts us, hq⟩

theorem Program.meets_of_ofTokens (h : Program.ofTokens tokens = .error f) :
    (Cursor.ofTokens tokens).Meets Program.Begins f := by
  obtain ⟨g, d, hd, rfl⟩ := Rule.read_eq_error h
  have hmerges := (Cursor.ofTokens tokens).merges_meets (Form.Begins (Derives .program))
  have hreports := program_follows.reports hmerges (c := .ofTokens tokens) nofun fun _ hf => hf
  rw [hd] at hreports
  refine (hmerges.furthestOf (fun f hf => hreports f (.inr hf)) (hreports g (.inl rfl))).mono ?_
  rintro ts ⟨us, p, hp⟩
  exact begins_of_derives hp

def Tokens.Ascend.fork {tokens : Tokens} (h : tokens.Ascend p) (hk : k < tokens.list.length)
    (other : List Token) : Fork where
  rest := tokens.list.drop (k + 1)
  stop := tokens.stop
  other := other
  offset := (tokens.place k).offset + 1
  tokens_behind := (h.lt_of_mem_drop hk).1
  stop_behind := (h.lt_of_mem_drop hk).2

/-- No program begins with the tokens up to the one that a refusal is reported at: it would have
been read beyond this token. -/
theorem Program.not_begins_of_ofTokens (hascend : tokens.Ascend p)
    (h : Program.ofTokens tokens = .error f) (hk : k < tokens.list.length)
    (hplace : f.place = tokens.place k) : ¬Program.Begins ((words tokens.list).take (k + 1)) := by
  rintro ⟨tokens', q, ⟨other, hother⟩, hq⟩
  obtain ⟨g, d, hd, rfl⟩ := Rule.read_eq_error h
  obtain ⟨d', hd'⟩ := Rule.read_eq_ok.1 hq
  have hbefore : (hascend.fork hk other).Before (.ofTokens tokens) (.ofTokens tokens') := by
    refine ⟨tokens.list.take (k + 1), ?_, (List.take_append_drop _ _).symm, rfl, ?_⟩
    · exact List.ne_nil_of_length_pos (by rw [List.length_take]; omega)
    · rw [words, List.map_take]
      exact hother.symm
  have hprogram := ((hascend.fork hk other).parallel.withSingle (.single _)).program
  have hparallel := hprogram.before hbefore
  rw [hd, hd'] at hparallel
  rcases hparallel with hreaches | hsame
  · have hfar := hreaches.report
    rw [Fork.Far, hplace] at hfar
    exact Nat.not_succ_le_self _ hfar
  · exact hsame

/-- A refusal of a source stands at its first token that no program has there, or at its end if
there is no such token, and then it says that the source ends too early. -/
theorem Program.ofSource_reports_first (htokens : Tokens.ofSource source = .ok tokens)
    (h : Program.ofSource source = .error f) :
    ∃ k ≤ tokens.list.length, f.place = tokens.place k ∧
      Program.Begins ((words tokens.list).take k) ∧
      (k < tokens.list.length → ¬Program.Begins ((words tokens.list).take (k + 1))) ∧
      ((∃ expected place, f = .unexpectedEnd expected place) ↔ k = tokens.list.length) := by
  have hread : Program.ofTokens tokens = .error f := by
    rwa [Program.ofSource, htokens] at h
  obtain ⟨ts, d, hspans, ⟨hplace, hkind⟩, hbegins⟩ := Program.meets_of_ofTokens hread
  obtain ⟨hk, hts, hrest, hposition⟩ := Tokens.place_of_spans hspans
  rw [hposition] at hplace
  refine ⟨ts.length, hk, hplace, hts ▸ hbegins, fun hlt => ?_, ?_⟩
  · exact Program.not_begins_of_ofTokens (Tokens.ofSource_ascend htokens) hread hlt hplace
  · have hend : d.rest = [] ↔ ts.length = tokens.list.length := by
      rw [hrest, List.drop_eq_nil_iff]
      omega
    rw [← hend]
    cases f with
    | unexpectedEnd expected place => exact ⟨fun _ => hkind, fun _ => ⟨_, _, rfl⟩⟩
    | unexpectedToken => exact ⟨nofun, fun hnil => absurd hnil hkind⟩
    | conflictingUnary => exact ⟨nofun, fun hnil => absurd hnil hkind⟩
    | invalidToken => exact hkind.elim

/-- In `int int` the fault is the second word: `int` begins a program and `int int` does not. -/
theorem Program.ofSource_reports_second_word :
    let tokens : Tokens := ⟨[(.type .int, ⟨0, 1, 1⟩), (.type .int, ⟨4, 1, 5⟩)], ⟨7, 1, 8⟩⟩
    let f : Failure := .unexpectedToken "'int'" ["identifier"] ⟨4, 1, 5⟩
    Tokens.ofSource "int int" = .ok tokens ∧ Program.ofSource "int int" = .error f ∧
      ∃ k ≤ tokens.list.length, f.place = tokens.place k ∧
        Program.Begins ((words tokens.list).take k) ∧
        (k < tokens.list.length → ¬Program.Begins ((words tokens.list).take (k + 1))) ∧
        ((∃ expected place, f = .unexpectedEnd expected place) ↔ k = tokens.list.length) := by
  intro tokens f
  have htokens : Tokens.ofSource "int int" = .ok tokens := by
    have hword : Lexeme.front 'i' ['n', 't', ' ', 'i', 'n', 't'] = ⟨.token (.type .int), 2⟩ := rfl
    have hblank : Lexeme.front ' ' ['i', 'n', 't'] = ⟨.skipped .blanks, 0⟩ := rfl
    have hlast : Lexeme.front 'i' ['n', 't'] = ⟨.token (.type .int), 2⟩ := rfl
    rw [Tokens.ofSource_eq_read]
    change Tokens.read ['i', 'n', 't', ' ', 'i', 'n', 't'] .start = _
    simp only [Tokens.read, hword, hblank, hlast, List.drop]
    rfl
  have hfunctions : Grammar.functions (.ofTokens tokens) =
      .refused f (Cursor.ofTokens tokens).skip := by
    rw [functions_eq]
    rfl
  have hrefused : Program.ofSource "int int" = .error f := by
    change (Tokens.ofSource "int int" >>= fun tokens => program.read tokens) = _
    rw [htokens]
    change program.read tokens = _
    rw [Rule.read, program, Rule.bind_refused hfunctions]
    rfl
  exact ⟨htokens, hrefused, ofSource_reports_first htokens hrefused⟩

end MiniC
