import MiniC.Proofs.Grammar.Raised
import MiniC.Proofs.Grammar.Report
import MiniC.Proofs.Rule.Layout
import MiniC.Proofs.Rule.Merge
import MiniC.Proofs.Tokens.Append

/-!
# Programs one below the other

`Program.ofSource_append`: below a program, a source is read as it is alone. The functions of both
come one after the other, and a refusal is the same further down. For a function is read to its last
brace and no further, and all that is noted on the way lies before the source below.
-/

namespace MiniC

namespace Grammar

variable {ts us : List Token} {taken rest : List (Token × Position)} {c d : Cursor} {g : Failure}
  {limit : Nat}

-- ---------------------------------------------------------------------------
-- Words
-- ---------------------------------------------------------------------------

theorem unaryOp_ne_slash (op : UnaryOp) : op.symbol ≠ .slash := by
  cases op <;> decide

theorem binaryOp_ne_slash {op : BinaryOp} (h : op.level = .comparison) : op.symbol ≠ .slash := by
  cases op <;> first | decide | cases h

theorem not_startsTerm_star : ¬StartsTerm (.symbol .star) := by
  intro h
  rcases h.symbol with hparen | ⟨op, hop⟩
  · cases hparen
  · cases op <;> cases hop

theorem startsTerm_of_operand {l : Level} (h : (Nonterminal.term (operand l)).Starts t) :
    StartsTerm t := by
  cases l <;> exact h

theorem literal_ne_slash (v : Value) : v.literal ≠ .symbol .slash := by
  cases v <;> exact nofun

/-- A slash divides, and what it divides by begins with something else than a star. -/
theorem Derives.slashApart (h : Derives n ts t) : SlashApart ts := by
  induction h with
  | @operations op _ _ _ _ hoperand _ ih ihs =>
    refine ⟨fun _ => ?_, (slashApart_append ih).2 ihs⟩
    obtain ⟨w, hw, hstarts⟩ := hoperand.head? id
    refine ⟨w, by simp [hw], ?_⟩
    rintro rfl
    exact not_startsTerm_star (startsTerm_of_operand hstarts)
  | compare op hop _ _ iha ihb =>
    have hne : Token.symbol op.symbol ≠ .symbol .slash := by simpa using binaryOp_ne_slash hop
    rwa [slashApart_append iha, slashApart_cons hne]
  | _ => simp [unaryOp_ne_slash, literal_ne_slash, *]

-- ---------------------------------------------------------------------------
-- Functions
-- ---------------------------------------------------------------------------

theorem Derives.function_end (h : Derives .function ts f)
    (k : Form.Begins (Derives .function) (ts ++ us)) : us = [] := by
  obtain ⟨more, g, hg⟩ := k
  obtain ⟨f, hf, hbody⟩ := h.settles
  obtain ⟨g, hg, hbody'⟩ := hg.settles
  -- Both are read where the words of the longer one come next.
  let c : Cursor := ⟨(ts ++ us ++ more).map (·, .start), .start, none⟩
  have hc : c.words = ts ++ us ++ more := by simp [c, Cursor.words, words, Function.comp_def]
  obtain ⟨d, hd, hwords⟩ := hf.reads hbody (us ++ more) c (by rw [hc, List.append_assoc])
  obtain ⟨d', hd', hwords'⟩ := hg.reads hbody' [] c (by rw [hc, List.append_nil])
  obtain ⟨-, rfl⟩ := Reply.accepted.inj (hd.symm.trans hd')
  exact (List.append_eq_nil_iff.1 (hwords.symm.trans hwords')).1

theorem function_raises (hread : c.rest = taken ++ rest) (h : Derives .function (words taken) f)
    (hraised : logs.function.raised c d g) : ∃ t ∈ taken, g.place = t.2 := by
  obtain ⟨_, ⟨before, hd, -, rfl⟩, hsite⟩ := function_sites c d g hraised
  have hbefore (more : List (Token × Position)) : before ≠ taken ++ more := by
    rintro rfl
    rw [words_append, List.nil_append] at hsite
    cases hsite with
    | missing names hne _ hviable =>
      obtain ⟨x, hx⟩ := List.exists_mem_of_ne_nil _ hne
      obtain ⟨t, -, hbegins⟩ := hviable x hx
      rw [List.append_assoc] at hbegins
      simpa using h.function_end hbegins
    | conflict w _ _ hoperand hbegins =>
      have hnil := h.function_end hbegins
      obtain ⟨us, hlast⟩ := h.function_last
      rw [hnil, List.append_nil, hlast] at hoperand
      exact not_endsPrimary_symbol (s := .rightBrace) nofun hoperand.last
  rcases List.append_eq_append_iff.1 (hread.symm.trans hd) with ⟨more, heq, -⟩ | ⟨more, rfl, hrest⟩
  · exact absurd heq (hbefore more)
  · cases more with
    | nil => exact absurd (List.append_nil before).symm (by simpa using hbefore [])
    | cons t more => exact ⟨t, by simp, by rw [hsite.place, Cursor.position, hrest]; rfl⟩

theorem function_behind (hread : c.rest = taken ++ rest) (h : Derives .function (words taken) f)
    (hbody : Stmt.ElseNearestAll f.body) (hplaces : ∀ t ∈ taken, t.2.offset < limit)
    (hnoted : ∀ g, c.noted = some g → g.place.offset < limit) :
    ∃ d, function c = .accepted f d ∧ d.rest = rest ∧ d.stop = c.stop ∧
      ∀ g, d.noted = some g → g.place.offset < limit := by
  obtain ⟨d, hr, hwords⟩ := h.reads hbody (words rest) c (by simp [Cursor.words, hread])
  obtain ⟨_, ⟨taken', hd, hstop, -⟩, -⟩ := function_follows.accepted hr
  have hlength : rest.length = d.rest.length := by
    simpa [Cursor.words] using (congrArg List.length hwords).symm
  have hrest : rest = d.rest := (List.append_inj' (hread.symm.trans hd) hlength).2
  refine ⟨d, hr, hrest.symm, hstop, ?_⟩
  have hpasses := logs.function.passes c
  rw [hr] at hpasses
  refine hpasses.place_lt ?_
  rintro g (hg | ⟨e, hg⟩)
  · exact hnoted g hg
  · obtain ⟨t, ht, hplace⟩ := function_raises hread h hg
    exact hplace ▸ hplaces t ht

theorem functions_step (hr : function c = .accepted f d) :
    functions c = (do return f :: (← functions)) d := by
  obtain ⟨ts, hs, hf⟩ := function_follows.accepted hr
  have hend : ¬c.atEnd := by
    obtain ⟨t, ht, -⟩ := hf.head? id
    have hpeek : c.peek? = some t := by rw [Cursor.peek?_eq_head?, hs.words]; simp [ht]
    unfold Cursor.peek? at hpeek
    unfold Cursor.atEnd
    cases hrest : c.rest <;> simp [hrest] at hpeek ⊢
  have heq := congrFun functions_eq c
  rw [Rule.ifAtEnd_apply, if_neg hend, Rule.bind_accepted hr] at heq
  exact heq

/-- Behind functions, reading goes on as it would from there, and nothing noted lies as far. -/
theorem functions_behind (hread : c.rest = taken ++ rest) (h : Derives .functions (words taken) fs)
    (hnearest : ∀ f ∈ fs, Stmt.ElseNearestAll f.body) (hplaces : ∀ t ∈ taken, t.2.offset < limit)
    (hnoted : ∀ g, c.noted = some g → g.place.offset < limit) :
    ∃ d : Cursor, d.rest = rest ∧ d.stop = c.stop ∧
      (∀ g, d.noted = some g → g.place.offset < limit) ∧
      functions c = (do return fs ++ (← functions)) d := by
  generalize hts : words taken = ts at h
  induction fs generalizing c taken ts with
  | nil =>
    cases h with
    | noFunction =>
      obtain rfl := List.map_eq_nil_iff.1 hts
      refine ⟨c, hread, rfl, hnoted, ?_⟩
      cases hr : functions c with
      | accepted => rw [Rule.bind_accepted hr]; rfl
      | refused => rw [Rule.bind_refused hr]
  | cons f fs ih =>
    cases h with
    | @functions us _ vs _ hf hfs =>
      obtain ⟨hbody, hrest⟩ := List.forall_mem_cons.1 hnearest
      obtain ⟨first, more, rfl, rfl, rfl⟩ := List.map_eq_append_iff.1 hts
      obtain ⟨hfirst, hmore⟩ := List.forall_mem_append.1 hplaces
      obtain ⟨e, hr, he, hstop, hnoted⟩ :=
        function_behind (by rw [hread, List.append_assoc]) hf hbody hfirst hnoted
      obtain ⟨d, hd, hstop', hnoted, hmore'⟩ := ih he hrest hmore hnoted _ rfl hfs
      refine ⟨d, hd, hstop'.trans hstop, hnoted, ?_⟩
      rw [functions_step hr]
      cases hgs : functions d with
      | accepted gs d' =>
        rw [Rule.bind_accepted hgs] at hmore' ⊢
        rw [Rule.bind_accepted hmore']
        rfl
      | refused g d' =>
        rw [Rule.bind_refused hgs] at hmore' ⊢
        rw [Rule.bind_refused hmore']

theorem ofTokens_of_accepted (h : functions (.ofTokens tokens) = .accepted fs d) :
    Program.ofTokens tokens = .ok ⟨fs, []⟩ := by
  have hprogram : program (.ofTokens tokens) = .accepted ⟨fs, []⟩ d := Rule.bind_accepted h
  rw [Program.ofTokens, Rule.read, hprogram]

theorem ofTokens_of_refused (h : functions (.ofTokens tokens) = .refused f d) :
    Program.ofTokens tokens = .error (d.report f) := by
  have hprogram : program (.ofTokens tokens) = .refused f d := Rule.bind_refused h
  rw [Program.ofTokens, Rule.read, hprogram]

end Grammar

-- ---------------------------------------------------------------------------
-- Sources
-- ---------------------------------------------------------------------------

open Grammar

def Layout.below (above : String) : Layout where
  Pairs p p' := p' = p.below above
  lt_iff := by
    rintro p _ q _ rfl rfl
    exact (Nat.add_lt_add_iff_right).symm

theorem Layout.Fails.eq_move (h : (Layout.below above).Fails f g) : g = f.move (.below above) := by
  cases h with
  | unexpectedToken _ _ hp => rw [hp]; rfl
  | unexpectedEnd _ hp => rw [hp]; rfl
  | invalidToken _ hp => rw [hp]; rfl
  | conflictingUnary hp => rw [hp]; rfl

theorem Program.ofTokens_append {first second : Tokens} (h : Program.ofTokens first = .ok p)
    (hplaces : ∀ t ∈ first.list, t.2.offset < above.utf8ByteSize + 1) :
    Program.ofTokens ⟨first.list ++ (second.move (.below above)).list,
        (second.move (.below above)).stop⟩ =
      match Program.ofTokens second with
      | .ok q => .ok ⟨p.functions ++ q.functions, []⟩
      | .error f => .error (f.move (.below above)) := by
  obtain ⟨hprogram, hnearest⟩ := Program.ofTokens_eq_ok.1 h
  cases hprogram with
  | program hfs =>
    obtain ⟨d, hrest, hstop, hnoted, hbehind⟩ :=
      functions_behind (c := .ofTokens ⟨first.list ++ (second.move (.below above)).list,
        (second.move (.below above)).stop⟩) rfl hfs hnearest hplaces nofun
    have hstands : (Layout.below above).Stands (.ofTokens second) d := by
      refine ⟨?_, hstop, ?_⟩
      · rw [hrest]
        exact List.forall₂_map_right_iff.2 (List.forall₂_same.2 fun _ _ => ⟨rfl, rfl⟩)
      · cases hd : d.noted with
        | none => exact .none
        | some g =>
          refine .earlier ?_
          rintro q _ rfl
          exact Nat.lt_of_lt_of_le (hnoted g hd) (Nat.le_add_left _ _)
    have hcongr := (Layout.below above).alike.withSingle (Layout.Alike.single opAfter?)
    obtain ⟨gs, e, e', hr, hr', -⟩ | ⟨f, f', e, e', hr, hr', hf, he⟩ :=
      (hcongr.functions hstands).cases
    · rw [ofTokens_of_accepted hr]
      refine ofTokens_of_accepted (d := e') ?_
      rw [hbehind, Rule.bind_accepted hr']
      rfl
    · rw [ofTokens_of_refused hr, ofTokens_of_refused (hbehind.trans (Rule.bind_refused hr'))]
      exact congrArg Except.error (he.report hf).eq_move

/-- A source below a program is read as it is alone. If it is a program too, its functions come
behind those of the first, and if not, the refusal is the same further down: by the text above and
the line feed behind it, and by as many lines. -/
theorem Program.ofSource_append {a b : String} (h : Program.ofSource a = .ok p) :
    Program.ofSource (a ++ "\n" ++ b) =
      match Program.ofSource b with
      | .ok q => .ok ⟨p.functions ++ q.functions, []⟩
      | .error f => .error (f.move (.below a)) := by
  cases ha : Tokens.ofSource a with
  | error f =>
    rw [Program.ofSource, ha] at h
    cases h
  | ok first =>
    have hfirst : Program.ofTokens first = .ok p := by rwa [Program.ofSource, ha] at h
    have hplaces : ∀ t ∈ first.list, t.2.offset < a.utf8ByteSize + 1 := by
      intro t ht
      have hlt := (Tokens.ofSource_ascend ha).lt_stop t ht
      have hstop : first.stop.offset = a.utf8ByteSize := by
        simp [(Tokens.ofSource_eq_ok.1 ha).2, Position.behind]
      omega
    change (Tokens.ofSource (a ++ "\n" ++ b) >>= Program.ofTokens) = match Program.ofSource b with
      | .ok q => _
      | .error f => _
    rw [Tokens.ofSource_above ha (Program.derives_of_ofTokens hfirst).slashApart]
    cases hb : Tokens.ofSource b with
    | error f => rw [Program.ofSource, hb]; rfl
    | ok second =>
      rw [Program.ofSource, hb]
      exact Program.ofTokens_append hfirst hplaces

/-- Alone, `int` ends too early at its offset 3. On the line below the function `f` it ends too
early at offset 13, in the same column of line 2. -/
theorem Program.ofSource_append_early :
    let a := "int f()\x7b\x7d"
    let p : Program := ⟨[⟨.int, "f", [], []⟩], []⟩
    Program.ofSource a = .ok p ∧
      Program.ofSource "int" = .error (.unexpectedEnd ["identifier"] ⟨3, 1, 4⟩) ∧
      Program.ofSource (a ++ "\n" ++ "int") =
        .error (.unexpectedEnd ["identifier"] ⟨13, 2, 4⟩) := by
  intro a p
  have hfirst : Tokens.ofSource a = .ok ⟨[(.type .int, ⟨0, 1, 1⟩), (.name "f", ⟨4, 1, 5⟩),
      (.symbol .leftParen, ⟨5, 1, 6⟩), (.symbol .rightParen, ⟨6, 1, 7⟩),
      (.symbol .leftBrace, ⟨7, 1, 8⟩), (.symbol .rightBrace, ⟨8, 1, 9⟩)], ⟨9, 1, 10⟩⟩ := by cbv
  have ha : Program.ofSource a = .ok p := by
    rw [Program.ofSource, hfirst]
    refine Program.ofTokens_of_derives ?_ (by simp [p, Program.ElseNearest, Stmt.ElseNearestAll])
    exact .program (.functions (.function .int "f" .noItem (.block .noStatement)) .noFunction)
  have hsecond : Tokens.ofSource "int" = .ok ⟨[(.type .int, ⟨0, 1, 1⟩)], ⟨3, 1, 4⟩⟩ := by cbv
  have hb : Program.ofSource "int" = .error (.unexpectedEnd ["identifier"] ⟨3, 1, 4⟩) := by
    rw [Program.ofSource, hsecond]
    exact Program.refusal?_eq_some.1 (by decide +kernel)
  have happend := Program.ofSource_append (b := "int") ha
  rw [hb] at happend
  have hplace : Position.below "int f()\x7b\x7d" ⟨3, 1, 4⟩ = ⟨13, 2, 4⟩ := by decide +kernel
  refine ⟨ha, hb, happend.trans ?_⟩
  exact congrArg (fun q => Except.error (Failure.unexpectedEnd ["identifier"] q)) hplace

end MiniC
