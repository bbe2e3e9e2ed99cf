import MiniC.Proofs.Grammar.Exact
import MiniC.Proofs.Grammar.Render
import MiniC.Proofs.Tokens.Behind

/-!
# Reading what has been spelled

The words of a well-formed program derive it, so reading them gives it back. And every program that
is read is well formed.
-/

namespace MiniC

namespace Grammar

variable {ts us vs : List Token} {op : BinaryOp} {e left right : Expr}

-- ---------------------------------------------------------------------------
-- Ranks
-- ---------------------------------------------------------------------------

def Term.ofRank : Nat → Term
  | 0 => .expression
  | 1 => .level .or
  | 2 => .level .and
  | 3 => .level .comparison
  | 4 => .level .additive
  | 5 => .level .multiplicative
  | 6 => .unary
  | _ => .primary

theorem Term.ofRank_rank (r : Term) : ofRank r.rank = r := by
  cases r with
  | level l => cases l <;> rfl
  | _ => rfl

theorem Term.rank_le_primary (r : Term) : r.rank ≤ Term.primary.rank := by
  cases r with
  | level l => cases l <;> decide
  | _ => decide

theorem Derives.ofRank (h : Derives (.term (.ofRank (n + 1))) ts e) :
    Derives (.term (.ofRank n)) ts e := by
  match n with
  | 0 => exact .operation h
  | 1 => exact .ofOperand (l := .or) h
  | 2 => exact .ofOperand (l := .and) h
  | 3 => exact .ofOperand (l := .comparison) h
  | 4 => exact .ofOperand (l := .additive) h
  | 5 => exact .ofOperand (l := .multiplicative) h
  | 6 => exact .plain h
  | _ + 7 => exact h

theorem Derives.loosen (h : Derives (.term q) ts e) (hr : r.rank ≤ q.rank) :
    Derives (.term r) ts e := by
  have hranks (n k : Nat) (hk : Derives (.term (.ofRank (n + k))) ts e) :
      Derives (.term (.ofRank n)) ts e := by
    induction k with
    | zero => exact hk
    | succ k ih => exact ih hk.ofRank
  obtain ⟨k, hk⟩ := Nat.exists_eq_add_of_le hr
  rw [← r.ofRank_rank]
  refine hranks r.rank k ?_
  rwa [← hk, q.ofRank_rank]

-- ---------------------------------------------------------------------------
-- Expressions
-- ---------------------------------------------------------------------------

def termOf : Expr → Term
  | .assign _ _ => .expression
  | .binary op _ _ => .level op.level
  | .unary _ _ _ => .unary
  | _ => .primary

theorem level_eq_of_rank {l k : Level} (h : l.rank = k.rank) : l = k := by
  cases l <;> cases k <;> first | rfl | cases h

theorem level_rank_lt_unary (l : Level) : l.rank < Term.unary.rank := by
  cases l <;> decide

theorem rank_le_of_parensLeft (h : op.parensLeft e = false) :
    op.level.rank ≤ (termOf e).rank := by
  have hunary := Nat.le_of_lt (level_rank_lt_unary op.level)
  cases e with
  | assign => cases h
  | binary inner => simp_all [BinaryOp.parensLeft, termOf, Term.rank]
  | unary => exact hunary
  | _ => exact Nat.le_succ_of_le hunary

theorem rank_lt_of_parensLeft (h : op.parensLeft e = false) (hop : op.level = .comparison) :
    (operand op.level).rank ≤ (termOf e).rank := by
  rw [rank_operand]
  refine Nat.lt_of_le_of_ne (rank_le_of_parensLeft h) fun heq => ?_
  rw [hop] at heq
  cases e with
  | binary inner =>
    have hinner : inner.level = .comparison := (level_eq_of_rank heq).symm
    simp [BinaryOp.parensLeft, hinner, hop] at h
  | assign => cases h
  | _ => simp [termOf, Term.rank, Level.rank] at heq

theorem rank_le_of_parensRight (h : op.parensRight e = false) :
    (operand op.level).rank ≤ (termOf e).rank := by
  have hunary := level_rank_lt_unary op.level
  rw [rank_operand]
  cases e with
  | assign => cases h
  | binary inner => simpa [BinaryOp.parensRight, Nat.succ_le_iff, termOf, Term.rank] using h
  | unary => exact hunary
  | _ => exact Nat.le_succ_of_le hunary

theorem rank_le_of_parensAlone (h : e.parensAlone = false) :
    Term.primary.rank ≤ (termOf e).rank := by
  cases e with
  | assign => cases h
  | binary => cases h
  | unary => cases h
  | _ => exact Nat.le_refl _

/-- An operand stands in parentheses or holds together by itself. -/
theorem derives_operand (h : Derives (.term (termOf e)) ts e) {needed : Bool}
    (hr : needed = false → r.rank ≤ (termOf e).rank) :
    Derives (.term r) (if needed then parens ts else ts) e := by
  cases needed with
  | true => exact (Derives.parenthesized (h.loosen (Nat.zero_le _))).loosen r.rank_le_primary
  | false => exact h.loosen (hr rfl)

theorem Derives.appendOperations : ∀ {us others}, Derives (.operations l) us others →
    Derives (.operations l) vs more → Derives (.operations l) (us ++ vs) (others ++ more)
  | _, _, .noOperation _, h => h
  | _, _, .operations op hright hothers, h => by
    simpa using Derives.operations op hright (hothers.appendOperations h)

theorem Derives.snocOperation (h : Derives (.operations op.level) us others)
    (hright : Derives (.term (operand op.level)) vs right) :
    Derives (.operations op.level) (us ++ .symbol op.symbol :: vs) (others ++ [(op, right)]) := by
  have hone : Derives (.operations op.level) (.symbol op.symbol :: vs) [(op, right)] := by
    simpa using Derives.operations op hright (.noOperation op.level)
  exact h.appendOperations hone

theorem Derives.joinOperation (hl : op.level ≠ .comparison)
    (h : Derives (.term (.level op.level)) us left)
    (hright : Derives (.term (operand op.level)) vs right) :
    Derives (.term (.level op.level)) (us ++ .symbol op.symbol :: vs) (.binary op left right) := by
  generalize hlevel : op.level = l at h
  cases h with
  | chain _ _ hfirst hothers =>
    subst hlevel
    have hchain := Derives.chain _ hl hfirst (hothers.snocOperation hright)
    simpa [joinLeft] using hchain
  | single => exact absurd hlevel hl
  | compare => exact absurd hlevel hl

theorem derives_commas (item : Nonterminal) {spell : item.Tree → List Token} {as : List item.Tree}
    (h : ∀ a ∈ as, Derives item (spell a) a) :
    Derives (.listed item) (commas (as.map spell)) as := by
  cases as with
  | nil => exact .noItem
  | cons a as =>
    refine .items ?_
    induction as generalizing a with
    | nil => exact .lastItem (h a List.mem_cons_self)
    | cons b as ih =>
      obtain ⟨ha, hrest⟩ := List.forall_mem_cons.1 h
      exact .moreItems ha (ih b hrest)

mutual

theorem derives_spell : (e : Expr) → e.Shaped → Derives (.term (termOf e)) e.spell e
  | .literal v, _ => .literal v
  | .var x, _ => .var x
  | .binary op left right, ⟨hleft, hright⟩ => by
    have hleft := derives_spell left hleft
    have hright : Derives (.term (operand op.level))
        (if op.parensRight right then parens right.spell else right.spell) right :=
      derives_operand (derives_spell right hright) rank_le_of_parensRight
    by_cases hop : op.level = .comparison
    · have hapart := derives_operand hleft fun h => rank_lt_of_parensLeft h hop
      rw [hop] at hapart hright
      have hcompare := Derives.compare op hop hapart hright
      rwa [← hop] at hcompare
    · exact (derives_operand hleft rank_le_of_parensLeft).joinOperation hop hright
  | .unary op .before e, ⟨_, he⟩ =>
    .before op (derives_operand (derives_spell e he) rank_le_of_parensAlone)
  | .unary op .after e, ⟨hop, he⟩ =>
    .after op (hop.resolve_right nofun)
      (derives_operand (derives_spell e he) rank_le_of_parensAlone)
  | .assign x e, he => .assign x ((derives_spell e he).loosen (Nat.zero_le _))
  | .call f args, hargs => by
    rw [Expr.spell, Expr.spellEach_eq_map]
    exact .call f (derives_commas (.term .expression) (derives_spellEach args hargs))

theorem derives_spellEach : (es : List Expr) → Expr.AllShaped es →
    ∀ e ∈ es, Derives (.term .expression) e.spell e
  | [], _ => nofun
  | e :: es, ⟨he, hes⟩ => List.forall_mem_cons.2
    ⟨(derives_spell e he).loosen (Nat.zero_le _), derives_spellEach es hes⟩

end

theorem derives_expression (h : e.Shaped) : Derives (.term .expression) e.spell e :=
  (derives_spell e h).loosen (Nat.zero_le _)

-- ---------------------------------------------------------------------------
-- Statements
-- ---------------------------------------------------------------------------

theorem derives_declaration (h : d.Shaped) : Derives .declaration d.spell d := by
  obtain ⟨k, x, init⟩ := d
  cases init with
  | none => exact .declaration k x
  | some e => exact .initialized k x (derives_expression (h e rfl))

theorem derives_effect (h : e.Shaped) : Derives .effect (Stmt.spell (.expr e)) (.expr e) :=
  .effect (derives_expression h)

theorem derives_initializer (hs : s.Initializes) (h : s.Shaped) :
    Derives .initializer s.spell s := by
  cases s with
  | decl d => exact .beginDeclared (derives_declaration h)
  | expr e => exact .beginEffect (derives_effect h)
  | _ => exact hs.elim

mutual

theorem derives_statement : (s : Stmt) → s.Shaped → Derives .statement s.spell s
  | .expr e, h => .perform (derives_effect h)
  | .decl d, h => .declare (derives_declaration h)
  | .block body, h => .nested (.block (derives_statements body h))
  | .ifElse c yes none, ⟨hc, hyes⟩ => by
    simpa [Stmt.spell, parens] using
      Derives.ifThen (derives_expression hc) (derives_statement yes hyes)
  | .ifElse c yes (some no), ⟨hc, hyes, hno⟩ => by
    simpa [Stmt.spell, parens] using Derives.ifElse (derives_expression hc)
      (derives_statement yes hyes) (derives_statement no hno)
  | .whileLoop c body, ⟨hc, hbody⟩ => by
    simpa [Stmt.spell, parens] using
      Derives.whileLoop (derives_expression hc) (derives_statement body hbody)
  | .forLoop (some init) c (some step) body, ⟨hi, hinit, hc, hstep, hbody⟩ => by
    simpa [Stmt.spell, parens] using Derives.forLoop (derives_initializer hi hinit)
      (derives_expression hc) (derives_expression hstep) (derives_statement body hbody)
  | .forLoop none _ _ _, h => h.elim
  | .forLoop (some _) _ none _, h => h.elim
  | .ret none, _ => .returnNothing
  | .ret (some e), h => .returnValue (derives_expression h)
  | .print e, h => by
    simpa [Stmt.spell, parens] using Derives.print (derives_expression h)

theorem derives_statements : (body : List Stmt) → Stmt.AllShaped body →
    Derives .statements (Stmt.spellAll body) body
  | [], _ => .noStatement
  | s :: rest, ⟨hs, hrest⟩ => .statements (derives_statement s hs) (derives_statements rest hrest)

end

-- ---------------------------------------------------------------------------
-- Programs
-- ---------------------------------------------------------------------------

theorem derives_function (h : f.Shaped) : Derives .function f.spell f := by
  obtain ⟨hparams, hbody⟩ := h
  have hlist : Derives (.listed .parameter) (commas (f.params.map Decl.spellParam)) f.params := by
    refine derives_commas .parameter fun d hd => ?_
    obtain ⟨k, x, init⟩ := d
    obtain rfl : init = none := hparams _ hd
    exact .parameter k x
  simpa [Function.spell, parens, braces] using
    Derives.function f.type f.name hlist (.block (derives_statements f.body hbody))

theorem derives_functions {fs : List Function} (h : ∀ f ∈ fs, f.Shaped) :
    Derives .functions (fs.flatMap Function.spell) fs := by
  induction fs with
  | nil => exact .noFunction
  | cons f fs ih =>
    obtain ⟨hf, hfs⟩ := List.forall_mem_cons.1 h
    rw [List.flatMap_cons]
    exact .functions (derives_function hf) (ih hfs)

theorem derives_program (h : p.WellFormed) : Derives .program p.spell p := by
  obtain ⟨fs, globals⟩ := p
  obtain rfl : globals = [] := h.globals
  exact .program (derives_functions h.functions)

-- ---------------------------------------------------------------------------
-- What has been read
-- ---------------------------------------------------------------------------

def Nonterminal.Shaped : (n : Nonterminal) → n.Tree → Prop
  | program, p => p.globals = [] ∧ ∀ f ∈ p.functions, f.Shaped
  | functions, fs => ∀ f ∈ fs, f.Shaped
  | function, f => f.Shaped
  | parameter, d => d.init = none
  | listed item, as => ∀ a ∈ as, item.Shaped a
  | separated item, as => ∀ a ∈ as, item.Shaped a
  | block, body => Stmt.AllShaped body
  | statements, body => Stmt.AllShaped body
  | statement, s => s.Shaped
  | declaration, d => d.Shaped
  | initializer, s => s.Initializes ∧ s.Shaped
  | effect, s => s.Initializes ∧ s.Shaped
  | term _, e => e.Shaped
  | operations _, others => ∀ o ∈ others, o.2.Shaped

theorem shaped_joinLeft (he : e.Shaped) (h : ∀ o ∈ others, o.2.Shaped) :
    (joinLeft e others).Shaped := by
  unfold joinLeft
  induction others generalizing e with
  | nil => exact he
  | cons o others ih =>
    obtain ⟨ho, hothers⟩ := List.forall_mem_cons.1 h
    exact ih ⟨he, ho⟩ hothers

theorem Derives.shaped (h : Derives n ts t) : n.Shaped t := by
  induction h with
  | program _ ih => exact ⟨rfl, ih⟩
  | noFunction => exact nofun
  | functions _ _ ih ihs => exact List.forall_mem_cons.2 ⟨ih, ihs⟩
  | function _ _ _ _ ihps ih => exact ⟨ihps, ih⟩
  | parameter => exact rfl
  | noItem => exact nofun
  | items _ ih => exact ih
  | lastItem _ ih => exact List.forall_mem_singleton.2 ih
  | moreItems _ _ ih ihs => exact List.forall_mem_cons.2 ⟨ih, ihs⟩
  | block _ ih => exact ih
  | noStatement => trivial
  | statements _ _ ih ihs => exact ⟨ih, ihs⟩
  | declaration => exact nofun
  | initialized _ _ _ ih =>
    rintro _ ⟨⟩
    exact ih
  | effect _ ih => exact ⟨trivial, ih⟩
  | declare _ ih => exact ih
  | nested _ ih => exact ih
  | ifThen _ _ ihc ih => exact ⟨ihc, ih⟩
  | ifElse _ _ _ ihc ihyes ihno => exact ⟨ihc, ihyes, ihno⟩
  | whileLoop _ _ ihc ih => exact ⟨ihc, ih⟩
  | forLoop _ _ _ _ ihi ihc ihstep ih => exact ⟨ihi.1, ihi.2, ihc, ihstep, ih⟩
  | returnNothing => trivial
  | returnValue _ ih => exact ih
  | print _ ih => exact ih
  | perform _ ih => exact ih.2
  | beginDeclared _ ih => exact ⟨trivial, ih⟩
  | beginEffect _ ih => exact ih
  | assign _ _ ih => exact ih
  | operation _ ih => exact ih
  | chain _ _ _ _ ih ihothers => exact shaped_joinLeft ih ihothers
  | noOperation => exact nofun
  | operations _ _ _ ih ihothers => exact List.forall_mem_cons.2 ⟨ih, ihothers⟩
  | single _ ih => exact ih
  | compare _ _ _ _ iha ihb => exact ⟨iha, ihb⟩
  | plain _ ih => exact ih
  | before _ _ ih => exact ⟨.inr rfl, ih⟩
  | after _ hop _ ih => exact ⟨.inl hop, ih⟩
  | call _ _ ih => exact Expr.allShaped_iff.2 ih
  | literal => trivial
  | parenthesized _ ih => exact ih
  | var => trivial

end Grammar

open Grammar

theorem Program.wellFormed_of_ofTokens (h : Program.ofTokens tokens = .ok p) : p.WellFormed := by
  obtain ⟨hderives, helses⟩ := ofTokens_eq_ok.1 h
  obtain ⟨hglobals, hfunctions⟩ := hderives.shaped
  exact ⟨hglobals, hfunctions, helses⟩

theorem Program.ofTokens_spell (h : p.WellFormed) (hwords : words tokens.list = p.spell) :
    Program.ofTokens tokens = .ok p :=
  ofTokens_eq_ok.2 ⟨hwords ▸ derives_program h, h.elses⟩

/-- Spelling and reading are inverse on the programs that have a text, and nothing else is read. -/
theorem Program.ofTokens_spell_inverse :
    (∀ tokens p, Program.ofTokens tokens = .ok p → p.WellFormed) ∧
      ∀ p tokens, p.WellFormed → words tokens.list = p.spell →
        Program.ofTokens tokens = .ok p :=
  ⟨fun _ _ => wellFormed_of_ofTokens, fun _ _ => ofTokens_spell⟩

/-- `int f(int x) { if (x) x = 1 - (2 - x)--; else while (!(x < 3)) f(x); }` has parentheses only
where it must, and is read as it was built. -/
theorem Program.ofTokens_spell_nested :
    let x : Expr := .var "x"
    let yes : Stmt := .expr (.assign "x" (.binary .sub (.literal (.int 1))
      (.unary .decrement .after (.binary .sub (.literal (.int 2)) x))))
    let no : Stmt := .whileLoop (.unary .not .before (.binary .less x (.literal (.int 3))))
      (.expr (.call "f" [x]))
    let p : Program := ⟨[⟨.int, "f", [⟨.int, "x", none⟩], [.ifElse x yes (some no)]⟩], []⟩
    let tokens : Tokens := ⟨p.spell.map (·, .start), .start⟩
    p.WellFormed ∧ words tokens.list = p.spell ∧ Program.ofTokens tokens = .ok p := by
  intro x yes no p tokens
  have hwf : p.WellFormed := by
    refine ⟨rfl, List.forall_mem_singleton.2 ⟨by simp, ?_⟩, List.forall_mem_singleton.2 ?_⟩
    · exact ⟨⟨trivial, ⟨trivial, .inl trivial, trivial, trivial⟩,
        ⟨.inr rfl, trivial, trivial⟩, trivial, trivial⟩, trivial⟩
    · exact ⟨⟨nofun, trivial, trivial⟩, trivial⟩
  have hwords : words tokens.list = p.spell := rfl
  exact ⟨hwf, hwords, ofTokens_spell_inverse.2 p tokens hwf hwords⟩

end MiniC
