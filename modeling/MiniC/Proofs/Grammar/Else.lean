import MiniC.Proofs.Grammar.Derivation

/-!
# Settling which `if` an `else` belongs to

Any text that can be derived has a derivation in which every `else` belongs to the nearest `if`
before it: an `else` that stands behind an open statement is moved into it.
-/

namespace MiniC.Grammar

/-- What is shown of a derivation: if it is one of an open statement, an `else` behind it can be
moved into it. -/
def TakesElse : (n : Nonterminal) → List Token → n.Tree → Prop
  | .statement, us, yes => yes.Open → yes.ElseNearest → ∀ vs no, Derives .statement vs no →
      no.ElseNearest →
      ∃ s, Derives .statement (us ++ .keyword .elseWord :: vs) s ∧ s.ElseNearest
  | _, _, _ => True

theorem Derives.takesElse (h : Derives n ts t) : TakesElse n ts t := by
  induction h with
  | @ifThen _ c _ yes hc h _ ih =>
    rintro - hyes vs no hno hnearest
    by_cases hinner : yes.Open
    · obtain ⟨s, hs, hn⟩ := ih hinner hyes vs no hno hnearest
      refine ⟨.ifElse c s none, ?_, hn⟩
      simpa using Derives.ifThen hc hs
    · refine ⟨.ifElse c yes (some no), ?_, hinner, hyes, hnearest⟩
      simpa using Derives.ifElse hc h hno
  | @ifElse _ c _ yes _ _ hc h _ _ _ ih =>
    rintro hopen ⟨hclosed, hyes, hother⟩ vs no hno hnearest
    obtain ⟨s, hs, hn⟩ := ih hopen hother vs no hno hnearest
    refine ⟨.ifElse c yes (some s), ?_, hclosed, hyes, hn⟩
    simpa using Derives.ifElse hc h hs
  | @whileLoop _ c _ _ hc _ _ ih =>
    rintro hopen hbody vs no hno hnearest
    obtain ⟨s, hs, hn⟩ := ih hopen hbody vs no hno hnearest
    refine ⟨.whileLoop c s, ?_, hn⟩
    simpa using Derives.whileLoop hc hs
  | @forLoop _ init _ c _ step _ _ hi hc hstep _ _ _ _ ih =>
    rintro hopen ⟨hinit, hbody⟩ vs no hno hnearest
    obtain ⟨s, hs, hn⟩ := ih hopen hbody vs no hno hnearest
    refine ⟨.forLoop (some init) c (some step) s, ?_, hinit, hn⟩
    simpa using Derives.forLoop hi hc hstep hs
  | perform h =>
    cases h
    exact fun hopen => hopen.elim
  | _ => first | trivial | exact fun hopen => hopen.elim

theorem Derives.initializer_nearest (h : Derives .initializer ts s) : s.ElseNearest := by
  cases h with
  | beginDeclared => trivial
  | beginEffect h => cases h; trivial

/-- What is shown of a derivation: its words have a derivation whose tree has every `else` in its
place. -/
def Settles : Nonterminal → List Token → Prop
  | .program, ts => ∃ p : Program, Derives .program ts p ∧ p.ElseNearest
  | .functions, ts => ∃ fs, Derives .functions ts fs ∧ ∀ f ∈ fs, Stmt.ElseNearestAll f.body
  | .function, ts => ∃ f, Derives .function ts f ∧ Stmt.ElseNearestAll f.body
  | .block, ts => ∃ body, Derives .block ts body ∧ Stmt.ElseNearestAll body
  | .statements, ts => ∃ body, Derives .statements ts body ∧ Stmt.ElseNearestAll body
  | .statement, ts => ∃ s, Derives .statement ts s ∧ s.ElseNearest
  | _, _ => True

theorem Derives.settles (h : Derives n ts t) : Settles n ts := by
  induction h with
  | program _ ih =>
    obtain ⟨fs, hfs, hall⟩ := ih
    exact ⟨_, .program hfs, hall⟩
  | noFunction => exact ⟨[], .noFunction, nofun⟩
  | functions _ _ ih ihs =>
    obtain ⟨f, hf, hbody⟩ := ih
    obtain ⟨fs, hfs, hall⟩ := ihs
    exact ⟨f :: fs, .functions hf hfs, List.forall_mem_cons.2 ⟨hbody, hall⟩⟩
  | function k f hps _ _ ih =>
    obtain ⟨body, hbody, hn⟩ := ih
    exact ⟨_, .function k f hps hbody, hn⟩
  | block _ ih =>
    obtain ⟨body, hbody, hn⟩ := ih
    exact ⟨body, .block hbody, hn⟩
  | noStatement => exact ⟨[], .noStatement, trivial⟩
  | statements _ _ ih ihs =>
    obtain ⟨s, hs, hn⟩ := ih
    obtain ⟨body, hbody, hall⟩ := ihs
    exact ⟨s :: body, .statements hs hbody, hn, hall⟩
  | declare h => exact ⟨_, .declare h, trivial⟩
  | nested _ ih =>
    obtain ⟨body, hbody, hn⟩ := ih
    exact ⟨_, .nested hbody, hn⟩
  | ifThen hc _ _ ih =>
    obtain ⟨yes, hyes, hn⟩ := ih
    exact ⟨_, .ifThen hc hyes, hn⟩
  | ifElse hc _ _ _ ihyes ihno =>
    obtain ⟨yes, hyes, hn⟩ := ihyes
    obtain ⟨no, hno, hn'⟩ := ihno
    by_cases hopen : yes.Open
    · obtain ⟨s, hs, hn⟩ := hyes.takesElse hopen hn _ _ hno hn'
      exact ⟨_, .ifThen hc hs, hn⟩
    · exact ⟨_, .ifElse hc hyes hno, hopen, hn, hn'⟩
  | whileLoop hc _ _ ih =>
    obtain ⟨body, hbody, hn⟩ := ih
    exact ⟨_, .whileLoop hc hbody, hn⟩
  | forLoop hi hc hstep _ _ _ _ ih =>
    obtain ⟨body, hbody, hn⟩ := ih
    exact ⟨_, .forLoop hi hc hstep hbody, hi.initializer_nearest, hn⟩
  | returnNothing => exact ⟨_, .returnNothing, trivial⟩
  | returnValue h => exact ⟨_, .returnValue h, trivial⟩
  | print h => exact ⟨_, .print h, trivial⟩
  | perform h =>
    cases h with
    | effect he => exact ⟨_, .perform (.effect he), trivial⟩
  | _ => trivial

end MiniC.Grammar
