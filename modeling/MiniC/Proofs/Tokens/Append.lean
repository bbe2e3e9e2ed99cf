import MiniC.Proofs.Rule.Place
import MiniC.Proofs.Tokens.Cut

/-!
# Reading a source below another

`Tokens.ofSource_above`: a source that begins on the line below another one is read as it is alone,
at places further down. The tokens of the first stay what they were: of its pieces only a comment or
a string could go on over the end of the line. Neither does, for one that is closed ends where it
did. But a slash and a star may turn into a comment when there is something to close it, so they
must not come one after the other.
-/

namespace MiniC

-- ---------------------------------------------------------------------------
-- Places further down
-- ---------------------------------------------------------------------------

/-- Where a place comes to lie when the text `above` and a line feed are put before its source. -/
def Position.below (above : String) (p : Position) : Position where
  offset := p.offset + (above.utf8ByteSize + 1)
  line := p.line + (above.toList.count '\n' + 1)
  column := p.column

theorem Position.advance_below (above : String) (p : Position) (c : Char) :
    (p.below above).advance c = (p.advance c).below above := by
  unfold advance
  split <;> simp [below, Nat.add_right_comm]

theorem Position.advanceBy_below (above : String) (p : Position) (text : List Char) :
    (p.below above).advanceBy text = (p.advanceBy text).below above := by
  induction text generalizing p with
  | nil => rfl
  | cons c text ih => rw [advanceBy_cons, advanceBy_cons, advance_below, ih]

theorem Position.below_start (above : String) :
    Position.start.below above = behind (above.toList ++ ['\n']) := by
  have hsize : "\n".utf8ByteSize = 1 := rfl
  simp [below, behind, start, hsize, List.rtakeWhile_concat_neg, Nat.add_comm 1]

def Failure.move (g : Position → Position) : Failure → Failure
  | unexpectedToken found names p => unexpectedToken found names (g p)
  | unexpectedEnd names p => unexpectedEnd names (g p)
  | invalidToken slice p => invalidToken slice (g p)
  | conflictingUnary p => conflictingUnary (g p)

namespace Tokens

open Lexeme

def move (g : Position → Position) (tokens : Tokens) : Tokens where
  list := tokens.list.map fun t => (t.1, g t.2)
  stop := g tokens.stop

theorem read_below (above : String) (text : List Char) (p : Position) :
    read text (p.below above) =
      match read text p with
      | .ok tokens => .ok (tokens.move (.below above))
      | .error f => .error (f.move (.below above)) := by
  fun_induction read text p with
  | case1 p => rw [read]; rfl
  | case2 c cs p lexeme piece hpiece =>
    rw [read]
    simp only [lexeme] at hpiece
    simp [hpiece, Failure.move, piece, lexeme]
  | case3 c cs p lexeme piece s hpiece ih =>
    rw [read]
    simp only [lexeme] at hpiece
    simp only [hpiece, Position.advanceBy_below]
    exact ih
  | case4 c cs p lexeme piece t hpiece ih =>
    rw [read]
    simp only [lexeme] at hpiece
    simp only [hpiece, Position.advanceBy_below]
    rw [ih]
    cases read (cs.drop lexeme.more) (p.advanceBy piece) <;> rfl

end Tokens

-- ---------------------------------------------------------------------------
-- Pieces before the end of a line
-- ---------------------------------------------------------------------------

namespace Lexeme

variable {w v text rest : List Char} {p q : Piece}

/-- A piece with which a longer one begins that has a line feed behind it is a slash, and the longer
one is a comment. A string or a comment would end where it does. -/
theorem Matches.of_over_lineFeed (h : Matches w p)
    (hover : Matches (w ++ (text ++ '\n' :: rest)) q) : w = ['/'] ∧ text.head? = some '*' := by
  obtain ⟨c, w, rfl⟩ := List.exists_cons_of_ne_nil h.ne_nil
  have htail := h.tail
  rw [List.cons_append] at hover
  rcases hover.of_mem_lineFeed (by simp) with
    ⟨heq, -⟩ | ⟨inside, heq, hquote, -⟩ | ⟨body, heq, hbody, -⟩
  · simp at heq
  · obtain ⟨rfl, hinside⟩ := List.cons_eq_cons.1 heq
    obtain ⟨inside', rfl, -⟩ := htail
    -- The quote that closes the piece would stand inside the longer string.
    rcases List.append_eq_append_iff.1 hinside with ⟨more, rfl, -⟩ | ⟨more, -, hmore⟩
    · exact absurd (by simp) hquote
    · have hline : '\n' ∈ ['"'] := by rw [hmore]; simp
      exact absurd hline (by decide)
  · obtain ⟨rfl, hinside⟩ := List.cons_eq_cons.1 heq
    rcases htail with ⟨rfl, -⟩ | ⟨rest', rfl, -⟩ | ⟨body', rfl, hbody', -⟩
    · cases text with
      | nil => cases hinside
      | cons d text =>
        obtain ⟨rfl, -⟩ := List.cons_eq_cons.1 hinside
        exact ⟨rfl, rfl⟩
    · cases hinside
    · -- Both comments end at the first `*/` of the same text.
      have hclose := throughClose_of_body hbody []
      have hclose' := throughClose_of_body hbody' (text ++ '\n' :: rest)
      simp only [List.cons_append, List.append_assoc, List.nil_append, List.cons_inj_right]
        at hinside
      have hlength := congrArg List.length hinside
      rw [← hinside, hclose', Option.some.injEq] at hclose
      simp only [List.length_append, List.length_cons, List.length_nil] at hlength
      omega

theorem Munches.before_lineFeed (h : Munches w p (w ++ text))
    (hslash : w = ['/'] → text.head? ≠ some '*') (more : List Char) :
    Munches w p (w ++ (text ++ '\n' :: more)) where
  front := List.prefix_append ..
  matched := h.matched
  reserved := h.reserved
  longest v q hv hq := by
    obtain ⟨after, hafter⟩ := hv
    rw [← List.append_assoc] at hafter
    rcases List.append_eq_append_iff.1 hafter with ⟨rest, hrest, -⟩ | ⟨rest, rfl, hrest⟩
    · exact h.longest v q ⟨rest, hrest.symm⟩ hq
    · rcases List.cons_eq_append_iff.1 hrest with ⟨rfl, -⟩ | ⟨rest, rfl, -⟩
      · rw [List.append_nil] at hq ⊢
        exact h.longest _ q List.prefix_rfl hq
      · rw [List.append_assoc] at hq
        obtain ⟨hw, hstar⟩ := h.matched.of_over_lineFeed hq
        exact absurd hstar (hslash hw)

theorem piece_eq_slash (h : Matches ['/'] p) : p = .token (.symbol .slash) := by
  rcases h.tail with ⟨-, hp⟩ | ⟨_, hnil, -⟩ | ⟨_, hnil, -⟩
  · exact hp
  · cases hnil
  · cases hnil

theorem piece_eq_star (h : Munches w p ('*' :: text)) : p = .token (.symbol .star) := by
  obtain ⟨c, w, rfl⟩ := List.exists_cons_of_ne_nil h.matched.ne_nil
  obtain ⟨rfl, -⟩ := List.cons_prefix_cons.1 h.front
  obtain ⟨s, hs, rfl⟩ := h.matched.tail
  cases s <;> cases hs
  rfl

end Lexeme

-- ---------------------------------------------------------------------------
-- Sources
-- ---------------------------------------------------------------------------

/-- No slash stands last or right before a star. -/
def SlashApart : List Token → Prop
  | [] => True
  | t :: ts => (t = .symbol .slash → ∃ u, ts.head? = some u ∧ u ≠ .symbol .star) ∧ SlashApart ts

@[simp] theorem slashApart_nil : SlashApart [] := trivial

@[simp] theorem slashApart_cons (h : t ≠ .symbol .slash) :
    SlashApart (t :: ts) ↔ SlashApart ts :=
  ⟨And.right, fun hts => ⟨fun ht => absurd ht h, hts⟩⟩

@[simp] theorem slashApart_append (hts : SlashApart ts) :
    SlashApart (ts ++ us) ↔ SlashApart us := by
  induction ts with
  | nil => rfl
  | cons t ts ih =>
    rw [← ih hts.2]
    refine ⟨And.right, fun hrest => ⟨fun ht => ?_, hrest⟩⟩
    obtain ⟨u, hu, hne⟩ := hts.1 ht
    exact ⟨u, by simp [hu], hne⟩

namespace Tokens

open Lexeme

variable {before text : List Char} {ts : List (Token × Position)}

theorem Cuts.star (h : Cuts before ('*' :: text) ts []) :
    (words ts).head? = some (.symbol .star) := by
  generalize htext : '*' :: text = whole at h
  cases h with
  | stop => cases htext
  | skipped hmunches =>
    rw [← htext] at hmunches
    cases piece_eq_star hmunches
  | token hmunches =>
    rw [← htext] at hmunches
    cases piece_eq_star hmunches
    rfl

theorem Cuts.before_lineFeed (h : Cuts before text ts []) (hapart : SlashApart (words ts))
    (more : List Char) : Cuts before (text ++ '\n' :: more) ts ('\n' :: more) := by
  generalize hrest : [] = rest at h
  induction h with
  | stop =>
    subst hrest
    exact .stop
  | @skipped before w text ts rest s hmunches _ ih =>
    rw [List.append_assoc]
    refine .skipped (hmunches.before_lineFeed ?_ more) (ih hapart hrest)
    rintro rfl
    cases piece_eq_slash hmunches.matched
  | @token before w text ts rest t hmunches hcuts ih =>
    obtain ⟨hslash, hapart⟩ := hapart
    rw [List.append_assoc]
    refine .token (hmunches.before_lineFeed ?_ more) (ih hapart hrest)
    rintro rfl hstar
    subst hrest
    obtain ⟨⟩ := piece_eq_slash hmunches.matched
    obtain ⟨cs, rfl⟩ := List.head?_eq_some_iff.1 hstar
    obtain ⟨u, hu, hne⟩ := hslash rfl
    exact hne (Option.some.inj (hu.symm.trans hcuts.star))

/-- A source below another one is read as it is alone, but for its places, if reading the first
gives tokens in which no slash can open a comment. -/
theorem ofSource_above {a b : String} {tokens : Tokens} (ha : ofSource a = .ok tokens)
    (hapart : SlashApart (words tokens.list)) :
    ofSource (a ++ "\n" ++ b) =
      match ofSource b with
      | .ok below => .ok ⟨tokens.list ++ (below.move (.below a)).list, (below.move (.below a)).stop⟩
      | .error f => .error (f.move (.below a)) := by
  obtain ⟨hcuts, -⟩ := ofSource_eq_ok.1 ha
  have hsource : (a ++ "\n" ++ b).toList = a.toList ++ '\n' :: b.toList := by simp
  obtain ⟨taken, htaken, hread⟩ := (hcuts.before_lineFeed hapart b.toList).read_rest
  obtain rfl := List.append_cancel_right htaken
  have hline : read ('\n' :: b.toList) (.behind a.toList) = read b.toList (.below a .start) := by
    have hbegins := read_skipped (lineFeed_munches b.toList) (.behind a.toList)
    rw [Position.advanceBy_behind, ← Position.below_start] at hbegins
    exact hbegins
  rw [List.nil_append, hline, read_below] at hread
  rw [ofSource_eq_read, ofSource_eq_read, hsource]
  refine Eq.trans hread ?_
  cases read b.toList .start <;> rfl

end Tokens

end MiniC
