import MiniC.Proofs.Tokens.Lines

/-!
# The pieces of a source make up all of it

`ofSource_cuts`: a source is cut from its front into longest pieces, with nothing between them, and
its tokens are those of the pieces. Where this ends early, no rule matches what is left, or a number
stands there that is too large. No other list of tokens makes up the source (`ofSource_eq_ok`).
-/

namespace MiniC.Tokens

open Lexeme

/-- Behind `before`, the text is cut from its front into longest pieces, down to the rest. Their
tokens are `ts`, each with the place where its piece begins. -/
inductive Cuts : (before text : List Char) → List (Token × Position) → (rest : List Char) → Prop
  | stop {before rest} : Cuts before rest [] rest
  | skipped {before w text ts rest s} : Munches w (.skipped s) (w ++ text) →
      Cuts (before ++ w) text ts rest → Cuts before (w ++ text) ts rest
  | token {before w text ts rest t} : Munches w (.token t) (w ++ text) →
      Cuts (before ++ w) text ts rest →
      Cuts before (w ++ text) ((t, .behind before) :: ts) rest

/-- No token is read at the front of the text, and `slice` is what is refused there. -/
inductive Stuck : (text slice : List Char) → Prop
  | unmatched {c cs} : c ≠ '"' → Unmatched (c :: cs) → Stuck (c :: cs) [c]
  | unclosed {cs} : '"' ∉ cs → Unmatched ('"' :: cs) → Stuck ('"' :: cs) ('"' :: cs)
  | tooLarge {text digits} : Munches digits .invalid text → (∀ x ∈ digits, x.isDigit) →
      2 ^ 63 ≤ Nat.ofDigitChars 10 digits 0 → Stuck text digits

variable {before text rest w cs : List Char} {ts : List (Token × Position)}

theorem Cuts.name_not_reserved (h : Cuts before text ts rest) (hname : (.name x, p) ∈ ts) :
    (x, t) ∉ Token.reserved := by
  induction h with
  | stop => cases hname
  | skipped _ _ ih => exact ih hname
  | token hmunches _ ih =>
    rcases List.mem_cons.1 hname with heq | hname
    · cases heq
      exact hmunches.name_not_reserved
    · exact ih hname

-- ---------------------------------------------------------------------------
-- One piece
-- ---------------------------------------------------------------------------

theorem stuck_of_longest (h : Longest c cs l) (hpiece : l.piece = .invalid) :
    Stuck (c :: cs) (c :: cs.take l.more) := by
  cases h with
  | munches h =>
    rw [take_length_of_cons h.front]
    cases hpiece
    obtain ⟨hdigits, hlarge⟩ := h.matched.tooLarge_digits
    exact .tooLarge h hdigits hlarge
  | unclosed hc hquote h =>
    subst hc
    rw [List.take_length]
    exact .unclosed hquote h
  | unmatched hc h => exact .unmatched hc h

-- ---------------------------------------------------------------------------
-- All of a source
-- ---------------------------------------------------------------------------

inductive Reads (before text : List Char) : Except Failure Tokens → Prop
  | all {ts stop} : stop = .behind (before ++ text) → Cuts before text ts [] →
      Reads before text (.ok ⟨ts, stop⟩)
  | stuck {taken rest slice ts p} : p = .behind (before ++ taken) → text = taken ++ rest →
      Cuts before text ts rest → Stuck rest slice →
      Reads before text (.error (.invalidToken (String.ofList slice) p))

theorem Reads.skipped (h : Munches w (.skipped s) (w ++ text))
    (hr : Reads (before ++ w) text r) : Reads before (w ++ text) r := by
  cases hr with
  | all hstop hcuts => exact .all (by rw [hstop, List.append_assoc]) (.skipped h hcuts)
  | stuck hp htext hcuts hstuck =>
    exact .stuck (by rw [hp, List.append_assoc]) (by rw [htext, List.append_assoc])
      (.skipped h hcuts) hstuck

theorem Reads.token {t : Token} (h : Munches w (.token t) (w ++ text))
    (hr : Reads (before ++ w) text r) :
    Reads before (w ++ text) (do
      let rest ← r
      return { rest with list := (t, .behind before) :: rest.list }) := by
  cases hr with
  | all hstop hcuts => exact .all (by rw [hstop, List.append_assoc]) (.token h hcuts)
  | stuck hp htext hcuts hstuck =>
    exact .stuck (by rw [hp, List.append_assoc]) (by rw [htext, List.append_assoc])
      (.token h hcuts) hstuck

theorem read_reads (before text : List Char) : Reads before text (read text (.behind before)) := by
  generalize hp : Position.behind before = p
  fun_induction read text p generalizing before with
  | case1 p =>
    exact .all (by rw [List.append_nil, hp]) .stop
  | case2 c cs p lexeme piece hpiece =>
    exact .stuck (by rw [List.append_nil, hp]) rfl .stop
      (stuck_of_longest (front_longest c cs) hpiece)
  | case3 c cs p lexeme piece s hpiece ih =>
    subst hp
    have hmunches := front_munches hpiece (by simp)
    have hrest := ih (before ++ piece) (Position.advanceBy_behind before piece).symm
    rw [← cons_take_append_drop c cs lexeme.more]
    exact .skipped hmunches hrest
  | case4 c cs p lexeme piece t hpiece ih =>
    subst hp
    have hmunches := front_munches hpiece (by simp)
    have hrest := ih (before ++ piece) (Position.advanceBy_behind before piece).symm
    rw [← cons_take_append_drop c cs lexeme.more]
    exact .token hmunches hrest

theorem ofSource_reads (source : String) : Reads [] source.toList (ofSource source) := by
  rw [ofSource_eq_read]
  exact read_reads [] source.toList

/-- Every source is cut from its front into longest pieces. Its tokens are those of the pieces, or
no token is read where the pieces end. The names among them are no reserved words. -/
theorem ofSource_cuts (source : String) :
    Reads [] source.toList (ofSource source) ∧
      ∀ ts rest, Cuts [] source.toList ts rest →
        ∀ x p, (.name x, p) ∈ ts → ∀ t, (x, t) ∉ Token.reserved :=
  ⟨ofSource_reads source, fun _ _ hcuts _ _ hname _ => hcuts.name_not_reserved hname⟩

/-- What is refused need not be one character or a number: a quote that is never closed is refused
with all the text behind it. -/
theorem unclosed_refused_whole :
    ¬∀ source slice p, ofSource source = .error (.invalidToken slice p) →
      slice.length = 1 ∨ ∀ x ∈ slice.toList, x.isDigit := by
  intro h
  have hread : ofSource "\"ab" = .error (.invalidToken "\"ab" .start) := by
    rw [ofSource_eq_read, show "\"ab".toList = ['"', 'a', 'b'] from rfl, read]
    rfl
  rcases h _ _ _ hread with hlength | hdigits
  · cases hlength
  · have ha : 'a'.isDigit := hdigits 'a' (by simp)
    exact absurd ha (by decide)

-- ---------------------------------------------------------------------------
-- No other tokens
-- ---------------------------------------------------------------------------

theorem read_skipped (h : Munches w (.skipped s) (w ++ text)) (p : Position) :
    read (w ++ text) p = read text (p.advanceBy w) := by
  cases w with
  | nil => exact absurd rfl h.matched.ne_nil
  | cons c w =>
    rw [List.cons_append] at h ⊢
    rw [read]
    simp [front_eq_of_munches h]

theorem read_token {t : Token} (h : Munches w (.token t) (w ++ text)) (p : Position) :
    read (w ++ text) p = (do
      let rest ← read text (p.advanceBy w)
      return { rest with list := (t, p) :: rest.list }) := by
  cases w with
  | nil => exact absurd rfl h.matched.ne_nil
  | cons c w =>
    rw [List.cons_append] at h ⊢
    rw [read]
    simp [front_eq_of_munches h]

theorem Cuts.read_rest (h : Cuts before text ts rest) :
    ∃ taken, text = taken ++ rest ∧
      read text (.behind before) = (do
        let tokens ← read rest (.behind (before ++ taken))
        return { tokens with list := ts ++ tokens.list }) := by
  induction h with
  | @stop before rest =>
    refine ⟨[], rfl, ?_⟩
    rw [List.append_nil]
    cases read rest (.behind before) <;> rfl
  | @skipped before w text ts rest s hmunches _ ih =>
    obtain ⟨taken, rfl, hread⟩ := ih
    refine ⟨w ++ taken, by rw [List.append_assoc], ?_⟩
    rw [read_skipped hmunches, Position.advanceBy_behind, hread, List.append_assoc]
  | @token before w text ts rest t hmunches _ ih =>
    obtain ⟨taken, rfl, hread⟩ := ih
    refine ⟨w ++ taken, by rw [List.append_assoc], ?_⟩
    rw [read_token hmunches, Position.advanceBy_behind, hread, List.append_assoc]
    cases read rest (.behind (before ++ (w ++ taken))) <;> rfl

theorem Cuts.read_eq (h : Cuts before text ts []) :
    read text (.behind before) = .ok ⟨ts, .behind (before ++ text)⟩ := by
  obtain ⟨taken, rfl, hread⟩ := h.read_rest
  rw [hread, read, List.append_nil]
  change Except.ok (Tokens.mk (ts ++ []) _) = _
  rw [List.append_nil]

/-- Only one list of tokens makes up a source, and it is the one that is read. -/
theorem ofSource_eq_ok {source : String} {tokens : Tokens} : ofSource source = .ok tokens ↔
    Cuts [] source.toList tokens.list [] ∧ tokens.stop = .behind source.toList := by
  constructor
  · intro h
    have hreads := ofSource_reads source
    rw [h] at hreads
    cases hreads with
    | all hstop hcuts => exact ⟨hcuts, hstop⟩
  · rintro ⟨hcuts, hstop⟩
    have hread := hcuts.read_eq
    rw [List.nil_append, ← hstop] at hread
    rw [ofSource_eq_read]
    exact hread

end MiniC.Tokens
