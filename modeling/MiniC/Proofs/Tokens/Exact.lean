import MiniC.Proofs.Tokens.Cut
import MiniC.Proofs.Tokens.Place

/-!
# The places of tokens are exact

`ofSource_exact`: every place that reading a source reports is the one that counting the source up
to there comes to.
-/

namespace MiniC.Tokens

open Lexeme

variable {before text rest slice : List Char} {ts : List (Token × Position)}

/-- The characters of the token stand in the source where its place says. -/
def Stands (source : List Char) (t : Token) (p : Position) : Prop :=
  ∃ before w after, source = before ++ (w ++ after) ∧ Matches w (.token t) ∧ p = .behind before

theorem Cuts.stands (h : Cuts before text ts rest) (ht : (t, p) ∈ ts) :
    Stands (before ++ text) t p := by
  induction h with
  | stop => cases ht
  | @skipped before w text ts rest s _ _ ih =>
    rw [← List.append_assoc]
    exact ih ht
  | @token before w text ts rest t' hmunches _ ih =>
    rcases List.mem_cons.1 ht with heq | ht
    · cases heq
      exact ⟨before, w, text, rfl, hmunches.matched, rfl⟩
    · rw [← List.append_assoc]
      exact ih ht

theorem Stands.string (h : Stands source (.str s) p) :
    ∃ before after, source = before ++ '"' :: (s.toList ++ '"' :: after) ∧ p = .behind before := by
  obtain ⟨before, w, after, rfl, hmatches, rfl⟩ := h
  generalize hpiece : Piece.token (.str s) = piece at hmatches
  cases hmatches with
  | string hinside =>
    cases hpiece
    exact ⟨before, after, by simp, rfl⟩
  | reserved hx =>
    cases hpiece
    simp [Token.reserved] at hx
  | _ => cases hpiece

theorem Stuck.front (h : Stuck text slice) : slice <+: text := by
  cases h with
  | unmatched => exact List.cons_prefix_cons.2 ⟨rfl, List.nil_prefix⟩
  | unclosed => exact List.prefix_rfl
  | tooLarge h => exact h.front

/-- Each place is that of the characters it is reported for: those of a token, from the opening
quote on if it is a string, the end of the source, or the characters that are refused. The places of
the tokens lie one behind the other, and all of them before the end. -/
theorem ofSource_exact (source : String) :
    match ofSource source with
    | .ok tokens =>
      (∀ t p, (t, p) ∈ tokens.list → Stands source.toList t p) ∧
        (∀ s p, (.str s, p) ∈ tokens.list → ∃ before after,
          source.toList = before ++ '"' :: (s.toList ++ '"' :: after) ∧ p = .behind before) ∧
        tokens.stop = .behind source.toList ∧ tokens.stop.offset = source.utf8ByteSize ∧
        tokens.list.Pairwise (·.2.offset < ·.2.offset) ∧
        ∀ t p, (t, p) ∈ tokens.list → p.offset < tokens.stop.offset
    | .error f => ∃ before slice after, source.toList = before ++ (slice ++ after) ∧
        f = .invalidToken (String.ofList slice) (.behind before) := by
  have hreads := ofSource_reads source
  cases hread : ofSource source with
  | ok tokens =>
    have hascend := ofSource_ascend hread
    rw [hread] at hreads
    cases hreads with
    | all hstop hcuts =>
      refine ⟨fun t p ht => hcuts.stands ht, fun s p hs => (hcuts.stands hs).string, hstop, ?_,
        hascend.pairwise, fun t p ht => hascend.lt_stop (t, p) ht⟩
      simp [hstop, Position.behind]
  | error f =>
    rw [hread] at hreads
    cases hreads with
    | @stuck taken rest slice ts p hp htext hcuts hstuck =>
      obtain ⟨after, rfl⟩ := hstuck.front
      exact ⟨taken, slice, after, htext, by rw [hp, List.nil_append]⟩

end MiniC.Tokens
