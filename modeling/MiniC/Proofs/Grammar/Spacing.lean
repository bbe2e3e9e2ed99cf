import MiniC.Proofs.Grammar.Report
import MiniC.Proofs.Rule.Layout
import MiniC.Proofs.Tokens.Append

/-!
# The same tokens, spaced differently

What stands between its tokens says nothing about a source (`Program.ofSource_spacing`): two sources
with the same tokens are the same program, or are refused for the same reason at the same token.

The furthest of several failures is found by offsets, and these depend on the spacing. But in every
source a token begins behind the one before it, so the offsets of two tokens compare as their
numbers do.
-/

namespace MiniC

open Grammar

theorem Tokens.Ascend.place_lt_iff {tokens : Tokens} (h : tokens.Ascend p)
    (hj : j ≤ tokens.list.length) (hk : k ≤ tokens.list.length) :
    (tokens.place j).offset < (tokens.place k).offset ↔ j < k := by
  refine ⟨fun hlt => ?_, fun hlt => h.place_lt hlt hk⟩
  refine Nat.lt_of_not_le fun hle => ?_
  rcases Nat.lt_or_eq_of_le hle with hkj | rfl
  · exact Nat.lt_asymm hlt (h.place_lt hkj hj)
  · exact Nat.lt_irrefl _ hlt

theorem length_eq_of_words {ts us : List (Token × Position)} (h : words ts = words us) :
    ts.length = us.length := by
  rw [← length_words ts, h, length_words]

namespace Layout

section

variable {tokens tokens' : Tokens} (h : tokens.Ascend p) (h' : tokens'.Ascend p')
  (hwords : words tokens.list = words tokens'.list)

/-- The places of the same tokens of two sources, and those at their ends. -/
def numbered : Layout where
  Pairs q q' := ∃ k ≤ tokens.list.length, q = tokens.place k ∧ q' = tokens'.place k
  lt_iff := by
    have hlength := length_eq_of_words hwords
    rintro _ _ _ _ ⟨j, hj, rfl, rfl⟩ ⟨k, hk, rfl, rfl⟩
    rw [h.place_lt_iff hj hk, h'.place_lt_iff (hlength ▸ hj) (hlength ▸ hk)]

theorem numbered_stands :
    (numbered h h' hwords).Stands (.ofTokens tokens) (.ofTokens tokens') := by
  have hlength := length_eq_of_words hwords
  refine ⟨?_, ⟨tokens.list.length, Nat.le_refl _, ?_, ?_⟩, .none⟩
  · refine List.forall₂_iff_get.2 ⟨hlength, fun k (hk : k < tokens.list.length)
      (hk' : k < tokens'.list.length) => ⟨?_, k, Nat.le_of_lt hk, ?_, ?_⟩⟩
    · have hword : (words tokens.list)[k]? = (words tokens'.list)[k]? := by rw [hwords]
      simpa [words, hk, hk', Cursor.ofTokens] using hword
    · simp [Tokens.place, hk, Cursor.ofTokens]
    · simp [Tokens.place, hk', Cursor.ofTokens]
  · simp [Tokens.place, Cursor.ofTokens]
  · simp [Tokens.place, Cursor.ofTokens, hlength]

end

theorem Fails.exists_move {L : Layout} (h : L.Fails f g) :
    ∃ q, L.Pairs f.place q ∧ g = f.move fun _ => q := by
  cases h with
  | unexpectedToken _ _ hp => exact ⟨_, hp, rfl⟩
  | unexpectedEnd _ hp => exact ⟨_, hp, rfl⟩
  | invalidToken _ hp => exact ⟨_, hp, rfl⟩
  | conflictingUnary hp => exact ⟨_, hp, rfl⟩

theorem Alike.read {L : Layout} {rule rule' : Rule α} (h : L.Alike rule rule')
    (hstands : L.Stands (.ofTokens tokens) (.ofTokens tokens')) :
    (∃ a, rule.read tokens = .ok a ∧ rule'.read tokens' = .ok a) ∨
      ∃ f f', rule.read tokens = .error f ∧ rule'.read tokens' = .error f' ∧ L.Fails f f' := by
  unfold Rule.read
  obtain ⟨a, d, d', hr, hr', -⟩ | ⟨f, f', d, d', hr, hr', hf, hd⟩ := (h hstands).cases
  · rw [hr, hr']
    exact .inl ⟨a, rfl, rfl⟩
  · rw [hr, hr']
    exact .inr ⟨_, _, rfl, rfl, hd.report hf⟩

end Layout

/-- Two sources with the same tokens, whatever stands between them, are the same program; or both
are refused, for the same reason and with the same expectations, at the token of the same number or
both at the end. -/
theorem Program.ofSource_spacing (ha : Tokens.ofSource a = .ok tokens)
    (hb : Tokens.ofSource b = .ok tokens') (hwords : words tokens.list = words tokens'.list) :
    (∃ p, Program.ofSource a = .ok p ∧ Program.ofSource b = .ok p) ∨
      ∃ f, ∃ k ≤ tokens.list.length, f.place = tokens.place k ∧ Program.ofSource a = .error f ∧
        Program.ofSource b = .error (f.move fun _ => tokens'.place k) := by
  have hascend := Tokens.ofSource_ascend ha
  have hascend' := Tokens.ofSource_ascend hb
  have hfirst : Program.ofSource a = program.read tokens := by rw [Program.ofSource, ha]; rfl
  have hsecond : Program.ofSource b = program.read tokens' := by rw [Program.ofSource, hb]; rfl
  rw [hfirst, hsecond]
  let L := Layout.numbered hascend hascend' hwords
  have hprogram : L.Alike program program :=
    (L.alike.withSingle (Layout.Alike.single opAfter?)).program
  rcases hprogram.read (Layout.numbered_stands hascend hascend' hwords) with
    hok | ⟨f, f', hf, hf', hfails⟩
  · exact .inl hok
  · obtain ⟨_, ⟨k, hk, hplace, rfl⟩, rfl⟩ := hfails.exists_move
    exact .inr ⟨f, k, hk, hplace, hf, hf'⟩

/-- The report on `int f(){x}` puts together what three rules miss at the brace. With comments and
line ends between the words, the same is missed at the same brace. -/
theorem Program.ofSource_spacing_lines :
    let a := "int f()\x7bx\x7d"
    let b := "int f /* ; */ ()\n\x7b // \"\n\tx\n\x7d"
    let tokens : Tokens := ⟨[(.type .int, ⟨0, 1, 1⟩), (.name "f", ⟨4, 1, 5⟩),
      (.symbol .leftParen, ⟨5, 1, 6⟩), (.symbol .rightParen, ⟨6, 1, 7⟩),
      (.symbol .leftBrace, ⟨7, 1, 8⟩), (.name "x", ⟨8, 1, 9⟩), (.symbol .rightBrace, ⟨9, 1, 10⟩)],
      ⟨10, 1, 11⟩⟩
    let tokens' : Tokens := ⟨[(.type .int, ⟨0, 1, 1⟩), (.name "f", ⟨4, 1, 5⟩),
      (.symbol .leftParen, ⟨14, 1, 15⟩), (.symbol .rightParen, ⟨15, 1, 16⟩),
      (.symbol .leftBrace, ⟨17, 2, 1⟩), (.name "x", ⟨25, 3, 2⟩), (.symbol .rightBrace, ⟨27, 4, 1⟩)],
      ⟨28, 4, 2⟩⟩
    let f : Failure := .unexpectedToken "'\x7d'" ["'('", "';'", "'='"] ⟨9, 1, 10⟩
    Tokens.ofSource a = .ok tokens ∧ Tokens.ofSource b = .ok tokens' ∧
      words tokens.list = words tokens'.list ∧ Program.ofSource a = .error f ∧
      Program.ofSource b = .error (.unexpectedToken "'\x7d'" ["'('", "';'", "'='"] ⟨27, 4, 1⟩) := by
  intro a b tokens tokens' f
  have ha : Tokens.ofSource a = .ok tokens := by cbv
  have hb : Tokens.ofSource b = .ok tokens' := by cbv
  have hwords : words tokens.list = words tokens'.list := rfl
  have hrefused : Program.ofSource a = .error f := by
    rw [Program.ofSource, ha]
    exact Program.refusal?_eq_some.1 (by decide +kernel)
  refine ⟨ha, hb, hwords, hrefused, ?_⟩
  rcases Program.ofSource_spacing ha hb hwords with ⟨p, hp, -⟩ | ⟨g, k, hk, hplace, hg, hmoved⟩
  · rw [hrefused] at hp
    cases hp
  · obtain rfl : f = g := by simpa [hrefused] using hg
    have hsix : tokens.place 6 = ⟨9, 1, 10⟩ := rfl
    have hoffset : (tokens.place k).offset = (tokens.place 6).offset := by rw [← hplace, hsix]; rfl
    obtain rfl : k = 6 :=
      (Tokens.ofSource_ascend ha).place_inj hk (by decide) hoffset
    exact hmoved

end MiniC
