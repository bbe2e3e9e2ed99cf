import Mathlib
import MiniC.Proofs.Lexeme.Comment
import MiniC.Token.Lexeme

/-!
# The rules of the pieces

Which characters make up which piece, whatever stands behind them. `Lexeme.Matches` has one rule for
each kind of piece; where several rules match the front of a text, the longest match counts, and
among matches of equal length the reserved word (`Lexeme.Munches`).

The first character of a piece tells which rules are in question, and these tell what the piece goes
on with (`Matches.tail`).
-/

namespace MiniC.Lexeme

/-- The characters `w` are a piece of this kind. A number that is too large for a literal is an
invalid piece, but a piece all the same. -/
inductive Matches : (w : List Char) → Piece → Prop
  | lineFeed : Matches ['\n'] (.skipped .lineFeed)
  | blanks {c cs} : isBlank c → (∀ x ∈ cs, isBlank x) → Matches (c :: cs) (.skipped .blanks)
  | lineComment {cs} : (∀ x ∈ cs, x ≠ '\n' ∧ x ≠ '\r') →
      Matches ('/' :: '/' :: cs) (.skipped .lineComment)
  | blockComment {w} : w ∈ Lexeme.blockComment → Matches w (.skipped .blockComment)
  | integer {c cs} {n : Int64} : c.isDigit → (∀ x ∈ cs, x.isDigit) →
      n.toInt = Nat.ofDigitChars 10 (c :: cs) 0 → Matches (c :: cs) (.token (.int n))
  | tooLarge {c cs} : c.isDigit → (∀ x ∈ cs, x.isDigit) →
      2 ^ 63 ≤ Nat.ofDigitChars 10 (c :: cs) 0 → Matches (c :: cs) .invalid
  | real {c whole fraction} : c.isDigit → (∀ x ∈ whole, x.isDigit) → (∀ x ∈ fraction, x.isDigit) →
      fraction ≠ [] → Matches (c :: (whole ++ '.' :: fraction)) (.token (.real
        (Float.ofScientific (Nat.ofDigitChars 10 (c :: (whole ++ fraction)) 0) true
          fraction.length)))
  | string {inside} : '"' ∉ inside →
      Matches ('"' :: (inside ++ ['"'])) (.token (.str (String.ofList inside)))
  | reserved {word t} : (word, t) ∈ Token.reserved → Matches word.toList (.token t)
  | name {c cs} : isWordStart c → (∀ x ∈ cs, isWordPart x) →
      Matches (c :: cs) (.token (.name (String.ofList (c :: cs))))
  | symbol (s : Symbol) : Matches s.spelling.toList (.token (.symbol s))

def Unmatched (text : List Char) : Prop :=
  ∀ w piece, w <+: text → ¬Matches w piece

/-- The piece at the front of the text is `w`: no rule matches more of the text, and if `w` is a
reserved word, it stands for itself. -/
structure Munches (w : List Char) (piece : Piece) (text : List Char) : Prop where
  front : w <+: text
  matched : Matches w piece
  longest : ∀ v other, v <+: text → Matches v other → v.length ≤ w.length
  reserved : ∀ t, (String.ofList w, t) ∈ Token.reserved → piece = .token t

theorem Matches.tooLarge_digits (h : Matches w .invalid) :
    (∀ x ∈ w, x.isDigit) ∧ 2 ^ 63 ≤ Nat.ofDigitChars 10 w 0 := by
  generalize hpiece : Piece.invalid = piece at h
  cases h with
  | tooLarge hc hcs hlarge => exact ⟨List.forall_mem_cons.2 ⟨hc, hcs⟩, hlarge⟩
  | _ => cases hpiece

theorem Munches.name_not_reserved (h : Munches w (.token (.name x)) text) :
    (x, t) ∉ Token.reserved := by
  have hall : ∀ entry ∈ Token.reserved, ∀ y, entry.2 ≠ .name y := by
    simp [Token.reserved, TypeName.all, Keyword.all]
  intro ht
  generalize hpiece : Piece.token (.name x) = piece at h
  cases h.matched with
  | reserved hx =>
    cases hpiece
    exact hall _ hx x rfl
  | name hc hcs =>
    cases hpiece
    have heq := h.reserved t ht
    cases heq
    exact hall _ ht _ rfl
  | _ => cases hpiece

-- ---------------------------------------------------------------------------
-- First characters
-- ---------------------------------------------------------------------------

inductive Start where
  | lineFeed
  | blank
  | digit
  | letter
  | quote
  | slash
  | other
  deriving DecidableEq

def start (c : Char) : Start :=
  if c == '\n' then .lineFeed
  else if isBlank c then .blank
  else if c.isDigit then .digit
  else if isWordStart c then .letter
  else if c == '"' then .quote
  else if c == '/' then .slash
  else .other

theorem eq_of_isBlank (h : isBlank c) : c = ' ' ∨ c = '\t' ∨ c = '\r' ∨ c = '\x0c' := by
  simpa [isBlank, or_assoc] using h

theorem start_of_isBlank (h : isBlank c) : start c = .blank := by
  rcases eq_of_isBlank h with rfl | rfl | rfl | rfl <;> rfl

theorem start_of_isDigit (h : c.isDigit) : start c = .digit := by
  have hline : c ≠ '\n' := by rintro rfl; contradiction
  have hblank : isBlank c = false := by
    refine Bool.eq_false_iff.2 fun hblank => ?_
    rcases eq_of_isBlank hblank with rfl | rfl | rfl | rfl <;> contradiction
  simp [start, hline, hblank, h]

theorem start_of_isWordStart (h : isWordStart c) : start c = .letter := by
  have hline : c ≠ '\n' := by rintro rfl; contradiction
  have hblank : isBlank c = false := by
    refine Bool.eq_false_iff.2 fun hblank => ?_
    rcases eq_of_isBlank hblank with rfl | rfl | rfl | rfl <;> contradiction
  have hdigit : c.isDigit = false := by
    refine Bool.eq_false_iff.2 fun hdigit => ?_
    have h' := h
    simp only [isWordStart, Bool.or_eq_true, beq_iff_eq] at h'
    rcases h' with halpha | rfl
    · simp [Char.isAlpha, Char.isUpper, Char.isLower, Char.isDigit,
        UInt32.le_iff_toNat_le] at halpha hdigit
      omega
    · contradiction
  simp [start, hline, hblank, hdigit, h]

theorem reserved_isWord (h : (x, t) ∈ Token.reserved) :
    ∃ c cs, x.toList = c :: cs ∧ isWordStart c ∧ ∀ y ∈ cs, isWordPart y := by
  have hall : ∀ x ∈ Token.reserved.map Prod.fst, (x.toList.head?.any isWordStart) = true ∧
      x.toList.tail.all isWordPart = true := by decide
  obtain ⟨hhead, htail⟩ := hall x (List.mem_map_of_mem h)
  cases hx : x.toList with
  | nil => simp [hx] at hhead
  | cons c cs =>
    rw [hx] at hhead htail
    exact ⟨c, cs, rfl, by simpa using hhead, by simpa using htail⟩

theorem ofWord_reserved (h : (x, t) ∈ Token.reserved) : Token.ofWord x = t := by
  have hall : ∀ entry ∈ Token.reserved, Token.ofWord entry.1 = entry.2 := by decide
  exact hall _ h

theorem start_of_spelling {s : Symbol} (h : s.spelling.toList = c :: cs) :
    start c = .other ∨ start c = .slash ∧ cs = [] ∧ s = .slash := by
  cases s <;> cases h <;> first | exact .inl rfl | exact .inr ⟨rfl, rfl, rfl⟩

/-- What a piece goes on with behind its first character, and what it stands for. -/
def Tail (c : Char) (cs : List Char) (piece : Piece) : Prop :=
  match start c with
  | .lineFeed => cs = [] ∧ piece = .skipped .lineFeed
  | .blank => (∀ x ∈ cs, isBlank x) ∧ piece = .skipped .blanks
  | .digit => (∀ x ∈ cs, x.isDigit) ∧ piece = integer (c :: cs) ∨
      ∃ whole fraction, cs = whole ++ '.' :: fraction ∧ (∀ x ∈ whole, x.isDigit) ∧
        (∀ x ∈ fraction, x.isDigit) ∧ fraction ≠ [] ∧ piece = real (c :: whole) fraction
  | .letter => (∀ x ∈ cs, isWordPart x) ∧
      (piece = .token (.ofWord (String.ofList (c :: cs))) ∨
        piece = .token (.name (String.ofList (c :: cs))))
  | .quote => ∃ inside, cs = inside ++ ['"'] ∧ '"' ∉ inside ∧
      piece = .token (.str (String.ofList inside))
  | .slash => cs = [] ∧ piece = .token (.symbol .slash) ∨
      (∃ rest, cs = '/' :: rest ∧ (∀ x ∈ rest, x ≠ '\n' ∧ x ≠ '\r') ∧
        piece = .skipped .lineComment) ∨
      ∃ rest, cs = '*' :: (rest ++ ['*', '/']) ∧ ¬['*', '/'] <:+: rest ∧
        piece = .skipped .blockComment
  | .other => ∃ s : Symbol, s.spelling.toList = c :: cs ∧ piece = .token (.symbol s)

theorem integer_eq {digits : List Char} {n : Int64}
    (h : n.toInt = Nat.ofDigitChars 10 digits 0) : integer digits = .token (.int n) := by
  have hvalue : digitsValue digits = Nat.ofDigitChars 10 digits 0 := rfl
  have hmax := n.toInt_le
  have hn : Int64.ofNat (Nat.ofDigitChars 10 digits 0) = n := by
    apply Int64.toInt_inj.1
    rw [Int64.toInt_ofNat_of_lt (by rw [h, Int64.toInt_maxValue] at hmax; omega), h]
  unfold integer
  dsimp only
  rw [hvalue, if_pos (h ▸ hmax), hn]

theorem integer_eq_invalid {digits : List Char}
    (h : 2 ^ 63 ≤ Nat.ofDigitChars 10 digits 0) : integer digits = .invalid := by
  have hvalue : digitsValue digits = Nat.ofDigitChars 10 digits 0 := rfl
  have hmax := Int64.toInt_maxValue
  unfold integer
  dsimp only
  rw [hvalue, if_neg (by omega)]

theorem Matches.tail (h : Matches (c :: cs) p) : Tail c cs p := by
  generalize hw : c :: cs = w at h
  unfold Tail
  cases h with
  | lineFeed =>
    cases hw
    exact ⟨rfl, rfl⟩
  | blanks hc hcs =>
    cases hw
    rw [start_of_isBlank hc]
    exact ⟨hcs, rfl⟩
  | lineComment hcs =>
    cases hw
    exact .inr (.inl ⟨_, rfl, hcs, rfl⟩)
  | blockComment hcomment =>
    obtain ⟨body, hbody, rfl⟩ := mem_blockComment.1 hcomment
    cases hw
    exact .inr (.inr ⟨body, rfl, hbody, rfl⟩)
  | integer hc hcs hn =>
    cases hw
    rw [start_of_isDigit hc]
    exact .inl ⟨hcs, (integer_eq hn).symm⟩
  | tooLarge hc hcs hn =>
    cases hw
    rw [start_of_isDigit hc]
    exact .inl ⟨hcs, (integer_eq_invalid hn).symm⟩
  | real hc hwhole hfraction hne =>
    cases hw
    rw [start_of_isDigit hc]
    exact .inr ⟨_, _, rfl, hwhole, hfraction, hne, rfl⟩
  | string hinside =>
    cases hw
    exact ⟨_, rfl, hinside, rfl⟩
  | @reserved x t hx =>
    obtain ⟨d, ds, hword, hd, hds⟩ := reserved_isWord hx
    rw [hword] at hw
    cases hw
    rw [start_of_isWordStart hd]
    refine ⟨hds, .inl ?_⟩
    rw [← hword, String.ofList_toList, ofWord_reserved hx]
  | name hc hcs =>
    cases hw
    rw [start_of_isWordStart hc]
    exact ⟨hcs, .inr rfl⟩
  | symbol s =>
    rcases start_of_spelling hw.symm with hother | ⟨hslash, rfl, rfl⟩
    · rw [hother]
      exact ⟨s, hw.symm, rfl⟩
    · rw [hslash]
      exact .inl ⟨rfl, rfl⟩

theorem Matches.of_mem_lineFeed (h : Matches w p) (hmem : '\n' ∈ w) :
    w = ['\n'] ∧ p = .skipped .lineFeed ∨
      (∃ inside, w = '"' :: (inside ++ ['"']) ∧ '"' ∉ inside ∧
        p = .token (.str (String.ofList inside))) ∨
      ∃ body, w = '/' :: '*' :: (body ++ ['*', '/']) ∧ ¬['*', '/'] <:+: body ∧
        p = .skipped .blockComment := by
  have hmost {first q : Char → Bool} (hfirst : ¬first '\n') (hq : ¬q '\n') {c cs}
      (hc : first c) (hcs : ∀ x ∈ cs, q x) : '\n' ∉ c :: cs := by
    intro hmem
    rcases List.mem_cons.1 hmem with rfl | hmem
    · exact hfirst hc
    · exact hq (hcs _ hmem)
  cases h with
  | lineFeed => exact .inl ⟨rfl, rfl⟩
  | blanks hc hcs => exact absurd hmem (hmost (by decide) (by decide) hc hcs)
  | lineComment hcs =>
    have hline := by simpa using hmem
    exact absurd rfl (hcs _ hline).1
  | blockComment hcomment =>
    obtain ⟨body, hbody, rfl⟩ := mem_blockComment.1 hcomment
    exact .inr (.inr ⟨body, rfl, hbody, rfl⟩)
  | integer hc hcs => exact absurd hmem (hmost (by decide) (by decide) hc hcs)
  | tooLarge hc hcs => exact absurd hmem (hmost (by decide) (by decide) hc hcs)
  | real hc hwhole hfraction =>
    refine absurd hmem (hmost (q := fun x => x.isDigit || x == '.') (by decide) (by decide) hc ?_)
    intro x hx
    rcases List.mem_append.1 hx with hx | hx
    · simp [hwhole x hx]
    · rcases List.mem_cons.1 hx with rfl | hx
      · rfl
      · simp [hfraction x hx]
  | string hinside => exact .inr (.inl ⟨_, rfl, hinside, rfl⟩)
  | reserved hx =>
    obtain ⟨c, cs, hword, hc, hcs⟩ := reserved_isWord hx
    rw [hword] at hmem
    exact absurd hmem (hmost (by decide) (by decide) hc hcs)
  | name hc hcs => exact absurd hmem (hmost (by decide) (by decide) hc hcs)
  | symbol s => cases s <;> exact absurd hmem (by decide)

end MiniC.Lexeme
