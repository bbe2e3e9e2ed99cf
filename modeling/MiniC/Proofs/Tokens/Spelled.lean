import MiniC.Proofs.Rule.Place
import MiniC.Proofs.Tokens.Cut

/-!
# Sources made from tokens

`Tokens.ofSource_spelled`: tokens that are spelled one behind the other are read as these tokens,
whatever separates them. A separator begins with white space, and what comes behind that is blanks
and comments in any order. Their text does not matter: a comment may hold quotes and slashes and
what looks like the beginning of another comment, and a string what looks like a comment.
-/

namespace MiniC

namespace Lexeme

def isWhite (c : Char) : Bool :=
  isBlank c || c == '\n'

/-- The characters `w` spell the token: a word that is reserved spells nothing else. -/
structure Spells (w : List Char) (t : Token) : Prop where
  matched : Matches w (.token t)
  reserved : ∀ u, (String.ofList w, u) ∈ Token.reserved → t = u

/-- White space and comments. A comment to the end of a line has that end behind it. -/
inductive Gap : List Char → Prop
  | done : Gap []
  | white {c cs} : isWhite c → Gap cs → Gap (c :: cs)
  | blockComment {body cs} : ¬['*', '/'] <:+: body → Gap cs →
      Gap ('/' :: '*' :: (body ++ '*' :: '/' :: cs))
  | lineComment {line c cs} : (∀ x ∈ line, x ≠ '\n' ∧ x ≠ '\r') → c = '\n' ∨ c = '\r' → Gap cs →
      Gap ('/' :: '/' :: (line ++ c :: cs))

inductive Separator : List Char → Prop
  | begin {c cs} : isWhite c → Gap cs → Separator (c :: cs)

/-- What may stand behind the last token: nothing or a separator, and after a separator also a
comment to the end of the source. -/
inductive Ending : List Char → Prop
  | nothing : Ending []
  | separator {gap} : Separator gap → Ending gap
  | comment {gap line} : Separator gap → (∀ x ∈ line, x ≠ '\n' ∧ x ≠ '\r') →
      Ending (gap ++ '/' :: '/' :: line)

/-- The text spells the tokens, with a separator between each two. -/
inductive Spelled : List Char → List Token → Prop
  | stop {text} : Ending text → Spelled text []
  | last {w t text} : Spells w t → Ending text → Spelled (w ++ text) [t]
  | more {w t gap text u ts} : Spells w t → Separator gap → Spelled text (u :: ts) →
      Spelled (w ++ (gap ++ text)) (t :: u :: ts)

-- ---------------------------------------------------------------------------
-- White space
-- ---------------------------------------------------------------------------

variable {c : Char} {cs w text gap : List Char}

theorem eq_of_isWhite (h : isWhite c) :
    c = ' ' ∨ c = '\t' ∨ c = '\r' ∨ c = '\x0c' ∨ c = '\n' := by
  simp only [isWhite, Bool.or_eq_true, beq_iff_eq] at h
  rcases h with hblank | rfl
  · have hblank := eq_of_isBlank hblank
    tauto
  · tauto

theorem not_isDigit_of_isWhite (h : isWhite c) : ¬c.isDigit := by
  rcases eq_of_isWhite h with rfl | rfl | rfl | rfl | rfl <;> decide

theorem not_isWordPart_of_isWhite (h : isWhite c) : ¬isWordPart c := by
  rcases eq_of_isWhite h with rfl | rfl | rfl | rfl | rfl <;> decide

theorem ne_of_isWhite (h : isWhite c) (hd : isWhite d = false) : c ≠ d := by
  rintro rfl
  rw [h] at hd
  cases hd

theorem not_isWhite_of_spelling (s : Symbol) (hx : x ∈ s.spelling.toList) : ¬isWhite x := by
  have hall : s.spelling.toList.all (!isWhite ·) = true := by cases s <;> rfl
  simpa using List.all_eq_true.1 hall x hx

/-- A token does not go on over white space. -/
theorem Matches.not_over_white (h : Matches w (.token t)) (hc : isWhite c)
    (hover : Matches (w ++ c :: text) p) : False := by
  obtain ⟨d, w, rfl⟩ := List.exists_cons_of_ne_nil h.ne_nil
  have htail := h.tail
  rw [List.cons_append] at hover
  have hover := hover.tail
  unfold Tail at htail hover
  have hmem : c ∈ w ++ c :: text := by simp
  cases hstart : start d <;> simp only [hstart] at htail hover
  case lineFeed => cases htail.2
  case blank => cases htail.2
  case digit =>
    have hdigit := not_isDigit_of_isWhite hc
    rcases hover with ⟨hdigits, -⟩ | ⟨whole, fraction, heq, hwhole, hfraction, -⟩
    · exact hdigit (hdigits c hmem)
    · rw [heq, List.mem_append, List.mem_cons] at hmem
      rcases hmem with hmem | hpoint | hmem
      · exact hdigit (hwhole c hmem)
      · exact ne_of_isWhite hc rfl hpoint
      · exact hdigit (hfraction c hmem)
  case letter => exact not_isWordPart_of_isWhite hc (hover.1 c hmem)
  case quote =>
    -- The quote that closes the token would stand inside the longer string.
    obtain ⟨inside, rfl, -⟩ := htail
    obtain ⟨inside', heq, hquote, -⟩ := hover
    have hinside := congrArg List.dropLast heq
    rw [List.dropLast_concat, List.append_assoc, List.singleton_append] at hinside
    refine hquote ?_
    rw [← hinside]
    simp [List.dropLast_append_of_ne_nil]
  case slash =>
    rcases htail with ⟨rfl, -⟩ | ⟨rest, -, -, hblank⟩ | ⟨rest, -, -, hblank⟩
    · rcases hover with ⟨hnil, -⟩ | ⟨rest, heq, -⟩ | ⟨rest, heq, -⟩
      · cases hnil
      · exact ne_of_isWhite hc rfl (List.cons_eq_cons.1 heq).1
      · exact ne_of_isWhite hc rfl (List.cons_eq_cons.1 heq).1
    · cases hblank
    · cases hblank
  case other =>
    obtain ⟨s, hs, -⟩ := hover
    exact not_isWhite_of_spelling s (by rw [hs]; exact List.mem_cons_of_mem _ hmem) hc

theorem Separator.head?_isWhite (h : Separator gap) (text : List Char) :
    ∀ c ∈ (gap ++ text).head?, isWhite c := by
  cases h with
  | begin hc _ => simpa using hc

theorem Ending.head?_isWhite (h : Ending text) : ∀ c ∈ text.head?, isWhite c := by
  cases h with
  | nothing => exact nofun
  | separator hgap => simpa using hgap.head?_isWhite []
  | comment hgap _ => exact hgap.head?_isWhite _

/-- A token is the longest piece before white space and at the end of a source. -/
theorem Spells.munches (h : Spells w t) (htext : ∀ c ∈ text.head?, isWhite c) :
    Munches w (.token t) (w ++ text) where
  front := List.prefix_append ..
  matched := h.matched
  reserved u hu := congrArg Piece.token (h.reserved u hu)
  longest v p hv hp := by
    obtain ⟨after, hafter⟩ := hv
    rcases List.append_eq_append_iff.1 hafter with ⟨rest, rfl, -⟩ | ⟨rest, rfl, hrest⟩
    · simp
    · cases rest with
      | nil => simp
      | cons c rest =>
        exact (h.matched.not_over_white (htext c (by simp [hrest])) hp).elim

end Lexeme

-- ---------------------------------------------------------------------------
-- Sources
-- ---------------------------------------------------------------------------

namespace Tokens

open Lexeme

theorem read_white (h : isWhite c) (cs : List Char) (p : Position) :
    read (c :: cs) p = read cs (p.advance c) := by
  have hblanks {c : Char} (h : isBlank c) (cs : List Char) (p : Position) :
      read (c :: cs) p =
        read (cs.dropWhile isBlank) ((p.advance c).advanceBy (cs.takeWhile isBlank)) := by
    have hmunches := blanks_munches h cs
    have hsplit : c :: cs = (c :: cs.takeWhile isBlank) ++ cs.dropWhile isBlank := by
      rw [List.cons_append, List.takeWhile_append_dropWhile]
    rw [hsplit] at hmunches ⊢
    exact read_skipped hmunches p
  simp only [isWhite, Bool.or_eq_true, beq_iff_eq] at h
  rcases h with hc | rfl
  · rw [hblanks hc]
    cases cs with
    | nil => rfl
    | cons d cs =>
      by_cases hd : isBlank d
      · rw [hblanks hd]
        simp [hd]
      · simp [hd]
  · exact read_skipped (lineFeed_munches cs) p

theorem read_lineComment {line : List Char} (h : ∀ x ∈ line, x ≠ '\n' ∧ x ≠ '\r')
    (htext : ∀ c ∈ text.head?, c = '\n' ∨ c = '\r') (p : Position) :
    read ('/' :: '/' :: (line ++ text)) p = read text (p.advanceBy ('/' :: '/' :: line)) := by
  have hmunches := lineComment_munches (line ++ text)
  have hline : (line ++ text).takeWhile (fun c => c != '\n' && c != '\r') = line := by
    rw [List.takeWhile_append_of_pos (by simpa using h)]
    cases text with
    | nil => simp
    | cons c text =>
      rcases htext c rfl with rfl | rfl <;> simp
  rw [hline] at hmunches
  exact read_skipped hmunches p

theorem read_blockComment {body : List Char} (h : ¬['*', '/'] <:+: body) (text : List Char)
    (p : Position) : read ('/' :: '*' :: (body ++ '*' :: '/' :: text)) p =
      read text (p.advanceBy ('/' :: '*' :: (body ++ ['*', '/']))) := by
  have hfront : body ++ ['*', '/'] <+: body ++ '*' :: '/' :: text := by simp
  have hmunches := blockComment_munches hfront h
  have hsplit : '/' :: '*' :: (body ++ '*' :: '/' :: text) =
      '/' :: '*' :: (body ++ ['*', '/']) ++ text := by simp
  rw [hsplit] at hmunches ⊢
  exact read_skipped hmunches p

theorem read_gap (h : Gap gap) (text : List Char) (p : Position) :
    read (gap ++ text) p = read text (p.advanceBy gap) := by
  induction h generalizing p with
  | done => rfl
  | white hc _ ih =>
    rw [List.cons_append, read_white hc, ih]
    rfl
  | @blockComment body cs hbody _ ih =>
    have hassoc : '/' :: '*' :: (body ++ '*' :: '/' :: cs) ++ text =
        '/' :: '*' :: (body ++ '*' :: '/' :: (cs ++ text)) := by simp
    rw [hassoc, read_blockComment hbody, ih, ← Position.advanceBy_append]
    simp
  | @lineComment line c cs hline hc _ ih =>
    have hwhite : isWhite c := by rcases hc with rfl | rfl <;> rfl
    have hassoc : '/' :: '/' :: (line ++ c :: cs) ++ text =
        '/' :: '/' :: (line ++ c :: (cs ++ text)) := by simp
    rw [hassoc, read_lineComment hline (by simpa using hc), read_white hwhite, ih,
      ← Position.advanceBy_cons, ← Position.advanceBy_append]
    simp

theorem read_separator (h : Separator gap) (text : List Char) (p : Position) :
    read (gap ++ text) p = read text (p.advanceBy gap) := by
  cases h with
  | begin hc hgap => exact read_gap (.white hc hgap) text p

theorem read_ending (h : Ending text) (p : Position) : ∃ stop, read text p = .ok ⟨[], stop⟩ := by
  cases h with
  | nothing => exact ⟨p, by rw [read]⟩
  | separator hgap =>
    have hread := read_separator hgap [] p
    rw [List.append_nil] at hread
    exact ⟨_, by rw [hread, read]⟩
  | @comment gap line hgap hline =>
    have hend : ∀ c ∈ ([] : List Char).head?, c = '\n' ∨ c = '\r' := by simp
    have hread := read_lineComment hline hend (p.advanceBy gap)
    rw [List.append_nil] at hread
    exact ⟨_, by rw [read_separator hgap, hread, read]⟩

theorem read_spelled (h : Spelled text ts) (p : Position) :
    ∃ tokens, read text p = .ok tokens ∧ words tokens.list = ts := by
  induction h generalizing p with
  | stop hending =>
    obtain ⟨stop, hread⟩ := read_ending hending p
    exact ⟨_, hread, rfl⟩
  | @last w t text hw hending =>
    obtain ⟨stop, hread⟩ := read_ending hending (p.advanceBy w)
    refine ⟨⟨[(t, p)], stop⟩, ?_, rfl⟩
    rw [read_token (hw.munches hending.head?_isWhite), hread]
    rfl
  | @more w t gap text u ts hw hgap _ ih =>
    obtain ⟨tokens, hread, hwords⟩ := ih ((p.advanceBy w).advanceBy gap)
    refine ⟨⟨(t, p) :: tokens.list, tokens.stop⟩, ?_, by rw [words_cons, hwords]⟩
    rw [read_token (hw.munches (hgap.head?_isWhite text)), read_separator hgap, hread]
    rfl

/-- A source that spells tokens is read as these tokens, each as often and in the order in which it
is spelled. Before the first of them a separator may stand too. -/
theorem ofSource_spelled {source : String} (hsource : source.toList = gap ++ text)
    (hgap : gap = [] ∨ Separator gap) (h : Spelled text ts) :
    ∃ tokens, ofSource source = .ok tokens ∧ words tokens.list = ts := by
  obtain ⟨tokens, hread, hwords⟩ := read_spelled h (Position.start.advanceBy gap)
  refine ⟨tokens, ?_, hwords⟩
  rw [ofSource_eq_read, hsource, ← hread]
  rcases hgap with rfl | hgap
  · rfl
  · exact read_separator hgap text .start

/-- Three tokens with a quote and a star before the end of one comment and the end of another in a
third, and with what looks like two comments in the string. -/
theorem ofSource_spelled_comments :
    let source := "\n\"//*\" /* \" **/-\t//é*/\r007 // end"
    let text := source.toList.tail
    let ts : List Token := [.str "//*", .symbol .minus, .int 7]
    source.toList = ['\n'] ++ text ∧ Separator ['\n'] ∧ Spelled text ts ∧
      ∃ tokens, ofSource source = .ok tokens ∧ words tokens.list = ts := by
  intro source text ts
  have hsource : source.toList = ['\n'] ++ text := by decide
  have hline : Separator ['\n'] := .begin rfl .done
  have hstring : Spells ['"', '/', '/', '*', '"'] (.str "//*") := by
    have hquote : '"' ∉ ['/', '/', '*'] := by decide
    exact ⟨.string hquote, fun u hu => absurd hu (not_reserved nofun)⟩
  have hminus : Spells ['-'] (.symbol .minus) :=
    ⟨.symbol .minus, fun u hu => absurd hu (not_reserved nofun)⟩
  have hseven : Spells ['0', '0', '7'] (.int 7) :=
    ⟨.integer rfl (by simp) rfl, fun u hu => absurd hu (not_reserved nofun)⟩
  have hblock : Separator [' ', '/', '*', ' ', '"', ' ', '*', '*', '/'] := by
    have hbody : ¬['*', '/'] <:+: [' ', '"', ' ', '*'] := by decide
    exact .begin rfl (.blockComment hbody .done)
  have hrest : Separator ['\t', '/', '/', 'é', '*', '/', '\r'] := by
    have hwords : ∀ x ∈ ['é', '*', '/'], x ≠ '\n' ∧ x ≠ '\r' := by simp
    exact .begin rfl (.lineComment hwords (.inr rfl) .done)
  have hend : Ending [' ', '/', '/', ' ', 'e', 'n', 'd'] := by
    have hspace : Separator [' '] := .begin rfl .done
    have hwords : ∀ x ∈ [' ', 'e', 'n', 'd'], x ≠ '\n' ∧ x ≠ '\r' := by simp
    exact .comment hspace hwords
  have hall := Spelled.more hstring hblock (.more hminus hrest (.last hseven hend))
  have hspelled : Spelled text ts := by
    convert hall using 1
    decide
  exact ⟨hsource, hline, hspelled, ofSource_spelled hsource (.inr hline) hspelled⟩

end Tokens

end MiniC
