import MiniC.Proofs.Lexeme.Rules

/-!
# The longest piece

`front_longest`: what is read at the front of a text is the longest piece there. If there is none,
what is refused is one character, or a quote that is never closed and all the rest behind it. The
longest piece has one meaning only (`Munches.unique`), so nothing else could be read there.
-/

namespace MiniC.Lexeme

variable {c : Char} {cs w v : List Char} {p : Piece}

-- ---------------------------------------------------------------------------
-- The front of a list
-- ---------------------------------------------------------------------------

theorem length_le_takeWhile {q : Char → Bool} (hv : v <+: cs) (h : ∀ x ∈ v, q x) :
    v.length ≤ (cs.takeWhile q).length := by
  obtain ⟨rest, rfl⟩ := hv
  rw [List.takeWhile_append_of_pos h, List.length_append]
  exact Nat.le_add_right _ _

theorem mem_takeWhile {q : Char → Bool} : ∀ x ∈ cs.takeWhile q, q x :=
  List.all_eq_true.1 List.all_takeWhile

-- ---------------------------------------------------------------------------
-- From first characters to pieces
-- ---------------------------------------------------------------------------

theorem Matches.ne_nil (h : Matches w p) : w ≠ [] := by
  cases h with
  | reserved hx =>
    obtain ⟨c, cs, hword, -⟩ := reserved_isWord hx
    simp [hword]
  | symbol s => cases s <;> simp [Symbol.spelling]
  | blockComment hcomment =>
    obtain ⟨body, -, rfl⟩ := mem_blockComment.1 hcomment
    exact List.cons_ne_nil _ _
  | _ => exact List.cons_ne_nil _ _

theorem not_reserved (h : start c ≠ .letter) : (String.ofList (c :: w), t) ∉ Token.reserved := by
  intro ht
  obtain ⟨d, ds, hword, hd, -⟩ := reserved_isWord ht
  rw [String.toList_ofList] at hword
  cases hword
  exact h (start_of_isWordStart hd)

/-- A piece is the longest if none with its first character goes on longer. -/
theorem Matches.munches (h : Matches (c :: w) p) (hw : w <+: cs)
    (hlong : ∀ v other, v <+: cs → Tail c v other → v.length ≤ w.length)
    (hreserved : ∀ t, (String.ofList (c :: w), t) ∈ Token.reserved → p = .token t) :
    Munches (c :: w) p (c :: cs) where
  front := List.cons_prefix_cons.2 ⟨rfl, hw⟩
  matched := h
  longest v other hv hother := by
    cases v with
    | nil => exact absurd rfl hother.ne_nil
    | cons d v =>
      obtain ⟨rfl, htail⟩ := List.cons_prefix_cons.1 hv
      exact Nat.succ_le_succ (hlong v other htail hother.tail)
  reserved := hreserved

theorem unmatched_of_tail (h : ∀ v p, v <+: cs → ¬Tail c v p) : Unmatched (c :: cs) := by
  intro w p hw hp
  cases w with
  | nil => exact hp.ne_nil rfl
  | cons d w =>
    obtain ⟨rfl, htail⟩ := List.cons_prefix_cons.1 hw
    exact h w p htail hp.tail

/-- What is read at the front of a text `c :: cs`: the longest piece there. Where no rule matches,
one character is refused, and with a quote that is never closed all the rest. -/
inductive Longest (c : Char) (cs : List Char) : Lexeme → Prop
  | munches {w piece} : Munches (c :: w) piece (c :: cs) → Longest c cs ⟨piece, w.length⟩
  | unclosed : c = '"' → '"' ∉ cs → Unmatched (c :: cs) → Longest c cs ⟨.invalid, cs.length⟩
  | unmatched : c ≠ '"' → Unmatched (c :: cs) → Longest c cs ⟨.invalid, 0⟩

-- ---------------------------------------------------------------------------
-- Blanks and words
-- ---------------------------------------------------------------------------

theorem lineFeed_munches (cs : List Char) : Munches ['\n'] (.skipped .lineFeed) ('\n' :: cs) :=
  Matches.lineFeed.munches List.nil_prefix (fun v _ _ htail => by simp [htail.1])
    fun _ ht => absurd ht (not_reserved nofun)

theorem blanks_munches (h : isBlank c) (cs : List Char) :
    Munches (c :: cs.takeWhile isBlank) (.skipped .blanks) (c :: cs) := by
  have hstart := start_of_isBlank h
  refine (Matches.blanks h mem_takeWhile).munches (List.takeWhile_prefix _) (fun v _ hv htail => ?_)
    fun t ht => absurd ht (not_reserved (by simp [hstart]))
  rw [Tail, hstart] at htail
  exact length_le_takeWhile hv htail.1

theorem ofWord_cases (x : String) :
    (x, Token.ofWord x) ∈ Token.reserved ∨ Token.ofWord x = .name x := by
  unfold Token.ofWord
  cases hlookup : Token.reserved.lookup x with
  | none => exact .inr rfl
  | some t =>
    obtain ⟨before, after, hreserved, -⟩ := List.lookup_eq_some_iff.1 hlookup
    exact .inl (by simp [hreserved])

theorem matches_ofWord (h : isWordStart c) (hcs : ∀ x ∈ cs, isWordPart x) :
    Matches (c :: cs) (.token (.ofWord (String.ofList (c :: cs)))) := by
  rcases ofWord_cases (String.ofList (c :: cs)) with hmem | hname
  · simpa using Matches.reserved hmem
  · rw [hname]
    exact .name h hcs

theorem word_munches (h : isWordStart c) (cs : List Char) :
    Munches (c :: cs.takeWhile isWordPart)
      (.token (.ofWord (String.ofList (c :: cs.takeWhile isWordPart)))) (c :: cs) := by
  refine (matches_ofWord h mem_takeWhile).munches (List.takeWhile_prefix _) (fun v _ hv htail => ?_)
    fun t ht => by rw [ofWord_reserved ht]
  rw [Tail, start_of_isWordStart h] at htail
  exact length_le_takeWhile hv htail.1

-- ---------------------------------------------------------------------------
-- Numbers
-- ---------------------------------------------------------------------------

theorem matches_integer (hc : c.isDigit) (hcs : ∀ x ∈ cs, x.isDigit) :
    Matches (c :: cs) (integer (c :: cs)) := by
  have hvalue : digitsValue (c :: cs) = Nat.ofDigitChars 10 (c :: cs) 0 := rfl
  have hmax := Int64.toInt_maxValue
  unfold integer
  dsimp only
  split
  next hle =>
    refine .integer hc hcs ?_
    rw [Int64.toInt_ofNat_of_lt (by omega), hvalue]
  next hlt => exact .tooLarge hc hcs (by omega)

theorem takeWhile_digits {whole : List Char} (h : ∀ x ∈ whole, x.isDigit) (rest : List Char) :
    (whole ++ '.' :: rest).takeWhile Char.isDigit = whole := by
  have hpoint : Char.isDigit '.' = false := rfl
  simp [List.takeWhile_append_of_pos h, hpoint]

theorem dropWhile_digits {whole : List Char} (h : ∀ x ∈ whole, x.isDigit) (rest : List Char) :
    (whole ++ '.' :: rest).dropWhile Char.isDigit = '.' :: rest := by
  have hpoint : Char.isDigit '.' = false := rfl
  simp [List.dropWhile_append_of_pos h, hpoint]

theorem takeWhile_of_real {whole fraction : List Char} (h : whole ++ '.' :: fraction <+: cs)
    (hwhole : ∀ x ∈ whole, x.isDigit) :
    cs.takeWhile Char.isDigit = whole ∧
      ∃ rest, cs.dropWhile Char.isDigit = '.' :: rest ∧ fraction <+: rest := by
  obtain ⟨rest, rfl⟩ := h
  rw [List.append_assoc, List.cons_append]
  exact ⟨takeWhile_digits hwhole _, _, dropWhile_digits hwhole _, List.prefix_append _ _⟩

theorem integer_munches (hc : c.isDigit)
    (hreal : ∀ rest, cs.dropWhile Char.isDigit = '.' :: rest →
      rest.takeWhile Char.isDigit = []) :
    Munches (c :: cs.takeWhile Char.isDigit) (integer (c :: cs.takeWhile Char.isDigit))
      (c :: cs) := by
  have hstart := start_of_isDigit hc
  refine (matches_integer hc mem_takeWhile).munches (List.takeWhile_prefix _)
    (fun v _ hv htail => ?_) fun t ht => absurd ht (not_reserved (by simp [hstart]))
  rw [Tail, hstart] at htail
  rcases htail with ⟨hdigits, -⟩ | ⟨whole, fraction, rfl, hwhole, hfraction, hne, -⟩
  · exact length_le_takeWhile hv hdigits
  · obtain ⟨-, rest, hrest, hprefix⟩ := takeWhile_of_real hv hwhole
    have hlength := length_le_takeWhile hprefix hfraction
    rw [hreal rest hrest] at hlength
    exact absurd (List.length_eq_zero_iff.1 (Nat.le_zero.1 hlength)) hne

theorem real_munches (hc : c.isDigit) {rest : List Char}
    (hrest : cs.dropWhile Char.isDigit = '.' :: rest) (hne : rest.takeWhile Char.isDigit ≠ []) :
    Munches (c :: (cs.takeWhile Char.isDigit ++ '.' :: rest.takeWhile Char.isDigit))
      (real (c :: cs.takeWhile Char.isDigit) (rest.takeWhile Char.isDigit)) (c :: cs) := by
  have hstart := start_of_isDigit hc
  have hcs : cs = cs.takeWhile Char.isDigit ++ '.' :: rest := by
    rw [← hrest, List.takeWhile_append_dropWhile]
  refine (Matches.real hc mem_takeWhile mem_takeWhile hne).munches ?_ (fun v _ hv htail => ?_)
    fun t ht => absurd ht (not_reserved (by simp [hstart]))
  · refine ⟨rest.dropWhile Char.isDigit, ?_⟩
    rw [List.append_assoc, List.cons_append, List.takeWhile_append_dropWhile]
    exact hcs.symm
  · rw [Tail, hstart] at htail
    rcases htail with ⟨hdigits, -⟩ | ⟨whole, fraction, rfl, hwhole, hfraction, -⟩
    · have hlength := length_le_takeWhile hv hdigits
      rw [List.length_append]
      omega
    · obtain ⟨hwhole', rest', hrest', hprefix⟩ := takeWhile_of_real hv hwhole
      obtain rfl : rest' = rest := by simpa [hrest] using hrest'.symm
      have hlength := length_le_takeWhile hprefix hfraction
      simp only [hwhole', List.length_append, List.length_cons]
      omega

theorem number_longest (h : c.isDigit) (cs : List Char) : Longest c cs (number c cs) := by
  unfold number
  dsimp only
  split
  next rest hrest =>
    split
    next hempty =>
      refine .munches (integer_munches h fun rest' hrest' => ?_)
      obtain rfl : rest' = rest := by simpa [hrest] using hrest'.symm
      simpa using hempty
    next hne =>
      have hmunches := real_munches h hrest (by simpa using hne)
      have hlength : (cs.takeWhile Char.isDigit ++ '.' :: rest.takeWhile Char.isDigit).length =
          (cs.takeWhile Char.isDigit).length + 1 + (rest.takeWhile Char.isDigit).length := by
        simp [Nat.add_assoc, Nat.add_comm 1]
      rw [← hlength]
      exact .munches hmunches
  next hnone => exact .munches (integer_munches h fun rest hrest => absurd hrest (hnone rest))

-- ---------------------------------------------------------------------------
-- Strings
-- ---------------------------------------------------------------------------

theorem quote_not_inside : '"' ∉ cs.takeWhile (· != '"') :=
  fun hmem => by simpa using mem_takeWhile _ hmem

theorem string_munches (h : (cs.takeWhile (· != '"')).length < cs.length) :
    Munches ('"' :: (cs.takeWhile (· != '"') ++ ['"']))
      (.token (.str (String.ofList (cs.takeWhile (· != '"'))))) ('"' :: cs) := by
  refine (Matches.string quote_not_inside).munches ?_ (fun v _ hv htail => ?_)
    fun t ht => absurd ht (not_reserved nofun)
  · have hsplit := List.takeWhile_append_dropWhile (p := (· != '"')) (l := cs)
    have hhead := List.head?_dropWhile_not (· != '"') cs
    cases hdrop : cs.dropWhile (· != '"') with
    | nil =>
      rw [hdrop, List.append_nil] at hsplit
      rw [hsplit] at h
      exact absurd h (Nat.lt_irrefl _)
    | cons d ds =>
      obtain rfl : d = '"' := by simpa [hdrop] using hhead
      exact ⟨ds, by rw [List.append_assoc, List.singleton_append, ← hdrop, hsplit]⟩
  · obtain ⟨inside, rfl, hquote, -⟩ := htail
    rw [List.length_append, List.length_append]
    refine Nat.succ_le_succ (length_le_takeWhile ((List.prefix_append _ _).trans hv) ?_)
    intro x hx
    simpa using fun heq : x = '"' => hquote (heq ▸ hx)

theorem quoted_longest (cs : List Char) : Longest '"' cs (quoted cs) := by
  unfold quoted
  dsimp only
  split
  next hlt =>
    have hlength : (cs.takeWhile (· != '"')).length + 1 =
        (cs.takeWhile (· != '"') ++ ['"']).length := by simp
    rw [hlength]
    exact .munches (string_munches hlt)
  next hge =>
    have hquote : '"' ∉ cs := by
      have hall := (List.takeWhile_prefix (· != '"')).eq_of_length_le (Nat.le_of_not_lt hge)
      rw [← hall]
      exact quote_not_inside
    refine .unclosed rfl hquote (unmatched_of_tail fun v _ hv htail => ?_)
    obtain ⟨inside, rfl, -⟩ := htail
    exact hquote (hv.subset (by simp))

-- ---------------------------------------------------------------------------
-- Comments
-- ---------------------------------------------------------------------------

theorem throughClose_eq_some (h : throughClose cs = some n) :
    ∃ body, body ++ ['*', '/'] <+: cs ∧ ¬['*', '/'] <:+: body ∧ n = body.length + 2 := by
  fun_induction throughClose cs generalizing n with
  | case1 => cases h
  | case2 rest =>
    cases h
    exact ⟨[], by simp, by simp, rfl⟩
  | case3 c cs hclose ih =>
    obtain ⟨m, hm, rfl⟩ := Option.map_eq_some_iff.1 h
    obtain ⟨body, hbody, hinside, rfl⟩ := ih hm
    refine ⟨c :: body, List.cons_prefix_cons.2 ⟨rfl, hbody⟩, fun hinfix => ?_, rfl⟩
    rcases List.infix_cons_iff.1 hinfix with hfront | hlater
    · obtain ⟨rfl, hslash⟩ := List.cons_prefix_cons.1 hfront
      obtain ⟨rest, hrest⟩ := hslash.trans ((List.prefix_append _ _).trans hbody)
      exact hclose rest rfl hrest.symm
    · exact hinside hlater

theorem throughClose_of_body {body : List Char} (h : ¬['*', '/'] <:+: body) (rest : List Char) :
    throughClose (body ++ '*' :: '/' :: rest) = some (body.length + 2) := by
  induction body with
  | nil => rfl
  | cons c body ih =>
    rw [List.cons_append, throughClose, ih fun hinfix => h (List.infix_cons_iff.2 (.inr hinfix))]
    · rfl
    · rintro tail rfl htail
      cases body with
      | nil => cases htail
      | cons d body =>
        cases htail
        exact h (List.infix_cons_iff.2 (.inl ⟨body, rfl⟩))

theorem lineComment_munches (cs : List Char) :
    Munches ('/' :: '/' :: cs.takeWhile fun c => c != '\n' && c != '\r')
      (.skipped .lineComment) ('/' :: '/' :: cs) := by
  have hline : ∀ x ∈ cs.takeWhile fun c => c != '\n' && c != '\r', x ≠ '\n' ∧ x ≠ '\r' :=
    fun x hx => by simpa using mem_takeWhile x hx
  refine (Matches.lineComment hline).munches
    (List.cons_prefix_cons.2 ⟨rfl, List.takeWhile_prefix _⟩) (fun v _ hv htail => ?_)
    fun t ht => absurd ht (not_reserved nofun)
  rcases htail with ⟨rfl, -⟩ | ⟨v, rfl, hline', -⟩ | ⟨v, rfl, -⟩
  · exact Nat.zero_le _
  · refine Nat.succ_le_succ (length_le_takeWhile (List.cons_prefix_cons.1 hv).2 fun x hx => ?_)
    simpa using hline' x hx
  · cases (List.cons_prefix_cons.1 hv).1

theorem blockComment_munches {body : List Char} (h : body ++ ['*', '/'] <+: cs)
    (hbody : ¬['*', '/'] <:+: body) :
    Munches ('/' :: '*' :: (body ++ ['*', '/'])) (.skipped .blockComment) ('/' :: '*' :: cs) := by
  have hmatches := Matches.blockComment (mem_blockComment.2 ⟨body, hbody, rfl⟩)
  refine hmatches.munches (List.cons_prefix_cons.2 ⟨rfl, h⟩)
    (fun v _ hv htail => ?_) fun t ht => absurd ht (not_reserved nofun)
  rcases htail with ⟨rfl, -⟩ | ⟨v, rfl, -⟩ | ⟨v, rfl, hbody', -⟩
  · exact Nat.zero_le _
  · cases (List.cons_prefix_cons.1 hv).1
  · -- Both bodies end at the first `*/` of the same text.
    obtain ⟨rest, rfl⟩ := h
    obtain ⟨rest', hrest'⟩ := (List.cons_prefix_cons.1 hv).2
    have hclose := throughClose_of_body hbody rest
    have hclose' := throughClose_of_body hbody' rest'
    simp only [List.append_assoc, List.cons_append, List.nil_append] at hrest'
    rw [hrest', hclose] at hclose'
    simp only [Option.some.injEq] at hclose'
    simp only [List.length_cons, List.length_append]
    omega

-- ---------------------------------------------------------------------------
-- Symbols
-- ---------------------------------------------------------------------------

theorem spelling_front {s : Symbol} (h : s.spelling.toList <+: c :: cs) :
    ∃ w, s.spelling.toList = c :: w ∧ w <+: cs := by
  cases hs : s.spelling.toList with
  | nil => exact absurd hs (Matches.symbol s).ne_nil
  | cons d w =>
    rw [hs] at h
    obtain ⟨rfl, hw⟩ := List.cons_prefix_cons.1 h
    exact ⟨w, rfl, hw⟩

theorem length_le_of_find {q : Symbol → Bool} {s s' : Symbol} (h : Symbol.all.find? q = some s)
    (hs' : q s') : s'.spelling.toList.length ≤ s.spelling.toList.length := by
  have hsorted : Symbol.all.Pairwise
      fun s s' => s'.spelling.toList.length ≤ s.spelling.toList.length := by decide
  have hmem : s' ∈ Symbol.all := by cases s' <;> decide
  obtain ⟨-, before, after, hall, hbefore⟩ := List.find?_eq_some_iff_append.1 h
  rw [hall, List.pairwise_append, List.pairwise_cons] at hsorted
  rw [hall, List.mem_append, List.mem_cons] at hmem
  rcases hmem with hmem | rfl | hmem
  · have hno := hbefore s' hmem
    rw [hs'] at hno
    cases hno
  · exact Nat.le_refl _
  · exact hsorted.2.1.1 s' hmem

theorem symbol_longest (hletter : start c ≠ .letter) (hquote : start c ≠ .quote)
    (htails : ∀ v p, v <+: cs → Tail c v p → ∃ s : Symbol, s.spelling.toList = c :: v) :
    Longest c cs (symbol c cs) := by
  unfold symbol
  split
  next s hs =>
    have hfront := List.find?_some hs
    rw [List.isPrefixOf_iff_prefix] at hfront
    obtain ⟨w, hw, hcs⟩ := spelling_front hfront
    have hmatches := Matches.symbol s
    rw [hw] at hmatches
    rw [← String.length_toList, hw]
    refine .munches (hmatches.munches hcs (fun v _ hv htail => ?_)
      fun t ht => absurd ht (not_reserved hletter))
    obtain ⟨s', hs'⟩ := htails v _ hv htail
    have hfound : s'.spelling.toList.isPrefixOf (c :: cs) := by
      rw [hs', List.isPrefixOf_iff_prefix]
      exact List.cons_prefix_cons.2 ⟨rfl, hv⟩
    have hlength := length_le_of_find hs hfound
    rw [hs', hw] at hlength
    exact Nat.le_of_succ_le_succ hlength
  next hnone =>
    refine .unmatched (fun hc => hquote (by rw [hc]; rfl))
      (unmatched_of_tail fun v _ hv htail => ?_)
    obtain ⟨s, hs⟩ := htails v _ hv htail
    have hmem : s ∈ Symbol.all := by cases s <;> decide
    have hno := List.find?_eq_none.1 hnone s hmem
    rw [hs, List.isPrefixOf_iff_prefix, List.cons_prefix_cons] at hno
    exact hno ⟨rfl, hv⟩

theorem slash_longest (cs : List Char) :
    Longest '/' cs ((comment? cs).getD (symbol '/' cs)) := by
  -- Where no comment begins, a piece does not go on behind the slash.
  have hsymbol (hno : ∀ v p, v <+: cs → Tail '/' v p → v = []) : Longest '/' cs (symbol '/' cs) :=
    symbol_longest nofun nofun fun v p hv htail => ⟨.slash, by rw [hno v p hv htail]; rfl⟩
  unfold comment?
  split
  next cs =>
    rw [Option.getD_some, Nat.add_comm]
    exact .munches (lineComment_munches cs)
  next cs =>
    cases hclose : throughClose cs with
    | none =>
      refine hsymbol fun v _ hv htail => ?_
      rcases htail with ⟨rfl, -⟩ | ⟨v, rfl, -⟩ | ⟨v, rfl, hbody, -⟩
      · rfl
      · cases (List.cons_prefix_cons.1 hv).1
      · obtain ⟨rest, rfl⟩ := (List.cons_prefix_cons.1 hv).2
        have hsome := throughClose_of_body hbody rest
        simp only [List.append_assoc, List.cons_append, List.nil_append, hsome] at hclose
        cases hclose
    | some n =>
      obtain ⟨body, hbody, hinside, rfl⟩ := throughClose_eq_some hclose
      have hlength : 1 + (body.length + 2) = ('*' :: (body ++ ['*', '/'])).length := by
        simp [Nat.add_comm 1]
      rw [Option.map_some, Option.getD_some, hlength]
      exact .munches (blockComment_munches hbody hinside)
  next hslash hstar =>
    refine hsymbol fun v _ hv htail => ?_
    rcases htail with ⟨rfl, -⟩ | ⟨v, rfl, -⟩ | ⟨v, rfl, -⟩
    · rfl
    · obtain ⟨rest, rfl⟩ := hv
      exact absurd rfl (hslash _)
    · obtain ⟨rest, rfl⟩ := hv
      exact absurd rfl (hstar _)

theorem front_longest (c : Char) (cs : List Char) : Longest c cs (front c cs) := by
  unfold front
  split
  next hc =>
    obtain rfl := eq_of_beq hc
    exact .munches (lineFeed_munches cs)
  next hline =>
  split
  next hc => exact .munches (blanks_munches hc cs)
  next hblank =>
  split
  next hc => exact number_longest hc cs
  next hdigit =>
  split
  next hc => exact .munches (word_munches hc cs)
  next hletter =>
  split
  next hc =>
    obtain rfl := eq_of_beq hc
    exact quoted_longest cs
  next hquote =>
  split
  next hc =>
    obtain rfl := eq_of_beq hc
    exact slash_longest cs
  next hslash =>
    have hstart : start c = .other := by simp_all [start]
    refine symbol_longest (by simp [hstart]) (by simp [hstart]) fun v _ _ htail => ?_
    rw [Tail, hstart] at htail
    obtain ⟨s, hs, -⟩ := htail
    exact ⟨s, hs⟩

-- ---------------------------------------------------------------------------
-- The piece and the rest
-- ---------------------------------------------------------------------------

theorem take_length_of_cons (h : c :: w <+: c :: cs) : cs.take w.length = w :=
  (List.prefix_iff_eq_take.1 (List.cons_prefix_cons.1 h).2).symm

theorem cons_take_append_drop (c : Char) (cs : List Char) (n : Nat) :
    (c :: cs.take n) ++ cs.drop n = c :: cs := by
  rw [List.cons_append, List.take_append_drop]

theorem front_munches (hpiece : (front c cs).piece = p) (hp : p ≠ .invalid) :
    Munches (c :: cs.take (front c cs).more) p
      (c :: cs.take (front c cs).more ++ cs.drop (front c cs).more) := by
  rw [cons_take_append_drop]
  have hlongest := front_longest c cs
  generalize front c cs = l at hpiece hlongest
  subst hpiece
  cases hlongest with
  | munches h =>
    rw [take_length_of_cons h.front]
    exact h
  | unclosed => exact absurd rfl hp
  | unmatched => exact absurd rfl hp

-- ---------------------------------------------------------------------------
-- Only one piece
-- ---------------------------------------------------------------------------

theorem Munches.eq_ofWord (h : Munches w p text)
    (hp : p = .token (.ofWord (String.ofList w)) ∨ p = .token (.name (String.ofList w))) :
    p = .token (.ofWord (String.ofList w)) := by
  rcases hp with hp | rfl
  · exact hp
  · rcases ofWord_cases (String.ofList w) with hmem | hname
    · exact absurd hmem h.name_not_reserved
    · rw [hname]

theorem spelling_injective {s s' : Symbol} (h : s.spelling.toList = s'.spelling.toList) :
    s = s' := by
  have hall : ∀ s ∈ Symbol.all, ∀ s' ∈ Symbol.all, s.spelling = s'.spelling → s = s' := by decide
  exact hall s (by cases s <;> decide) s' (by cases s' <;> decide) (String.toList_inj.1 h)

/-- At the front of a text there is only one piece, with one meaning. -/
theorem Munches.unique (h : Munches w p text) (k : Munches v q text) : w = v ∧ p = q := by
  have hlength : w.length = v.length :=
    Nat.le_antisymm (k.longest w p h.front h.matched) (h.longest v q k.front k.matched)
  obtain rfl : w = v :=
    (List.prefix_of_prefix_length_le h.front k.front (Nat.le_of_eq hlength)).eq_of_length hlength
  refine ⟨rfl, ?_⟩
  cases w with
  | nil => exact absurd rfl h.matched.ne_nil
  | cons c cs =>
    have hp := h.matched.tail
    have hq := k.matched.tail
    unfold Tail at hp hq
    cases hstart : start c <;> simp only [hstart] at hp hq
    case lineFeed => rw [hp.2, hq.2]
    case blank => rw [hp.2, hq.2]
    case digit =>
      have hpoint : Char.isDigit '.' = false := rfl
      rcases hp with ⟨hdigits, rfl⟩ | ⟨whole, fraction, rfl, hwhole, -, -, rfl⟩ <;>
        rcases hq with ⟨hdigits', rfl⟩ | ⟨whole', fraction', heq, hwhole', -, -, rfl⟩
      · rfl
      · simpa [hpoint] using hdigits '.' (by simp [heq])
      · simpa [hpoint] using hdigits' '.' (by simp)
      · have htake := takeWhile_digits hwhole' fraction'
        rw [← heq, takeWhile_digits hwhole] at htake
        subst htake
        rw [List.append_cancel_left_eq, List.cons_inj_right] at heq
        rw [heq]
    case letter => rw [h.eq_ofWord hp.2, k.eq_ofWord hq.2]
    case quote =>
      obtain ⟨inside, rfl, -, rfl⟩ := hp
      obtain ⟨inside', heq, -, rfl⟩ := hq
      rw [List.append_cancel_right heq]
    case slash =>
      rcases hp with ⟨rfl, rfl⟩ | ⟨rest, rfl, -, rfl⟩ | ⟨rest, rfl, -, rfl⟩ <;>
        rcases hq with ⟨heq, rfl⟩ | ⟨rest', heq, -, rfl⟩ | ⟨rest', heq, -, rfl⟩ <;>
        first | rfl | cases heq
    case other =>
      obtain ⟨s, hs, rfl⟩ := hp
      obtain ⟨s', hs', rfl⟩ := hq
      rw [spelling_injective (hs.trans hs'.symm)]

theorem Munches.not_unmatched (h : Munches w p text) : ¬Unmatched text :=
  fun hno => hno w p h.front h.matched

theorem front_eq_of_munches (h : Munches (c :: w) p (c :: cs)) : front c cs = ⟨p, w.length⟩ := by
  have hlongest := front_longest c cs
  generalize front c cs = l at hlongest
  cases hlongest with
  | munches hl =>
    obtain ⟨hw, rfl⟩ := hl.unique h
    cases hw
    rfl
  | unclosed _ _ hno => exact absurd hno h.not_unmatched
  | unmatched _ hno => exact absurd hno h.not_unmatched

end MiniC.Lexeme
