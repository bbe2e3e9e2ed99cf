import MiniC.Proofs.Lexeme.Munch
import MiniC.Proofs.Tokens.Behind
import MiniC.Tokens

/-!
# Lines are counted where they end

Reading a source counts lines at some of the pieces and columns from the byte where a line begins.
Before each piece the count is that of the text so far (`Line.behind`), because a piece that is not
counted holds no line feed. So a source is read as if its place were moved over one character after
the other (`Tokens.ofSource_eq_read`).
-/

namespace MiniC

open Lexeme

variable {before piece w : List Char}

-- ---------------------------------------------------------------------------
-- Bytes
-- ---------------------------------------------------------------------------

@[simp] theorem bytes_cons (c : Char) (text : List Char) :
    bytes (c :: text) = c.utf8Size + bytes text := rfl

@[simp] theorem bytes_append (xs ys : List Char) : bytes (xs ++ ys) = bytes xs + bytes ys := by
  induction xs with
  | nil => simp [bytes]
  | cons c xs ih => simp [ih, Nat.add_assoc]

theorem bytes_eq (text : List Char) : bytes text = (String.ofList text).utf8ByteSize := by
  induction text with
  | nil => rfl
  | cons c text ih => simp [ih, String.ofList_cons]

theorem dropBytes?_append (xs ys : List Char) : dropBytes? (bytes xs) (xs ++ ys) = some ys := by
  induction xs with
  | nil => simp [bytes, dropBytes?]
  | cons c xs ih =>
    obtain ⟨k, hk⟩ := Nat.exists_eq_succ_of_ne_zero c.utf8Size_pos.ne'
    simpa [hk, Nat.succ_add, dropBytes?] using ih

theorem takeBytes?_append (xs ys : List Char) : takeBytes? (bytes xs) (xs ++ ys) = some xs := by
  induction xs with
  | nil => simp [bytes, takeBytes?]
  | cons c xs ih =>
    obtain ⟨k, hk⟩ := Nat.exists_eq_succ_of_ne_zero c.utf8Size_pos.ne'
    simpa [hk, Nat.succ_add, takeBytes?] using ih

theorem slice?_append (xs ys zs : List Char) :
    slice? (xs ++ ys ++ zs) (bytes xs) (bytes (xs ++ ys)) = some ys := by
  simp [slice?, dropBytes?_append, takeBytes?_append]

theorem lastLineFeed?_eq_none : lastLineFeed? piece = none ↔ '\n' ∉ piece := by
  induction piece with
  | nil => simp [lastLineFeed?]
  | cons c piece ih =>
    rw [lastLineFeed?]
    cases hlast : lastLineFeed? piece with
    | none => simp [ih.1 hlast, eq_comm]
    | some n =>
      have hmem : '\n' ∈ piece := by simpa [hlast] using ih
      simp [hmem]

theorem lastLineFeed?_append {rest : List Char} (h : '\n' ∉ rest) (inside : List Char) :
    lastLineFeed? (inside ++ '\n' :: rest) = some (bytes inside) := by
  induction inside with
  | nil => simp [lastLineFeed?, lastLineFeed?_eq_none.2 h, bytes]
  | cons c inside ih => simp [lastLineFeed?, ih]

-- ---------------------------------------------------------------------------
-- Lines by counting
-- ---------------------------------------------------------------------------

def Line.behind (before : List Char) : Line where
  number := 1 + before.count '\n'
  start := bytes (before.rdropWhile (· ≠ '\n'))

theorem Position.within_behind (before text : List Char) :
    within (.behind before) (before ++ text) (bytes before) = behind before := by
  have hsplit : before.rdropWhile (· ≠ '\n') ++ before.rtakeWhile (· ≠ '\n') = before :=
    List.rdropWhile_append_rtakeWhile
  have hslice := slice?_append (before.rdropWhile (· ≠ '\n')) (before.rtakeWhile (· ≠ '\n')) text
  rw [hsplit] at hslice
  rw [within, Line.behind, hslice, Option.elim, behind, ← bytes_eq, Nat.add_comm 1 (List.length _)]

namespace Line

theorem behind_append (h : '\n' ∉ piece) : behind (before ++ piece) = behind before := by
  have hpiece : ∀ x ∈ piece.reverse, decide (x ≠ '\n') = true := by
    intro x hx
    simpa using fun heq : x = '\n' => h (heq ▸ List.mem_reverse.1 hx)
  rw [behind, behind, List.rdropWhile, List.reverse_append, List.dropWhile_append_of_pos hpiece,
    List.count_append, List.count_eq_zero.2 h, Nat.add_zero, List.rdropWhile]

theorem behind_lineFeed (before : List Char) :
    behind (before ++ ['\n']) = ⟨(behind before).number + 1, bytes (before ++ ['\n'])⟩ := by
  simp [behind, List.rdropWhile_concat_neg, Nat.add_assoc]

theorem track_behind (before piece : List Char) :
    (behind before).track (bytes before) piece = behind (before ++ piece) := by
  by_cases h : '\n' ∈ piece
  · obtain ⟨inside, rest, rfl, hrest⟩ : ∃ inside rest, piece = inside ++ '\n' :: rest ∧
        '\n' ∉ rest := by
      obtain ⟨rest, inside, hsplit, hrest⟩ := List.eq_append_cons_of_mem (List.mem_reverse.2 h)
      refine ⟨inside.reverse, rest.reverse, ?_, by simpa using hrest⟩
      rw [← List.reverse_reverse piece, hsplit]
      simp
    have hassoc : before ++ (inside ++ '\n' :: rest) = before ++ inside ++ ['\n'] ++ rest := by simp
    have hsize : bytes ['\n'] = 1 := rfl
    rw [track, lastLineFeed?_append hrest, hassoc, behind_append hrest, behind_lineFeed]
    simp [behind, hsize, List.count_eq_zero.2 hrest, Nat.add_assoc]
  · rw [track, lastLineFeed?_eq_none.2 h, behind_append h]

/-- A piece that is dropped has its line feeds counted. -/
theorem behindSkipped_eq {s : Skipped} (h : Matches w (.skipped s)) (before : List Char) :
    (behind before).behindSkipped (bytes before) w s = behind (before ++ w) := by
  have hfeed := h.of_mem_lineFeed
  cases h with
  | lineFeed => simp [behindSkipped, behind_lineFeed]
  | blanks => exact (behind_append fun hmem => by simpa using hfeed hmem).symm
  | lineComment => exact (behind_append fun hmem => by simpa using hfeed hmem).symm
  | blockComment => exact track_behind before w

theorem behindToken_eq {t : Token} (h : Matches w (.token t)) (before : List Char) :
    (behind before).behindToken (bytes before) w t = behind (before ++ w) := by
  by_cases hmem : '\n' ∈ w
  · rcases h.of_mem_lineFeed hmem with ⟨-, ht⟩ | ⟨inside, -, -, ht⟩ | ⟨body, -, -, ht⟩
    · cases ht
    · cases ht
      exact track_behind before w
    · cases ht
  · rw [behind_append hmem]
    cases t with
    | str s => rw [behindToken, track_behind, behind_append hmem]
    | _ => rfl

end Line

-- ---------------------------------------------------------------------------
-- Reading place by place
-- ---------------------------------------------------------------------------

namespace Tokens

/-- What `scan` comes to: the place of the first character of what is left is moved along. -/
def read : (text : List Char) → (p : Position) → Except Failure Tokens
  | [], p => .ok ⟨[], p⟩
  | c :: cs, p =>
    let lexeme := Lexeme.front c cs
    let piece := c :: cs.take lexeme.more
    match lexeme.piece with
    | .invalid => .error (.invalidToken (String.ofList piece) p)
    | .skipped _ => read (cs.drop lexeme.more) (p.advanceBy piece)
    | .token t => do
      let rest ← read (cs.drop lexeme.more) (p.advanceBy piece)
      return { rest with list := (t, p) :: rest.list }
termination_by text => text.length
decreasing_by all_goals (simp only [List.length_drop, List.length_cons]; omega)

theorem scan_eq_read (before text : List Char) :
    scan (before ++ text) text (bytes before) (.behind before) = read text (.behind before) := by
  generalize hp : Position.behind before = p
  fun_induction read text p generalizing before with
  | case1 p =>
    subst hp
    have hstop := Position.within_behind before []
    rw [List.append_nil] at hstop ⊢
    rw [scan, hstop]
  | case2 c cs p lexeme piece hpiece =>
    subst hp
    rw [scan]
    simp only [lexeme] at hpiece
    simp [hpiece, lexeme, piece, Position.within_behind]
  | case3 c cs p lexeme piece s hpiece ih =>
    subst hp
    have hmunches := front_munches hpiece (by simp)
    have hline := Line.behindSkipped_eq hmunches.matched before
    have hrest := ih (before ++ piece) (Position.advanceBy_behind before piece).symm
    rw [List.append_assoc, cons_take_append_drop, bytes_append, ← hline] at hrest
    rw [scan]
    simp only [lexeme] at hpiece
    simpa only [hpiece] using hrest
  | case4 c cs p lexeme piece t hpiece ih =>
    subst hp
    have hmunches := front_munches hpiece (by simp)
    have hline := Line.behindToken_eq hmunches.matched before
    have hrest := ih (before ++ piece) (Position.advanceBy_behind before piece).symm
    rw [List.append_assoc, cons_take_append_drop, bytes_append, ← hline] at hrest
    rw [scan]
    simp only [lexeme] at hpiece
    simp only [hpiece, Position.within_behind]
    exact congrArg (· >>= _) hrest

/-- A source is read as if its place were moved over one character after the other. -/
theorem ofSource_eq_read (source : String) : ofSource source = read source.toList .start :=
  scan_eq_read [] source.toList

end Tokens

end MiniC
