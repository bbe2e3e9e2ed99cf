import Mathlib.Computability.Language

/-!
# Comments that are closed

What may stand between `/*` and `*/` is said by a regular expression, with runs of stars that no
slash follows. Its comments are those that end with the first `*/` behind their first two characters
(`mem_blockComment`).
-/

namespace MiniC.Lexeme

open scoped Computability

-- ---------------------------------------------------------------------------
-- The expression
-- ---------------------------------------------------------------------------

def one (q : Char → Prop) : Language Char :=
  {w | ∃ c, q c ∧ w = [c]}

/-- The expression `\*+`. -/
def stars : Language Char :=
  one (· = '*') * (one (· = '*'))∗

/-- The expression `[^*]|\*+[^*/]`. -/
def commentPart : Language Char :=
  one (· ≠ '*') + stars * one fun c => c ≠ '*' ∧ c ≠ '/'

/-- The expression `/\*([^*]|\*+[^*/])*\*+/`. -/
def blockComment : Language Char :=
  one (· = '/') * one (· = '*') * commentPart∗ * stars * one (· = '/')

variable {w text body : List Char}

theorem mem_one {c : Char} : w ∈ one (· = c) ↔ w = [c] := by
  constructor
  · rintro ⟨_, rfl, rfl⟩
    rfl
  · rintro rfl
    exact ⟨c, rfl, rfl⟩

theorem mem_stars : w ∈ stars ↔ ∃ n, w = List.replicate (n + 1) '*' := by
  constructor
  · rintro ⟨_, ⟨c, rfl, rfl⟩, more, hmore, rfl⟩
    obtain ⟨parts, rfl, hparts⟩ := Language.mem_kstar.1 hmore
    refine ⟨parts.length, congrArg ('*' :: ·) ?_⟩
    clear hmore
    induction parts with
    | nil => rfl
    | cons part parts ih =>
      obtain ⟨hpart, hrest⟩ := List.forall_mem_cons.1 hparts
      obtain rfl := mem_one.1 hpart
      exact congrArg ('*' :: ·) (ih hrest)
  · rintro ⟨n, rfl⟩
    have hstar : ['*'] ∈ one (· = '*') := mem_one.2 rfl
    refine ⟨['*'], hstar, (List.replicate n ['*']).flatten, ?_, ?_⟩
    · exact Language.join_mem_kstar fun part hpart => (List.eq_of_mem_replicate hpart).symm ▸ hstar
    · simp [List.replicate_succ]

theorem mem_commentPart : w ∈ commentPart ↔ (∃ c, c ≠ '*' ∧ w = [c]) ∨
    ∃ n c, c ≠ '*' ∧ c ≠ '/' ∧ w = List.replicate (n + 1) '*' ++ [c] := by
  refine or_congr Iff.rfl ⟨?_, ?_⟩
  · rintro ⟨run, hrun, _, ⟨c, hc, rfl⟩, rfl⟩
    obtain ⟨n, rfl⟩ := mem_stars.1 hrun
    exact ⟨n, c, hc.1, hc.2, rfl⟩
  · rintro ⟨n, c, hstar, hslash, rfl⟩
    exact ⟨_, mem_stars.2 ⟨n, rfl⟩, [c], ⟨c, ⟨hstar, hslash⟩, rfl⟩, rfl⟩

-- ---------------------------------------------------------------------------
-- The first close
-- ---------------------------------------------------------------------------

theorem not_close_stars (n : Nat) : ¬['*', '/'] <:+: List.replicate n '*' := by
  intro hclose
  have hslash : '/' ∈ List.replicate n '*' := hclose.subset (by simp)
  exact absurd (List.eq_of_mem_replicate hslash) (by decide)

theorem not_close_cons {c : Char} (hc : c = '*' → text.head? ≠ some '/')
    (h : ¬['*', '/'] <:+: text) : ¬['*', '/'] <:+: c :: text := by
  intro hclose
  rcases List.infix_cons_iff.1 hclose with hfront | hlater
  · obtain ⟨rfl, rest, rfl⟩ := List.cons_prefix_cons.1 hfront
    exact hc rfl rfl
  · exact h hlater

theorem not_close_part (hw : w ∈ commentPart) (h : ¬['*', '/'] <:+: text) :
    ¬['*', '/'] <:+: w ++ text := by
  rcases mem_commentPart.1 hw with ⟨c, hc, rfl⟩ | ⟨n, c, hc, hslash, rfl⟩
  · exact not_close_cons (fun hstar => absurd hstar hc) h
  · have hlast : ¬['*', '/'] <:+: c :: text := not_close_cons (fun hstar => absurd hstar hc) h
    rw [List.append_assoc, List.singleton_append]
    clear hw
    induction n with
    | zero => exact not_close_cons (fun _ => by simpa using hslash) hlast
    | succ n ih =>
      rw [List.replicate_succ, List.cons_append]
      exact not_close_cons (fun _ => by simp [List.replicate_succ]) ih

/-- A text without a close is parts of a comment and stars at its end. -/
theorem exists_parts (h : ¬['*', '/'] <:+: body) :
    ∃ (parts : List (List Char)) (n : Nat), (∀ part ∈ parts, part ∈ commentPart) ∧
      body = parts.flatten ++ List.replicate n '*' := by
  induction body with
  | nil => exact ⟨[], 0, nofun, rfl⟩
  | cons c body ih =>
    obtain ⟨parts, n, hparts, rfl⟩ := ih fun hlater => h (List.infix_cons_iff.2 (.inr hlater))
    by_cases hc : c = '*'
    · subst hc
      cases parts with
      | nil => exact ⟨[], n + 1, nofun, rfl⟩
      | cons part parts =>
        -- The star joins the part behind it.
        obtain ⟨hpart, hparts⟩ := List.forall_mem_cons.1 hparts
        refine ⟨('*' :: part) :: parts, n, List.forall_mem_cons.2 ⟨?_, hparts⟩, rfl⟩
        rcases mem_commentPart.1 hpart with ⟨d, hd, rfl⟩ | ⟨k, d, hd, hslash, rfl⟩
        · refine mem_commentPart.2 (.inr ⟨0, d, hd, ?_, rfl⟩)
          rintro rfl
          exact h (List.infix_cons_iff.2 (.inl ⟨_, rfl⟩))
        · exact mem_commentPart.2 (.inr ⟨k + 1, d, hd, hslash, rfl⟩)
    · exact ⟨[c] :: parts, n,
        List.forall_mem_cons.2 ⟨mem_commentPart.2 (.inl ⟨c, hc, rfl⟩), hparts⟩, rfl⟩

theorem mem_blockComment_parts : w ∈ blockComment ↔
    ∃ (parts : List (List Char)) (n : Nat), (∀ part ∈ parts, part ∈ commentPart) ∧
      w = '/' :: '*' :: (parts.flatten ++ List.replicate n '*' ++ ['*', '/']) := by
  simp only [blockComment, Language.mem_mul, mem_one, exists_eq_left, exists_eq_left']
  constructor
  · rintro ⟨_, ⟨_, ⟨inside, hinside, rfl⟩, run, hrun, rfl⟩, rfl⟩
    obtain ⟨parts, rfl, hparts⟩ := Language.mem_kstar.1 hinside
    obtain ⟨n, rfl⟩ := mem_stars.1 hrun
    exact ⟨parts, n, hparts, by simp [List.replicate_succ']⟩
  · rintro ⟨parts, n, hparts, rfl⟩
    exact ⟨_, ⟨_, ⟨_, Language.join_mem_kstar hparts, rfl⟩, _, mem_stars.2 ⟨n, rfl⟩, rfl⟩,
      by simp [List.replicate_succ']⟩

/-- A comment ends with the first `*/` behind its first two characters. -/
theorem mem_blockComment : w ∈ blockComment ↔
    ∃ body, ¬['*', '/'] <:+: body ∧ w = '/' :: '*' :: (body ++ ['*', '/']) := by
  rw [mem_blockComment_parts]
  constructor
  · rintro ⟨parts, n, hparts, rfl⟩
    refine ⟨_, ?_, rfl⟩
    induction parts with
    | nil => exact not_close_stars n
    | cons part parts ih =>
      obtain ⟨hpart, hparts⟩ := List.forall_mem_cons.1 hparts
      rw [List.flatten_cons, List.append_assoc]
      exact not_close_part hpart (ih hparts)
  · rintro ⟨body, hbody, rfl⟩
    obtain ⟨parts, n, hparts, rfl⟩ := exists_parts hbody
    exact ⟨parts, n, hparts, rfl⟩

end MiniC.Lexeme
