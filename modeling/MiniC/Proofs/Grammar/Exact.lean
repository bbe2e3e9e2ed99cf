import MiniC.Proofs.Grammar.Complete
import MiniC.Proofs.Grammar.Else

/-!
# Programs are what the grammar says

Tokens are read as a program exactly if their words can be derived from `program`, and the program
is then the tree of the one derivation in which every `else` belongs to the nearest `if`.
-/

namespace MiniC

namespace Grammar

theorem functions_rest (h : functions c = .accepted fs d) : d.rest = [] := by
  induction hlength : c.rest.length using Nat.strongRecOn generalizing c fs with
  | ind n ih =>
    subst hlength
    rw [functions_eq, Rule.ifAtEnd_apply] at h
    split at h
    next hend =>
      cases h
      simpa [Cursor.atEnd] using hend
    next =>
      obtain ⟨f, e, hf, hmore⟩ := Rule.bind_eq_accepted.1 h
      obtain ⟨fs, e', hfs, ⟨⟩⟩ := Rule.bind_eq_accepted.1 hmore
      obtain ⟨ts, hspans, hderives⟩ := function_follows.accepted hf
      have hlength := hspans.length_eq
      have hpos := List.length_pos_iff.2 (hderives.ne_nil id)
      exact ih _ (by omega) hfs rfl

theorem program_rest (h : program c = .accepted p d) : d.rest = [] := by
  obtain ⟨fs, e, hfs, ⟨⟩⟩ := Rule.bind_eq_accepted.1 h
  exact functions_rest hfs

end Grammar

open Grammar

theorem Rule.read_eq_ok {rule : Rule α} :
    rule.read tokens = .ok a ↔ ∃ d, rule (.ofTokens tokens) = .accepted a d := by
  unfold Rule.read
  split
  next b d h => simp [h]
  next f d h => simp [h]

theorem Program.derives_of_ofTokens (h : Program.ofTokens tokens = .ok p) :
    Derives .program (words tokens.list) p := by
  obtain ⟨d, hd⟩ := Rule.read_eq_ok.1 h
  obtain ⟨ts, hspans, hderives⟩ := program_follows.accepted hd
  have hwords : words tokens.list = ts := by
    simpa [Cursor.words, program_rest hd, Cursor.ofTokens] using hspans.words
  exact hwords ▸ hderives

theorem Program.ofTokens_of_derives (h : Derives .program (words tokens.list) p)
    (hp : p.ElseNearest) : Program.ofTokens tokens = .ok p := by
  obtain ⟨d, hd, -⟩ := h.reads hp (.ofTokens tokens) (List.append_nil _).symm
  exact Rule.read_eq_ok.2 ⟨d, hd⟩

/-- Of all derivations of the words, the one that is read has every `else` in its place. -/
theorem Program.ofTokens_eq_ok :
    Program.ofTokens tokens = .ok p ↔ Derives .program (words tokens.list) p ∧ p.ElseNearest := by
  refine ⟨fun h => ⟨derives_of_ofTokens h, ?_⟩, fun ⟨h, hp⟩ => ofTokens_of_derives h hp⟩
  obtain ⟨q, hq, hnearest⟩ := (derives_of_ofTokens h).settles
  obtain rfl : q = p := Except.ok.inj ((ofTokens_of_derives hq hnearest).symm.trans h)
  exact hnearest

theorem Program.exists_ofTokens (tokens : Tokens) :
    (∃ p, Program.ofTokens tokens = .ok p) ↔ ∃ p, Derives .program (words tokens.list) p := by
  refine ⟨fun ⟨p, h⟩ => ⟨p, derives_of_ofTokens h⟩, fun ⟨p, h⟩ => ?_⟩
  obtain ⟨q, hq, hnearest⟩ := h.settles
  exact ⟨q, ofTokens_of_derives hq hnearest⟩

/-- Tokens are read as a program exactly if their words can be derived from `program`, and then
the program is the tree of that derivation in which every `else` belongs to the nearest `if`. -/
theorem Program.ofTokens_exact (tokens : Tokens) :
    ((∃ p, Program.ofTokens tokens = .ok p) ↔ ∃ p, Derives .program (words tokens.list) p) ∧
      ∀ p, Program.ofTokens tokens = .ok p ↔
        Derives .program (words tokens.list) p ∧ p.ElseNearest :=
  ⟨exists_ofTokens tokens, fun _ => ofTokens_eq_ok⟩

end MiniC
