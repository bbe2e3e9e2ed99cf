import MiniC.Proofs.Rule.Place
import MiniC.Proofs.Tokens.Lines

/-!
# Where tokens begin

Every token of a source begins behind the one before it, and the source ends behind the last.
-/

namespace MiniC

theorem Position.offset_lt_advance (p : Position) (c : Char) : p.offset < (p.advance c).offset := by
  have hsize := c.utf8Size_pos
  unfold Position.advance
  split <;> simp only <;> omega

theorem Position.offset_le_advanceBy (p : Position) (text : List Char) :
    p.offset ≤ (p.advanceBy text).offset := by
  induction text generalizing p with
  | nil => exact Nat.le_refl _
  | cons c text ih => exact Nat.le_of_lt (Nat.lt_of_lt_of_le (p.offset_lt_advance c) (ih _))

theorem Position.offset_lt_advanceBy (p : Position) (c : Char) (text : List Char) :
    p.offset < (p.advanceBy (c :: text)).offset :=
  Nat.lt_of_lt_of_le (p.offset_lt_advance c) (offset_le_advanceBy _ text)

namespace Tokens

variable {tokens : Tokens} {p q : Position} {c : Cursor}

structure Ascend (tokens : Tokens) (p : Position) : Prop where
  from_le : ∀ t ∈ tokens.list, p.offset ≤ t.2.offset
  stop_le : p.offset ≤ tokens.stop.offset
  lt_stop : ∀ t ∈ tokens.list, t.2.offset < tokens.stop.offset
  pairwise : tokens.list.Pairwise (·.2.offset < ·.2.offset)

theorem Ascend.mono (h : tokens.Ascend q) (hp : p.offset ≤ q.offset) : tokens.Ascend p where
  from_le t ht := Nat.le_trans hp (h.from_le t ht)
  stop_le := Nat.le_trans hp h.stop_le
  lt_stop := h.lt_stop
  pairwise := h.pairwise

theorem Ascend.cons (h : tokens.Ascend q) (hp : p.offset < q.offset) (t : Token) :
    Ascend { tokens with list := (t, p) :: tokens.list } p where
  from_le := List.forall_mem_cons.2
    ⟨Nat.le_refl _, fun t ht => Nat.le_of_lt (Nat.lt_of_lt_of_le hp (h.from_le t ht))⟩
  stop_le := Nat.le_of_lt (Nat.lt_of_lt_of_le hp h.stop_le)
  lt_stop := List.forall_mem_cons.2 ⟨Nat.lt_of_lt_of_le hp h.stop_le, h.lt_stop⟩
  pairwise := List.pairwise_cons.2 ⟨fun t ht => Nat.lt_of_lt_of_le hp (h.from_le t ht), h.pairwise⟩

theorem read_ascend (h : read text p = .ok tokens) : tokens.Ascend p := by
  fun_induction read text p generalizing tokens with
  | case1 p =>
    cases h
    exact ⟨List.forall_mem_nil _, Nat.le_refl _, List.forall_mem_nil _, .nil⟩
  | case2 => cases h
  | case3 c cs p =>
    rename_i ih
    exact (ih h).mono (p.offset_le_advanceBy _)
  | case4 c cs p lexeme piece t =>
    rename_i ih
    cases hrest : read (cs.drop lexeme.more) (p.advanceBy piece) with
    | error f =>
      rw [hrest] at h
      cases h
    | ok rest =>
      rw [hrest] at h
      cases h
      exact (ih hrest).cons (p.offset_lt_advanceBy c _) t

theorem ofSource_ascend (h : ofSource source = .ok tokens) : tokens.Ascend .start := by
  rw [ofSource_eq_read] at h
  exact read_ascend h

/-- Where a token begins; behind the last one, the place after the source. -/
def place (tokens : Tokens) (k : Nat) : Position :=
  (tokens.list[k]?.map Prod.snd).getD tokens.stop

theorem position_eq_place (h : c.rest = tokens.list.drop k) (hstop : c.stop = tokens.stop) :
    c.position = tokens.place k := by
  unfold Cursor.position place
  rw [← List.head?_drop, ← h, hstop]
  cases c.rest <;> rfl

theorem Ascend.lt_of_mem_drop (h : tokens.Ascend p) (hk : k < tokens.list.length) :
    (∀ t ∈ tokens.list.drop (k + 1), (tokens.place k).offset < t.2.offset) ∧
      (tokens.place k).offset < tokens.stop.offset := by
  have hplace : tokens.place k = tokens.list[k].2 := by
    simp [place, hk]
  have hdrop := h.pairwise.sublist (List.drop_sublist k _)
  rw [List.drop_eq_getElem_cons hk] at hdrop
  rw [hplace]
  exact ⟨(List.pairwise_cons.1 hdrop).1, h.lt_stop _ (List.getElem_mem hk)⟩

theorem Ascend.place_lt (h : tokens.Ascend p) (hj : j < k) (hk : k ≤ tokens.list.length) :
    (tokens.place j).offset < (tokens.place k).offset := by
  obtain ⟨htokens, hstop⟩ := h.lt_of_mem_drop (Nat.lt_of_lt_of_le hj hk)
  rcases Nat.lt_or_eq_of_le hk with hlt | rfl
  · have hmem : tokens.list[k] ∈ tokens.list.drop (j + 1) := by
      rw [List.mem_drop_iff_getElem]
      exact ⟨k - (j + 1), by omega, by congr 1; omega⟩
    simpa [place, hlt] using htokens _ hmem
  · simpa [place] using hstop

theorem Ascend.place_inj (h : tokens.Ascend p) (hj : j ≤ tokens.list.length)
    (hk : k ≤ tokens.list.length) (heq : (tokens.place j).offset = (tokens.place k).offset) :
    j = k := by
  rcases Nat.lt_trichotomy j k with hlt | rfl | hlt
  · have hplace := h.place_lt hlt hk
    omega
  · rfl
  · have hplace := h.place_lt hlt hj
    omega

end Tokens

end MiniC
