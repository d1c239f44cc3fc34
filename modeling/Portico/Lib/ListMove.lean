import Mathlib

/-!
# Positions under deletion, insertion and move

Where the other members of a list without duplicates are after one is deleted, one is inserted, or
one is moved.

## Main results

* `idxOf_erase_of_ne`, `idxOf_insert_of_ne`: the other members' positions
* `idxOf_move`: every member's position after a move
* `movePosition_eq_self_iff`: the positions a move leaves alone
-/

namespace Portico

variable {α : Type*} [DecidableEq α] {xs before after : List α} {a e : α}

theorem erase_eq_append (h : (before ++ e :: after).Nodup) :
    (before ++ e :: after).erase e = before ++ after := by
  rw [List.nodup_append'] at h
  rw [List.erase_append_right _ fun hmem => h.2.2 hmem (List.mem_cons_self ..),
    List.erase_cons_head]

theorem idxOf_eq_of_getElem? (h : xs.Nodup) {i : ℕ} (hget : xs[i]? = some a) :
    xs.idxOf a = i := by
  obtain ⟨hi, rfl⟩ := List.getElem?_eq_some_iff.mp hget
  exact h.idxOf_getElem i hi

theorem getElem?_idxOf (ha : a ∈ xs) : xs[xs.idxOf a]? = some a := by
  rw [List.getElem?_eq_getElem (List.idxOf_lt_length_of_mem ha), List.getElem_idxOf]

theorem idxOf_erase_of_ne (h : xs.Nodup) (he : e ∈ xs) (hne : a ≠ e) :
    (xs.erase e).idxOf a = if xs.idxOf a < xs.idxOf e then xs.idxOf a else xs.idxOf a - 1 := by
  obtain ⟨before, after, rfl⟩ := List.append_of_mem he
  have hnot : e ∉ before := fun hmem =>
    (List.nodup_append'.mp h).2.2 hmem (List.mem_cons_self ..)
  have hidx : (before ++ e :: after).idxOf e = before.length := by
    rw [List.idxOf_append_of_notMem hnot, List.idxOf_cons_self, Nat.add_zero]
  rw [erase_eq_append h, hidx]
  by_cases hb : a ∈ before
  · rw [List.idxOf_append_of_mem hb, List.idxOf_append_of_mem hb,
      if_pos (List.idxOf_lt_length_of_mem hb)]
  · rw [List.idxOf_append_of_notMem hb, List.idxOf_append_of_notMem hb,
      List.idxOf_cons_ne _ hne.symm, if_neg (by omega)]
    omega

/-- An insertion moves the members from its place on one position back. -/
theorem idxOf_insert_of_ne (hne : a ≠ e) :
    (before ++ e :: after).idxOf a =
      if (before ++ after).idxOf a < before.length then (before ++ after).idxOf a
      else (before ++ after).idxOf a + 1 := by
  by_cases hb : a ∈ before
  · rw [List.idxOf_append_of_mem hb, List.idxOf_append_of_mem hb,
      if_pos (List.idxOf_lt_length_of_mem hb)]
  · rw [List.idxOf_append_of_notMem hb, List.idxOf_append_of_notMem hb,
      List.idxOf_cons_ne _ hne.symm, if_neg (by omega)]
    omega

/-- Where the member at position `p` goes when the one at `i` moves to `k`. -/
def movePosition (i k p : ℕ) : ℕ :=
  if p = i then k else if i < p ∧ p ≤ k then p - 1 else if k ≤ p ∧ p < i then p + 1 else p

/-- A move leaves alone what isn't between the old and the new place. -/
theorem movePosition_eq_self_iff {i k p : ℕ} :
    movePosition i k p = p ↔ i = k ∨ p < min i k ∨ max i k < p := by
  rw [movePosition]
  split_ifs <;> omega

theorem mem_move (hsplit : xs.erase e = before ++ after) {new : α} (ha : a ∈ xs) :
    (if a = e then new else a) ∈ before ++ new :: after := by
  split_ifs with hae
  · simp
  · have hmem : a ∈ before ++ after := hsplit ▸ (List.mem_erase_of_ne hae).mpr ha
    simp only [List.mem_append, List.mem_cons] at hmem ⊢
    tauto

/-- **A move** takes its member to the new place and keeps the others in order around it. -/
theorem idxOf_move (h : xs.Nodup) (he : e ∈ xs) (hsplit : xs.erase e = before ++ after)
    {new : α} (hnew : new ∉ before ++ after) (ha : a ∈ xs) :
    (before ++ new :: after).idxOf (if a = e then new else a) =
      movePosition (xs.idxOf e) before.length (xs.idxOf a) := by
  rw [movePosition]
  by_cases hae : a = e
  · have hnot : new ∉ before := fun hmem => hnew (List.mem_append_left _ hmem)
    rw [if_pos hae, if_pos (by rw [hae]), List.idxOf_append_of_notMem hnot, List.idxOf_cons_self,
      Nat.add_zero]
  · have hmem : a ∈ before ++ after := hsplit ▸ (List.mem_erase_of_ne hae).mpr ha
    have hidx : xs.idxOf a ≠ xs.idxOf e := fun heq => hae ((List.idxOf_inj ha).mp heq)
    have hne : a ≠ new := fun heq => hnew (heq ▸ hmem)
    rw [if_neg hae, if_neg hidx, idxOf_insert_of_ne hne, ← hsplit,
      idxOf_erase_of_ne h he hae]
    split_ifs <;> omega

end Portico
