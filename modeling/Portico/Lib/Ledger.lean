import Mathlib

/-!
# Reading a growing ledger

A ledger is a list of rows in the order of their numbers. It grows at its end, and its head may be
cut off. A reader takes the rows after one number and up to another; what it takes is the same
whatever was cut off before and whatever came after.

## Main results

* `between_append_between`: adjoining ranges are read one after the other
* `between_append`, `between_suffix`: rows that come later, or were cut off before, don't matter
* `filter_le_getElem`: the rows up to one of them
* `suffix_filter_not_le`, `take_filter_le`, `filter_notMem_take`: cuts at the head of a ledger
-/

namespace Portico

variable {α : Type*} {key : α → ℤ} {rows later : List α} {a b c : ℤ}

/-- The rows numbered in `(a, b]`, in order. -/
def between (key : α → ℤ) (rows : List α) (a b : ℤ) : List α :=
  rows.filter fun x => decide (a < key x ∧ key x ≤ b)

theorem mem_between {x : α} : x ∈ between key rows a b ↔ x ∈ rows ∧ a < key x ∧ key x ≤ b := by
  simp [between]

theorem between_eq_nil (h : ∀ x ∈ rows, ¬ (a < key x ∧ key x ≤ b)) : between key rows a b = [] := by
  rw [between, List.filter_eq_nil_iff]
  intro x hx
  simpa using h x hx

theorem between_self : between key rows a a = [] := by
  apply between_eq_nil
  intro x _ h
  omega

theorem between_pairwise (h : rows.Pairwise fun x y => key x < key y) :
    (between key rows a b).Pairwise fun x y => key x < key y :=
  h.sublist List.filter_sublist

/-- **Adjoining ranges** of a ledger are read one after the other. -/
theorem between_append_between (h : rows.Pairwise fun x y => key x < key y) (hab : a ≤ b)
    (hbc : b ≤ c) : between key rows a b ++ between key rows b c = between key rows a c := by
  induction rows with
  | nil => rfl
  | cons x rows ih =>
    obtain ⟨hx, hrows⟩ := List.pairwise_cons.mp h
    have ih := ih hrows
    unfold between at ih ⊢
    by_cases hlow : key x ≤ b
    · -- the first row is in the first range, or in none
      rw [List.filter_cons, List.filter_cons_of_neg (by simp; omega), List.filter_cons]
      by_cases ha : a < key x
      · rw [if_pos (by simp; omega), if_pos (by simp; omega), List.cons_append, ih]
      · rw [if_neg (by simp; omega), if_neg (by simp; omega), ih]
    · -- the rows after it are numbered higher, so nothing is in the first range
      have hnone : rows.filter (fun y => decide (a < key y ∧ key y ≤ b)) = [] := by
        apply between_eq_nil
        intro y hy hin
        have := hx y hy
        omega
      rw [hnone, List.nil_append] at ih
      rw [List.filter_cons_of_neg (by simp; omega), hnone, List.nil_append, List.filter_cons,
        List.filter_cons, ih]
      by_cases hc : key x ≤ c
      · rw [if_pos (by simp; omega), if_pos (by simp; omega)]
      · rw [if_neg (by simp; omega), if_neg (by simp; omega)]

theorem between_append (h : ∀ x ∈ later, b < key x) :
    between key (rows ++ later) a b = between key rows a b := by
  have hnone : between key later a b = [] := by
    apply between_eq_nil
    intro x hx hin
    have := h x hx
    omega
  unfold between at hnone ⊢
  rw [List.filter_append, hnone, List.append_nil]

/-- Rows cut off at the head don't matter to a reader that is past them. -/
theorem between_suffix {cut : List α} (h : ∀ x ∈ cut, key x ≤ a) :
    between key (cut ++ rows) a b = between key rows a b := by
  have hnone : between key cut a b = [] := by
    apply between_eq_nil
    intro x hx hin
    have := h x hx
    omega
  unfold between at hnone ⊢
  rw [List.filter_append, hnone, List.nil_append]

theorem between_filter_le (h : c ≤ b) :
    (between key rows a b).filter (fun x => decide (key x ≤ c)) = between key rows a c := by
  unfold between
  rw [List.filter_filter]
  apply List.filter_congr
  intro x _
  rw [← Bool.decide_and, decide_eq_decide]
  omega

/-- **The rows up to one of them** are the first ones. -/
theorem filter_le_getElem (h : rows.Pairwise fun x y => key x < key y) {k : ℕ}
    (hk : k < rows.length) :
    rows.filter (fun x => decide (key x ≤ key rows[k])) = rows.take (k + 1) := by
  induction rows generalizing k with
  | nil => exact absurd hk (Nat.not_lt_zero k)
  | cons x rows ih =>
    obtain ⟨hx, hrows⟩ := List.pairwise_cons.mp h
    cases k with
    | zero =>
      rw [List.getElem_cons_zero, List.filter_cons_of_pos (by simp), List.take_succ_cons,
        List.take_zero]
      refine congrArg (x :: ·) (List.filter_eq_nil_iff.mpr fun y hy => ?_)
      simpa using hx y hy
    | succ k =>
      have hk' : k < rows.length := Nat.lt_of_succ_lt_succ hk
      rw [List.getElem_cons_succ, List.take_succ_cons, ← ih hrows hk']
      exact List.filter_cons_of_pos (by simpa using (hx _ (List.getElem_mem hk')).le)

/-! ## Cutting off the head -/

theorem suffix_filter_not_le (h : rows.Pairwise fun x y => key x < key y) (n : ℤ) :
    rows.filter (fun x => !decide (key x ≤ n)) <:+ rows := by
  induction rows with
  | nil => exact List.suffix_rfl
  | cons x rows ih =>
    obtain ⟨hx, hrows⟩ := List.pairwise_cons.mp h
    by_cases hn : key x ≤ n
    · rw [List.filter_cons_of_neg (by simpa using hn)]
      exact (ih hrows).trans (List.suffix_cons x rows)
    · rw [List.filter_eq_self.mpr]
      intro y hy
      rcases List.mem_cons.mp hy with rfl | hy
      · simpa using hn
      · have := hx y hy
        simp
        omega

theorem take_filter_le (h : rows.Pairwise fun x y => key x < key y) (n : ℤ) (limit : ℕ) :
    ∃ k, (rows.filter fun x => decide (key x ≤ n)).take limit = rows.take k := by
  induction rows generalizing limit with
  | nil => exact ⟨0, by simp⟩
  | cons x rows ih =>
    obtain ⟨hx, hrows⟩ := List.pairwise_cons.mp h
    by_cases hn : key x ≤ n
    · rw [List.filter_cons_of_pos (by simpa using hn)]
      cases limit with
      | zero => exact ⟨0, rfl⟩
      | succ limit =>
        obtain ⟨k, hk⟩ := ih hrows limit
        exact ⟨k + 1, by rw [List.take_succ_cons, List.take_succ_cons, hk]⟩
    · refine ⟨0, ?_⟩
      rw [List.filter_eq_nil_iff.mpr, List.take_nil, List.take_zero]
      intro y hy
      rcases List.mem_cons.mp hy with rfl | hy
      · simpa using hn
      · have := hx y hy
        simp
        omega

theorem filter_notMem_take [DecidableEq α] (h : rows.Pairwise fun x y => key x < key y) (k : ℕ) :
    rows.filter (fun x => !decide (x ∈ rows.take k)) = rows.drop k := by
  have hdisjoint : ∀ x ∈ rows.drop k, x ∉ rows.take k := by
    rw [← List.take_append_drop k rows, List.pairwise_append] at h
    intro x hx hin
    exact lt_irrefl _ (h.2.2 x hin x hx)
  calc rows.filter (fun x => !decide (x ∈ rows.take k))
      = (rows.take k ++ rows.drop k).filter (fun x => !decide (x ∈ rows.take k)) := by
        rw [List.take_append_drop]
    _ = rows.drop k := by
        rw [List.filter_append, List.filter_eq_nil_iff.mpr, List.nil_append,
          List.filter_eq_self.mpr]
        · intro x hx
          simpa using hdisjoint x hx
        · intro x hx
          simpa using hx

end Portico
