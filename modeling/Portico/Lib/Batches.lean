import Mathlib

/-!
# Copies in batches

Rows with distinct keys are copied in the order of their keys, a batch at a time, each batch going on
after the last key of the one before. What has been copied at any time is what lies at or before the
last key.

## Main results

* `filter_batch`: what was copied, and a batch, are what lies at or before the batch's last key
* `filter_batch_short`: a batch that isn't full is the last one
-/

namespace Portico

variable {α κ : Type*} [LinearOrder κ] {key : α → κ} {n : ℕ} {after : κ} {l : List α} {a : α}

/-- The next rows after a key. -/
def batch (key : α → κ) (n : ℕ) (after : κ) (l : List α) : List α :=
  (l.filter fun a => after < key a).take n

/-- The key to go on after. -/
def batchEnd (key : α → κ) (after : κ) (l : List α) : κ := (l.getLast?.map key).getD after

theorem mem_batch (h : a ∈ batch key n after l) : a ∈ l ∧ after < key a := by
  have := List.mem_filter.mp (List.mem_of_mem_take h)
  simpa using this

theorem filter_eq_append (h : l.Pairwise fun a b => key a < key b) (after : κ) :
    l.filter (fun a => key a ≤ after) ++ l.filter (fun a => after < key a) = l := by
  induction l with
  | nil => rfl
  | cons a l ih =>
    obtain ⟨ha, hl⟩ := List.pairwise_cons.mp h
    by_cases hle : key a ≤ after
    · rw [List.filter_cons_of_pos (by simpa using hle),
        List.filter_cons_of_neg (by simpa using hle), List.cons_append, ih hl]
    · -- all that follow are after it as well
      have hall : ∀ b ∈ a :: l, after < key b := by
        intro b hb
        rcases List.mem_cons.mp hb with rfl | hb
        · exact not_le.mp hle
        · exact (not_le.mp hle).trans (ha b hb)
      rw [List.filter_eq_nil_iff.mpr, List.filter_eq_self.mpr, List.nil_append]
      · intro b hb
        simpa using hall b hb
      · intro b hb
        simpa using hall b hb

/-- The rows at or before the last key of a part of them are that part. -/
theorem filter_le_of_append {l' : List α} (h : (l ++ l').Pairwise fun a b => key a < key b)
    (hl : l.getLast? = some a) : (l ++ l').filter (fun b => key b ≤ key a) = l := by
  obtain ⟨front, rfl⟩ := List.getLast?_eq_some_iff.mp hl
  obtain ⟨hfront, -, hcross⟩ := List.pairwise_append.mp h
  obtain ⟨-, -, hlast⟩ := List.pairwise_append.mp hfront
  rw [List.filter_append, List.filter_eq_self.mpr, List.filter_eq_nil_iff.mpr, List.append_nil]
  · intro b hb
    simpa using hcross a (by simp) b hb
  · intro b hb
    rcases List.mem_append.mp hb with hb | hb
    · simpa using (hlast b hb a (by simp)).le
    · obtain rfl := List.mem_singleton.mp hb
      simp

/-- **Batches.** What was copied, and a batch, are what lies at or before the batch's last key. -/
theorem filter_batch (h : l.Pairwise fun a b => key a < key b) :
    l.filter (fun a => key a ≤ after) ++ batch key n after l =
      l.filter fun a => key a ≤ batchEnd key after (batch key n after l) := by
  unfold batchEnd
  cases hlast : (batch key n after l).getLast? with
  | none =>
    rw [List.getLast?_eq_none_iff.mp hlast, List.append_nil]
    rfl
  | some a =>
    simp only [Option.map_some, Option.getD_some]
    have hsplit : l = (l.filter (fun a => key a ≤ after) ++ batch key n after l) ++
        (l.filter fun a => after < key a).drop n := by
      rw [List.append_assoc, batch, List.take_append_drop, filter_eq_append h]
    conv_rhs => rw [hsplit]
    rw [filter_le_of_append (hsplit ▸ h)]
    rw [List.getLast?_append, hlast]
    rfl

theorem filter_batch_short (h : l.Pairwise fun a b => key a < key b)
    (hshort : (batch key n after l).length < n) :
    l.filter (fun a => key a ≤ batchEnd key after (batch key n after l)) = l := by
  have hall : batch key n after l = l.filter fun a => after < key a := by
    unfold batch at hshort ⊢
    apply List.take_of_length_le
    rw [List.length_take] at hshort
    omega
  rw [← filter_batch h, hall, filter_eq_append h]

end Portico
