import Mathlib

/-!
# Ranges with holes

The members of a range of naturals outside a list of holes, numbered in order. An index is turned
into a member by stepping past the holes before it; a member's index is its offset less the holes
before it.

## Main results

* `length_present`: the holes inside the range are what the members lack
* `idxOf_present`: a member's index
* `getElem_present`: the member at an index
-/

namespace Portico

/-- The members of `[a, a + n)` that are not holes, in order. -/
def present (a n : ℕ) (holes : List ℕ) : List ℕ := (List.range' a n).filter (· ∉ holes)

/-- Step past each hole at or before the place reached so far. -/
def stepPast (holes : List ℕ) (o : ℕ) : ℕ := holes.foldl (fun o r => if r ≤ o then o + 1 else o) o

variable {a n : ℕ} {holes : List ℕ}

theorem mem_present {x : ℕ} : x ∈ present a n holes ↔ (a ≤ x ∧ x < a + n) ∧ x ∉ holes := by
  simp [present]

theorem nodup_present : (present a n holes).Nodup := List.Nodup.filter _ List.nodup_range'

theorem length_present (h : holes.Nodup) :
    (present a n holes).length + holes.countP (fun r => a ≤ r ∧ r < a + n) = n := by
  have hperm : ((List.range' a n).filter (· ∈ holes)).Perm
      (holes.filter fun r => a ≤ r ∧ r < a + n) := by
    rw [List.perm_ext_iff_of_nodup (List.Nodup.filter _ List.nodup_range') (h.filter _)]
    intro x
    simp [and_comm]
  have hsplit := List.length_eq_length_filter_add (l := List.range' a n) (· ∈ holes)
  rw [hperm.length_eq, List.length_range', ← List.countP_eq_length_filter] at hsplit
  have hnot : (List.range' a n).filter (fun x => !decide (x ∈ holes)) = present a n holes := by
    simp [present]
  rw [hnot] at hsplit
  omega

theorem countP_adjoin (holes : List ℕ) {a m b : ℕ} (ham : a ≤ m) (hmb : m ≤ b) :
    holes.countP (fun r => a ≤ r ∧ r < m) + holes.countP (fun r => m ≤ r ∧ r < b) =
      holes.countP fun r => a ≤ r ∧ r < b := by
  induction holes with
  | nil => rfl
  | cons r holes ih =>
    simp only [List.countP_cons, decide_eq_true_eq]
    split_ifs <;> omega

theorem present_eq_append {x : ℕ} (hx : x ∈ present a n holes) :
    present a n holes =
      present a (x - a) holes ++ x :: present (x + 1) (a + n - (x + 1)) holes := by
  obtain ⟨⟨ha, hn⟩, hnot⟩ := mem_present.mp hx
  have hsplit : List.range' a n =
      List.range' a (x - a) ++ x :: List.range' (x + 1) (a + n - (x + 1)) := by
    have h := List.range'_append_1 (s := a) (m := x - a) (n := 1 + (a + n - (x + 1)))
    rw [show x - a + (1 + (a + n - (x + 1))) = n by omega, show a + (x - a) = x by omega] at h
    rw [← h, Nat.add_comm 1, List.range'_succ]
  rw [present, hsplit, List.filter_append, List.filter_cons_of_pos (by simpa using hnot)]
  rfl

theorem idxOf_present (h : holes.Nodup) {x : ℕ} (hx : x ∈ present a n holes) :
    (present a n holes).idxOf x + holes.countP (fun r => a ≤ r ∧ r < x) + a = x := by
  obtain ⟨⟨ha, -⟩, -⟩ := mem_present.mp hx
  have hlen := length_present (a := a) (n := x - a) h
  rw [show a + (x - a) = x by omega] at hlen
  have hnot : x ∉ present a (x - a) holes := fun hmem => by
    have := (mem_present.mp hmem).1.2
    omega
  rw [present_eq_append hx, List.idxOf_append_of_notMem hnot, List.idxOf_cons_self]
  omega

theorem stepPast_of_lt {o : ℕ} (h : ∀ r ∈ holes, o < r) : stepPast holes o = o := by
  induction holes with
  | nil => rfl
  | cons r holes ih =>
    rw [List.forall_mem_cons] at h
    rw [stepPast, List.foldl_cons, if_neg (by omega)]
    exact ih h.2

/-- Stepping past sorted holes reaches a place that is none of them, after one step for each hole
before it. -/
theorem stepPast_spec (h : holes.Pairwise (· < ·)) (o : ℕ) :
    stepPast holes o ∉ holes ∧ stepPast holes o = o + holes.countP (· < stepPast holes o) := by
  induction holes generalizing o with
  | nil => simp [stepPast]
  | cons r holes ih =>
    rw [List.pairwise_cons] at h
    by_cases hr : r ≤ o
    · have hstep : stepPast (r :: holes) o = stepPast holes (o + 1) := by
        rw [stepPast, List.foldl_cons, if_pos hr, ← stepPast]
      obtain ⟨hnot, heq⟩ := ih h.2 (o + 1)
      have hlt : r < stepPast holes (o + 1) := by omega
      rw [hstep, List.countP_cons_of_pos (by simpa using hlt)]
      refine ⟨?_, by omega⟩
      rw [List.mem_cons, not_or]
      exact ⟨by omega, hnot⟩
    · have hall : ∀ s ∈ r :: holes, o < s := by
        rw [List.forall_mem_cons]
        exact ⟨by omega, fun s hs => by have := h.1 s hs; omega⟩
      rw [stepPast_of_lt hall]
      refine ⟨fun hmem => absurd (hall o hmem) (by omega), ?_⟩
      rw [List.countP_eq_zero.mpr fun s hs => by have := hall s hs; simp; omega, Nat.add_zero]

/-- **The member at an index**: step from the index's offset past the holes of the range. -/
theorem getElem_present (h : holes.Pairwise (· < ·)) {p : ℕ}
    (hp : p < (present a n holes).length) :
    (present a n holes)[p] =
      stepPast (holes.filter fun r => a ≤ r ∧ r < a + n) (a + p) := by
  have hnodup : holes.Nodup := h.imp ne_of_lt
  have hlen := length_present (a := a) (n := n) hnodup
  have hspec := stepPast_spec (h.filter fun r => a ≤ r ∧ r < a + n) (a + p)
  generalize stepPast (holes.filter fun r => a ≤ r ∧ r < a + n) (a + p) = x at hspec ⊢
  obtain ⟨hnot, heq⟩ := hspec
  rw [List.countP_filter] at heq
  -- A place past the range's end has all the range's holes before it.
  have hlt : x < a + n := by
    by_contra hge
    have hall : holes.countP (fun r => decide (r < x) && decide (a ≤ r ∧ r < a + n)) =
        holes.countP fun r => a ≤ r ∧ r < a + n :=
      List.countP_congr fun r _ => by simp; omega
    omega
  have hmem : x ∈ present a n holes := by
    refine mem_present.mpr ⟨⟨by omega, hlt⟩, fun hx => hnot (List.mem_filter.mpr ⟨hx, ?_⟩)⟩
    simp
    omega
  have hbefore : holes.countP (fun r => decide (r < x) && decide (a ≤ r ∧ r < a + n)) =
      holes.countP fun r => a ≤ r ∧ r < x :=
    List.countP_congr fun r _ => by simp; omega
  have hidx := idxOf_present hnodup hmem
  have hp' : (present a n holes).idxOf x = p := by omega
  have hget := List.getElem_idxOf (List.idxOf_lt_length_of_mem hmem)
  simpa only [hp'] using hget

end Portico
