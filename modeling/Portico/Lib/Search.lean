import Mathlib

/-!
# Binary search

## Main results

* `search_eq_iff`: where the property begins to hold
-/

namespace Portico

variable {p : ℕ → Bool} {i j n k : ℕ}

/-- Halve what lies between two bounds until they meet. -/
def searchFrom (p : ℕ → Bool) (i j : ℕ) : ℕ :=
  if i < j then
    let h := (i + j) / 2
    if p h then searchFrom p i h else searchFrom p (h + 1) j
  else i
termination_by j - i

def search (n : ℕ) (p : ℕ → Bool) : ℕ := searchFrom p 0 n

theorem searchFrom_spec (hmono : ∀ a b, a ≤ b → b < n → p a = true → p b = true) (hij : i ≤ j)
    (hjn : j ≤ n) (hlow : ∀ a < i, p a = false) (hhigh : ∀ a, j ≤ a → a < n → p a = true) :
    searchFrom p i j ≤ n ∧ (∀ a < searchFrom p i j, p a = false) ∧
      ∀ a, searchFrom p i j ≤ a → a < n → p a = true := by
  induction i, j using searchFrom.induct (p := p) with
  | case1 i j hlt h hp ih =>
    rw [searchFrom, if_pos hlt]
    simp only
    rw [if_pos hp]
    exact ih (by omega) (by omega) hlow fun a ha han => hmono _ a ha han hp
  | case2 i j hlt h hp ih =>
    rw [searchFrom, if_pos hlt]
    simp only
    rw [if_neg hp]
    refine ih (by omega) hjn (fun a ha => ?_) hhigh
    by_contra hpa
    exact hp (hmono a _ (by omega) (by omega) (Bool.of_not_eq_false hpa))
  | case3 i j hlt =>
    rw [searchFrom, if_neg hlt]
    exact ⟨by omega, hlow, fun a ha han => hhigh a (by omega) han⟩

/-- **The search** finds where the property begins to hold. -/
theorem search_eq_iff (hmono : ∀ a b, a ≤ b → b < n → p a = true → p b = true) :
    search n p = k ↔ k ≤ n ∧ (∀ a < k, p a = false) ∧ ∀ a, k ≤ a → a < n → p a = true := by
  have hspec := searchFrom_spec hmono (Nat.zero_le n) le_rfl (fun a ha => (nomatch ha))
    (fun a hna han => absurd han (not_lt.mpr hna))
  change search n p ≤ n ∧ (∀ a < search n p, p a = false) ∧
    ∀ a, search n p ≤ a → a < n → p a = true at hspec
  constructor
  · rintro rfl
    exact hspec
  · rintro ⟨hkn, hlow, hhigh⟩
    by_contra hne
    rcases Nat.lt_or_gt_of_ne hne with hlt | hlt
    · have htrue := hspec.2.2 _ le_rfl (by omega)
      rw [hlow _ hlt] at htrue
      cases htrue
    · have htrue := hhigh _ le_rfl (by omega)
      rw [hspec.2.1 _ hlt] at htrue
      cases htrue

end Portico
