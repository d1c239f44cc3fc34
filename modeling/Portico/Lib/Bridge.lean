import Mathlib

/-!
# Runs with bridged gaps

A list of verdicts is cut into runs of agreement. A run goes on over gaps of disagreement up to a
limit, and over what is neither; it ends where it last agreed.

## Main results

* `mem_bridged`: a run lies in the list
* `bridged_pairwise`: the runs stand in order and apart
-/

namespace Portico

inductive Verdict where
  | agree
  | neutral
  | differ
  deriving DecidableEq, Repr

/-- The runs of the verdicts from place `i` on, where a run may have begun: with its first and last
agreeing place, and the length of the gap so far. -/
def bridgedFrom (limit : ℕ) : ℕ → Option (ℕ × ℕ × ℕ) → List Verdict → List (ℕ × ℕ)
  | _, none, [] => []
  | _, some (start, last, _), [] => [(start, last)]
  | i, none, .agree :: vs => bridgedFrom limit (i + 1) (some (i, i, 0)) vs
  | i, none, _ :: vs => bridgedFrom limit (i + 1) none vs
  | i, some (start, _, _), .agree :: vs => bridgedFrom limit (i + 1) (some (start, i, 0)) vs
  | i, some begun, .neutral :: vs => bridgedFrom limit (i + 1) (some begun) vs
  | i, some (start, last, gap), .differ :: vs =>
    if gap + 1 > limit then (start, last) :: bridgedFrom limit (i + 1) none vs
    else bridgedFrom limit (i + 1) (some (start, last, gap + 1)) vs

def bridged (limit : ℕ) (vs : List Verdict) : List (ℕ × ℕ) := bridgedFrom limit 0 none vs

variable {limit i : ℕ} {begun : Option (ℕ × ℕ × ℕ)} {vs : List Verdict} {r : ℕ × ℕ}

/-- Where the first run can begin. -/
def firstStart (i : ℕ) : Option (ℕ × ℕ × ℕ) → ℕ
  | none => i
  | some (start, _, _) => start

/-- A run that has begun has its agreeing places behind it. -/
def Begun (i : ℕ) (begun : Option (ℕ × ℕ × ℕ)) : Prop :=
  ∀ start last gap, begun = some (start, last, gap) → start ≤ last ∧ last < i

theorem begun_none : Begun i none := fun _ _ _ hs => nomatch hs

theorem mem_bridgedFrom (hb : Begun i begun) (h : r ∈ bridgedFrom limit i begun vs) :
    firstStart i begun ≤ r.1 ∧ r.1 ≤ r.2 ∧ r.2 < i + vs.length := by
  fun_induction bridgedFrom limit i begun vs with
  | case1 => cases h
  | case2 i start last gap =>
    have := hb start last gap rfl
    rw [List.mem_singleton.mp h]
    exact ⟨le_rfl, this.1, by simpa using this.2⟩
  | case3 i vs ih =>
    have := ih (by rintro _ _ _ ⟨⟩; omega) h
    simp only [firstStart, List.length_cons] at this ⊢
    omega
  | case4 i v vs hv ih =>
    have := ih begun_none h
    simp only [firstStart, List.length_cons] at this ⊢
    omega
  | case5 i start last gap vs ih =>
    have hlast := hb start last gap rfl
    have := ih (by rintro _ _ _ ⟨⟩; omega) h
    simp only [firstStart, List.length_cons] at this ⊢
    omega
  | case6 i begun vs ih =>
    have := ih (fun _ _ _ hs => (hb _ _ _ hs).imp id (Nat.lt_succ_of_lt ·)) h
    simp only [firstStart, List.length_cons] at this ⊢
    omega
  | case7 i start last gap vs hgap ih =>
    have hlast := hb start last gap rfl
    rcases List.mem_cons.mp h with rfl | h
    · simp only [firstStart, List.length_cons]
      omega
    · have := ih begun_none h
      simp only [firstStart, List.length_cons] at this ⊢
      omega
  | case8 i start last gap vs hgap ih =>
    have := ih (by rintro _ _ _ ⟨⟩; have := hb _ _ _ rfl; omega) h
    simp only [firstStart, List.length_cons] at this ⊢
    omega

theorem bridgedFrom_pairwise (hb : Begun i begun) :
    (bridgedFrom limit i begun vs).Pairwise fun r s => r.2 < s.1 := by
  fun_induction bridgedFrom limit i begun vs with
  | case1 => exact .nil
  | case2 => exact List.pairwise_singleton _ _
  | case3 i vs ih => exact ih (by rintro _ _ _ ⟨⟩; omega)
  | case4 i v vs hv ih => exact ih begun_none
  | case5 i start last gap vs ih =>
    have := hb start last gap rfl
    exact ih (by rintro _ _ _ ⟨⟩; omega)
  | case6 i begun vs ih => exact ih fun _ _ _ hs => (hb _ _ _ hs).imp id (Nat.lt_succ_of_lt ·)
  | case7 i start last gap vs hgap ih =>
    refine List.pairwise_cons.mpr ⟨fun s hs => ?_, ih begun_none⟩
    have hlast := hb start last gap rfl
    have := mem_bridgedFrom begun_none hs
    simp only [firstStart] at this
    show last < s.1
    omega
  | case8 i start last gap vs hgap ih =>
    exact ih (by rintro _ _ _ ⟨⟩; have := hb _ _ _ rfl; omega)

/-- **A run lies in the list** that it is a run of. -/
theorem mem_bridged (h : r ∈ bridged limit vs) : r.1 ≤ r.2 ∧ r.2 < vs.length := by
  have := mem_bridgedFrom begun_none h
  omega

/-- **The runs stand in order**, and apart. -/
theorem bridged_pairwise : (bridged limit vs).Pairwise fun r s => r.2 < s.1 :=
  bridgedFrom_pairwise begun_none

end Portico
