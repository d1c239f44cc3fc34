import Portico.Lib.Number

/-!
# How far a double is from the exact result

Rounding to the nearest double moves a value by no more than its share of 53 bits, and keeps the order of
values.

## Main results

* `Number.nearest_eq`: where the nearest double is finite
* `Number.abs_rounded_sub_le`: the error of rounding
-/

namespace Portico.Number

variable {q r : ℚ}

/-! ## The error -/

theorem abs_roundHalfEven_sub_le (q : ℚ) : |(roundHalfEven q : ℚ) - q| ≤ 1 / 2 := by
  have hfloor := Int.floor_le q
  have hlt := Int.lt_floor_add_one q
  unfold roundHalfEven
  split_ifs with h₁ h₂ <;> rw [abs_le] <;> push_cast <;> constructor <;> linarith

theorem roundHalfEven_mono (h : q ≤ r) : roundHalfEven q ≤ roundHalfEven r := by
  have hfloor := Int.floor_mono h
  rcases hfloor.lt_or_eq with hlt | heq
  · have hq : roundHalfEven q ≤ ⌊q⌋ + 1 := by
      unfold roundHalfEven
      split_ifs <;> omega
    have hr : ⌊r⌋ ≤ roundHalfEven r := by
      unfold roundHalfEven
      split_ifs <;> omega
    omega
  · unfold roundHalfEven
    rw [heq]
    split_ifs <;> first | omega | linarith

/-- The exact value of the nearest double, when that is finite. -/
def rounded (q : ℚ) : ℚ := roundHalfEven (q / spacing q) * spacing q

theorem spacing_pos (q : ℚ) : 0 < spacing q := by
  unfold spacing
  positivity

theorem spacing_le (hq : q ≠ 0) : spacing q ≤ |q| / 2 ^ 52 + 1 / 2 ^ 100 := by
  have hpos : 0 < |q| := abs_pos.mpr hq
  unfold spacing
  rcases le_total (Int.log 2 |q|) (-1022) with h | h
  · rw [max_eq_right h]
    have hsmall : (2 : ℚ) ^ ((-1022 : ℤ) - 52) ≤ 2 ^ (-(100 : ℤ)) :=
      zpow_le_zpow_right₀ one_le_two (by norm_num)
    have htiny : (2 : ℚ) ^ (-(100 : ℤ)) = 1 / 2 ^ 100 := by norm_num
    have hshare : (0 : ℚ) ≤ |q| / 2 ^ 52 := by positivity
    exact hsmall.trans (htiny.le.trans (le_add_of_nonneg_left hshare))
  · rw [max_eq_left h, zpow_sub₀ two_ne_zero]
    have hle := Int.zpow_log_le_self (b := 2) (r := |q|) one_lt_two hpos
    have hquotient : (2 : ℚ) ^ Int.log 2 |q| / 2 ^ (52 : ℤ) ≤ |q| / 2 ^ 52 := by
      rw [show ((2 : ℚ) ^ (52 : ℤ)) = 2 ^ 52 by norm_cast]
      gcongr
      exact_mod_cast hle
    have : (0 : ℚ) < 1 / 2 ^ 100 := by positivity
    linarith

/-- **Rounding** moves a value by no more than its share of 53 bits. -/
theorem abs_rounded_sub_le (q : ℚ) : |rounded q - q| ≤ |q| / 2 ^ 52 + 1 / 2 ^ 100 := by
  rcases eq_or_ne q 0 with rfl | hq
  · simp [rounded, roundHalfEven]
  · have hs := spacing_pos q
    have hround := abs_roundHalfEven_sub_le (q / spacing q)
    have heq : rounded q - q = (roundHalfEven (q / spacing q) - q / spacing q) * spacing q := by
      unfold rounded
      rw [sub_mul, div_mul_cancel₀ _ hs.ne']
    rw [heq, abs_mul, abs_of_pos hs]
    have hle := spacing_le hq
    nlinarith

theorem nearest_eq (h : |q| ≤ 2 ^ 200) : nearest q = finite (rounded q) := by
  have hround := abs_rounded_sub_le q
  have habs : |rounded q| ≤ |q| + (|q| / 2 ^ 52 + 1 / 2 ^ 100) := by
    have := abs_add_le q (rounded q - q)
    rw [add_sub_cancel] at this
    linarith
  unfold nearest
  rw [if_neg]
  · rfl
  · change ¬ 2 ^ 1024 ≤ |rounded q|
    rw [not_le]
    have hshare : |q| / 2 ^ 52 ≤ |q| := div_le_self (abs_nonneg q) (by norm_num)
    have htiny : (1 : ℚ) / 2 ^ 100 ≤ 1 := by norm_num
    have hlt : |rounded q| < 2 ^ 202 := by
      have h2 : (2 : ℚ) ^ 202 = 4 * 2 ^ 200 := by norm_num
      have h3 : (1 : ℚ) < 2 ^ 200 := by norm_num
      rw [h2]
      linarith
    exact hlt.trans_le (pow_le_pow_right₀ one_le_two (by norm_num))

theorem two_pow_mul_zpow (e : ℤ) (n : ℕ) : ((2 ^ n : ℤ) : ℚ) * 2 ^ (e - n) = 2 ^ e := by
  push_cast
  rw [← zpow_natCast, ← zpow_add₀ two_ne_zero]
  congr 1
  ring

/-! ## The order -/

theorem rounded_mono (hq : 0 ≤ q) (h : q ≤ r) : rounded q ≤ rounded r := by
  rcases hq.lt_or_eq with hq | rfl
  · have hr : 0 < r := hq.trans_le h
    have hlog : Int.log 2 |q| ≤ Int.log 2 |r| := by
      rw [abs_of_pos hq, abs_of_pos hr]
      exact Int.log_mono_right hq h
    rcases eq_or_ne (spacing q) (spacing r) with heq | hne
    · -- the values are rounded to the same grid
      unfold rounded
      rw [heq]
      have hdiv : q / spacing r ≤ r / spacing r := div_le_div_of_nonneg_right h (spacing_pos r).le
      have hround : (roundHalfEven (q / spacing r) : ℚ) ≤ roundHalfEven (r / spacing r) := by
        exact_mod_cast roundHalfEven_mono hdiv
      exact mul_le_mul_of_nonneg_right hround (spacing_pos r).le
    · -- a power of two lies between them
      have hlt : max (Int.log 2 |q|) (-1022) < max (Int.log 2 |r|) (-1022) := by
        refine lt_of_le_of_ne (max_le_max_right _ hlog) fun heq => hne ?_
        unfold spacing
        rw [heq]
      have hr' : Int.log 2 |r| > -1022 := by omega
      set e := Int.log 2 |r| with he
      have hspacing : spacing r = 2 ^ (e - 52) := by
        unfold spacing
        rw [max_eq_left hr'.le]
      have hlow : (2 : ℚ) ^ e ≤ rounded r := by
        have hle : (2 : ℚ) ^ e ≤ r := by
          have := Int.zpow_log_le_self (b := 2) (r := |r|) one_lt_two (abs_pos.mpr hr.ne')
          rw [abs_of_pos hr] at this
          rw [he, abs_of_pos hr]
          exact_mod_cast this
        have hquot : ((2 ^ 52 : ℤ) : ℚ) ≤ r / spacing r := by
          rw [le_div_iff₀ (spacing_pos r), hspacing]
          exact (two_pow_mul_zpow e 52).le.trans hle
        have hround := roundHalfEven_mono hquot
        rw [roundHalfEven_intCast] at hround
        have hcast : ((2 ^ 52 : ℤ) : ℚ) ≤ roundHalfEven (r / spacing r) := by exact_mod_cast hround
        unfold rounded
        calc (2 : ℚ) ^ e = (2 ^ 52 : ℤ) * spacing r := by
              rw [hspacing]
              exact (two_pow_mul_zpow e 52).symm
          _ ≤ _ := mul_le_mul_of_nonneg_right hcast (spacing_pos r).le
      have hhigh : rounded q ≤ 2 ^ e := by
        set f := max (Int.log 2 |q|) (-1022) with hf
        have hfe : f + 1 ≤ e := by omega
        have hspacingq : spacing q = 2 ^ (f - 52) := rfl
        have hqlt : q < 2 ^ (f + 1) := by
          have := Int.lt_zpow_succ_log_self (b := 2) one_lt_two |q|
          rw [abs_of_pos hq] at this
          refine lt_of_lt_of_le (by exact_mod_cast this) ?_
          apply zpow_le_zpow_right₀ one_le_two
          rw [hf, abs_of_pos hq]
          have := le_max_left (Int.log 2 q) (-1022)
          omega
        have hquot : q / spacing q ≤ ((2 ^ 53 : ℤ) : ℚ) := by
          rw [div_le_iff₀ (spacing_pos q), hspacingq]
          refine hqlt.le.trans (le_of_eq ?_)
          have hpow := two_pow_mul_zpow (f + 1) 53
          rw [← hpow]
          congr 2
          push_cast
          ring
        have hround := roundHalfEven_mono hquot
        rw [roundHalfEven_intCast] at hround
        have hcast : (roundHalfEven (q / spacing q) : ℚ) ≤ (2 ^ 53 : ℤ) := by exact_mod_cast hround
        unfold rounded
        calc (roundHalfEven (q / spacing q) : ℚ) * spacing q ≤ (2 ^ 53 : ℤ) * spacing q :=
              mul_le_mul_of_nonneg_right hcast (spacing_pos q).le
          _ = 2 ^ (f + 1) := by
              have hpow := two_pow_mul_zpow (f + 1) 53
              rw [hspacingq, ← hpow]
              congr 2
              push_cast
              ring
          _ ≤ 2 ^ e := zpow_le_zpow_right₀ one_le_two hfe
      exact hhigh.trans hlow
  · have hzero : rounded 0 = 0 := by simp [rounded, roundHalfEven]
    rw [hzero]
    unfold rounded
    have hdiv : ((0 : ℤ) : ℚ) ≤ r / spacing r := by
      push_cast
      exact div_nonneg h (spacing_pos r).le
    have hround := roundHalfEven_mono hdiv
    rw [roundHalfEven_intCast] at hround
    exact mul_nonneg (by exact_mod_cast hround) (spacing_pos r).le

/-- The order of doubles; `nan` is in no order with anything. -/
protected def le : Number → Number → Bool
  | finite a, finite b => a ≤ b
  | infinite s, infinite t => s || !t
  | infinite s, finite _ => s
  | finite _, infinite t => !t
  | _, _ => false

instance : LE Number := ⟨fun x y => x.le y = true⟩
instance (x y : Number) : Decidable (x ≤ y) := inferInstanceAs (Decidable (x.le y = true))

theorem finite_lt : finite q < finite r ↔ q < r := decide_eq_true_iff

theorem finite_le : finite q ≤ finite r ↔ q ≤ r := decide_eq_true_iff

theorem nearest_ne_nan (q : ℚ) : nearest q ≠ nan := by
  unfold nearest
  simp only
  split_ifs <;> exact Number.noConfusion

theorem le_or_lt {x y : Number} (hx : x ≠ nan) (hy : y ≠ nan) : x ≤ y ∨ y < x := by
  cases x with
  | nan => exact absurd rfl hx
  | finite a =>
    cases y with
    | nan => exact absurd rfl hy
    | finite b => exact (le_or_gt a b).imp finite_le.mpr finite_lt.mpr
    | infinite t => cases t <;> first | exact .inl rfl | exact .inr rfl
  | infinite s =>
    cases y with
    | nan => exact absurd rfl hy
    | finite b => cases s <;> first | exact .inl rfl | exact .inr rfl
    | infinite t => cases s <;> cases t <;> first | exact .inl rfl | exact .inr rfl

theorem le_of_not_lt {x y : Number} (hx : x ≠ nan) (hy : y ≠ nan) (h : ¬ y < x) : x ≤ y :=
  (le_or_lt hx hy).resolve_right h

theorem lt_of_not_le {x y : Number} (hx : x ≠ nan) (hy : y ≠ nan) (h : ¬ y ≤ x) : x < y :=
  (le_or_lt hy hx).resolve_left h

theorem le_finite {x : Number} (hx : 0 ≤ x) (h : x ≤ finite r) : ∃ q, x = finite q ∧ 0 ≤ q ∧ q ≤ r := by
  cases x with
  | nan => cases hx
  | infinite negative =>
    cases negative with
    | true => cases hx
    | false => cases h
  | finite q => exact ⟨q, rfl, finite_le.mp hx, finite_le.mp h⟩

/-- What is above a value that isn't negative and below a finite one. -/
theorem le_le_finite {x y : Number} (hx : 0 ≤ x) (hxy : x ≤ y) (hy : y ≤ finite r) :
    ∃ p q, x = finite p ∧ y = finite q ∧ 0 ≤ p ∧ p ≤ q ∧ q ≤ r := by
  have hy0 : 0 ≤ y := by
    cases y with
    | nan => cases hy
    | infinite negative =>
      cases negative with
      | true =>
        cases x with
        | nan => cases hx
        | infinite s => cases s with
          | true => exact absurd hx Bool.false_ne_true
          | false => exact absurd hxy Bool.false_ne_true
        | finite p => cases hxy
      | false => rfl
    | finite q =>
      obtain ⟨p, rfl, hp, hpq⟩ := le_finite hx hxy
      exact finite_le.mpr (hp.trans hpq)
  obtain ⟨q, rfl, -, hqr⟩ := le_finite hy0 hy
  obtain ⟨p, rfl, hp, hpq⟩ := le_finite hx hxy
  exact ⟨p, q, rfl, rfl, hp, hpq, hqr⟩

theorem finite_add (h : |q + r| ≤ 2 ^ 200) : finite q + finite r = finite (rounded (q + r)) :=
  nearest_eq h

theorem finite_sub (h : |q - r| ≤ 2 ^ 200) : finite q - finite r = finite (rounded (q - r)) := by
  rw [sub_eq_add_neg] at h ⊢
  exact nearest_eq h

end Portico.Number
