import Mathlib

/-!
# Time zones and calendar months

A time zone shows every instant at a wall time, which is the instant plus the offset then in force. A
wall time that is shown once stands for one instant. One that a change of the offset skips or repeats is
read with the offset before the change or with the one after it, and nothing says with which.

Days are numbered from the first of January 1970, and months from that January.

## Main results

* `Zone.exists_reading`: every wall time has a reading
* `Zone.shown_of_readings`: a wall time that is read in one way only is shown once
-/

namespace Portico

/-- The offset of the clock at every instant; only so many offsets are ever in force. -/
structure Zone where
  offset : ℤ → ℤ
  bounded : ∃ bound, ∀ t, |offset t| ≤ bound

/-- The offset zero is bounded. -/
theorem Zone.bounded_zero : ∃ bound : ℤ, ∀ _ : ℤ, |(0 : ℤ)| ≤ bound := ⟨0, fun _ => le_rfl⟩

/-- The first instant of a value. -/
def FirstOf (f : ℤ → ℤ) (x t : ℤ) : Prop := f t = x ∧ ∀ t' < t, f t' ≠ x

theorem FirstOf.le {f : ℤ → ℤ} {x t t' : ℤ} (h : FirstOf f x t) (ht' : f t' = x) : t ≤ t' := by
  by_contra hlt
  exact h.2 t' (not_le.mp hlt) ht'

theorem FirstOf.unique {f : ℤ → ℤ} {x t t' : ℤ} (h : FirstOf f x t) (h' : FirstOf f x t') : t = t' :=
  le_antisymm (h.le h'.1) (h'.le h.1)

theorem exists_begin {p : ℤ → Prop} {a b : ℤ} (ha : ¬ p a) (hb : p b) (hab : a ≤ b) :
    ∃ t, a < t ∧ t ≤ b ∧ p t ∧ ¬ p (t - 1) := by
  induction b, hab using Int.leInduction with
  | base => exact absurd hb ha
  | succ b hab ih =>
    by_cases hp : p b
    · obtain ⟨t, hat, htb, ht⟩ := ih hp
      exact ⟨t, hat, by omega, ht⟩
    · exact ⟨b + 1, by omega, le_rfl, hb, by rwa [add_sub_cancel_right]⟩

namespace Zone

variable (z : Zone) {w t t' x turn : ℤ}

/-- The wall time at an instant. -/
def shown (t : ℤ) : ℤ := t + z.offset t

/-- A change of the offset that skips or repeats a wall time. -/
def Turn (w turn : ℤ) : Prop :=
  (turn + z.offset (turn - 1) ≤ w ∧ w < turn + z.offset turn) ∨
    (turn + z.offset turn ≤ w ∧ w < turn + z.offset (turn - 1))

/-- **What a wall time may be read as.** -/
def Reading (w t : ℤ) : Prop :=
  ((∃! t', z.shown t' = w) ∧ z.shown t = w) ∨
    ((¬ ∃! t', z.shown t' = w) ∧
      ∃ turn, z.Turn w turn ∧ (t = w - z.offset (turn - 1) ∨ t = w - z.offset turn))

variable {z}

/-- A wall time that isn't shown exactly once is skipped or repeated by a change. -/
theorem exists_turn (h : ¬ ∃! t, z.shown t = w) : ∃ turn, z.Turn w turn := by
  by_cases hshown : ∃ t, z.shown t = w
  · obtain ⟨t, ht⟩ := hshown
    obtain ⟨t', ht', hne⟩ : ∃ t', z.shown t' = w ∧ t' ≠ t := by
      by_contra hnone
      refine h ⟨t, ht, fun t' ht' => ?_⟩
      by_contra hne
      exact hnone ⟨t', ht', hne⟩
    wlog hlt : t < t' generalizing t t'
    · exact this t' ht' t ht hne.symm (by omega)
    -- past the first time the clock comes back to the wall time
    obtain ⟨turn, hfirst, -, hback, hbefore⟩ :=
      exists_begin (p := fun u => t < u ∧ z.shown u ≤ w) (by simp) ⟨hlt, ht'.le⟩ hlt.le
    refine ⟨turn, .inr ⟨hback.2, ?_⟩⟩
    by_contra hle
    rw [not_lt] at hle
    have hearlier : z.shown (turn - 1) < w := by
      unfold shown
      omega
    rcases (show t ≤ turn - 1 by omega).lt_or_eq with hinside | heq
    · exact hbefore ⟨hinside, hearlier.le⟩
    · rw [← heq, ht] at hearlier
      exact lt_irrefl w hearlier
  · obtain ⟨bound, hbound⟩ := z.bounded
    have hlow : ¬ w < z.shown (w - bound - 1) := by
      have := (abs_le.mp (hbound (w - bound - 1))).2
      unfold shown
      omega
    have hhigh : w < z.shown (w + bound + 1) := by
      have := (abs_le.mp (hbound (w + bound + 1))).1
      unfold shown
      omega
    have hpos : 0 ≤ bound := (abs_nonneg _).trans (hbound 0)
    obtain ⟨turn, -, -, hafter, hbefore⟩ := exists_begin (p := fun u => w < z.shown u) hlow hhigh (by omega)
    refine ⟨turn, .inl ⟨?_, hafter⟩⟩
    have hne : z.shown (turn - 1) ≠ w := fun heq => hshown ⟨_, heq⟩
    unfold shown at hbefore hne
    omega

theorem Turn.ne (h : z.Turn w turn) : w - z.offset (turn - 1) ≠ w - z.offset turn := by
  unfold Turn at h
  omega

theorem exists_reading (w : ℤ) : ∃ t, z.Reading w t := by
  by_cases h : ∃! t, z.shown t = w
  · exact ⟨h.choose, .inl ⟨h, h.choose_spec.1⟩⟩
  · obtain ⟨turn, hturn⟩ := exists_turn h
    exact ⟨_, .inr ⟨h, turn, hturn, .inl rfl⟩⟩

theorem reading_iff (h : ∃! t, z.shown t = w) : z.Reading w t ↔ z.shown t = w := by
  constructor
  · rintro (⟨-, ht⟩ | ⟨hnot, -⟩)
    · exact ht
    · exact absurd h hnot
  · exact fun ht => .inl ⟨h, ht⟩

/-- **One reading.** A wall time that is read in one way only is shown once. -/
theorem shown_of_readings (h : ∀ t, z.Reading w t → t = x) :
    z.shown x = w ∧ ∀ t, z.shown t = w → t = x := by
  by_cases hone : ∃! t, z.shown t = w
  · obtain ⟨t, ht, -⟩ := id hone
    obtain rfl := h t ((reading_iff hone).mpr ht)
    exact ⟨ht, fun t' ht' => hone.unique ht' ht⟩
  · obtain ⟨turn, hturn⟩ := exists_turn hone
    have hbefore := h _ (.inr ⟨hone, turn, hturn, .inl rfl⟩)
    have hafter := h _ (.inr ⟨hone, turn, hturn, .inr rfl⟩)
    exact absurd (hbefore.trans hafter.symm) hturn.ne

theorem reading_of_shown (hx : z.shown x = w) (honly : ∀ t, z.shown t = w → t = x) :
    z.Reading w t ↔ t = x := by
  rw [reading_iff ⟨x, hx, honly⟩]
  exact ⟨honly t, fun ht => ht ▸ hx⟩

end Zone

end Portico

/-! # Months of the Gregorian calendar -/

namespace Portico.Gregorian

/-- Whether a year has a leap day. -/
def isLeap (y : ℤ) : Bool := y % 4 == 0 && (y % 100 != 0 || y % 400 == 0)

/-- The first day of a year. -/
def yearStart (y : ℤ) : ℤ := 365 * (y - 1970) + (y - 1) / 4 - (y - 1) / 100 + (y - 1) / 400 - 477

/-- The days of a year before a month of it, in a year without a leap day. -/
def daysBefore : ℤ → ℤ
  | 0 => 0
  | 1 => 31
  | 2 => 59
  | 3 => 90
  | 4 => 120
  | 5 => 151
  | 6 => 181
  | 7 => 212
  | 8 => 243
  | 9 => 273
  | 10 => 304
  | _ => 334

/-- **The first day of a month.** -/
def monthStart (m : ℤ) : ℤ :=
  let y := 1970 + m / 12
  yearStart y + daysBefore (m % 12) + if isLeap y && decide (2 ≤ m % 12) then 1 else 0

theorem yearStart_succ (y : ℤ) : yearStart (y + 1) = yearStart y + 365 + if isLeap y then 1 else 0 := by
  unfold yearStart isLeap
  split_ifs with h <;> simp only [Bool.and_eq_true, Bool.or_eq_true, beq_iff_eq, bne_iff_ne] at h <;>
    omega

theorem monthStart_succ (m : ℤ) :
    monthStart m + 28 ≤ monthStart (m + 1) ∧ monthStart (m + 1) ≤ monthStart m + 31 := by
  have hmod : 0 ≤ m % 12 ∧ m % 12 < 12 := by omega
  unfold monthStart
  simp only
  rcases (show m % 12 = 11 ∨ m % 12 < 11 by omega) with h | h
  · have hyear : 1970 + (m + 1) / 12 = 1970 + m / 12 + 1 := by omega
    have hnext : (m + 1) % 12 = 0 := by omega
    rw [hyear, hnext, h, yearStart_succ]
    simp only [daysBefore]
    split_ifs <;> simp_all <;> omega
  · have hyear : 1970 + (m + 1) / 12 = 1970 + m / 12 := by omega
    have hnext : (m + 1) % 12 = m % 12 + 1 := by omega
    rw [hyear, hnext]
    generalize m % 12 = r at *
    generalize isLeap (1970 + m / 12) = leap
    obtain ⟨hlow, -⟩ := hmod
    interval_cases r <;> cases leap <;> simp [daysBefore] <;> omega

theorem strictMono_monthStart : StrictMono monthStart :=
  strictMono_int_of_lt_succ fun m => by
    have := monthStart_succ m
    omega

theorem monthStart_bounds (m : ℤ) :
    (0 ≤ m → 28 * m ≤ monthStart m ∧ monthStart m ≤ 31 * m) ∧
      (m ≤ 0 → 31 * m ≤ monthStart m ∧ monthStart m ≤ 28 * m) := by
  have hzero : monthStart 0 = 0 := by decide
  constructor
  · intro hm
    induction m, hm using Int.leInduction with
    | base => simp [hzero]
    | succ m hm ih =>
      have := monthStart_succ m
      omega
  · intro hm
    induction m, hm using Int.leInductionDown with
    | base => simp [hzero]
    | pred m hm ih =>
      have := monthStart_succ (m - 1)
      rw [sub_add_cancel] at this
      omega

theorem exists_monthOf (d : ℤ) : ∃ m, monthStart m ≤ d := by
  rcases le_total 0 d with hd | hd
  · exact ⟨d / 31, by have := ((monthStart_bounds (d / 31)).1 (by omega)).2; omega⟩
  · exact ⟨d / 28, by have := ((monthStart_bounds (d / 28)).2 (by omega)).2; omega⟩

theorem monthOf_bounded (d m : ℤ) (h : monthStart m ≤ d) : m ≤ max (d / 28) (d / 31) := by
  rcases le_total 0 m with hm | hm
  · have := ((monthStart_bounds m).1 hm).1
    omega
  · have := ((monthStart_bounds m).2 hm).1
    omega

/-- **The month of a day** is the last that begins no later. -/
def monthOf (d : ℤ) : ℤ :=
  (Int.greatestOfBdd (P := fun m => monthStart m ≤ d) _ (monthOf_bounded d) (exists_monthOf d)).1

end Portico.Gregorian
