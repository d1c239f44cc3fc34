import Portico.Lib.Zone

/-!
# The guide: local days

The guide is laid out in instants, in milliseconds. Its day menu lists where the days of a time zone
start. A date is the number of its day, and its midnight is a wall time.

## Main results

* `firstOf_dateStart_iff`: the source finds the first instant of a date where its midnight is kept
* `local_days`: exactly when the day of an instant and the days of a menu start where they should
-/

namespace Portico.Guide

def hourMs : ℤ := 3600000
def dayMs : ℤ := 86400000

def floorTo (ms step : ℤ) : ℤ := ms / step * step

/-- The clock of a named time zone: changes of its offset, in whole seconds, are a week apart. -/
structure Clock extends Zone where
  low : ∀ t, -12 * hourMs ≤ offset t
  high : ∀ t, offset t ≤ 14 * hourMs
  small : ∀ t, |offset t - offset (t - 1)| ≤ hourMs
  apart : ∀ t t', t < t' → offset t ≠ offset (t - 1) → offset t' ≠ offset (t' - 1) →
    t + 7 * dayMs ≤ t'
  seconds : ∀ t, offset t % 1000 = 0

variable (c : Clock)

/-- The offset is read off the wall time, which is shown in whole seconds. -/
def zoneOffset (ms : ℤ) : ℤ := floorTo (c.shown ms) 1000 - floorTo ms 1000

def localDate (ms : ℤ) : ℤ := (ms + zoneOffset c ms) / dayMs

/-- Where a date is taken to start. -/
def dateStart (d : ℤ) : ℤ :=
  let wall := d * dayMs
  let guess := wall - zoneOffset c (wall - zoneOffset c wall)
  -- a midnight that is skipped
  if localDate c guess ≠ d then guess + hourMs else guess

def localDayStart (ms : ℤ) : ℤ := dateStart c (localDate c ms)

/-- The days from a start up to the end, as long as there is room for one more. -/
def dayStartsFrom (stop : ℤ) : ℕ → ℤ → List ℤ
  | 0, _ => []
  | room + 1, t =>
    if t < stop then t :: dayStartsFrom stop room (localDayStart c (t + 26 * hourMs)) else []

def dayStarts (start stop : ℤ) : List ℤ := dayStartsFrom c stop 400 (localDayStart c start)

/-- **The days of a menu**: the first instants of consecutive dates up to the end. -/
def Lists (d stop : ℤ) (l : List ℤ) : Prop :=
  (∀ k (h : k < l.length), FirstOf (localDate c) (d + k) l[k] ∧ l[k] < stop) ∧
    ∀ t, FirstOf (localDate c) (d + l.length) t → stop ≤ t

/-- **A midnight that is found.** It happens once; or twice, and the change comes after the midnight
of UTC; or the clock skips from it, by an hour or no later than at the midnight of UTC. -/
def Kept (d : ℤ) : Prop :=
  (∃! t, c.shown t = d * dayMs) ∨
    (∃ turn, turn + c.offset turn ≤ d * dayMs ∧ d * dayMs < turn + c.offset (turn - 1) ∧
      d * dayMs < turn) ∨
    ∃ turn, c.offset (turn - 1) < c.offset turn ∧ turn + c.offset (turn - 1) = d * dayMs ∧
      (turn ≤ d * dayMs ∨ c.offset turn = c.offset (turn - 1) + hourMs)

variable {c} {d t turn a b start stop : ℤ}

theorem zoneOffset_eq (t : ℤ) : zoneOffset c t = c.offset t := by
  have := c.seconds t
  unfold zoneOffset floorTo Zone.shown
  omega

theorem localDate_eq (t : ℤ) : localDate c t = c.shown t / dayMs := by
  rw [localDate, zoneOffset_eq, Zone.shown]

/-! ## The offset around a midnight -/

theorem offset_eq_of_still {x y : ℤ} (hxy : x ≤ y)
    (h : ∀ t, x < t → t ≤ y → c.offset t = c.offset (t - 1)) : c.offset y = c.offset x := by
  induction y, hxy using Int.leInduction with
  | base => rfl
  | succ y hxy ih =>
    rw [h (y + 1) (by omega) le_rfl, add_sub_cancel_right]
    exact ih fun t hx hy => h t hx (by omega)

/-- The offset for three days either way, with one change at most. -/
structure Near (c : Clock) (w turn a b : ℤ) : Prop where
  before : ∀ t, w - 3 * dayMs ≤ t → t ≤ w + 3 * dayMs → t < turn → c.offset t = a
  after : ∀ t, w - 3 * dayMs ≤ t → t ≤ w + 3 * dayMs → turn ≤ t → c.offset t = b
  small : |b - a| ≤ hourMs
  low : -12 * hourMs ≤ a ∧ -12 * hourMs ≤ b
  high : a ≤ 14 * hourMs ∧ b ≤ 14 * hourMs

theorem exists_near (c : Clock) (w : ℤ) : ∃ turn a b, Near c w turn a b := by
  by_cases h : ∃ t, w - 3 * dayMs < t ∧ t ≤ w + 3 * dayMs ∧ c.offset t ≠ c.offset (t - 1)
  · obtain ⟨turn, hlow, hhigh, hturn⟩ := h
    -- any other change is a week away
    have hstill : ∀ t, w - 3 * dayMs < t → t ≤ w + 3 * dayMs → t ≠ turn →
        c.offset t = c.offset (t - 1) := fun t hl hh hne => by
      by_contra hchange
      unfold dayMs at *
      rcases lt_or_gt_of_ne hne with hlt | hlt
      · have := c.apart t turn hlt hchange hturn
        unfold dayMs at this
        omega
      · have := c.apart turn t hlt hturn hchange
        unfold dayMs at this
        omega
    refine ⟨turn, c.offset (turn - 1), c.offset turn, fun t hl hh hlt => ?_, fun t hl hh hle => ?_,
      c.small turn, ⟨c.low _, c.low _⟩, c.high _, c.high _⟩
    · exact (offset_eq_of_still (by omega) fun t' hx hy =>
        hstill t' (by omega) (by omega) (by omega)).symm
    · exact offset_eq_of_still hle fun t' hx hy => hstill t' (by omega) (by omega) (by omega)
  · push Not at h
    have hsame : ∀ t, w - 3 * dayMs ≤ t → t ≤ w + 3 * dayMs →
        c.offset t = c.offset (w - 3 * dayMs) :=
      fun t hl hh => offset_eq_of_still hl fun t' hx hy => h t' hx (hy.trans hh)
    exact ⟨w, _, _, fun t hl hh _ => hsame t hl hh, fun t hl hh _ => hsame t hl hh,
      by simp [hourMs], ⟨c.low _, c.low _⟩, c.high _, c.high _⟩

/-- The first instant of the date that begins at a wall time. -/
def Near.first (_ : Near c (d * dayMs) turn a b) : ℤ :=
  if d * dayMs - a < turn then d * dayMs - a else max turn (d * dayMs - b)

theorem Near.first_eq (h : Near c (d * dayMs) turn a b) :
    h.first = if d * dayMs - a < turn then d * dayMs - a else max turn (d * dayMs - b) := rfl

theorem Near.shown (h : Near c (d * dayMs) turn a b) (hl : d * dayMs - 3 * dayMs ≤ t)
    (hh : t ≤ d * dayMs + 3 * dayMs) : c.shown t = t + if t < turn then a else b := by
  unfold Zone.shown
  split_ifs with hlt
  · rw [h.before t hl hh hlt]
  · rw [h.after t hl hh (not_lt.mp hlt)]

theorem shown_bounds (t : ℤ) : t - 12 * hourMs ≤ c.shown t ∧ c.shown t ≤ t + 14 * hourMs := by
  have := c.low t
  have := c.high t
  unfold Zone.shown
  omega

theorem Near.firstOf (h : Near c (d * dayMs) turn a b) : FirstOf (localDate c) d h.first := by
  have hsmall := abs_le.mp h.small
  have hlow := h.low
  have hhigh := h.high
  have hfirst := h.first_eq
  unfold hourMs at hsmall hlow hhigh
  constructor
  · rw [localDate_eq, h.shown (by unfold dayMs at *; omega) (by unfold dayMs at *; omega)]
    unfold dayMs at *
    split_ifs <;> omega
  · intro t ht
    rw [localDate_eq]
    by_cases hnear : d * dayMs - 3 * dayMs ≤ t
    · rw [h.shown hnear (by unfold dayMs at *; omega)]
      unfold dayMs at *
      split_ifs <;> omega
    · have := (shown_bounds (c := c) t).2
      unfold dayMs hourMs at *
      omega

theorem Near.dateStart_eq (h : Near c (d * dayMs) turn a b) :
    dateStart c d =
      if d * dayMs < turn then
        if d * dayMs - a < turn then d * dayMs - a
        else if d * dayMs - b < turn then d * dayMs - b + hourMs else d * dayMs - b
      else if d * dayMs - b < turn then d * dayMs - a else d * dayMs - b := by
  have hsmall := abs_le.mp h.small
  have hlow := h.low
  have hhigh := h.high
  have hoffset : ∀ t, d * dayMs - dayMs ≤ t → t ≤ d * dayMs + dayMs →
      c.offset t = if t < turn then a else b := fun t hl hh => by
    have := h.shown (t := t) (by unfold dayMs at *; omega) (by unfold dayMs at *; omega)
    unfold Zone.shown at this
    omega
  unfold dateStart
  simp only [localDate_eq, zoneOffset_eq, Zone.shown]
  unfold hourMs dayMs at *
  rw [hoffset (d * 86400000) (by omega) (by omega)]
  by_cases hutc : d * 86400000 < turn
  · simp only [if_pos hutc]
    rw [hoffset (d * 86400000 - a) (by omega) (by omega)]
    by_cases hbefore : d * 86400000 - a < turn
    · simp only [if_pos hbefore]
      rw [hoffset (d * 86400000 - a) (by omega) (by omega), if_pos hbefore, if_neg (by omega)]
    · simp only [if_neg hbefore]
      rw [hoffset (d * 86400000 - b) (by omega) (by omega)]
      split_ifs <;> omega
  · simp only [if_neg hutc]
    rw [hoffset (d * 86400000 - b) (by omega) (by omega)]
    by_cases hafter : d * 86400000 - b < turn
    · simp only [if_pos hafter]
      rw [hoffset (d * 86400000 - a) (by omega) (by omega)]
      split_ifs <;> omega
    · simp only [if_neg hafter]
      rw [hoffset (d * 86400000 - b) (by omega) (by omega), if_neg hafter, if_neg (by omega)]

theorem Near.shown_eq_iff (h : Near c (d * dayMs) turn a b) :
    c.shown t = d * dayMs ↔ (t < turn ∧ t = d * dayMs - a) ∨ (turn ≤ t ∧ t = d * dayMs - b) := by
  have hlow := h.low
  have hhigh := h.high
  have hbounds := shown_bounds (c := c) t
  by_cases hnear : d * dayMs - 3 * dayMs ≤ t ∧ t ≤ d * dayMs + 3 * dayMs
  · rw [h.shown hnear.1 hnear.2]
    split_ifs <;> omega
  · unfold hourMs dayMs at *
    omega

theorem Near.shown_once_iff (h : Near c (d * dayMs) turn a b) :
    (∃! t, c.shown t = d * dayMs) ↔ (d * dayMs - a < turn ↔ d * dayMs - b < turn) := by
  constructor
  · rintro ⟨t, ht, honly⟩
    have ha (hlt : d * dayMs - a < turn) := honly _ (h.shown_eq_iff.mpr (.inl ⟨hlt, rfl⟩))
    have hb (hle : turn ≤ d * dayMs - b) := honly _ (h.shown_eq_iff.mpr (.inr ⟨hle, rfl⟩))
    have := h.shown_eq_iff.mp ht
    constructor <;> intro hside <;> by_contra hother
    · have := hb (not_lt.mp hother)
      have := ha hside
      omega
    · omega
  · intro hside
    by_cases hbefore : d * dayMs - a < turn
    · refine ⟨d * dayMs - a, h.shown_eq_iff.mpr (.inl ⟨hbefore, rfl⟩), fun t ht => ?_⟩
      have := h.shown_eq_iff.mp ht
      omega
    · refine ⟨d * dayMs - b, h.shown_eq_iff.mpr (.inr ⟨by omega, rfl⟩), fun t ht => ?_⟩
      have := h.shown_eq_iff.mp ht
      omega

theorem Near.turn_eq {turn' : ℤ} (h : Near c (d * dayMs) turn a b) (hl : d * dayMs - dayMs ≤ turn')
    (hh : turn' ≤ d * dayMs + dayMs) (hne : c.offset turn' ≠ c.offset (turn' - 1)) :
    turn' = turn ∧ c.offset (turn' - 1) = a ∧ c.offset turn' = b := by
  have hthis := h.shown (t := turn') (by unfold dayMs at *; omega) (by unfold dayMs at *; omega)
  have hprev := h.shown (t := turn' - 1) (by unfold dayMs at *; omega) (by unfold dayMs at *; omega)
  unfold Zone.shown at hthis hprev
  omega

theorem Near.kept_iff (h : Near c (d * dayMs) turn a b) :
    Kept c d ↔ (d * dayMs - a < turn ↔ d * dayMs - b < turn) ∨
      (d * dayMs - a < turn ∧ turn ≤ d * dayMs - b ∧ d * dayMs < turn) ∨
      (a < b ∧ turn = d * dayMs - a ∧ (turn ≤ d * dayMs ∨ b = a + hourMs)) := by
  have hlow := h.low
  have hhigh := h.high
  have hbounds (t : ℤ) := (⟨c.low t, c.high t⟩ : _ ∧ _)
  rw [Kept, h.shown_once_iff]
  refine or_congr Iff.rfl (or_congr ⟨?_, ?_⟩ ⟨?_, ?_⟩)
  · rintro ⟨turn', hafter, hbefore, hutc⟩
    have h₁ := hbounds turn'
    have h₂ := hbounds (turn' - 1)
    obtain ⟨rfl, ha, hb⟩ := @Near.turn_eq _ _ _ _ _ turn' h (by unfold hourMs dayMs at *; omega) (by unfold hourMs dayMs at *; omega) (by omega)
    omega
  · rintro ⟨hbefore, hafter, hutc⟩
    have h₁ := h.before (turn - 1) (by unfold hourMs dayMs at *; omega)
      (by unfold hourMs dayMs at *; omega) (by omega)
    have h₂ := h.after turn (by unfold hourMs dayMs at *; omega)
      (by unfold hourMs dayMs at *; omega) le_rfl
    exact ⟨turn, by omega, by omega, hutc⟩
  · rintro ⟨turn', hlt, hskip, hutc⟩
    have h₁ := hbounds turn'
    have h₂ := hbounds (turn' - 1)
    obtain ⟨rfl, ha, hb⟩ := @Near.turn_eq _ _ _ _ _ turn' h (by unfold hourMs dayMs at *; omega) (by unfold hourMs dayMs at *; omega) (by omega)
    omega
  · rintro ⟨hlt, hskip, hutc⟩
    have h₁ := h.before (turn - 1) (by unfold hourMs dayMs at *; omega)
      (by unfold hourMs dayMs at *; omega) (by omega)
    have h₂ := h.after turn (by unfold hourMs dayMs at *; omega)
      (by unfold hourMs dayMs at *; omega) le_rfl
    exact ⟨turn, by omega, by omega, by omega⟩

/-! ## Where a date is taken to start -/

theorem exists_firstOf (c : Clock) (d : ℤ) : ∃ t, FirstOf (localDate c) d t := by
  obtain ⟨turn, a, b, h⟩ := exists_near c (d * dayMs)
  exact ⟨h.first, h.firstOf⟩

/-- **The start of a date** is the first instant of it exactly where its midnight is kept. -/
theorem firstOf_dateStart_iff : FirstOf (localDate c) d (dateStart c d) ↔ Kept c d := by
  obtain ⟨turn, a, b, h⟩ := exists_near c (d * dayMs)
  have hsmall := abs_le.mp h.small
  have hfirst := h.first_eq
  have hiff : FirstOf (localDate c) d (dateStart c d) ↔ dateStart c d = h.first :=
    ⟨fun hf => hf.unique h.firstOf, fun heq => heq ▸ h.firstOf⟩
  rw [hiff, h.kept_iff, h.dateStart_eq, hfirst]
  split_ifs <;> omega

theorem dateStart_bounds (ht : FirstOf (localDate c) d t) :
    t ≤ dateStart c d ∧ dateStart c d ≤ t + 2 * hourMs := by
  obtain ⟨turn, a, b, h⟩ := exists_near c (d * dayMs)
  have hsmall := abs_le.mp h.small
  have hfirst := h.first_eq
  obtain rfl := ht.unique h.firstOf
  rw [h.dateStart_eq, hfirst]
  unfold hourMs at *
  split_ifs <;> omega

/-! ## Consecutive dates -/

theorem lt_of_localDate_lt {x : ℤ} (hx : FirstOf (localDate c) d x) (ht : d < localDate c t) :
    x < t := by
  obtain ⟨turn, a, b, h⟩ := exists_near c (d * dayMs)
  have hsmall := abs_le.mp h.small
  have hlow := h.low
  have hhigh := h.high
  have hfirst := h.first_eq
  obtain rfl := hx.unique h.firstOf
  by_contra hle
  rw [localDate_eq] at ht
  unfold hourMs at *
  by_cases hnear : d * dayMs - 3 * dayMs ≤ t
  · rw [h.shown hnear (by unfold dayMs at *; split_ifs at hfirst <;> omega)] at ht
    unfold dayMs at *
    split_ifs at ht hfirst <;> omega
  · have := (shown_bounds (c := c) t).2
    unfold dayMs hourMs at *
    omega

theorem localDate_next {x : ℤ} (hx : FirstOf (localDate c) d x) (hl : x ≤ t)
    (hh : t ≤ x + 2 * hourMs) : localDate c (t + 26 * hourMs) = d + 1 := by
  obtain ⟨turn, a, b, h⟩ := exists_near c (d * dayMs)
  have hsmall := abs_le.mp h.small
  have hlow := h.low
  have hhigh := h.high
  have hfirst := h.first_eq
  obtain rfl := hx.unique h.firstOf
  unfold hourMs dayMs at *
  rw [localDate_eq, h.shown (by unfold dayMs; split_ifs at hfirst <;> omega)
    (by unfold dayMs; split_ifs at hfirst <;> omega)]
  unfold dayMs
  split_ifs at hfirst ⊢ <;> omega

theorem localDayStart_next (d : ℤ) :
    localDayStart c (dateStart c d + 26 * hourMs) = dateStart c (d + 1) := by
  obtain ⟨x, hx⟩ := exists_firstOf c d
  obtain ⟨hl, hh⟩ := dateStart_bounds hx
  rw [localDayStart, localDate_next hx hl hh]

theorem lists_nil : Lists c d stop [] ↔ ∀ x, FirstOf (localDate c) d x → stop ≤ x := by
  simp [Lists]

theorem lists_cons {l : List ℤ} : Lists c d stop (t :: l) ↔
    (FirstOf (localDate c) d t ∧ t < stop) ∧ Lists c (d + 1) stop l := by
  have hshift (k : ℕ) : d + ((k + 1 : ℕ) : ℤ) = d + 1 + k := by
    push_cast
    ring
  unfold Lists
  rw [← and_assoc]
  refine and_congr ⟨fun h => ⟨?_, fun k hk => ?_⟩, fun h k hk => ?_⟩
    (by rw [List.length_cons, hshift])
  · have := h 0 (Nat.succ_pos _)
    rwa [Nat.cast_zero, add_zero] at this
  · have := h (k + 1) (by simpa using hk)
    rwa [hshift] at this
  · cases k with
    | zero => simpa using h.1
    | succ k =>
      rw [hshift]
      exact h.2 k (by simpa using hk)

/-- **The days of a menu** are listed exactly where their midnights are kept and there is room for
all of them. -/
theorem lists_dayStartsFrom (c : Clock) (stop : ℤ) (room : ℕ) (d : ℤ) :
    Lists c d stop (dayStartsFrom c stop room (dateStart c d)) ↔
      (∀ d' ≥ d, (∃ x < stop, FirstOf (localDate c) d' x) → Kept c d') ∧
        ∀ x, FirstOf (localDate c) (d + room) x → stop ≤ x := by
  -- once a date begins too late, so do all later ones
  have hlate {d d' x x' : ℤ} (hx : FirstOf (localDate c) d x) (hstop : stop ≤ x) (hd : d ≤ d')
      (hx' : FirstOf (localDate c) d' x') : stop ≤ x' := by
    rcases hd.lt_or_eq with hlt | rfl
    · exact hstop.trans (lt_of_localDate_lt hx (by rwa [hx'.1])).le
    · rwa [← hx.unique hx']
  induction room generalizing d with
  | zero =>
    rw [dayStartsFrom, lists_nil, Nat.cast_zero, add_zero]
    refine ⟨fun h => ⟨fun d' hd => ?_, h⟩, And.right⟩
    rintro ⟨x', hlt, hx'⟩
    obtain ⟨x, hx⟩ := exists_firstOf c d
    exact absurd (hlate hx (h x hx) hd hx') (not_le.mpr hlt)
  | succ room ih =>
    obtain ⟨x, hx⟩ := exists_firstOf c d
    have hroom : d + ((room + 1 : ℕ) : ℤ) = d + 1 + room := by
      push_cast
      ring
    have ih := ih (d + 1)
    rw [dayStartsFrom]
    by_cases hin : dateStart c d < stop
    · rw [if_pos hin, localDayStart_next, lists_cons, firstOf_dateStart_iff, hroom]
      refine (and_congr_right fun _ => ih).trans ?_
      rw [← and_assoc]
      refine and_congr ⟨fun h d' hd hbegins => ?_, fun h => ⟨⟨?_, hin⟩, fun d' hd => ?_⟩⟩ Iff.rfl
      · rcases hd.lt_or_eq with hlt | rfl
        · exact h.2 d' (by omega) hbegins
        · exact h.1.1
      · exact h d le_rfl ⟨x, (dateStart_bounds hx).1.trans_lt hin, hx⟩
      · exact h d' (by omega)
    · rw [if_neg hin, lists_nil]
      constructor
      · intro h
        refine ⟨fun d' hd => ?_, fun x' hx' => hlate hx (h x hx) (by omega) hx'⟩
        rintro ⟨x', hlt, hx'⟩
        exact absurd (hlate hx (h x hx) hd hx') (not_le.mpr hlt)
      · rintro ⟨hkept, -⟩ x' hx'
        by_contra hlt
        have hfirst := firstOf_dateStart_iff.mpr (hkept d le_rfl ⟨x', not_le.mp hlt, hx'⟩)
        rw [hx'.unique hfirst] at hlt
        exact hin (not_le.mp hlt)

/-- **Local days.** The day of an instant starts at the first instant of its date, and a menu lists
the first instants of consecutive dates, exactly where the midnights of these dates are kept and
there are at most four hundred of them. -/
theorem local_days (c : Clock) (t start stop : ℤ) :
    (FirstOf (localDate c) (localDate c t) (localDayStart c t) ∧
        Lists c (localDate c start) stop (dayStarts c start stop)) ↔
      Kept c (localDate c t) ∧
        (∀ d ≥ localDate c start, (∃ x < stop, FirstOf (localDate c) d x) → Kept c d) ∧
        ∀ x, FirstOf (localDate c) (localDate c start + 400) x → stop ≤ x := by
  rw [localDayStart, firstOf_dateStart_iff, dayStarts, localDayStart, lists_dayStartsFrom]
  rfl

/-- Amman, where the clock went back from one to midnight on the twenty-ninth of October 2021. -/
def amman : Clock where
  offset t := if t < 1635458400000 then 10800000 else 7200000
  bounded := ⟨10800000, fun t => by split_ifs <;> decide⟩
  low t := by unfold hourMs; split_ifs <;> decide
  high t := by unfold hourMs; split_ifs <;> decide
  small t := by
    unfold hourMs
    rw [abs_le]
    split_ifs <;> omega
  apart t t' hlt ht ht' := by
    split_ifs at ht ht' <;> omega
  seconds t := by split_ifs <;> decide

/-- Half past midnight, for the first time. -/
theorem amman_repeated :
    1635456600000 < localDayStart amman 1635456600000 ∧
      ¬ FirstOf (localDate amman) (localDate amman 1635456600000)
        (localDayStart amman 1635456600000) := by
  refine ⟨by decide, fun h => ?_⟩
  have := @FirstOf.le _ _ _ 1635456600000 h rfl
  revert this
  decide

end Portico.Guide
