import Portico.ReportWindow.Interval

/-!
# Report windows: when they follow the calendar

Each bucket's start is found by adding a date to the wall time of the start before it. That is the
calendar's own boundary as long as the days of the window begin at midnight. Where a change of the
offset skips a midnight, or repeats it, the wall time of one start is carried to all that follow.

## Main results

* `report_windows`: a window follows the calendar when its midnights are clear, and only then
* `skipped_midnight`: a midnight that is skipped moves the later starts
-/

namespace Portico.ReportWindow

open Gregorian

/-- How the platform reads wall times: as the documentation of its library allows. -/
def Proper (z : Zone) (date : ℤ → ℤ) : Prop := ∀ w, z.Reading w (date w)

variable (z : Zone) (period : Period) (at' first : ℤ)

/-- The window that a captured end is given follows the calendar. -/
structure Follows (r : Interval) : Prop where
  adjacent : Adjacent r.fromMS r.buckets r.untilMS
  until_eq : r.untilMS = at'
  days : ∀ n, period.days = some (n, 1) → r.buckets.length = n ∧
    ∀ k, ∀ hk : k < r.buckets.length,
      FirstOf (localDay z) (localDay z at' - ((n : ℤ) - 1) + k) r.buckets[k].start
  months : period = .all → 0 ≤ first → first < at' → r.buckets ≠ [] ∧
    ∀ k, ∀ hk : k < r.buckets.length, FirstOf (localMonth z) (localMonth z first + k) r.buckets[k].start
  index : IndexRight r

/-- Whether an all-time window is within its bound. -/
def InReach : Prop :=
  period = .all → 0 ≤ first → first < at' → localMonth z at' - localMonth z first < maxMonths

/-- **The window follows the calendar**, however wall times are read. -/
def Fits : Prop :=
  ∀ date, Proper z date →
    (∀ fuel r, resolve z date fuel period at' first = .ok r → Follows z period at' first r) ∧
    (period ≠ .unknown → InReach z period at' first →
      ∃ fuel r, resolve z date fuel period at' first = .ok r)

/-- A day begins at its midnight, and the clock shows that midnight once. -/
def Begins (d t : ℤ) : Prop :=
  z.shown t = midnight d ∧ (∀ t', z.shown t' = midnight d → t' = t) ∧ FirstOf (localDay z) d t

/-- The days that begin the buckets of a window are clear, and in order. -/
def DaysClear (days step : ℕ) : Prop :=
  (∃ t, Begins z (localDay z at') t) ∧
  ∃ s : ℕ → ℤ,
    (∀ k < days / step, Begins z (localDay z at' - ((days : ℤ) - 1) + k * step) (s k)) ∧
    (∀ k, k + 1 < days / step → s k ≤ s (k + 1)) ∧
    (∀ k < days / step, s k ≤ at') ∧
    ∀ t, z.Reading (midnight (localDay z at' - ((days : ℤ) - 1) + (days / step : ℕ) * step)) t → at' ≤ t

/-- The first midnight of a month, counted from that of the first fact. -/
def factMidnight (k : ℕ) : ℤ := monthMidnight (localMonth z first + k)

/-- The first midnight of every month of the window can only be read as the first instant of that month,
or as no instant of the window. -/
def MonthsClear : Prop :=
  (∀ t, z.Reading (factMidnight z first 0) t → FirstOf (localMonth z) (localMonth z first) t) ∧
  ∀ k, (∀ j ≤ k, ∃ t < at', z.Reading (factMidnight z first j) t) →
    ∀ t, z.Reading (factMidnight z first (k + 1)) t → at' ≤ t ∨
      (FirstOf (localMonth z) (localMonth z first + (k + 1 : ℕ)) t ∧
        (localMonth z at' - localMonth z first < maxMonths → k + 1 < maxMonths) ∧
        ∀ t', z.Reading (factMidnight z first k) t' → t' < at' → t' ≤ t)

/-- **The condition** under which a window follows the calendar. -/
def Clear : Prop :=
  (∀ days step, period.days = some (days, step) → DaysClear z at' days step) ∧
  (∀ n, period.hours = some n → ∃ fuel : ℕ,
    n ≤ ((List.range fuel).filter fun i : ℕ => beginsHour z (at' / grain * grain - i * grain)).length) ∧
  (period = .all → 0 ≤ first → first < at' → MonthsClear z at' first)

variable {z period at' first} {date : ℤ → ℤ} {d t w : ℤ} {n k days step fuel : ℕ} {r : Interval}

/-! ## Reading wall times -/

theorem exists_proper (z : Zone) : ∃ date, Proper z date :=
  ⟨fun w => (z.exists_reading w).choose, fun w => (z.exists_reading w).choose_spec⟩

theorem Proper.update (h : Proper z date) (ht : z.Reading w t) :
    Proper z (Function.update date w t) := by
  intro v
  rcases eq_or_ne v w with rfl | hne
  · rwa [Function.update_self]
  · rw [Function.update_of_ne hne]
    exact h v

theorem Begins.date_eq (h : Begins z d t) (hproper : Proper z date) : date (midnight d) = t :=
  (Zone.reading_of_shown h.1 h.2.1).mp (hproper (midnight d))

theorem midnight_add (d e : ℤ) : midnight d + e * dayMs = midnight (d + e) := by
  unfold midnight
  ring

theorem midnight_sub (d e : ℤ) : midnight d - e * dayMs = midnight (d - e) := by
  unfold midnight
  ring

theorem localDay_of_shown (h : z.shown t = midnight d) : localDay z t = d := by
  unfold localDay midnight dayMs at *
  omega

/-! ## Windows of days -/

variable (z at' date days) in
/-- The start of the first day bucket. -/
def firstStart : ℤ := date (z.shown (date (midnight (localDay z at'))) - ((days : ℤ) - 1) * dayMs)

theorem DaysClear.dayStart_eq (h : DaysClear z at' days step) (hproper : Proper z date)
    (hk : k ≤ days / step) :
    dayStart z date step (firstStart z at' date days) k = date (midnight (localDay z at' - ((days : ℤ) - 1) + k * step)) := by
  obtain ⟨⟨t, ht⟩, s, hbegins, -⟩ := h
  rw [firstStart, ht.date_eq hproper, ht.1, midnight_sub]
  induction k with
  | zero => simp [dayStart]
  | succ k ih =>
    rw [dayStart, ih (by omega), (hbegins k (by omega)).date_eq hproper, (hbegins k (by omega)).1,
      midnight_add]
    congr 2
    push_cast
    ring

theorem DaysClear.follow (h : DaysClear z at' days step) (hproper : Proper z date)
    (hperiod : period.days = some (days, step)) (hall : period ≠ .all) :
    Follows z period at' first
      (interval at' (dayBuckets z date at' step (days / step) (firstStart z at' date days))) := by
  have hstart := fun k (hk : k ≤ days / step) => h.dayStart_eq hproper hk
  obtain ⟨-, s, hbegins, horder, hin, hout⟩ := h
  have hs : ∀ k < days / step, date (midnight (localDay z at' - ((days : ℤ) - 1) + k * step)) = s k :=
    fun k hk => (hbegins k hk).date_eq hproper
  have hadjacent : Adjacent _ _ at' := @adjacent_cut at' (days / step) (dayStart z date step (firstStart z at' date days)) (fun k hk => by
      rw [hstart k (by omega), hstart (k + 1) (by omega), hs k (by omega), hs (k + 1) hk]
      exact horder k hk) (fun k hk => by
      rw [hstart k hk.le, hs k hk]
      exact hin k hk) (by
      rw [hstart _ le_rfl]
      exact hout _ (hproper _))
  rw [dayBuckets_eq]
  refine ⟨hadjacent, rfl, fun n hn => ?_, fun hp => absurd hp hall, hadjacent.index (r := interval _ _)⟩
  rw [hperiod] at hn
  obtain ⟨rfl, rfl⟩ := Prod.mk.inj (Option.some.inj hn)
  simp only [Nat.div_one] at hs hstart hbegins ⊢
  refine ⟨by simp [interval], fun k hk => ?_⟩
  have hkd : k < days := by simpa [interval] using hk
  have hget : ((interval at' ((List.range days).map
      (cut (dayStart z date 1 (firstStart z at' date days)) at'))).buckets[k]).start = s k := by
    simp only [interval, List.getElem_map, List.getElem_range, cut]
    rw [hstart k hkd.le, hs k hkd]
  rw [hget]
  simpa using (hbegins k hkd).2.2

/-! ## Windows of months -/

/-- The starts of a clear window are its first midnights, as long as they are before the end. -/
theorem MonthsClear.monthBegin_eq (h : MonthsClear z at' first) (hproper : Proper z date)
    (hk : ∀ j < k, monthBegin z date (date (factMidnight z first 0)) j < at') :
    monthBegin z date (date (factMidnight z first 0)) k = date (factMidnight z first k) ∧
      (monthBegin z date (date (factMidnight z first 0)) k < at' →
        FirstOf (localMonth z) (localMonth z first + k)
          (monthBegin z date (date (factMidnight z first 0)) k)) := by
  induction k using Nat.strong_induction_on with
  | _ k ih =>
    cases k with
    | zero =>
      refine ⟨rfl, fun _ => ?_⟩
      rw [Nat.cast_zero, add_zero]
      exact h.1 _ (hproper _)
    | succ k =>
      obtain ⟨heq, hfirst⟩ := ih k (by omega) fun j hj => hk j (by omega)
      have hnext : monthBegin z date (date (factMidnight z first 0)) (k + 1) =
          date (factMidnight z first (k + 1)) := by
        rw [monthBegin, (hfirst (hk k (by omega))).1]
        unfold factMidnight
        congr 2
        push_cast
        ring
      refine ⟨hnext, fun hlt => ?_⟩
      rw [hnext] at hlt ⊢
      have hreached : ∀ j ≤ k, ∃ t < at', z.Reading (factMidnight z first j) t := fun j hj => by
        obtain ⟨heqj, -⟩ := ih j (by omega) fun i hi => hk i (by omega)
        exact ⟨_, hk j (by omega), heqj ▸ hproper _⟩
      rcases h.2 k hreached _ (hproper _) with hpast | ⟨hfirst', -⟩
      · exact absurd hpast (not_le.mpr hlt)
      · exact hfirst'

theorem MonthsClear.monthBegin_step (h : MonthsClear z at' first) (hproper : Proper z date)
    (hk : ∀ j ≤ k + 1, monthBegin z date (date (factMidnight z first 0)) j < at') :
    monthBegin z date (date (factMidnight z first 0)) k ≤
        monthBegin z date (date (factMidnight z first 0)) (k + 1) ∧
      (localMonth z at' - localMonth z first < maxMonths → k + 1 < maxMonths) := by
  have heq := fun j (hj : j ≤ k + 1) => (h.monthBegin_eq hproper fun i hi => hk i (by omega) :
    monthBegin z date (date (factMidnight z first 0)) j = _ ∧ _).1
  have hreached : ∀ j ≤ k, ∃ t < at', z.Reading (factMidnight z first j) t := fun j hj =>
    ⟨_, hk j (by omega), heq j (by omega) ▸ hproper _⟩
  have hlt := hk (k + 1) le_rfl
  have hltk := hk k (by omega)
  rw [heq (k + 1) le_rfl] at hlt ⊢
  rw [heq k (by omega)] at hltk ⊢
  rcases h.2 k hreached _ (hproper _) with hpast | ⟨-, hroom, horder⟩
  · exact absurd hpast (not_le.mpr hlt)
  · exact ⟨horder _ (hproper _) hltk, hroom⟩

theorem MonthsClear.follow (h : MonthsClear z at' first) (hproper : Proper z date)
    (hfirst : first < at') (hn : ∀ k < n, monthBegin z date (date (factMidnight z first 0)) k < at')
    (hout : at' ≤ monthBegin z date (date (factMidnight z first 0)) n) :
    Follows z .all at' first (interval at'
      ((List.range n).map (cut (monthBegin z date (date (factMidnight z first 0))) at'))) := by
  have hadjacent : Adjacent _ _ at' := adjacent_cut (n := n)
    (s := monthBegin z date (date (factMidnight z first 0)))
    (fun k hk => (h.monthBegin_step hproper fun j hj => hn j (by omega)).1)
    (fun k hk => (hn k hk).le) hout
  refine ⟨hadjacent, rfl, fun n hn => (nomatch hn), fun _ _ _ => ⟨?_, fun k hk => ?_⟩,
    hadjacent.index (r := interval _ _)⟩
  · -- the month of the first fact begins before the end
    have hstart := h.1 _ (hproper (factMidnight z first 0))
    have hle : date (factMidnight z first 0) ≤ first := hstart.le rfl
    intro hnil
    have hzero : n = 0 := by simpa [interval] using hnil
    subst hzero
    exact absurd hout (not_le.mpr (hle.trans_lt hfirst))
  · have hkn : k < n := by simpa [interval] using hk
    simp only [interval, List.getElem_map, List.getElem_range, cut]
    exact (h.monthBegin_eq hproper fun j hj => hn j (by omega)).2 (hn k hkn)

theorem MonthsClear.exists_end (h : MonthsClear z at' first) (hproper : Proper z date)
    (hreach : localMonth z at' - localMonth z first < maxMonths) :
    ∃ n ≤ maxMonths, (∀ k < n, monthBegin z date (date (factMidnight z first 0)) k < at') ∧
      at' ≤ monthBegin z date (date (factMidnight z first 0)) n := by
  have hsome : ∃ n ≤ maxMonths, at' ≤ monthBegin z date (date (factMidnight z first 0)) n := by
    by_contra hnone
    have hall : ∀ j ≤ maxMonths, monthBegin z date (date (factMidnight z first 0)) j < at' :=
      fun j hj => by
        by_contra hle
        exact hnone ⟨j, hj, not_lt.mp hle⟩
    have hstep := (h.monthBegin_step (k := maxMonths - 1) hproper fun j hj => hall j (by
      unfold maxMonths at *
      omega)).2 hreach
    unfold maxMonths at hstep
    omega
  obtain ⟨n, hn, hout⟩ := hsome
  have hends : ∃ n, at' ≤ monthBegin z date (date (factMidnight z first 0)) n := ⟨n, hout⟩
  refine ⟨Nat.find hends, (Nat.find_min' hends hout).trans hn, fun k hk => ?_, Nat.find_spec hends⟩
  exact not_le.mp (Nat.find_min hends hk)

theorem factMidnight_zero : factMidnight z first 0 = monthMidnight (localMonth z first) := by
  unfold factMidnight
  rw [Nat.cast_zero, add_zero]

/-! ## The condition is enough -/

theorem adjacent_hours {starts : List ℤ}
    (h : hourStarts z fuel n (at' / grain * grain) = some starts) :
    Adjacent (((hourBuckets at' true starts).head?.map Bucket.start).getD at')
      (hourBuckets at' true starts) at' := by
  obtain ⟨hbelow, hsorted⟩ := List.pairwise_cons.mp (hourStarts_spec h).2
  have hquarter : at' / grain * grain ≤ at' := by
    unfold grain
    omega
  exact adjacent_hourBuckets
    (List.pairwise_cons.mpr ⟨fun b hb => (hbelow b hb).trans hquarter, hsorted⟩)

theorem Clear.fits (h : Clear z period at' first) : Fits z period at' first := by
  obtain ⟨hdays, hhours, hmonths⟩ := h
  intro date hproper
  have hplain (l : List Bucket) (hl : Adjacent (((l.head?).map Bucket.start).getD at') l at')
      (hnone : period.days = none) (hall : ¬ (period = .all ∧ 0 ≤ first ∧ first < at')) :
      Follows z period at' first (interval at' l) := by
    refine ⟨hl, rfl, fun n hn => ?_, fun h₁ h₂ h₃ => absurd ⟨h₁, h₂, h₃⟩ hall,
      Adjacent.index (r := interval at' l) hl⟩
    rw [hnone] at hn
    cases hn
  have hspan (length : ℤ) (hlength : 0 ≤ length) :
      Adjacent (at' - length) [⟨at' - length, at', false⟩] at' := ⟨rfl, by simpa using hlength, rfl⟩
  cases period with
  | unknown => exact ⟨fun fuel r hr => (nomatch hr), fun hknown => absurd rfl hknown⟩
  | today | week | month | quarter | year =>
    refine ⟨fun fuel r hr => ?_, fun _ _ => ⟨0, _, rfl⟩⟩
    obtain rfl := Except.ok.inj hr
    exact (hdays _ _ rfl).follow hproper rfl (nomatch ·)
  | live | tenMinutes | hour =>
    refine ⟨fun fuel r hr => ?_, fun _ _ => ⟨0, _, rfl⟩⟩
    obtain rfl := Except.ok.inj hr
    exact hplain _ (hspan _ (by decide)) rfl (nomatch ·.1)
  | halfDay | day =>
    refine ⟨fun fuel r hr => ?_, fun _ _ => ?_⟩
    · unfold resolve at hr
      simp only at hr
      split at hr
      · cases hr
      · rename_i starts hstarts
        obtain rfl := Except.ok.inj hr
        exact hplain _ (adjacent_hours hstarts) rfl (nomatch ·.1)
    · obtain ⟨fuel, hfuel⟩ := hhours _ rfl
      obtain ⟨starts, hstarts⟩ := Option.ne_none_iff_exists'.mp (hourStarts_ne_none.mpr hfuel)
      refine ⟨fuel, interval at' (hourBuckets at' true starts), ?_⟩
      unfold resolve
      simp only [Period.hours, Option.getD_some, hstarts]
  | all =>
    unfold resolve
    simp only [Bool.and_eq_true, decide_eq_true_eq]
    by_cases hfact : 0 ≤ first ∧ first < at'
    · simp only [hfact.1, hfact.2, and_self, if_true]
      have hmonths := hmonths rfl hfact.1 hfact.2
      refine ⟨fun fuel r hr => ?_, fun _ hreach => ?_⟩
      · split at hr
        · cases hr
        · rename_i buckets hbuckets
          obtain rfl := Except.ok.inj hr
          rw [← factMidnight_zero] at hbuckets
          obtain ⟨n, -, hin, hout, rfl⟩ := monthBuckets_eq.mp hbuckets
          exact hmonths.follow hproper hfact.2 hin hout
      · obtain ⟨n, hn, hin, hout⟩ := hmonths.exists_end hproper (hreach rfl hfact.1 hfact.2)
        rw [← factMidnight_zero, monthBuckets_eq.mpr ⟨n, hn, hin, hout, rfl⟩]
        exact ⟨0, _, rfl⟩
    · rw [if_neg hfact]
      refine ⟨fun fuel r hr => ?_, fun _ _ => ⟨0, _, rfl⟩⟩
      obtain rfl := Except.ok.inj hr
      exact hplain [] rfl rfl fun h => hfact h.2

/-! ## The condition is needed: days -/

theorem Fits.follows_days (h : Fits z period at' first) (hproper : Proper z date)
    (hperiod : period.days = some (n, 1)) :
    (∀ k < n, FirstOf (localDay z) (localDay z at' - ((n : ℤ) - 1) + k)
        (dayStart z date 1 (firstStart z at' date n) k)) ∧
      Adjacent (((((List.range n).map (cut (dayStart z date 1 (firstStart z at' date n)) at')).head?).map
          Bucket.start).getD at')
        ((List.range n).map (cut (dayStart z date 1 (firstStart z at' date n)) at')) at' := by
  have hok : resolve z date 0 period at' first = .ok (interval at' ((List.range n).map (cut
      (dayStart z date 1 (firstStart z at' date n)) at'))) := by
    rw [← dayBuckets_eq]
    cases period <;> first | (cases hperiod; rfl) | cases hperiod
  have hfollows := (h date hproper).1 0 _ hok
  obtain ⟨-, hstarts⟩ := hfollows.days n hperiod
  refine ⟨fun k hk => ?_, hfollows.adjacent⟩
  have hfirst := hstarts k (by simpa [interval] using hk)
  simpa [interval, cut] using hfirst

/-- The last midnight of a window can only be read as the start of the last bucket, and the first start is
as many days before it as the window has. -/
theorem last_reading {f : ℕ → ℤ} (hproper : Proper z date)
    (hsame : ∀ date', Proper z date' → ∀ k < n + 1,
      dayStart z date' 1 (firstStart z at' date' (n + 1)) k = f k)
    (hfirst : FirstOf (localDay z) (localDay z at' - n) (f 0))
    (hwalls : ∀ k < n, z.shown (f (k + 1)) = z.shown (f k) + dayMs ∧
      ∀ t, z.shown t = z.shown (f (k + 1)) → t = f (k + 1))
    (ht : z.Reading (midnight (localDay z at')) t) :
    t = f n ∧ z.shown (f 0) = z.shown t - n * dayMs ∧
      (0 < n → ∀ t', z.shown t' = z.shown (f 0) → t' = f 0) := by
  have hcast : ((n + 1 : ℕ) : ℤ) - 1 = n := by
    push_cast
    ring
  have hrun : ∀ k ≤ n, z.shown (f k) = z.shown (f 0) + k * dayMs := by
    intro k hk
    induction k with
    | zero => simp
    | succ k ih =>
      rw [(hwalls k (by omega)).1, ih (by omega)]
      push_cast
      ring
  have hproper₁ := hproper.update ht
  have hstart := hsame _ hproper₁ 0 (by omega)
  rw [dayStart, firstStart, hcast, Function.update_self] at hstart
  by_cases hv : z.shown t - n * dayMs = midnight (localDay z at')
  · -- the first wall time is the midnight itself, so there is but one day
    rw [hv, Function.update_self] at hstart
    have hday : localDay z t = localDay z at' + n :=
      localDay_of_shown (by rw [← midnight_add, ← hv]; ring)
    rw [hstart, hfirst.1] at hday
    obtain rfl : n = 0 := by omega
    refine ⟨hstart, by rw [hstart]; simp, fun h => absurd h (lt_irrefl 0)⟩
  · have hread : ∀ b, z.Reading (z.shown t - n * dayMs) b → b = f 0 := by
      intro b hb
      have hstart := hsame _ (hproper₁.update hb) 0 (by omega)
      rwa [dayStart, firstStart, hcast, Function.update_of_ne (Ne.symm hv), Function.update_self,
        Function.update_self] at hstart
    obtain ⟨hshown, honly⟩ := Zone.shown_of_readings hread
    refine ⟨?_, hshown, fun _ t' ht' => honly t' (ht'.trans hshown)⟩
    cases n with
    | zero => exact honly t (by simp)
    | succ n =>
      refine (hwalls n (by omega)).2 t ?_
      rw [hrun (n + 1) le_rfl, hshown]
      ring

/-- **Windows of days** that follow the calendar have clear midnights. -/
theorem Fits.daysClear (h : Fits z period at' first) (hperiod : period.days = some (n + 1, 1)) :
    DaysClear z at' (n + 1) 1 := by
  obtain ⟨date, hproper⟩ := exists_proper z
  have hcast : ((n + 1 : ℕ) : ℤ) - 1 = n := by
    push_cast
    ring
  set f := dayStart z date 1 (firstStart z at' date (n + 1)) with hf
  obtain ⟨hfirst, hadjacent⟩ := h.follows_days hproper hperiod
  rw [hcast] at hfirst
  -- the starts are the same for every reading
  have hsame : ∀ date', Proper z date' → ∀ k < n + 1,
      dayStart z date' 1 (firstStart z at' date' (n + 1)) k = f k := fun date' hproper' k hk => by
    have hfirst' := (h.follows_days hproper' hperiod).1 k hk
    rw [hcast] at hfirst'
    exact hfirst'.unique (hfirst k hk)
  have hwalls : ∀ k < n, z.shown (f (k + 1)) = z.shown (f k) + dayMs ∧
      ∀ t, z.shown t = z.shown (f (k + 1)) → t = f (k + 1) := by
    intro k hk
    have hread : ∀ t, z.Reading (z.shown (f k) + dayMs) t → t = f (k + 1) := by
      intro t ht
      have hproper' := hproper.update ht
      have hnext := hsame _ hproper' (k + 1) (by omega)
      rw [dayStart, hsame _ hproper' k (by omega), Nat.cast_one, one_mul,
        Function.update_self] at hnext
      exact hnext
    obtain ⟨hshown, honly⟩ := Zone.shown_of_readings hread
    exact ⟨hshown, fun t ht => honly t (ht.trans hshown)⟩
  have hlast := fun t (ht : z.Reading (midnight (localDay z at')) t) =>
    last_reading hproper hsame (by simpa using hfirst 0 (by omega)) hwalls ht
  obtain ⟨hend, hendonly⟩ := Zone.shown_of_readings fun t ht => (hlast t ht).1
  obtain ⟨-, hzero, hzeroonly⟩ := hlast (f n) ((Zone.reading_of_shown hend hendonly).mpr rfl)
  have hshown : ∀ k ≤ n, z.shown (f k) = midnight (localDay z at' - n + k) := by
    intro k hk
    rw [← midnight_add, ← midnight_sub, ← hend, ← hzero]
    induction k with
    | zero => simp
    | succ k ih =>
      rw [(hwalls k (by omega)).1, ih (by omega)]
      push_cast
      ring
  have honly : ∀ k ≤ n, ∀ t, z.shown t = z.shown (f k) → t = f k := by
    intro k hk t ht
    cases k with
    | zero =>
      rcases Nat.eq_zero_or_pos n with rfl | hpos
      · exact hendonly t (ht.trans hend)
      · exact hzeroonly hpos t ht
    | succ k => exact (hwalls k (by omega)).2 t ht
  have hbegins : ∀ k ≤ n, Begins z (localDay z at' - n + k) (f k) := fun k hk =>
    ⟨hshown k hk, fun t ht => honly k hk t (ht.trans (hshown k hk).symm), hfirst k (by omega)⟩
  unfold DaysClear
  simp only [Nat.div_one, hcast, Nat.cast_one, mul_one]
  refine ⟨⟨f n, by simpa using hbegins n le_rfl⟩, f, fun k hk => hbegins k (by omega), ?_, ?_, ?_⟩
  · intro k hk
    have hk' : k < ((List.range (n + 1)).map (cut f at')).length := by simpa using by omega
    have hplace := hadjacent.getElem hk'
    have hnext := hplace.2.2.2.2.2 (by simpa using hk)
    simp only [List.getElem_map, List.getElem_range, cut] at hplace hnext
    exact hplace.2.1.trans hnext.ge
  · intro k hk
    have hplace := hadjacent.getElem (k := k) (by simpa using hk)
    simp only [List.getElem_map, List.getElem_range, cut] at hplace
    exact hplace.2.1.trans hplace.2.2.1
  · intro t ht
    have hproper' := hproper.update ht
    obtain ⟨-, hadjacent'⟩ := h.follows_days hproper' hperiod
    have hplace := hadjacent'.getElem (k := n) (by simp)
    have hstop := hplace.2.2.2.2.1 (by simp)
    simp only [List.getElem_map, List.getElem_range, cut] at hstop
    rw [dayStart, hsame _ hproper' n (by omega), hend, Nat.cast_one, one_mul] at hstop
    have hmidnight : midnight (localDay z at') + dayMs =
        midnight (localDay z at' - n + (n + 1 : ℕ)) := by
      unfold midnight
      push_cast
      ring
    rw [hmidnight, Function.update_self] at hstop
    exact min_eq_right_iff.mp hstop

/-! ## The condition is needed: months and hours -/

theorem Fits.follows_months (h : Fits z .all at' first) (hproper : Proper z date) (hpast : 0 ≤ first)
    (hfirst : first < at') (hreach : localMonth z at' - localMonth z first < maxMonths) :
    ∃ n ≤ maxMonths, 0 < n ∧
      (∀ k < n, monthBegin z date (date (factMidnight z first 0)) k < at' ∧
        FirstOf (localMonth z) (localMonth z first + k)
          (monthBegin z date (date (factMidnight z first 0)) k)) ∧
      (∀ k, k + 1 < n → monthBegin z date (date (factMidnight z first 0)) k ≤
        monthBegin z date (date (factMidnight z first 0)) (k + 1)) ∧
      at' ≤ monthBegin z date (date (factMidnight z first 0)) n := by
  obtain ⟨hfollows, hsome⟩ := h date hproper
  obtain ⟨fuel, r, hr⟩ := hsome (nomatch ·) fun _ _ _ => hreach
  have hfollows := hfollows fuel r hr
  unfold resolve at hr
  simp only [hpast, hfirst, decide_true, Bool.and_self, if_true] at hr
  split at hr
  · cases hr
  · rename_i buckets hbuckets
    obtain rfl := Except.ok.inj hr
    rw [← factMidnight_zero] at hbuckets
    obtain ⟨n, hn, hin, hout, rfl⟩ := monthBuckets_eq.mp hbuckets
    obtain ⟨hne, hstarts⟩ := hfollows.months rfl hpast hfirst
    refine ⟨n, hn, ?_, fun k hk => ⟨hin k hk, ?_⟩, fun k hk => ?_, hout⟩
    · by_contra hzero
      obtain rfl : n = 0 := by omega
      exact hne rfl
    · have hstart := hstarts k (by simpa [interval] using hk)
      simpa [interval, cut] using hstart
    · have hk' : k < ((List.range n).map
          (cut (monthBegin z date (date (factMidnight z first 0))) at')).length := by
        rw [List.length_map, List.length_range]
        omega
      have hplace := hfollows.adjacent.getElem (k := k) hk'
      have hnext := hplace.2.2.2.2.2 (by simpa [interval] using hk)
      simp only [interval, List.getElem_map, List.getElem_range, cut] at hplace hnext
      exact hplace.2.1.trans hnext.ge

theorem factMidnight_inj (h : factMidnight z first k = factMidnight z first n) : k = n := by
  unfold factMidnight monthMidnight midnight dayMs at h
  have hstart : monthStart (localMonth z first + k) = monthStart (localMonth z first + n) := by omega
  have := strictMono_monthStart.injective hstart
  omega

/-- A reading of every wall time that is in the window where there is one. -/
theorem exists_early (z : Zone) (at' : ℤ) :
    ∃ date, Proper z date ∧ ∀ w, (∃ t < at', z.Reading w t) → date w < at' := by
  have hchoice : ∀ w, ∃ t, z.Reading w t ∧ ((∃ t < at', z.Reading w t) → t < at') := by
    intro w
    by_cases hearly : ∃ t < at', z.Reading w t
    · obtain ⟨t, hlt, ht⟩ := hearly
      exact ⟨t, ht, fun _ => hlt⟩
    · obtain ⟨t, ht⟩ := z.exists_reading w
      exact ⟨t, ht, fun h => absurd h hearly⟩
  choose date hdate using hchoice
  exact ⟨date, fun w => (hdate w).1, fun w => (hdate w).2⟩

/-- **Windows of months** that follow the calendar have clear midnights. -/
theorem Fits.monthsClear (h : Fits z .all at' first) (hpast : 0 ≤ first) (hfirst : first < at')
    (hreach : localMonth z at' - localMonth z first < maxMonths) : MonthsClear z at' first := by
  refine ⟨fun t ht => ?_, fun k hk t ht => ?_⟩
  · obtain ⟨date, hproper⟩ := exists_proper z
    obtain ⟨n, -, hn, hstarts, -⟩ := h.follows_months (hproper.update ht) hpast hfirst hreach
    have hstart := (hstarts 0 hn).2
    rw [monthBegin, Function.update_self] at hstart
    simpa using hstart
  · by_contra hnot
    rw [not_or, not_le] at hnot
    obtain ⟨hlt, hnot⟩ := hnot
    -- each month before is read as early as it can be, and this one as `t`
    have hbuckets : ∀ t', z.Reading (factMidnight z first k) t' → t' < at' →
        FirstOf (localMonth z) (localMonth z first + (k + 1 : ℕ)) t ∧ k + 1 < maxMonths ∧ t' ≤ t := by
      intro t' ht' hlt'
      obtain ⟨date₀, hproper₀, hearly⟩ := exists_early z at'
      have hproper := (hproper₀.update ht').update ht
      set date := Function.update (Function.update date₀ (factMidnight z first k) t')
        (factMidnight z first (k + 1)) t with hdate
      have hnext : date (factMidnight z first (k + 1)) = t := Function.update_self _ _ _
      have hthis : date (factMidnight z first k) = t' := by
        rw [hdate, Function.update_of_ne fun heq => absurd (factMidnight_inj heq) (by omega),
          Function.update_self]
      have hbefore : ∀ j ≤ k + 1, date (factMidnight z first j) < at' := by
        intro j hj
        rcases hj.eq_or_lt with rfl | hj
        · rwa [hnext]
        · rcases (Nat.lt_succ_iff.mp hj).eq_or_lt with rfl | hjk
          · rwa [hthis]
          · rw [hdate, Function.update_of_ne fun heq => absurd (factMidnight_inj heq) (by omega),
              Function.update_of_ne fun heq => absurd (factMidnight_inj heq) (by omega)]
            exact hearly _ (hk j (by omega))
      obtain ⟨n, hn, hpos, hstarts, horder, hout⟩ := h.follows_months hproper hpast hfirst hreach
      have hrun : ∀ j ≤ k + 1,
          monthBegin z date (date (factMidnight z first 0)) j = date (factMidnight z first j) ∧ j < n := by
        intro j hj
        induction j with
        | zero => exact ⟨rfl, hpos⟩
        | succ j ih =>
          obtain ⟨heq, hjn⟩ := ih (by omega)
          have hstep : monthBegin z date (date (factMidnight z first 0)) (j + 1) =
              date (factMidnight z first (j + 1)) := by
            rw [monthBegin, (hstarts j hjn).2.1]
            unfold factMidnight
            congr 2
            push_cast
            ring
          refine ⟨hstep, ?_⟩
          by_contra hle
          obtain rfl : n = j + 1 := by omega
          rw [hstep] at hout
          exact absurd hout (not_le.mpr (hbefore _ hj))
      obtain ⟨heq, hkn⟩ := hrun (k + 1) le_rfl
      obtain ⟨heqk, -⟩ := hrun k (by omega)
      have hfirst' := (hstarts (k + 1) hkn).2
      have hle := horder k hkn
      rw [heq, hnext] at hfirst' hle
      rw [heqk, hthis] at hle
      exact ⟨hfirst', by omega, hle⟩
    obtain ⟨t', hlt', ht'⟩ := hk k le_rfl
    exact hnot ⟨(hbuckets t' ht' hlt').1, fun _ => (hbuckets t' ht' hlt').2.1,
      fun t' ht' hlt' => (hbuckets t' ht' hlt').2.2⟩

theorem Fits.hours (h : Fits z period at' first) (hperiod : period.hours = some n) :
    ∃ fuel : ℕ, n ≤ ((List.range fuel).filter fun i : ℕ =>
      beginsHour z (at' / grain * grain - i * grain)).length := by
  obtain ⟨date, hproper⟩ := exists_proper z
  obtain ⟨-, hsome⟩ := h date hproper
  have hknown : period ≠ .unknown := by
    rintro rfl
    cases hperiod
  have hreach : InReach z period at' first := by
    rintro rfl
    cases hperiod
  obtain ⟨fuel, r, hr⟩ := hsome hknown hreach
  refine ⟨fuel, hourStarts_ne_none.mp fun hnone => ?_⟩
  have hfailed : resolve z date fuel period at' first = .error .unfinished := by
    cases period <;> cases hperiod <;>
      simp only [resolve, Period.hours, Option.getD_some, hnone]
  rw [hfailed] at hr
  cases hr

/-- **Report windows.** A window follows the calendar wherever its midnights are clear; and where it
does, they are, but for the weeks of a year and for months out of reach. -/
theorem report_windows (z : Zone) (period : Period) (at' first : ℤ) :
    (Clear z period at' first → Fits z period at' first) ∧
      (period ≠ .year → InReach z period at' first → Fits z period at' first →
        Clear z period at' first) := by
  refine ⟨Clear.fits, fun hyear hreach h => ⟨fun days step hdays => ?_, fun n hn => h.hours hn, ?_⟩⟩
  · obtain ⟨rfl, hpos⟩ : step = 1 ∧ 0 < days := by
      cases period with
      | year => exact absurd rfl hyear
      | today | week | month | quarter =>
        cases hdays
        decide
      | _ => cases hdays
    obtain ⟨n, rfl⟩ : ∃ n, days = n + 1 := ⟨days - 1, by omega⟩
    exact h.daysClear hdays
  · rintro rfl hpast hfirst
    exact h.monthsClear hpast hfirst (hreach rfl hpast hfirst)

/-- A zone whose clock goes from midnight to one at the start of the seventh of September 2025. -/
def springZone : Zone where
  offset t := if t < 1757217600000 then -14400000 else -10800000
  bounded := ⟨14400000, fun t => by split_ifs <;> decide⟩

/-- The skipped hour is read with the offset after it. -/
def springDate (w : ℤ) : ℤ := if w < 1757203200000 then w + 14400000 else w + 10800000

theorem proper_springDate : Proper springZone springDate := by
  intro w
  have hshown : ∀ t, springZone.shown t =
      if t < 1757217600000 then t - 14400000 else t - 10800000 := fun t => by
    unfold Zone.shown springZone
    simp only
    split_ifs <;> ring
  unfold springDate
  by_cases hskipped : 1757203200000 ≤ w ∧ w < 1757206800000
  · refine .inr ⟨?_, 1757217600000, .inl ?_, .inr ?_⟩
    · rintro ⟨t, ht, -⟩
      simp only [hshown] at ht
      split_ifs at ht <;> omega
    · have hturn : springZone.offset (1757217600000 - 1) = -14400000 ∧
          springZone.offset 1757217600000 = -10800000 := by decide
      rw [hturn.1, hturn.2]
      omega
    · have hafter : springZone.offset 1757217600000 = -10800000 := by decide
      rw [hafter, if_neg (by omega)]
      ring
  · refine .inl ⟨⟨springDate w, ?_, fun t ht => ?_⟩, ?_⟩ <;> simp only [hshown, springDate] at * <;>
      split_ifs at * <;> omega

/-- **A skipped midnight**: of the seven days to the tenth of September, the fourth begins an hour early,
on the day before, and so do those after it. -/
theorem skipped_midnight :
    ¬ ∀ (z : Zone) (period : Period) (at' first : ℤ), Fits z period at' first := by
  intro h
  obtain ⟨hfollows, -⟩ := h springZone .week 1757505600000 (-1) springDate proper_springDate
  have hstart := ((hfollows 0 _ rfl).days 7 rfl).2 3 (by decide)
  exact absurd hstart.1 (by decide +kernel)

/-- The zone without an offset. -/
def utc : Zone := ⟨fun _ => 0, Zone.bounded_zero⟩

theorem utc_begins (d : ℤ) : Begins utc d (midnight d) := by
  have hshown (t : ℤ) : utc.shown t = t := add_zero t
  refine ⟨hshown _, fun t ht => hshown t ▸ ht, ?_, fun t ht heq => ?_⟩ <;>
    unfold localDay midnight dayMs at * <;> rw [hshown] at * <;> omega

/-- The days up to the tenth of September 2025, without an offset. -/
theorem report_windows_utc : Fits utc .week 1757505600000 (-1) := by
  refine (report_windows utc .week 1757505600000 (-1)).1
    ⟨fun days step hdays => ?_, fun n hn => (nomatch hn), (nomatch ·)⟩
  obtain ⟨rfl, rfl⟩ := Prod.mk.inj (Option.some.inj hdays)
  have hday : localDay utc 1757505600000 = 20341 := by decide +kernel
  unfold DaysClear
  rw [hday]
  refine ⟨⟨_, utc_begins _⟩, fun k => midnight (20335 + k), fun k _ => ?_, fun k _ => ?_, fun k hk => ?_,
    fun t ht => ?_⟩
  · simpa using utc_begins (20335 + k)
  · simp only [midnight, dayMs]
    omega
  · simp only [midnight, dayMs]
    omega
  · rw [(Zone.reading_of_shown (utc_begins _).1 (utc_begins _).2.1).mp ht]
    decide

end Portico.ReportWindow
