import Portico.Lib.Zone
import Portico.Lib.Search

/-!
# Report windows: the intervals of a report

An owner's report is cut into buckets along the calendar of a time zone: hours, days, weeks or months up
to the captured end. Instants and wall times are in milliseconds. How the platform reads a wall time as
an instant is an argument, `date`.

## Main definitions

* `resolve`: the interval of a period that ends at a captured instant
* `Interval.index`: the bucket of an instant
* `cut`: a bucket between two of a sequence of starts

## Main results

* `dayBuckets_eq`, `monthBuckets_eq`: the buckets between consecutive starts
* `Adjacent.index`: the bucket that an instant is given is the one that contains it
-/

namespace Portico.ReportWindow

open Gregorian

def grain : ℤ := 900000
def dayMs : ℤ := 86400000

structure Bucket where
  start : ℤ
  stop : ℤ
  part : Bool
deriving DecidableEq, Repr

/-- The starts of the buckets, which the source keeps in a list of their own, are read off them. -/
structure Interval where
  buckets : List Bucket
  fromMS : ℤ
  untilMS : ℤ
deriving DecidableEq, Repr

inductive Period
  | today
  | week
  | month
  | quarter
  | year
  | halfDay
  | day
  | all
  | live
  | tenMinutes
  | hour
  | unknown
deriving DecidableEq, Repr

inductive Failure
  | invalid
  | unfinished
deriving DecidableEq, Repr

/-- The days of a period that is counted in days, and how many a bucket has. -/
def Period.days : Period → Option (ℕ × ℕ)
  | .today => some (1, 1)
  | .week => some (7, 1)
  | .month => some (30, 1)
  | .quarter => some (90, 1)
  | .year => some (364, 7)
  | _ => none

/-- The hours of a period that is counted in hours. -/
def Period.hours : Period → Option ℕ
  | .halfDay => some 12
  | .day => some 24
  | _ => none

/-- How far back a period of a fixed length reaches. -/
def Period.span : Period → ℤ
  | .tenMinutes => 600000
  | .hour => 3600000
  | _ => 120000

/-! ## The calendar -/

variable (z : Zone)

def localDay (t : ℤ) : ℤ := z.shown t / dayMs
def midnight (d : ℤ) : ℤ := d * dayMs
def localMonth (t : ℤ) : ℤ := monthOf (localDay z t)

/-- The first midnight of a month. -/
def monthMidnight (m : ℤ) : ℤ := midnight (monthStart m)

/-- Whether a quarter of an hour begins a local hour, or another offset. -/
def beginsHour (t : ℤ) : Bool :=
  z.shown t / 60000 % 60 == 0 || z.offset t != z.offset (t - 1)

/-! ## The buckets -/

variable (date : ℤ → ℤ)

/-- The last so many starts of hours, back from a quarter of an hour. -/
def hourStarts : ℕ → ℕ → ℤ → Option (List ℤ)
  | _, 0, _ => some []
  | 0, _ + 1, _ => none
  | fuel + 1, n + 1, t =>
    if beginsHour z t then (hourStarts fuel n (t - grain)).map (t :: ·)
    else hourStarts fuel (n + 1) (t - grain)

/-- The hours that begin at these starts, the last of which comes first. -/
def hourBuckets : ℤ → Bool → List ℤ → List Bucket
  | _, _, [] => []
  | stop, part, t :: l => hourBuckets t false l ++ [⟨t, stop, part⟩]

def dayBuckets (at' : ℤ) (step : ℕ) : ℕ → ℤ → List Bucket
  | 0, _ => []
  | n + 1, start =>
    let stop := date (z.shown start + step * dayMs)
    ⟨start, min stop at', min stop at' < stop⟩ :: dayBuckets at' step n stop

/-- The months from a start, as long as there is room for one more. -/
def monthBuckets (at' : ℤ) : ℕ → ℤ → Option (List Bucket)
  | 0, start => if start < at' then none else some []
  | room + 1, start =>
    if start < at' then
      let stop := date (monthMidnight (localMonth z start + 1))
      (monthBuckets at' room stop).map (⟨start, min stop at', min stop at' < stop⟩ :: ·)
    else some []

def maxMonths : ℕ := 1201

def interval (at' : ℤ) (buckets : List Bucket) : Interval where
  buckets := buckets
  fromMS := ((buckets.head?).map Bucket.start).getD at'
  untilMS := at'

/-- **The interval** of a period that ends at an instant. The first fact is negative when there is none. -/
def resolve (fuel : ℕ) (period : Period) (at' first : ℤ) : Except Failure Interval :=
  let today := date (midnight (localDay z at'))
  match period with
  | .unknown => .error .invalid
  | .live | .tenMinutes | .hour => .ok (interval at' [⟨at' - period.span, at', false⟩])
  | .halfDay | .day =>
    match hourStarts z fuel (period.hours.getD 0) (at' / grain * grain) with
    | none => .error .unfinished
    | some starts => .ok (interval at' (hourBuckets at' true starts))
  | .all =>
    if 0 ≤ first && first < at' then
      match monthBuckets z date at' maxMonths (date (monthMidnight (localMonth z first))) with
      | none => .error .invalid
      | some buckets => .ok (interval at' buckets)
    else .ok (interval at' [])
  | .today | .week | .month | .quarter | .year =>
    let days := (period.days.getD (0, 1)).1
    let step := (period.days.getD (0, 1)).2
    .ok (interval at' (dayBuckets z date at' step (days / step)
      (date (z.shown today - ((days : ℤ) - 1) * dayMs))))

/-- **The bucket** of an instant, and whether it is in the interval. -/
def Interval.index (r : Interval) (t : ℤ) : ℤ × Bool :=
  let later := fun i => decide (t < ((r.buckets[i]?).map Bucket.start).getD t)
  let i : ℤ := search r.buckets.length later - 1
  (i, decide (0 ≤ i ∧ r.fromMS ≤ t ∧ t < r.untilMS))

/-! ## Buckets that follow each other -/

variable {z date} {lo mid hi at' t : ℤ} {l l' : List Bucket} {b : Bucket} {n k room step : ℕ}

/-- Each bucket begins where the one before it ends, and the last ends at the end. -/
def Adjacent : ℤ → List Bucket → ℤ → Prop
  | lo, [], hi => lo = hi
  | lo, b :: l, hi => b.start = lo ∧ b.start ≤ b.stop ∧ Adjacent b.stop l hi

theorem Adjacent.le (h : Adjacent lo l hi) : lo ≤ hi := by
  induction l generalizing lo with
  | nil => exact le_of_eq h
  | cons b l ih => exact h.1 ▸ h.2.1.trans (ih h.2.2)

theorem Adjacent.append (h : Adjacent lo l mid) (h' : Adjacent mid l' hi) : Adjacent lo (l ++ l') hi := by
  induction l generalizing lo with
  | nil => exact h ▸ h'
  | cons b l ih => exact ⟨h.1, h.2.1, ih h.2.2⟩

theorem Adjacent.getElem (h : Adjacent lo l hi) (hk : k < l.length) :
    lo ≤ l[k].start ∧ l[k].start ≤ l[k].stop ∧ l[k].stop ≤ hi ∧
      (∀ j (hj : j < l.length), k < j → l[k].stop ≤ l[j].start) ∧
      (k + 1 = l.length → l[k].stop = hi) ∧
      ∀ hnext : k + 1 < l.length, l[k + 1].start = l[k].stop := by
  induction l generalizing lo k with
  | nil => exact absurd hk (Nat.not_lt_zero k)
  | cons b l ih =>
    obtain ⟨hstart, hle, hrest⟩ := h
    cases k with
    | zero =>
      refine ⟨hstart.ge, hle, hrest.le, ?_, ?_, ?_⟩
      · intro j hj hpos
        obtain ⟨j, rfl⟩ : ∃ i, j = i + 1 := ⟨j - 1, by omega⟩
        exact (ih hrest (by simpa using hj)).1
      · intro hend
        obtain rfl : l = [] := List.length_eq_zero_iff.mp (by simpa using hend.symm)
        exact hrest
      · intro hnext
        cases l with
        | nil => simp at hnext
        | cons c l => exact hrest.1
    | succ k =>
      have hk' : k < l.length := by simpa using hk
      obtain ⟨hlow, hlen, hhigh, hlater, hlast, hnext⟩ := ih hrest hk'
      refine ⟨?_, hlen, hhigh, ?_, ?_, ?_⟩
      · rw [← hstart]
        exact hle.trans hlow
      · intro j hj hkj
        obtain ⟨j, rfl⟩ : ∃ i, j = i + 1 := ⟨j - 1, by omega⟩
        exact hlater j (by simpa using hj) (by omega)
      · exact fun hend => hlast (by simpa using hend)
      · exact fun hmore => hnext (by simpa using hmore)

theorem Adjacent.cover (h : Adjacent lo l hi) (hlo : lo ≤ t) (hhi : t < hi) :
    ∃ k, ∃ hk : k < l.length, l[k].start ≤ t ∧ t < l[k].stop := by
  induction l generalizing lo with
  | nil =>
    have : lo = hi := h
    omega
  | cons b l ih =>
    obtain ⟨hstart, -, hrest⟩ := h
    rcases lt_or_ge t b.stop with ht | ht
    · exact ⟨0, by simp, hstart.trans_le hlo, ht⟩
    · obtain ⟨k, hk, hin⟩ := ih hrest ht
      exact ⟨k + 1, by simpa using hk, hin⟩

/-- The index of an instant is that of the bucket that contains it, and no other instant has one. -/
def IndexRight (r : Interval) : Prop :=
  ∀ t, (r.fromMS ≤ t → t < r.untilMS → ∃ k, ∃ hk : k < r.buckets.length, r.index t = ((k : ℤ), true) ∧
      r.buckets[k].start ≤ t ∧ t < r.buckets[k].stop ∧
      ∀ j, ∀ hj : j < r.buckets.length, r.buckets[j].start ≤ t → t < r.buckets[j].stop → j = k) ∧
    (¬ (r.fromMS ≤ t ∧ t < r.untilMS) → (r.index t).2 = false)

/-- **The index** of an instant, where the buckets follow each other. -/
theorem Adjacent.index {r : Interval} (h : Adjacent r.fromMS r.buckets r.untilMS) : IndexRight r := by
  intro t
  refine ⟨fun hfrom huntil => ?_, fun hout => ?_⟩
  · obtain ⟨k, hk, hstart, hstop⟩ := h.cover hfrom huntil
    have hval {a : ℕ} (ha : a < r.buckets.length) :
        ((r.buckets[a]?).map Bucket.start).getD t = r.buckets[a].start := by
      rw [List.getElem?_eq_getElem ha]
      rfl
    have hbefore {a : ℕ} (ha : a < r.buckets.length) (hak : a < k) : r.buckets[a].start ≤ t := by
      obtain ⟨-, hlen, -, hlater, -⟩ := h.getElem ha
      exact hlen.trans ((hlater k hk hak).trans hstart)
    have hafter {a : ℕ} (ha : a < r.buckets.length) (hka : k < a) : t < r.buckets[a].start :=
      hstop.trans_le ((h.getElem hk).2.2.2.1 a ha hka)
    have hsearch : search r.buckets.length
        (fun i => decide (t < ((r.buckets[i]?).map Bucket.start).getD t)) = k + 1 := by
      refine (search_eq_iff fun a b hab hb hpa => ?_).mpr ⟨hk, fun a ha => ?_, fun a hka ha => ?_⟩
      · rw [hval (hab.trans_lt hb), decide_eq_true_eq] at hpa
        rw [hval hb, decide_eq_true_eq]
        rcases hab.eq_or_lt with rfl | hlt
        · exact hpa
        · obtain ⟨-, hlen, -, hlater, -⟩ := h.getElem (hab.trans_lt hb)
          exact hpa.trans_le (hlen.trans (hlater b hb hlt))
      · rw [hval (by omega), decide_eq_false_iff_not, not_lt]
        rcases (Nat.lt_succ_iff.mp ha).eq_or_lt with rfl | hlt
        · exact hstart
        · exact hbefore (by omega) hlt
      · rw [hval ha, decide_eq_true_eq]
        exact hafter ha hka
    refine ⟨k, hk, ?_, hstart, hstop, fun j hj hj₁ hj₂ => ?_⟩
    · unfold Interval.index
      simp only [hsearch]
      push_cast
      rw [add_sub_cancel_right, decide_eq_true ⟨by omega, hfrom, huntil⟩]
    · by_contra hne
      rcases Nat.lt_or_gt_of_ne hne with hlt | hlt
      · have := (h.getElem hj).2.2.2.1 k hk hlt
        omega
      · have := hafter hj hlt
        omega
  · unfold Interval.index
    simp only [decide_eq_false_iff_not]
    exact fun hin => hout hin.2

/-! ## Buckets along a sequence of starts -/

/-- The bucket between two consecutive starts, cut at the end of the window. -/
def cut (s : ℕ → ℤ) (at' : ℤ) (k : ℕ) : Bucket :=
  ⟨s k, min (s (k + 1)) at', min (s (k + 1)) at' < s (k + 1)⟩

theorem adjacent_cut {s : ℕ → ℤ} (hgrow : ∀ k, k + 1 < n → s k ≤ s (k + 1))
    (hin : ∀ k < n, s k ≤ at') (hout : at' ≤ s n) :
    Adjacent ((((List.range n).map (cut s at')).head?.map Bucket.start).getD at')
      ((List.range n).map (cut s at')) at' := by
  induction n generalizing s with
  | zero => rfl
  | succ n ih =>
    rw [List.range_succ_eq_map, List.map_cons, List.map_map]
    have hshift : cut s at' ∘ Nat.succ = cut (fun k => s (k + 1)) at' := rfl
    have hrest := ih (s := fun k => s (k + 1)) (fun k hk => hgrow (k + 1) (by omega))
      (fun k hk => hin (k + 1) (by omega)) hout
    have hcut : ((((List.range n).map (cut (fun k => s (k + 1)) at')).head?.map Bucket.start).getD at') =
        min (s 1) at' := by
      cases n with
      | zero => exact (min_eq_right hout).symm
      | succ n =>
        rw [List.range_succ_eq_map]
        exact (min_eq_left (hin 1 (by omega))).symm
    have hlen : s 0 ≤ min (s 1) at' := by
      refine le_min ?_ (hin 0 (by omega))
      cases n with
      | zero => exact (hin 0 (by omega)).trans hout
      | succ n => exact hgrow 0 (by omega)
    rw [hcut] at hrest
    exact ⟨rfl, hlen, hshift ▸ hrest⟩

variable (z date) in
/-- The start of every day bucket, from the first. -/
def dayStart (step : ℕ) (start : ℤ) : ℕ → ℤ
  | 0 => start
  | k + 1 => date (z.shown (dayStart step start k) + step * dayMs)

variable (z date) in
/-- The start of every month bucket, from the first. -/
def monthBegin (start : ℤ) : ℕ → ℤ
  | 0 => start
  | k + 1 => date (monthMidnight (localMonth z (monthBegin start k) + 1))

theorem dayStart_shift (start : ℤ) (k : ℕ) :
    dayStart z date step (dayStart z date step start 1) k = dayStart z date step start (k + 1) := by
  induction k with
  | zero => rfl
  | succ k ih => exact congrArg (fun t => date (z.shown t + step * dayMs)) ih

theorem monthBegin_shift (start : ℤ) (k : ℕ) :
    monthBegin z date (monthBegin z date start 1) k = monthBegin z date start (k + 1) := by
  induction k with
  | zero => rfl
  | succ k ih => exact congrArg (fun t => date (monthMidnight (localMonth z t + 1))) ih

theorem map_cut_succ (s : ℕ → ℤ) (at' : ℤ) (n : ℕ) :
    (List.range (n + 1)).map (cut s at') =
      cut s at' 0 :: (List.range n).map (cut (fun k => s (k + 1)) at') := by
  rw [List.range_succ_eq_map, List.map_cons, List.map_map]
  rfl

theorem dayBuckets_eq (start : ℤ) :
    dayBuckets z date at' step n start = (List.range n).map (cut (dayStart z date step start) at') := by
  induction n generalizing start with
  | zero => rfl
  | succ n ih =>
    rw [dayBuckets, map_cut_succ]
    simp only [ih]
    congr 2
    exact congrArg (cut · at') (funext fun k => dayStart_shift start k)

/-- **The months of a window** are those whose starts are before its end. -/
theorem monthBuckets_eq {start : ℤ} :
    monthBuckets z date at' room start = some l ↔
      ∃ n ≤ room, (∀ k < n, monthBegin z date start k < at') ∧ at' ≤ monthBegin z date start n ∧
        l = (List.range n).map (cut (monthBegin z date start) at') := by
  induction room generalizing start l with
  | zero =>
    rw [monthBuckets]
    constructor
    · intro h
      split_ifs at h with hlt
      exact ⟨0, le_rfl, fun k hk => (nomatch hk), not_lt.mp hlt, (Option.some.inj h).symm⟩
    · rintro ⟨n, hn, -, hout, rfl⟩
      obtain rfl : n = 0 := by omega
      have hpast : ¬ start < at' := not_lt.mpr hout
      rw [if_neg hpast]
      rfl
  | succ room ih =>
    rw [monthBuckets]
    constructor
    · intro h
      split_ifs at h with hlt
      · obtain ⟨l, hl, rfl⟩ := Option.map_eq_some_iff.mp h
        obtain ⟨n, hn, hin, hout, rfl⟩ := ih.mp hl
        refine ⟨n + 1, by omega, fun k hk => ?_, ?_, ?_⟩
        · cases k with
          | zero => exact hlt
          | succ k => exact monthBegin_shift start k ▸ hin k (by omega)
        · exact monthBegin_shift start n ▸ hout
        · rw [map_cut_succ]
          congr 2
          exact congrArg (cut · at') (funext fun k => monthBegin_shift start k)
      · exact ⟨0, by omega, fun k hk => (nomatch hk), not_lt.mp hlt, (Option.some.inj h).symm⟩
    · rintro ⟨n, hn, hin, hout, rfl⟩
      cases n with
      | zero =>
        have hpast : ¬ start < at' := not_lt.mpr hout
        rw [if_neg hpast]
        rfl
      | succ n =>
        have hstart : start < at' := hin 0 (by omega)
        rw [if_pos hstart]
        refine Option.map_eq_some_iff.mpr ⟨_, ih.mpr ⟨n, by omega, fun k hk => ?_, ?_, rfl⟩, ?_⟩
        · exact (monthBegin_shift start k).symm ▸ hin (k + 1) (by omega)
        · exact (monthBegin_shift start n).symm ▸ hout
        · rw [map_cut_succ]
          congr 2
          exact congrArg (cut · at') (funext fun k => monthBegin_shift start k)

/-! ## Hours -/

/-- The starts of hours go back from the quarter that the search began at. -/
theorem hourStarts_spec {fuel : ℕ} {starts : List ℤ} (h : hourStarts z fuel n t = some starts) :
    starts.length = n ∧ (t :: starts).Pairwise (fun a b => b ≤ a) := by
  induction fuel generalizing n t starts with
  | zero =>
    cases n with
    | zero =>
      obtain rfl := Option.some.inj h
      exact ⟨rfl, List.pairwise_singleton _ _⟩
    | succ n => cases h
  | succ fuel ih =>
    cases n with
    | zero =>
      obtain rfl := Option.some.inj h
      exact ⟨rfl, List.pairwise_singleton _ _⟩
    | succ n =>
      rw [hourStarts] at h
      have hback : t - grain ≤ t := by
        unfold grain
        omega
      split_ifs at h with hbegin
      · obtain ⟨rest, hrest, rfl⟩ := Option.map_eq_some_iff.mp h
        obtain ⟨hlength, hsorted⟩ := ih hrest
        obtain ⟨hbelow, hsorted⟩ := List.pairwise_cons.mp hsorted
        have hall : ∀ b ∈ rest, b ≤ t := fun b hb => (hbelow b hb).trans hback
        refine ⟨by rw [List.length_cons, hlength], List.pairwise_cons.mpr ⟨fun b hb => ?_, ?_⟩⟩
        · rcases List.mem_cons.mp hb with rfl | hb
          · exact le_rfl
          · exact hall b hb
        · exact List.pairwise_cons.mpr ⟨hall, hsorted⟩
      · obtain ⟨hlength, hsorted⟩ := ih h
        obtain ⟨hbelow, hsorted⟩ := List.pairwise_cons.mp hsorted
        exact ⟨hlength, List.pairwise_cons.mpr ⟨fun b hb => (hbelow b hb).trans hback, hsorted⟩⟩

theorem adjacent_hourBuckets {part : Bool} {starts : List ℤ}
    (h : (hi :: starts).Pairwise fun a b => b ≤ a) :
    Adjacent (((hourBuckets hi part starts).head?.map Bucket.start).getD hi)
      (hourBuckets hi part starts) hi := by
  induction starts generalizing hi part with
  | nil => rfl
  | cons t starts ih =>
    obtain ⟨hbelow, hsorted⟩ := List.pairwise_cons.mp h
    have hrest := @ih t false hsorted
    have hfirst : ((hourBuckets hi part (t :: starts)).head?.map Bucket.start).getD hi =
        ((hourBuckets t false starts).head?.map Bucket.start).getD t := by
      rw [hourBuckets]
      cases hourBuckets t false starts <;> rfl
    rw [hfirst, hourBuckets]
    exact hrest.append ⟨rfl, hbelow t List.mem_cons_self, rfl⟩

theorem hourStarts_ne_none {fuel : ℕ} :
    hourStarts z fuel n t ≠ none ↔
      n ≤ ((List.range fuel).filter fun i : ℕ => beginsHour z (t - i * grain)).length := by
  induction fuel generalizing n t with
  | zero =>
    cases n with
    | zero => simp [hourStarts]
    | succ n => simp [hourStarts]
  | succ fuel ih =>
    have hshift : ((List.range (fuel + 1)).filter fun i : ℕ => beginsHour z (t - i * grain)).length =
        (if beginsHour z t then 1 else 0) +
          ((List.range fuel).filter fun i : ℕ => beginsHour z (t - grain - i * grain)).length := by
      rw [List.range_succ_eq_map, List.filter_cons, List.filter_map, Nat.cast_zero, zero_mul, sub_zero]
      have hcomp : ((fun i : ℕ => beginsHour z (t - i * grain)) ∘ Nat.succ) =
          fun i : ℕ => beginsHour z (t - grain - i * grain) := by
        funext i
        simp only [Function.comp, Nat.succ_eq_add_one]
        congr 1
        push_cast
        ring
      rw [hcomp]
      split_ifs <;> simp [List.length_map]
      omega
    cases n with
    | zero => simp [hourStarts]
    | succ n =>
      rw [hshift, hourStarts]
      split_ifs with hbegin
      · rw [Ne, Option.map_eq_none_iff, ← Ne, ih]
        omega
      · rw [ih]
        omega

end Portico.ReportWindow
