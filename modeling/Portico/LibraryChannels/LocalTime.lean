import Portico.Lib.Zone

/-!
# Local times

`library/time.go` turns a local date and minute into an instant. It goes over the intervals of three days
around, in each of which the clock runs evenly, and keeps the instant with the earliest wall time from the
wanted one on; of two with one wall time it keeps the earlier.

## Main definitions

* `Location`: a time zone, as intervals of one offset
* `resolveIn`, `resolveBoundary`: the instant of a local date and minute
* `resolveBlock`, `sevenDayWindow`: an interval between two of them
* `Resolves`: the first instant of the earliest wall time from a wanted one on

## Main results

* `look_best`: the search in one interval
* `searchFrom_best`: the search in all of them
* `resolveIn_resolves`: what is found is the first instant of the earliest wall time
* `resolves_mono_iff`: when later local times are later instants
-/

namespace Portico.LibraryChannels

/-! ## Zones -/

/-- A time zone. The offset at an instant is in force from its begin up to its end, at which the next one
begins; either may be missing. -/
structure Location extends Zone where
  begin_ : ℤ → Option ℤ
  end_ : ℤ → Option ℤ
  begin_le : ∀ t b, begin_ t = some b → b ≤ t
  lt_end : ∀ t e, end_ t = some e → t < e
  begin_end : ∀ t e, end_ t = some e → begin_ e = some e
  even : ∀ t u, (∀ b ∈ begin_ t, b ≤ u) → (∀ e ∈ end_ t, u < e) →
    offset u = offset t ∧ begin_ u = begin_ t ∧ end_ u = end_ t

/-- A day, in seconds. -/
def daySeconds : ℤ := 86400

/-- The first of January of the year one: the number of its day, and its first second. It stands for no time. -/
def zeroDay : ℤ := -719162
def zeroTime : ℤ := zeroDay * daySeconds

/-! ## The search -/

/-- The best instant so far with its wall time, and how often the wanted wall time was seen. -/
structure Search where
  chosen : ℤ := zeroTime
  chosenWall : ℤ := zeroTime
  exactCount : ℕ := 0
deriving DecidableEq, Repr

inductive Adjustment
  | none
  | gapForward
  | repeatedFirst
deriving DecidableEq, Repr

structure Boundary where
  requestedLocal : ℤ
  actualLocal : ℤ
  utc : ℤ
  adjustment : Adjustment
deriving DecidableEq, Repr

variable (z : Location) (target : ℤ)

/-- The instant of the wanted wall time, when it is in an interval. -/
def Search.exact (s : Search) (offset begin_ stop : ℤ) : Search :=
  let candidate := target - offset
  if begin_ ≤ candidate ∧ candidate < stop ∧ z.shown candidate = target then
    if s.chosenWall = zeroTime ∨ s.chosenWall ≠ target ∨ candidate < s.chosen then
      ⟨candidate, target, s.exactCount + 1⟩
    else { s with exactCount := s.exactCount + 1 }
  else s

/-- The first instant of an interval, when its wall time is after the wanted one. -/
def Search.first (s : Search) (begin_ : ℤ) : Search :=
  let wall := z.shown begin_
  if target ≤ wall ∧ (s.chosenWall = zeroTime ∨ wall < s.chosenWall ∨
      wall = s.chosenWall ∧ begin_ < s.chosen) then
    { s with chosen := begin_, chosenWall := wall }
  else s

/-- One interval. -/
def look (s : Search) (offset begin_ stop : ℤ) : Search :=
  (s.exact z target offset begin_ stop).first z target begin_

/-- The begin and the end of the interval of an instant, within the search. -/
def beginIn (low cursor : ℤ) : ℤ :=
  match z.begin_ cursor with
  | some b => if b = zeroTime ∨ b < low then low else b
  | none => low

def endIn (high cursor : ℤ) : ℤ :=
  match z.end_ cursor with
  | some e => if e = zeroTime ∨ high < e then high else e
  | none => high

/-- The intervals from an instant on, of which so many may be visited. -/
def searchFrom (low high : ℤ) : ℕ → ℤ → Search → Option Search
  | 0, _, _ => none
  | visits + 1, cursor, s =>
    let offset := z.offset cursor
    if offset < -24 * 60 * 60 ∨ 24 * 60 * 60 < offset then none
    else
      let stop := endIn z high cursor
      if stop ≤ cursor then none
      else
        let s := look z target s offset (beginIn z low cursor) stop
        if high ≤ stop then some s else searchFrom low high visits stop s

/-- Seventy-two hours. -/
def reach : ℤ := 72 * 60 * 60

/-- Whether the wanted wall time was skipped or repeated. -/
def Search.adjustment (s : Search) : Adjustment :=
  if s.exactCount = 0 then .gapForward else if 1 < s.exactCount then .repeatedFirst else .none

/-- The instant of a wall time, in the zone. -/
def resolveIn : Option Boundary := do
  let s ← searchFrom z target (target - reach) (target + reach) 32 (target - reach) {}
  if s.chosen = zeroTime then none else some ⟨target, z.shown s.chosen, s.chosen, s.adjustment⟩

/-! ## Dates -/

/-- Dates have years of four digits. -/
def isDate (day : ℤ) : Bool := -719528 ≤ day && day ≤ 2932896

/-- A usable name of a zone. -/
def namesZone (timezone : String) : Bool :=
  timezone ≠ "" && timezone ≠ "Local" && timezone.utf8ByteSize ≤ 120

/-- **The instant of a local date and minute.** -/
def resolveBoundary (locate : String → Option Location) (day minute : ℤ) (timezone : String) :
    Option Boundary :=
  if minute < 0 ∨ 24 * 60 ≤ minute ∨ !namesZone timezone then none
  else if !isDate day then none
  else (locate timezone).bind fun z => resolveIn z (day * daySeconds + minute * 60)

structure BlockInterval where
  start : Boundary
  stop : Boundary
  timezone : String
deriving DecidableEq, Repr

/-- An interval between two boundaries, unless it ends before it starts. -/
def interval (timezone : String) (start stop : Option Boundary) : Option BlockInterval := do
  let start ← start
  let stop ← stop
  if stop.utc < start.utc then none else some ⟨start, stop, timezone⟩

/-- A block of a day, which ends on the next day when its end isn't after its start. -/
def resolveBlock (locate : String → Option Location) (day startMinute endMinute : ℤ) (timezone : String) :
    Option BlockInterval :=
  let endDay := if endMinute ≤ startMinute then day + 1 else day
  interval timezone (resolveBoundary locate day startMinute timezone)
    (resolveBoundary locate endDay endMinute timezone)

/-- Seven days of the calendar. -/
def sevenDayWindow (locate : String → Option Location) (day : ℤ) (timezone : String) : Option BlockInterval :=
  interval timezone (resolveBoundary locate day 0 timezone) (resolveBoundary locate (day + 7) 0 timezone)

/-! ## The first instant of the earliest wall time -/

variable {z target}
variable {low high cursor stop t u w : ℤ} {s s' : Search} {visits : ℕ}

/-- **The first instant of the earliest wall time** from a wanted one on. -/
def Resolves (z : Location) (w t : ℤ) : Prop :=
  w ≤ z.shown t ∧ ∀ u, w ≤ z.shown u → z.shown t < z.shown u ∨ z.shown t = z.shown u ∧ t ≤ u

/-- Offsets are of a day at most. -/
def Location.Daily (z : Location) : Prop := ∀ t, -daySeconds ≤ z.offset t ∧ z.offset t ≤ daySeconds

/-- What a search has found up to an instant. -/
structure Best (z : Location) (target low cursor : ℤ) (s : Search) : Prop where
  nothing : s.chosenWall = zeroTime → s.chosen = zeroTime ∧ ∀ u, low ≤ u → u < cursor → z.shown u < target
  found : s.chosenWall ≠ zeroTime → (low ≤ s.chosen ∧ s.chosen < cursor) ∧ s.chosenWall = z.shown s.chosen ∧
    target ≤ s.chosenWall ∧ ∀ u, low ≤ u → u < cursor → target ≤ z.shown u →
      s.chosenWall < z.shown u ∨ s.chosenWall = z.shown u ∧ s.chosen ≤ u

theorem best_start : Best z target low low {} :=
  ⟨fun _ => ⟨rfl, fun _ hlow hlt => absurd hlt hlow.not_gt⟩, fun h => absurd rfl h⟩

/-- **The search in one interval** finds the best instant up to its end. The search is away from the zero
time, which would be taken for nothing found. -/
theorem look_best (h : Best z target low cursor s) (hlow : low ≤ cursor) (hlt : cursor < stop)
    (heven : ∀ u, cursor ≤ u → u < stop → z.offset u = z.offset cursor)
    (hzero : ∀ u, low ≤ u → u < stop → target ≤ z.shown u → z.shown u ≠ zeroTime) (htarget : target ≠ zeroTime) :
    Best z target low stop (look z target s (z.offset cursor) cursor stop) := by
  have hshown : ∀ u, cursor ≤ u → u < stop → z.shown u = u + z.offset cursor := fun u h₁ h₂ => by
    unfold Zone.shown
    rw [heven u h₁ h₂]
  have hcursor : z.shown cursor = cursor + z.offset cursor := hshown cursor le_rfl hlt
  -- where nothing of the interval is better, what was found stays the best
  have hkeep : (∀ u, cursor ≤ u → u < stop → target ≤ z.shown u → s.chosenWall ≠ zeroTime ∧
      s.chosenWall ≤ z.shown u) → Best z target low stop s := by
    intro hworse
    constructor
    · intro hnone
      obtain ⟨hchosen, hbefore⟩ := h.nothing hnone
      refine ⟨hchosen, fun u hu hlt => ?_⟩
      by_cases hin : u < cursor
      · exact hbefore u hu hin
      · by_contra hge
        exact (hworse u (not_lt.mp hin) hlt (not_lt.mp hge)).1 hnone
    · intro hsome
      obtain ⟨⟨hge, hbefore⟩, hwall, hfrom, hbest⟩ := h.found hsome
      refine ⟨⟨hge, hbefore.trans hlt⟩, hwall, hfrom, fun u hu hlt htu => ?_⟩
      by_cases hin : u < cursor
      · exact hbest u hu hin htu
      · have hle := (hworse u (not_lt.mp hin) hlt htu).2
        rcases hle.lt_or_eq with hle | hle
        · exact Or.inl hle
        · exact Or.inr ⟨hle, hbefore.le.trans (not_lt.mp hin)⟩
  -- where an instant of the interval is better than what was found, it becomes the best
  have htake : ∀ t n, cursor ≤ t → t < stop → target ≤ z.shown t →
      (∀ u, cursor ≤ u → u < stop → target ≤ z.shown u → z.shown t < z.shown u ∨ z.shown t = z.shown u ∧ t ≤ u) →
      (s.chosenWall ≠ zeroTime → z.shown t < s.chosenWall) →
      Best z target low stop ⟨t, z.shown t, n⟩ := by
    intro t n hge hlt' hfrom hbest hbetter
    refine ⟨fun hnone => absurd hnone (hzero t (hlow.trans hge) hlt' hfrom),
      fun _ => ⟨⟨hlow.trans hge, hlt'⟩, rfl, hfrom, fun u hu hlt htu => ?_⟩⟩
    by_cases hin : u < cursor
    · have hsome : s.chosenWall ≠ zeroTime := fun hnone =>
        absurd htu (not_le.mpr ((h.nothing hnone).2 u hu hin))
      refine Or.inl ((hbetter hsome).trans_le ?_)
      rcases (h.found hsome).2.2.2 u hu hin htu with h' | ⟨h', -⟩
      · exact h'.le
      · exact h'.le
    · exact hbest u (not_lt.mp hin) hlt htu
  have hsame : ∀ s' : Search, s'.chosen = s.chosen → s'.chosenWall = s.chosenWall →
      Best z target low stop s → Best z target low stop s' := by
    rintro ⟨_, _, n⟩ rfl rfl hbest
    exact ⟨hbest.nothing, hbest.found⟩
  by_cases hexact : cursor ≤ target - z.offset cursor ∧ target - z.offset cursor < stop
  · -- the wanted wall time is in the interval
    have hwall : z.shown (target - z.offset cursor) = target := by
      rw [hshown _ hexact.1 hexact.2]
      ring
    have hcond : cursor ≤ target - z.offset cursor ∧ target - z.offset cursor < stop ∧
        z.shown (target - z.offset cursor) = target := ⟨hexact.1, hexact.2, hwall⟩
    by_cases hreplace : s.chosenWall = zeroTime ∨ s.chosenWall ≠ target
    · have hlook : look z target s (z.offset cursor) cursor stop =
          ⟨target - z.offset cursor, target, s.exactCount + 1⟩ := by
        unfold look Search.exact
        simp only
        rw [if_pos hcond, if_pos (hreplace.imp_right Or.inl)]
        unfold Search.first
        simp only
        rw [if_neg]
        rintro ⟨hge, hz | hless | ⟨heq, hless⟩⟩
        · exact htarget hz
        · exact absurd hge hless.not_ge
        · rw [hcursor] at heq
          omega
      rw [hlook]
      have htaken := htake (target - z.offset cursor) (s.exactCount + 1) hexact.1 hexact.2 hwall.ge ?_ ?_
      · rwa [hwall] at htaken
      · intro u hge hlt htu
        rw [hwall]
        rcases htu.lt_or_eq with hlt' | heq
        · exact Or.inl hlt'
        · refine Or.inr ⟨heq, ?_⟩
          rw [hshown u hge hlt] at heq
          omega
      · intro hsome
        rw [hwall]
        have hfrom := (h.found hsome).2.2.1
        exact lt_of_le_of_ne hfrom (Ne.symm (hreplace.resolve_left hsome))
    · push Not at hreplace
      -- it was seen before
      have hchosen := (h.found hreplace.1).1
      have hlook : look z target s (z.offset cursor) cursor stop = { s with exactCount := s.exactCount + 1 } := by
        unfold look Search.exact
        simp only
        rw [if_pos hcond, if_neg]
        · unfold Search.first
          simp only
          rw [if_neg]
          rintro ⟨hge, hz | hless | ⟨-, hless⟩⟩
          · exact hreplace.1 hz
          · rw [hreplace.2] at hless
            exact absurd hge hless.not_ge
          · exact absurd hchosen.2 hless.not_gt
        · rintro (hz | hne | hless)
          · exact hreplace.1 hz
          · exact hne hreplace.2
          · exact absurd hchosen.2 (hexact.1.trans_lt hless).not_gt
      rw [hlook]
      refine hsame _ rfl rfl (hkeep fun u _ _ htu => ⟨hreplace.1, ?_⟩)
      rw [hreplace.2]
      exact htu
  · have hnot : ¬ (cursor ≤ target - z.offset cursor ∧ target - z.offset cursor < stop ∧
        z.shown (target - z.offset cursor) = target) := fun hc => hexact ⟨hc.1, hc.2.1⟩
    have hlook : look z target s (z.offset cursor) cursor stop = s.first z target cursor := by
      unfold look Search.exact
      simp only
      rw [if_neg hnot]
    rw [hlook]
    unfold Search.first
    simp only
    by_cases hafter : target ≤ z.shown cursor
    · -- all of the interval is after the wanted wall time, its first instant first
      by_cases hless : s.chosenWall = zeroTime ∨ z.shown cursor < s.chosenWall
      · rw [if_pos ⟨hafter, hless.imp_right Or.inl⟩]
        refine htake cursor _ le_rfl hlt hafter (fun u hge hlt' _ => ?_) fun hsome => hless.resolve_left hsome
        rw [hshown u hge hlt', hcursor]
        omega
      · push Not at hless
        have hchosen := (h.found hless.1).1
        rw [if_neg]
        · refine hkeep fun u hge hlt' _ => ⟨hless.1, hless.2.trans ?_⟩
          rw [hshown u hge hlt', hcursor]
          omega
        · rintro ⟨-, hz | hlt' | ⟨-, hlt'⟩⟩
          · exact hless.1 hz
          · exact absurd hless.2 hlt'.not_ge
          · exact absurd hchosen.2 hlt'.not_gt
    · rw [if_neg fun hc => hafter hc.1]
      refine hkeep fun u hge hlt' htu => ?_
      -- all of the interval is before the wanted wall time
      rw [hshown u hge hlt'] at htu
      rw [hcursor] at hafter
      omega

/-! ## All intervals -/

/-- The changes of the clock between two instants. -/
noncomputable def Location.changes (z : Location) (a b : ℤ) : Finset ℤ :=
  (Finset.Ioo a b).filter fun t => z.begin_ t = some t

/-- What a search relies on: it is away from the zero time, and the offsets in it are of a day at most. -/
structure Usual (z : Location) (target low high : ℤ) : Prop where
  away : ∀ t, low ≤ t → t ≤ high → t ≠ zeroTime
  walls : ∀ u, low ≤ u → u < high → target ≤ z.shown u → z.shown u ≠ zeroTime
  target_ne : target ≠ zeroTime
  daily : z.Daily

theorem endIn_eq (h : Usual z target low high) (hlow : low ≤ cursor) :
    endIn z high cursor = match z.end_ cursor with | some e => min e high | none => high := by
  unfold endIn
  cases hend : z.end_ cursor with
  | none => rfl
  | some e =>
    simp only
    have hcursor := z.lt_end cursor e hend
    by_cases he : high < e
    · rw [if_pos (Or.inr he), min_eq_right he.le]
    · have hne : e ≠ zeroTime := h.away e (hlow.trans hcursor.le) (not_lt.mp he)
      rw [if_neg (not_or.mpr ⟨hne, he⟩), min_eq_left (not_lt.mp he)]

theorem even_until (h : Usual z target low high) (hlow : low ≤ cursor) (hu : cursor ≤ u)
    (hstop : u < endIn z high cursor) :
    z.offset u = z.offset cursor ∧ z.begin_ u = z.begin_ cursor ∧ z.end_ u = z.end_ cursor := by
  rw [endIn_eq h hlow] at hstop
  refine z.even cursor u (fun b hb => (z.begin_le cursor b hb).trans hu) fun e he => ?_
  rw [Option.mem_def] at he
  rw [he] at hstop
  exact hstop.trans_le (min_le_left _ _)

theorem next_begin (h : Usual z target low high) (hlow : low ≤ cursor)
    (hstop : endIn z high cursor < high) : z.begin_ (endIn z high cursor) = some (endIn z high cursor) := by
  rw [endIn_eq h hlow] at hstop ⊢
  cases hend : z.end_ cursor with
  | none =>
    rw [hend] at hstop
    exact absurd hstop (lt_irrefl _)
  | some e =>
    rw [hend] at hstop
    simp only at hstop ⊢
    rcases min_lt_iff.mp hstop with he | he
    · rw [min_eq_left he.le]
      exact z.begin_end cursor e hend
    · exact absurd he (lt_irrefl _)

theorem lt_endIn (h : Usual z target low high) (hlow : low ≤ cursor) (hhigh : cursor < high) :
    cursor < endIn z high cursor ∧ endIn z high cursor ≤ high := by
  rw [endIn_eq h hlow]
  cases hend : z.end_ cursor with
  | none => exact ⟨hhigh, le_rfl⟩
  | some e => exact ⟨lt_min (z.lt_end cursor e hend) hhigh, min_le_right _ _⟩

/-- The changes after an instant: the end of its interval and those after it, if it ends. -/
theorem changes_eq (h : Usual z target low high) (hlow : low ≤ cursor) (hhigh : cursor < high) :
    (z.changes cursor high).card = if high ≤ endIn z high cursor then 0
      else (z.changes (endIn z high cursor) high).card + 1 := by
  obtain ⟨hlt, hle⟩ := lt_endIn h hlow hhigh
  have hnone : ∀ t, cursor < t → t < endIn z high cursor → z.begin_ t ≠ some t := by
    intro t ht hstop hbegin
    rw [(even_until h hlow ht.le hstop).2.1] at hbegin
    exact absurd (z.begin_le cursor t hbegin) ht.not_ge
  by_cases hend : high ≤ endIn z high cursor
  · rw [if_pos hend, Finset.card_eq_zero, Finset.eq_empty_iff_forall_notMem]
    intro t ht
    unfold Location.changes at ht
    rw [Finset.mem_filter, Finset.mem_Ioo] at ht
    exact hnone t ht.1.1 (ht.1.2.trans_le hend) ht.2
  · rw [if_neg hend]
    have hinsert : z.changes cursor high = insert (endIn z high cursor) (z.changes (endIn z high cursor) high) := by
      ext t
      unfold Location.changes
      rw [Finset.mem_insert, Finset.mem_filter, Finset.mem_filter, Finset.mem_Ioo, Finset.mem_Ioo]
      constructor
      · rintro ⟨⟨hgt, hhigh⟩, hbegin⟩
        rcases lt_trichotomy t (endIn z high cursor) with hbefore | heq | hafter
        · exact absurd hbegin (hnone t hgt hbefore)
        · exact Or.inl heq
        · exact Or.inr ⟨⟨hafter, hhigh⟩, hbegin⟩
      · rintro (rfl | ⟨⟨hafter, hhigh⟩, hbegin⟩)
        · exact ⟨⟨hlt, not_le.mp hend⟩, next_begin h hlow (not_le.mp hend)⟩
        · exact ⟨⟨hlt.trans hafter, hhigh⟩, hbegin⟩
    rw [hinsert, Finset.card_insert_of_notMem]
    unfold Location.changes
    rw [Finset.mem_filter, Finset.mem_Ioo]
    exact fun hmem => lt_irrefl _ hmem.1.1

theorem beginIn_eq (hcursor : cursor = low ∨ z.begin_ cursor = some cursor) (hlow : low ≤ cursor)
    (hne : cursor ≠ zeroTime) : beginIn z low cursor = cursor := by
  unfold beginIn
  rcases hcursor with rfl | hbegin
  · cases hb : z.begin_ cursor with
    | none => rfl
    | some b =>
      simp only
      have hle := z.begin_le cursor b hb
      split_ifs with hc
      · rfl
      · push Not at hc
        exact le_antisymm hle hc.2
  · rw [hbegin]
    simp only
    rw [if_neg (not_or.mpr ⟨hne, not_lt.mpr hlow⟩)]

/-- **The search in all intervals** finds the best instant, unless there are too many of them. -/
theorem searchFrom_best (h : Usual z target low high) (hs : Best z target low cursor s)
    (hcursor : cursor = low ∨ z.begin_ cursor = some cursor) (hlow : low ≤ cursor) (hhigh : cursor < high) :
    if (z.changes cursor high).card < visits then
      ∃ s', searchFrom z target low high visits cursor s = some s' ∧ Best z target low high s'
    else searchFrom z target low high visits cursor s = none := by
  induction visits generalizing cursor s with
  | zero =>
    rw [if_neg (Nat.not_lt_zero _)]
    rfl
  | succ visits ih =>
    obtain ⟨hlt, hle⟩ := lt_endIn h hlow hhigh
    have hbest := look_best hs hlow hlt (fun u hu hstop => (even_until h hlow hu hstop).1)
      (fun u hu hstop => h.walls u hu (hstop.trans_le hle)) h.target_ne
    have hsearch : searchFrom z target low high (visits + 1) cursor s =
        if high ≤ endIn z high cursor then some (look z target s (z.offset cursor) cursor (endIn z high cursor))
        else searchFrom z target low high visits (endIn z high cursor)
          (look z target s (z.offset cursor) cursor (endIn z high cursor)) := by
      rw [searchFrom]
      simp only
      have hdaily := h.daily cursor
      unfold daySeconds at hdaily
      rw [if_neg (by omega), if_neg (not_le.mpr hlt), beginIn_eq hcursor hlow (h.away cursor hlow hhigh.le)]
    rw [hsearch, changes_eq h hlow hhigh]
    by_cases hend : high ≤ endIn z high cursor
    · rw [if_pos hend, if_pos hend, if_pos (Nat.succ_pos _)]
      rw [le_antisymm hle hend] at hbest ⊢
      exact ⟨_, rfl, hbest⟩
    · rw [if_neg hend, if_neg hend]
      have hnext := ih hbest (Or.inr (next_begin h hlow (not_le.mp hend))) (hlow.trans hlt.le) (not_le.mp hend)
      simpa only [Nat.add_lt_add_iff_right] using hnext

/-! ## The whole clock -/

theorem exists_wall (h : z.Daily) (w : ℤ) :
    ∃ t, w - daySeconds ≤ t ∧ t ≤ w + daySeconds ∧ w ≤ z.shown t ∧ z.shown t ≤ w + 2 * daySeconds := by
  have hpos : (0 : ℤ) ≤ daySeconds := by decide
  have hbefore : ¬ w ≤ z.shown (w - daySeconds - 1) := by
    have := (h (w - daySeconds - 1)).2
    unfold Zone.shown
    omega
  have hafter : w ≤ z.shown (w + daySeconds) := by
    have := (h (w + daySeconds)).1
    unfold Zone.shown
    omega
  obtain ⟨t, hgt, hle, ht, -⟩ := exists_begin (p := fun u => w ≤ z.shown u) hbefore hafter (by omega)
  refine ⟨t, by omega, hle, ht, ?_⟩
  have := (h t).2
  unfold Zone.shown
  omega

/-- **The best instant of the search** is the best one of the whole clock. -/
theorem Best.resolves (h : Best z target (target - reach) (target + reach) s) (hdaily : z.Daily) :
    Resolves z target s.chosen ∧ target - reach ≤ s.chosen ∧ s.chosen < target + reach := by
  have hday : reach = 3 * daySeconds := by decide
  have hpos : (0 : ℤ) < daySeconds := by decide
  obtain ⟨t, hge, hle, hfrom, hsoon⟩ := exists_wall hdaily target
  have hin : target - reach ≤ t ∧ t < target + reach := by omega
  have hsome : s.chosenWall ≠ zeroTime := fun hnone => absurd hfrom (not_le.mpr ((h.nothing hnone).2 t hin.1 hin.2))
  obtain ⟨hrange, hwall, hbest, hleast⟩ := h.found hsome
  have hbound : z.shown s.chosen ≤ target + 2 * daySeconds := by
    rw [← hwall]
    rcases hleast t hin.1 hin.2 hfrom with h' | ⟨h', -⟩
    · exact h'.le.trans hsoon
    · exact h'.le.trans hsoon
  refine ⟨⟨hwall ▸ hbest, fun u hu => ?_⟩, hrange⟩
  rw [← hwall]
  -- before the search all wall times are before the wanted one, and after it all are late
  by_cases hlow : target - reach ≤ u
  · by_cases hhigh : u < target + reach
    · exact hleast u hlow hhigh hu
    · have hoff := (hdaily u).1
      have hlate : target + 2 * daySeconds ≤ z.shown u := by
        unfold Zone.shown
        omega
      rw [hwall]
      rcases (hbound.trans hlate).lt_or_eq with h' | h'
      · exact Or.inl h'
      · exact Or.inr ⟨h', hrange.2.le.trans (not_lt.mp hhigh)⟩
  · have hoff := (hdaily u).2
    unfold Zone.shown at hu
    omega

/-- **A wall time is resolved** unless the clock changes too often around it. -/
theorem resolveIn_resolves (h : Usual z target (target - reach) (target + reach)) :
    if (z.changes (target - reach) (target + reach)).card < 32 then
      ∃ b, resolveIn z target = some b ∧ b.actualLocal = z.shown b.utc ∧ Resolves z target b.utc
    else resolveIn z target = none := by
  have hreach : (0 : ℤ) < reach := by decide
  have hsearch := @searchFrom_best _ _ _ _ _ _ 32 h best_start (Or.inl rfl) le_rfl (by omega)
  unfold resolveIn
  by_cases hchanges : (z.changes (target - reach) (target + reach)).card < 32
  · rw [if_pos hchanges] at hsearch ⊢
    obtain ⟨s, hs, hbest⟩ := hsearch
    obtain ⟨hresolves, hlow, hhigh⟩ := hbest.resolves h.daily
    refine ⟨⟨target, z.shown s.chosen, s.chosen, s.adjustment⟩, ?_, rfl, hresolves⟩
    rw [hs]
    show (if s.chosen = zeroTime then none else some _) = _
    rw [if_neg (h.away s.chosen hlow hhigh.le)]
  · rw [if_neg hchanges] at hsearch ⊢
    rw [hsearch]
    rfl

/-! ## Order -/

/-- A wall time that is shown is resolved to the first instant that shows it. -/
theorem Resolves.first (h : Resolves z w t) (hshown : ∃ u, z.shown u = w) : FirstOf z.shown w t := by
  obtain ⟨u, hu⟩ := hshown
  have ht : z.shown t = w := by
    rcases h.2 u hu.ge with h' | ⟨h', -⟩
    · exact absurd h.1 (hu ▸ h').not_ge
    · exact h'.trans hu
  refine ⟨ht, fun t' hlt ht' => ?_⟩
  rcases h.2 t' ht'.ge with h' | ⟨-, hle⟩
  · exact absurd (ht.trans ht'.symm) h'.ne
  · exact absurd hlt hle.not_gt

theorem exists_resolves (h : z.Daily) (w : ℤ) : ∃ t, Resolves z w t := by
  obtain ⟨t₀, -, -, hfrom, -⟩ := exists_wall h w
  obtain ⟨v, ⟨⟨t₁, ht₁⟩, hv⟩, hleast⟩ := Int.exists_least_of_bdd
    (P := fun v => (∃ t, z.shown t = v) ∧ w ≤ v) ⟨w, fun v hv => hv.2⟩ ⟨z.shown t₀, ⟨t₀, rfl⟩, hfrom⟩
  have hbelow : ∀ t, z.shown t = v → v - daySeconds ≤ t := by
    intro t ht
    have := (h t).2
    unfold Zone.shown at ht
    omega
  obtain ⟨t, ht, hfirst⟩ := Int.exists_least_of_bdd (P := fun t => z.shown t = v) ⟨_, hbelow⟩ ⟨t₁, ht₁⟩
  refine ⟨t, ht ▸ hv, fun u hu => ?_⟩
  rcases (hleast (z.shown u) ⟨⟨u, rfl⟩, hu⟩).lt_or_eq with hlt | heq
  · exact Or.inl (ht ▸ hlt)
  · exact Or.inr ⟨ht.trans heq, hfirst u heq.symm⟩

/-- A wall time that is shown at all was shown before any later one. -/
def Location.Forward (z : Location) : Prop :=
  ∀ s u, z.shown s < z.shown u → ∃ t, t ≤ u ∧ z.shown t = z.shown s

/-- **Later local times are later instants** exactly where no wall time that was skipped is shown later. -/
theorem resolves_mono_iff (h : z.Daily) : z.Forward ↔
    ∀ w w' t t', w ≤ w' → Resolves z w t → Resolves z w' t' → t ≤ t' := by
  constructor
  · intro hforward w w' t t' hle ht ht'
    rcases ht.2 t' (hle.trans ht'.1) with hlt | ⟨-, hle⟩
    · obtain ⟨u, hu, hsame⟩ := hforward t t' hlt
      rcases ht.2 u (hsame ▸ ht.1) with hlt' | ⟨-, hle'⟩
      · exact absurd hsame hlt'.ne'
      · exact hle'.trans hu
    · exact hle
  · intro hmono s u hlt
    obtain ⟨t, ht⟩ := exists_resolves h (z.shown s)
    obtain ⟨t', ht'⟩ := exists_resolves h (z.shown u)
    have hshown := (ht.first ⟨s, rfl⟩).1
    have hfirst := (ht'.first ⟨u, rfl⟩).le rfl
    exact ⟨t, (hmono _ _ t t' hlt.le ht ht').trans hfirst, hshown⟩

/-! ## Dates and minutes -/

/-- The wall time of a date and minute. -/
def wallOf (day minute : ℤ) : ℤ := day * daySeconds + minute * 60

/-- A date and a minute of it, away from the zero time. -/
structure Civil (day minute : ℤ) : Prop where
  date : isDate day = true
  minute_pos : 0 ≤ minute
  minute_lt : minute < 24 * 60
  away : 6 ≤ |day - zeroDay|

theorem Civil.usual {day minute : ℤ} (h : Civil day minute) (hdaily : z.Daily) :
    Usual z (wallOf day minute) (wallOf day minute - reach) (wallOf day minute + reach) := by
  obtain ⟨-, hpos, hlt, haway⟩ := h
  have hreach : reach = 3 * 86400 := by decide
  have hwall : wallOf day minute = day * 86400 + minute * 60 := rfl
  have hzero : zeroTime = zeroDay * 86400 := rfl
  rw [le_abs] at haway
  refine ⟨fun t hge hle => ?_, fun u hge hlt' hfrom => ?_, ?_, hdaily⟩
  · omega
  · have hoff := (hdaily u).2
    have hday : daySeconds = 86400 := rfl
    unfold Zone.shown at hfrom ⊢
    omega
  · omega

theorem resolveBoundary_eq {locate : String → Option Location} {timezone : String} {day minute : ℤ}
    (h : Civil day minute) (hname : namesZone timezone = true) (hlocate : locate timezone = some z) :
    resolveBoundary locate day minute timezone = resolveIn z (wallOf day minute) := by
  unfold resolveBoundary
  have hpos := h.minute_pos
  have hlt := h.minute_lt
  rw [if_neg (by simp [hname]; omega), if_neg (by simp [h.date]), hlocate]
  rfl

/-- An interval between two boundaries doesn't end before it starts. -/
theorem interval_ordered {timezone : String} {start stop : Option Boundary} {v : BlockInterval}
    (h : interval timezone start stop = some v) : v.start.utc ≤ v.stop.utc := by
  unfold interval at h
  cases start with
  | none => cases h
  | some a =>
    cases stop with
    | none => cases h
    | some b =>
      have h : (if b.utc < a.utc then none else some ⟨a, b, timezone⟩) = some v := h
      split_ifs at h with hlt
      obtain rfl := Option.some.inj h
      exact not_lt.mp hlt

/-- **Local times.** In a zone whose offsets are of a day at most, a date and minute is resolved to the first
instant of the earliest wall time from it on, so that a wall time that is repeated is the first one, unless the
clock changes more than 31 times in the three days around, which is refused. Later local times are later
instants where no wall time that was skipped is shown later. No interval ends before it starts. -/
theorem local_times (locate : String → Option Location) (timezone : String) (z : Location)
    (hname : namesZone timezone = true) (hlocate : locate timezone = some z) (hdaily : z.Daily) :
    (∀ day minute, Civil day minute →
      if (z.changes (wallOf day minute - reach) (wallOf day minute + reach)).card ≤ 31 then
        ∃ b, resolveBoundary locate day minute timezone = some b ∧ b.actualLocal = z.shown b.utc ∧
          Resolves z (wallOf day minute) b.utc ∧
          ((∃ u, z.shown u = wallOf day minute) → FirstOf z.shown (wallOf day minute) b.utc)
      else resolveBoundary locate day minute timezone = none) ∧
    (z.Forward → ∀ day minute day' minute' b b', Civil day minute → Civil day' minute' →
      resolveBoundary locate day minute timezone = some b →
      resolveBoundary locate day' minute' timezone = some b' →
      wallOf day minute ≤ wallOf day' minute' → b.utc ≤ b'.utc) ∧
    (∀ day startMinute endMinute v, resolveBlock locate day startMinute endMinute timezone = some v →
      v.start.utc ≤ v.stop.utc) ∧
    (∀ day v, sevenDayWindow locate day timezone = some v → v.start.utc ≤ v.stop.utc) := by
  have hresolved : ∀ day minute b, Civil day minute → resolveBoundary locate day minute timezone = some b →
      Resolves z (wallOf day minute) b.utc := by
    intro day minute b h hb
    rw [resolveBoundary_eq h hname hlocate] at hb
    have hresolve := resolveIn_resolves (h.usual hdaily)
    split_ifs at hresolve with hchanges
    · obtain ⟨b', hb', -, hresolves⟩ := hresolve
      rw [hb] at hb'
      exact Option.some.inj hb' ▸ hresolves
    · rw [hb] at hresolve
      cases hresolve
  refine ⟨fun day minute h => ?_, fun hforward day minute day' minute' b b' h h' hb hb' hle => ?_,
    fun _ _ _ _ => interval_ordered, fun _ _ => interval_ordered⟩
  · have hresolve := resolveIn_resolves (h.usual hdaily)
    rw [resolveBoundary_eq h hname hlocate]
    by_cases hchanges : (z.changes (wallOf day minute - reach) (wallOf day minute + reach)).card ≤ 31
    · rw [if_pos (Nat.lt_succ_of_le hchanges)] at hresolve
      rw [if_pos hchanges]
      obtain ⟨b, hb, hlocal, hresolves⟩ := hresolve
      exact ⟨b, hb, hlocal, hresolves, hresolves.first⟩
    · rw [if_neg fun hlt => hchanges (Nat.le_of_lt_succ hlt)] at hresolve
      rw [if_neg hchanges]
      exact hresolve
  · exact (resolves_mono_iff hdaily).mp hforward _ _ _ _ hle (hresolved day minute b h hb)
      (hresolved day' minute' b' h' hb')

/-! ## Zones that are resolved and zones that aren't -/

/-- A zone without changes. -/
def utc : Location where
  offset _ := 0
  bounded := ⟨0, fun _ => le_rfl⟩
  begin_ _ := none
  end_ _ := none
  begin_le := nofun
  lt_end := nofun
  begin_end := nofun
  even _ _ _ _ := ⟨rfl, rfl, rfl⟩

/-- A clock that goes from two to three, and half an hour later back. -/
def brief : Location where
  offset t := if 7200 ≤ t ∧ t < 9000 then 3600 else 0
  bounded := ⟨3600, fun t => by split_ifs <;> simp⟩
  begin_ t := if t < 7200 then none else if t < 9000 then some 7200 else some 9000
  end_ t := if t < 7200 then some 7200 else if t < 9000 then some 9000 else none
  begin_le t b h := by
    split_ifs at h <;> obtain rfl := Option.some.inj h <;> omega
  lt_end t e h := by
    split_ifs at h <;> obtain rfl := Option.some.inj h <;> omega
  begin_end t e h := by
    split_ifs at h <;> obtain rfl := Option.some.inj h <;> rfl
  even t u hbegin hend := by
    split_ifs at hbegin hend with h₁ h₂
    · have := hend 7200 rfl
      simp [h₁, this, show ¬ 7200 ≤ u by omega, show ¬ 7200 ≤ t by omega]
    · have h₃ := hbegin 7200 rfl
      have h₄ := hend 9000 rfl
      simp [h₁, h₂, h₃, h₄, show ¬ u < 7200 by omega, show 7200 ≤ t by omega]
    · have h₃ := hbegin 9000 rfl
      simp [h₁, h₂, show ¬ u < 7200 by omega, show ¬ u < 9000 by omega]

/-- A clock that changes by a minute each hour. -/
def restless : Location where
  offset t := if t / 3600 % 2 = 0 then 0 else 60
  bounded := ⟨60, fun t => by split_ifs <;> simp⟩
  begin_ t := some (t / 3600 * 3600)
  end_ t := some (t / 3600 * 3600 + 3600)
  begin_le t b h := by
    obtain rfl := Option.some.inj h
    omega
  lt_end t e h := by
    obtain rfl := Option.some.inj h
    omega
  begin_end t e h := by
    obtain rfl := Option.some.inj h
    congr 1
    omega
  even t u hbegin hend := by
    have h₁ := hbegin _ rfl
    have h₂ := hend _ rfl
    have hsame : u / 3600 = t / 3600 := by omega
    rw [hsame]
    exact ⟨rfl, rfl, rfl⟩

example : utc.Forward := fun s u h => ⟨s, by unfold Zone.shown utc at h; simp at h; omega, rfl⟩

theorem local_times_utc :
    (∀ day minute, Civil day minute →
      if (utc.changes (wallOf day minute - reach) (wallOf day minute + reach)).card ≤ 31 then
        ∃ b, resolveBoundary (fun _ => some utc) day minute "UTC" = some b ∧ b.actualLocal = utc.shown b.utc ∧
          Resolves utc (wallOf day minute) b.utc ∧
          ((∃ u, utc.shown u = wallOf day minute) → FirstOf utc.shown (wallOf day minute) b.utc)
      else resolveBoundary (fun _ => some utc) day minute "UTC" = none) ∧
    (utc.Forward → ∀ day minute day' minute' b b', Civil day minute → Civil day' minute' →
      resolveBoundary (fun _ => some utc) day minute "UTC" = some b →
      resolveBoundary (fun _ => some utc) day' minute' "UTC" = some b' →
      wallOf day minute ≤ wallOf day' minute' → b.utc ≤ b'.utc) ∧
    (∀ day startMinute endMinute v,
      resolveBlock (fun _ => some utc) day startMinute endMinute "UTC" = some v → v.start.utc ≤ v.stop.utc) ∧
    (∀ day v, sevenDayWindow (fun _ => some utc) day "UTC" = some v → v.start.utc ≤ v.stop.utc) :=
  local_times (fun _ => some utc) "UTC" utc (by decide +kernel) rfl fun _ => by
    show -86400 ≤ (0 : ℤ) ∧ (0 : ℤ) ≤ 86400
    decide

example : resolveBoundary (fun _ => some brief) 0 150 "Z" = some ⟨9000, 9000, 9000, .none⟩ := by
  decide +kernel

/-- A clock that changes more than 31 times is refused, of two local times the later one may be the earlier
instant, and the first minute of the year one is taken for none. -/
theorem local_times_refused :
    resolveBoundary (fun _ => some restless) 0 0 "Z" = none ∧
    (resolveBoundary (fun _ => some brief) 0 165 "Z" = some ⟨9900, 9900, 9900, .none⟩ ∧
      resolveBoundary (fun _ => some brief) 0 195 "Z" = some ⟨11700, 11700, 8100, .repeatedFirst⟩) ∧
    resolveBoundary (fun _ => some utc) zeroDay 0 "Z" = none := by
  refine ⟨?_, ⟨?_, ?_⟩, ?_⟩ <;> decide +kernel

end Portico.LibraryChannels
