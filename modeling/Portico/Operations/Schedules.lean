import Portico.Lib.Machine
import Portico.Operations.Jobs
import Portico.WorkPolicy.Windows

/-!
# Operations: schedules

An owner has a job run once a day in a window of the local clock. The window that is open is named by the
local date it began on, a schedule keeps the last name that was admitted, and only a later one is
admitted. A window that began the day before is named by taking a calendar day from the wall time, and a
wall time that was skipped that day is read as one before or after it, which may be on another date.

Instants are in nanoseconds, and a date is the number of its day.

## Main definitions

* `scheduleSlot`: the name of the window to admit
* `admitSchedules`, `saveSchedule`: an admission pass, and an owner's edit
* `nextScheduleDue`: the minute the loop wakes at
* `Open`: a window that began on a date is open
* `DayBefore`: the day before has the wall time of every admission

## Main results

* `scheduleSlot_eq_some`: what is admitted, where the day before has the wall time
* `Orderly.step`: what is admitted is named later each time
* `schedules_once`: when a window is admitted once, and when one whose start is skipped is admitted
-/

namespace Portico.Operations

open Machine WorkPolicy

structure Schedule where
  id : String
  revision : ℕ
  kind : String
  resource : String
  enabled : Bool
  timezone : String
  startMinute : ℤ
  windowMinutes : ℤ
  catchUp : Bool
  lastSlot : Option ℤ
  createdAt : ℤ
deriving DecidableEq, Repr

structure ScheduleChange where
  expectedRevision : ℕ
  value : Schedule
deriving DecidableEq, Repr

inductive SaveFault
  | invalid
  | conflict (current : Option ℕ)
  | capacity
deriving DecidableEq, Repr

/-- A job that was admitted for a schedule, as the schedule was then. -/
structure Admission where
  schedule : Schedule
  now : ℤ
  slot : ℤ
deriving DecidableEq, Repr

structure Schedules where
  rows : List Schedule
  admitted : List Admission
deriving DecidableEq, Repr

/-! ## Slots -/

/-- The minute of the local day. -/
def minuteOfDay (l : Place) (t : ℤ) : ℤ := l.zone.shown t % dayNs / minuteNs

/-- The instant of the same wall time so many calendar days later. -/
def addDate (l : Place) (days t : ℤ) : ℤ := l.date (l.zone.shown t + days * dayNs)

/-- The window of a schedule began the day before: it is past midnight in it. -/
def afterMidnight (l : Place) (v : Schedule) (now : ℤ) : Prop :=
  minuteOfDay l now - v.startMinute < 0 ∧ 1440 < v.startMinute + v.windowMinutes

instance (l : Place) (v : Schedule) (now : ℤ) : Decidable (afterMidnight l v now) :=
  inferInstanceAs (Decidable (_ ∧ _))

def scheduleSlotLocal (l : Place) (v : Schedule) (now : ℤ) : Option ℤ :=
  let delta := minuteOfDay l now - v.startMinute
  let delta := if afterMidnight l v now then delta + 1440 else delta
  let day := if afterMidnight l v now then l.dateOf (addDate l (-1) now) else l.dateOf now
  if 0 ≤ delta ∧ delta < v.windowMinutes ∧ ∀ last ∈ v.lastSlot, last < day then
    if v.catchUp ∨ delta = 0 then some day else none
  else none

/-- **The slot to admit** a schedule in. `locate` loads time zones. -/
def scheduleSlot (locate : String → Option Place) (v : Schedule) (now : ℤ) : Option ℤ :=
  match locate v.timezone with
  | none => none
  | some l => if v.enabled = false then none else scheduleSlotLocal l v now

/-! ## Admission -/

/-- The savepoint of one schedule: its job is enqueued and the slot is kept, or neither. -/
def admitOne (locate : String → Option Place) (enqueues : String → Bool) (now : ℤ) (s : Schedules)
    (v : Schedule) : Schedules :=
  match scheduleSlot locate v now with
  | none => s
  | some slot =>
    if enqueues v.id then
      { rows := updateWhere (fun r => r.id = v.id && r.revision = v.revision)
          (fun r => { r with lastSlot := some slot }) s.rows
        admitted := s.admitted ++ [⟨v, now, slot⟩] }
    else s

/-- An admission pass. The clock is read for each schedule. -/
def admitSchedules (locate : String → Option Place) (enqueues : String → Bool) (clock : String → ℤ)
    (s : Schedules) : Schedules :=
  ((s.rows.filter Schedule.enabled).take 100).foldl
    (fun s v => admitOne locate enqueues (clock v.id) s v) s

/-! ## Edits -/

def validID (v : String) : Bool :=
  1 ≤ v.utf8ByteSize && v.utf8ByteSize ≤ 160 && v.toList.all fun c =>
    'a' ≤ c && c ≤ 'z' || 'A' ≤ c && c ≤ 'Z' || '0' ≤ c && c ≤ '9' || c = '_' || c = '.' || c = '-'

/-- The row that an edit writes. The last slot is retained across edits. -/
def Schedule.saved (v : Schedule) (revision : ℕ) (createdAt : ℤ) (lastSlot : Option ℤ) : Schedule :=
  { v with revision, createdAt, lastSlot }

/-- An owner's edit. `adapter` is whether the kind has an adapter, and `valid` whether it takes the
resource. -/
def saveSchedule (locate : String → Option Place) (adapter valid : Bool) (now : ℤ) (c : ScheduleChange)
    (rows : List Schedule) : Except SaveFault (List Schedule) :=
  let v := c.value
  if v.revision ≠ 0 ∨ v.createdAt ≠ 0 ∨ v.lastSlot.isSome ∨ validID v.id = false ∨ v.startMinute < 0 ∨
      1440 ≤ v.startMinute ∨ v.windowMinutes < 1 ∨ 1440 < v.windowMinutes ∨
      80 < v.timezone.utf8ByteSize then .error .invalid
  else if (locate v.timezone).isNone then .error .invalid
  else if v.enabled ∧ adapter = false then .error .invalid
  else if v.enabled ∧ valid = false then .error .invalid
  else
    let stale := v.enabled = false ∧ (adapter = false ∨ v.resource ≠ "" ∧ validID v.resource = false)
    match rowOf Schedule.id v.id rows with
    | none =>
      if c.expectedRevision ≠ 0 then .error (.conflict none)
      else if 100 ≤ rows.length then .error .capacity
      else if stale then .error .invalid
      else .ok (rows ++ [v.saved 1 now none])
    | some current =>
      if current.revision ≠ c.expectedRevision then .error (.conflict (some current.revision))
      -- an owner can disable a schedule whose library or adapter is gone
      else if stale ∧ (current.kind ≠ v.kind ∨ current.resource ≠ v.resource) then .error .invalid
      else .ok (updateWhere (fun r => r.id = v.id)
        (fun _ => v.saved (current.revision + 1) current.createdAt current.lastSlot) rows)

inductive ScheduleEvent
  | pass (enqueues : String → Bool) (clock : String → ℤ)
  | save (adapter valid : Bool) (now : ℤ) (c : ScheduleChange)

namespace Schedules

def step (locate : String → Option Place) (s : Schedules) : ScheduleEvent → Option Schedules
  | .pass enqueues clock => some (admitSchedules locate enqueues clock s)
  | .save adapter valid now c =>
    match saveSchedule locate adapter valid now c s.rows with
    | .error _ => none
    | .ok rows => some { s with rows }

end Schedules

/-! ## Waking -/

/-- The first instant, a minute at a time, at which something is so. -/
def firstMinute (ready : ℤ → Bool) (last : ℤ) : ℕ → ℤ → Option ℤ
  | 0, _ => none
  | n + 1, t =>
    if last < t then none
    else if ready t then some t
    else firstMinute ready last n (t + minuteNs)

/-- **When a schedule is due next**, stepping real minutes through two local days. -/
def nextScheduleDue (locate : String → Option Place) (v : Schedule) (now : ℤ) : Option ℤ :=
  if (scheduleSlot locate v now).isSome then some now
  else
    match locate v.timezone with
    | none => none
    | some l =>
      if v.enabled = false then none
      else
        let first := now / minuteNs * minuteNs + minuteNs
        let last := addDate l 2 now
        firstMinute (fun t => (scheduleSlotLocal l v t).isSome) last
          ((last - first) / minuteNs + 1).toNat first

/-! ## What is meant -/

/-- **A window is open** that began on a date: the local clock is at one of its minutes. -/
def Open (l : Place) (v : Schedule) (d t : ℤ) : Prop :=
  d * 1440 + v.startMinute ≤ l.minuteOf t ∧ l.minuteOf t < d * 1440 + v.startMinute + v.windowMinutes

/-- An admission was of the window that began on a date. -/
def Admission.Began (locate : String → Option Place) (x : Admission) (d : ℤ) : Prop :=
  ∃ l, locate x.schedule.timezone = some l ∧ Open l x.schedule d x.now

/-- The start of a schedule's window is a minute that a date doesn't have. -/
def Skipped (l : Place) (v : Schedule) (d : ℤ) : Prop := ∀ t, l.minuteOf t ≠ d * 1440 + v.startMinute

/-- The wall time a calendar day earlier is read as one on the day before. -/
def YesterdayHas (l : Place) (t : ℤ) : Prop := l.dateOf (addDate l (-1) t) = l.dateOf t - 1

/-- **A pass is clear**: where a schedule's window began the day before, that day has the wall time. -/
def DayBefore (locate : String → Option Place) (s : Schedules) : ScheduleEvent → Prop
  | .pass _ clock => ∀ v ∈ s.rows, ∀ l, locate v.timezone = some l →
      afterMidnight l v (clock v.id) → YesterdayHas l (clock v.id)
  | .save .. => True

/-- The window of a schedule starts on a day and lasts for a day at most. -/
def Schedule.Timed (v : Schedule) : Prop :=
  (0 ≤ v.startMinute ∧ v.startMinute < 1440) ∧ 1 ≤ v.windowMinutes ∧ v.windowMinutes ≤ 1440

/-! ## The slots are the windows -/

variable {locate : String → Option Place} {l : Place} {v w : Schedule} {d d' t now slot : ℤ}
  {s s' : Schedules} {enqueues : String → Bool} {clock : String → ℤ}

theorem minuteOf_eq (l : Place) (t : ℤ) : l.minuteOf t = l.dateOf t * 1440 + minuteOfDay l t := by
  unfold Place.minuteOf Place.dateOf minuteOfDay minuteNs dayNs
  omega

theorem minuteOfDay_mem (l : Place) (t : ℤ) : 0 ≤ minuteOfDay l t ∧ minuteOfDay l t < 1440 := by
  unfold minuteOfDay minuteNs dayNs
  omega

theorem Open.unique (hv : v.Timed) (h : Open l v d t) (h' : Open l v d' t) : d = d' := by
  obtain ⟨-, -, hwindow⟩ := hv
  unfold Open at h h'
  omega

theorem open_iff (hv : v.Timed) : Open l v d t ↔
    (¬ afterMidnight l v t ∧ d = l.dateOf t ∧ 0 ≤ minuteOfDay l t - v.startMinute ∧
      minuteOfDay l t - v.startMinute < v.windowMinutes) ∨
    (afterMidnight l v t ∧ d = l.dateOf t - 1 ∧
      minuteOfDay l t - v.startMinute + 1440 < v.windowMinutes) := by
  obtain ⟨⟨hpos, hstart⟩, hmin, hmax⟩ := hv
  obtain ⟨hm, hm'⟩ := minuteOfDay_mem l t
  unfold Open afterMidnight
  rw [minuteOf_eq]
  omega

theorem slot_later (h : scheduleSlotLocal l v now = some slot) : ∀ last ∈ v.lastSlot, last < slot := by
  unfold scheduleSlotLocal at h
  dsimp only at h
  obtain ⟨⟨-, -, hlater⟩, hready⟩ := Option.ite_none_right_eq_some.mp h
  obtain ⟨-, hslot⟩ := Option.ite_none_right_eq_some.mp hready
  exact Option.some.inj hslot ▸ hlater

/-- **The slot to admit** where the day before has the wall time: the date that an open window began on,
if it is later than the last. Without catching up, only the first minute is taken. -/
theorem scheduleSlotLocal_eq_some (hv : v.Timed) (hclear : afterMidnight l v now → YesterdayHas l now) :
    scheduleSlotLocal l v now = some d ↔
      Open l v d now ∧ (∀ last ∈ v.lastSlot, last < d) ∧
        (v.catchUp = true ∨ l.minuteOf now = d * 1440 + v.startMinute) := by
  have hminute := minuteOf_eq l now
  rw [open_iff hv]
  unfold scheduleSlotLocal
  dsimp only
  rw [Option.ite_none_right_eq_some, Option.ite_none_right_eq_some, Option.some.injEq]
  by_cases hafter : afterMidnight l v now
  · have hpos : 0 ≤ minuteOfDay l now - v.startMinute + 1440 := by
      obtain ⟨⟨-, hstart⟩, -⟩ := hv
      have := (minuteOfDay_mem l now).1
      omega
    have hday : l.dateOf (addDate l (-1) now) = l.dateOf now - 1 := hclear hafter
    simp only [hafter, if_true, hday, not_true_eq_false, false_and, false_or, true_and]
    constructor
    · rintro ⟨⟨-, hin, hlater⟩, hready, rfl⟩
      exact ⟨⟨rfl, hin⟩, hlater, hready.imp id fun h => by omega⟩
    · rintro ⟨⟨rfl, hin⟩, hlater, hready⟩
      exact ⟨⟨hpos, hin, hlater⟩, hready.imp id fun h => by omega, rfl⟩
  · simp only [hafter, if_false, not_false_eq_true, false_and, or_false, true_and]
    constructor
    · rintro ⟨⟨hpos, hin, hlater⟩, hready, rfl⟩
      exact ⟨⟨rfl, hpos, hin⟩, hlater, hready.imp id fun h => by omega⟩
    · rintro ⟨⟨rfl, hpos, hin⟩, hlater, hready⟩
      exact ⟨⟨hpos, hin, hlater⟩, hready.imp id fun h => by omega, rfl⟩

theorem scheduleSlot_eq (hl : locate v.timezone = some l) :
    scheduleSlot locate v now = if v.enabled = false then none else scheduleSlotLocal l v now := by
  unfold scheduleSlot
  rw [hl]

theorem scheduleSlot_eq_some : scheduleSlot locate v now = some slot ↔
    ∃ l, locate v.timezone = some l ∧ v.enabled = true ∧ scheduleSlotLocal l v now = some slot := by
  cases hl : locate v.timezone with
  | none => simp [scheduleSlot, hl]
  | some l =>
    rw [scheduleSlot_eq hl]
    cases v.enabled <;> simp

/-! ## What a pass keeps -/

/-- **What every run keeps**: the rows have ids of their own, and the jobs of a schedule are admitted in
later and later slots, of which the last is on its row. -/
structure Orderly (s : Schedules) : Prop where
  keys : (s.rows.map Schedule.id).Nodup
  timed : ∀ v ∈ s.rows, v.Timed
  few : s.rows.length ≤ 100
  wasTimed : ∀ x ∈ s.admitted, x.schedule.Timed
  last : ∀ x ∈ s.admitted, ∃ v ∈ s.rows, v.id = x.schedule.id ∧ ∃ last ∈ v.lastSlot, x.slot ≤ last
  later : s.admitted.Pairwise fun x y => x.schedule.id = y.schedule.id → x.slot < y.slot

theorem admitOne_cases (locate : String → Option Place) (enqueues : String → Bool) (now : ℤ)
    (s : Schedules) (v : Schedule) :
    admitOne locate enqueues now s v = s ∨
      ∃ slot, scheduleSlot locate v now = some slot ∧ enqueues v.id = true ∧
        admitOne locate enqueues now s v =
          { rows := updateWhere (fun r => r.id = v.id && r.revision = v.revision)
              (fun r => { r with lastSlot := some slot }) s.rows
            admitted := s.admitted ++ [⟨v, now, slot⟩] } := by
  unfold admitOne
  cases hslot : scheduleSlot locate v now with
  | none => exact .inl rfl
  | some slot =>
    cases henq : enqueues v.id with
    | false => exact .inl rfl
    | true => exact .inr ⟨slot, rfl, rfl, rfl⟩

theorem admitOne_of_slot (h : scheduleSlot locate v now = some slot) (henq : enqueues v.id = true) :
    admitOne locate enqueues now s v =
      { rows := updateWhere (fun r => r.id = v.id && r.revision = v.revision)
          (fun r => { r with lastSlot := some slot }) s.rows
        admitted := s.admitted ++ [⟨v, now, slot⟩] } := by
  unfold admitOne
  rw [h]
  exact if_pos henq

theorem mem_admitOne (hw : w ∈ s.rows) (hne : w.id ≠ v.id) :
    w ∈ (admitOne locate enqueues now s v).rows := by
  rcases admitOne_cases locate enqueues now s v with heq | ⟨slot, -, -, heq⟩
  · rwa [heq]
  · rw [heq]
    exact mem_updateWhere.mpr ⟨w, hw, by simp [hne]⟩

theorem admitted_subset (x : Admission) (hx : x ∈ s.admitted) :
    x ∈ (admitOne locate enqueues now s v).admitted := by
  rcases admitOne_cases locate enqueues now s v with heq | ⟨slot, -, -, heq⟩
  · rwa [heq]
  · rw [heq]
    exact List.mem_append_left _ hx

theorem Orderly.admitOne (h : Orderly s) (hv : v ∈ s.rows) : Orderly (admitOne locate enqueues now s v) := by
  rcases admitOne_cases locate enqueues now s v with heq | ⟨slot, hslot, -, heq⟩
  · rwa [heq]
  · obtain ⟨l, -, -, hlocal⟩ := scheduleSlot_eq_some.mp hslot
    have hlater := slot_later hlocal
    rw [heq]
    have hrow : { v with lastSlot := some slot } ∈
        updateWhere (fun r : Schedule => r.id = v.id && r.revision = v.revision)
          (fun r => { r with lastSlot := some slot }) s.rows :=
      mem_updateWhere.mpr ⟨v, hv, by simp⟩
    -- what was admitted of this schedule before was in an earlier slot
    have hbefore : ∀ x ∈ s.admitted, x.schedule.id = v.id → x.slot < slot := by
      intro x hx hid
      obtain ⟨w, hw, hwid, last, hlast, hle⟩ := h.last x hx
      obtain rfl := eq_of_key h.keys hw hv (hwid.trans hid)
      exact hle.trans_lt (hlater last hlast)
    constructor
    · rw [map_updateWhere (g := Schedule.id)]
      · exact h.keys
      · exact fun _ => rfl
    · apply forall_updateWhere
      · exact fun w hw _ => h.timed w hw
      · exact fun w hw _ => h.timed w hw
    · unfold updateWhere
      rw [List.length_map]
      exact h.few
    · intro x hx
      rcases List.mem_append.mp hx with hold | hnew
      · exact h.wasTimed x hold
      · obtain rfl := List.mem_singleton.mp hnew
        exact h.timed v hv
    · intro x hx
      rcases List.mem_append.mp hx with hold | hnew
      · obtain ⟨w, hw, hid, last, hlast, hle⟩ := h.last x hold
        by_cases hwv : w.id = v.id
        · exact ⟨_, hrow, hwv.symm.trans hid, slot, rfl, (hbefore x hold (hid.symm.trans hwv)).le⟩
        · refine ⟨w, mem_updateWhere.mpr ⟨w, hw, by simp [hwv]⟩, hid, last, hlast, hle⟩
      · obtain rfl := List.mem_singleton.mp hnew
        exact ⟨_, hrow, rfl, slot, rfl, le_rfl⟩
    · refine List.pairwise_append.mpr ⟨h.later, List.pairwise_singleton _ _, fun x hx y hy hid => ?_⟩
      obtain rfl := List.mem_singleton.mp hy
      exact hbefore x hx hid

/-- The rows of a pass are read before it, and are still as they were when their turn comes. -/
theorem pass_induction {P : Schedules → Prop} {vs : List Schedule}
    (hstep : ∀ s v, v ∈ vs → v ∈ s.rows → P s → P (admitOne locate enqueues (clock v.id) s v))
    (hvs : ∀ v ∈ vs, v ∈ s.rows) (hnodup : (vs.map Schedule.id).Nodup) (h : P s) :
    P (vs.foldl (fun s v => admitOne locate enqueues (clock v.id) s v) s) := by
  induction vs generalizing s with
  | nil => exact h
  | cons v vs ih =>
    obtain ⟨hv, hvs⟩ := List.forall_mem_cons.mp hvs
    rw [List.map_cons, List.nodup_cons] at hnodup
    refine ih (fun s w hw => hstep s w (List.mem_cons_of_mem _ hw)) (fun w hw => ?_) hnodup.2
      (hstep s v List.mem_cons_self hv h)
    refine mem_admitOne (hvs w hw) fun heq => hnodup.1 ?_
    exact heq ▸ List.mem_map_of_mem hw

/-- The rows that a pass takes. -/
def passed (s : Schedules) : List Schedule := (s.rows.filter Schedule.enabled).take 100

theorem mem_of_passed (hv : v ∈ passed s) : v ∈ s.rows ∧ v.enabled = true :=
  List.mem_filter.mp (List.mem_of_mem_take hv)

theorem Orderly.mem_passed (h : Orderly s) (hv : v ∈ s.rows) (hon : v.enabled = true) : v ∈ passed s := by
  unfold passed
  rw [List.take_of_length_le ((List.length_filter_le _ _).trans h.few)]
  exact List.mem_filter.mpr ⟨hv, hon⟩

theorem Orderly.passed_nodup (h : Orderly s) : ((passed s).map Schedule.id).Nodup :=
  h.keys.sublist (((List.take_sublist _ _).trans List.filter_sublist).map _)

theorem Orderly.admitSchedules (h : Orderly s) : Orderly (admitSchedules locate enqueues clock s) :=
  pass_induction (fun _ _ _ hv hs => hs.admitOne hv) (fun _ hv => (mem_of_passed hv).1) h.passed_nodup h

/-- **A pass admits** the job of every schedule that has a slot and whose job is taken. -/
theorem Orderly.mem_admitSchedules (h : Orderly s) (hv : v ∈ s.rows)
    (hslot : scheduleSlot locate v (clock v.id) = some slot) (henq : enqueues v.id = true) :
    ⟨v, clock v.id, slot⟩ ∈ (Operations.admitSchedules locate enqueues clock s).admitted := by
  obtain ⟨-, -, hon, -⟩ := scheduleSlot_eq_some.mp hslot
  have hpassed := h.mem_passed hv hon
  suffices hmem : ∀ (vs : List Schedule) (s : Schedules), v ∈ vs →
      ⟨v, clock v.id, slot⟩ ∈
        (vs.foldl (fun s v => Operations.admitOne locate enqueues (clock v.id) s v) s).admitted from
    hmem _ _ hpassed
  intro vs
  induction vs with
  | nil => nofun
  | cons w vs ih =>
    intro s hmem
    rcases List.mem_cons.mp hmem with rfl | hrest
    · -- its own turn admits it, and what is admitted stays
      rw [List.foldl_cons, admitOne_of_slot hslot henq]
      refine List.foldlRecOn vs _
        (motive := fun t : Schedules => (⟨v, clock v.id, slot⟩ : Admission) ∈ t.admitted)
        (List.mem_append_right _ (List.mem_singleton_self _)) fun t ht u _ => ?_
      exact admitted_subset _ ht
    · exact ih _ hrest

/-! ## What an edit keeps -/

/-- What an edit that is taken writes: a row that was there under its identity, or a new one. -/
theorem saveSchedule_eq_ok {adapter valid : Bool} {c : ScheduleChange} {rows rows' : List Schedule}
    (h : saveSchedule locate adapter valid now c rows = .ok rows') :
    c.value.Timed ∧
      ((rowOf Schedule.id c.value.id rows = none ∧ rows.length < 100 ∧
        rows' = rows ++ [c.value.saved 1 now none]) ∨
      ∃ current, rowOf Schedule.id c.value.id rows = some current ∧
        rows' = updateWhere (fun r => r.id = c.value.id)
          (fun _ => c.value.saved (current.revision + 1) current.createdAt current.lastSlot) rows) := by
  unfold saveSchedule at h
  dsimp only at h
  obtain ⟨hshape, h⟩ := guard_eq_ok.mp h
  obtain ⟨-, h⟩ := guard_eq_ok.mp h
  obtain ⟨-, h⟩ := guard_eq_ok.mp h
  obtain ⟨-, h⟩ := guard_eq_ok.mp h
  push Not at hshape
  obtain ⟨-, -, -, -, hpos, hstart, hmin, hmax, -⟩ := hshape
  refine ⟨⟨⟨hpos, hstart⟩, hmin, hmax⟩, ?_⟩
  cases hrow : rowOf Schedule.id c.value.id rows with
  | none =>
    simp only [hrow] at h
    obtain ⟨-, h⟩ := guard_eq_ok.mp h
    obtain ⟨hfew, h⟩ := guard_eq_ok.mp h
    obtain ⟨-, h⟩ := guard_eq_ok.mp h
    exact .inl ⟨rfl, not_le.mp hfew, (Except.ok.inj h).symm⟩
  | some current =>
    simp only [hrow] at h
    obtain ⟨-, h⟩ := guard_eq_ok.mp h
    obtain ⟨-, h⟩ := guard_eq_ok.mp h
    exact .inr ⟨current, rfl, (Except.ok.inj h).symm⟩

theorem Orderly.save {adapter valid : Bool} {c : ScheduleChange} {rows' : List Schedule} (h : Orderly s)
    (hsave : saveSchedule locate adapter valid now c s.rows = .ok rows') :
    Orderly { s with rows := rows' } := by
  obtain ⟨htimed, ⟨hnone, hfew, rfl⟩ | ⟨current, hsome, rfl⟩⟩ := saveSchedule_eq_ok hsave
  · constructor
    · exact nodup_append_row h.keys fun x hx => rowOf_eq_none.mp hnone x hx
    · intro v hv
      rcases List.mem_append.mp hv with hold | hnew
      · exact h.timed v hold
      · obtain rfl := List.mem_singleton.mp hnew
        exact htimed
    · show (s.rows ++ [_]).length ≤ 100
      rw [List.length_append, List.length_singleton]
      exact hfew
    · exact h.wasTimed
    · intro x hx
      obtain ⟨w, hw, hlast⟩ := h.last x hx
      exact ⟨w, List.mem_append_left _ hw, hlast⟩
    · exact h.later
  · obtain ⟨hcurrent, hid⟩ := (rowOf_eq_some h.keys).mp hsome
    constructor
    · have hsame : (updateWhere (fun r : Schedule => r.id = c.value.id)
          (fun _ => c.value.saved (current.revision + 1) current.createdAt current.lastSlot)
          s.rows).map Schedule.id = s.rows.map Schedule.id := by
        unfold updateWhere
        rw [List.map_map]
        apply List.map_congr_left
        intro x _
        rw [Function.comp_apply]
        split_ifs with heq
        · exact (of_decide_eq_true heq).symm
        · rfl
      rw [hsame]
      exact h.keys
    · apply forall_updateWhere
      · exact fun _ _ _ => htimed
      · exact fun w hw _ => h.timed w hw
    · unfold updateWhere
      rw [List.length_map]
      exact h.few
    · exact h.wasTimed
    · intro x hx
      obtain ⟨w, hw, hwid, last, hlast, hle⟩ := h.last x hx
      by_cases hedited : w.id = c.value.id
      · -- the slot of the row that was there is retained
        obtain rfl := eq_of_key h.keys hw hcurrent (hedited.trans hid.symm)
        refine ⟨_, mem_updateWhere.mpr ⟨w, hw, (if_pos (decide_eq_true hedited)).symm⟩,
          hedited.symm.trans hwid, last, hlast, hle⟩
      · exact ⟨w, mem_updateWhere.mpr ⟨w, hw, by simp [hedited]⟩, hwid, last, hlast, hle⟩
    · exact h.later

theorem Orderly.step {e : ScheduleEvent} (h : Orderly s) (hstep : s.step locate e = some s') : Orderly s' := by
  cases e with
  | pass enqueues clock => exact Option.some.inj hstep ▸ h.admitSchedules
  | save adapter valid now c =>
    unfold Schedules.step at hstep
    dsimp only at hstep
    cases hsave : saveSchedule locate adapter valid now c s.rows with
    | error fault => simp [hsave] at hstep
    | ok rows =>
      simp only [hsave] at hstep
      exact Option.some.inj hstep ▸ h.save hsave

theorem admitted_save {adapter valid : Bool} {c : ScheduleChange}
    (hstep : s.step locate (.save adapter valid now c) = some s') : s'.admitted = s.admitted := by
  unfold Schedules.step at hstep
  dsimp only at hstep
  cases hsave : saveSchedule locate adapter valid now c s.rows with
  | error fault => simp [hsave] at hstep
  | ok rows =>
    simp only [hsave] at hstep
    exact Option.some.inj hstep ▸ rfl

/-! ## Admissions are of the windows they are named by -/

/-- What holds of each admission of a pass holds of all once it is over. -/
theorem Orderly.forall_admitSchedules {P : Admission → Prop} (h : Orderly s) (hold : ∀ x ∈ s.admitted, P x)
    (hnew : ∀ v ∈ s.rows, ∀ slot, scheduleSlot locate v (clock v.id) = some slot →
      P ⟨v, clock v.id, slot⟩) :
    ∀ x ∈ (Operations.admitSchedules locate enqueues clock s).admitted, P x := by
  refine @pass_induction _ _ _ _ (fun t => ∀ x ∈ t.admitted, P x) (passed s) (fun t v hv _ ht x hx => ?_) (fun _ hv => (mem_of_passed hv).1) h.passed_nodup hold
  rcases admitOne_cases locate enqueues (clock v.id) t v with heq | ⟨slot, hslot, -, heq⟩
  · rw [heq] at hx
    exact ht x hx
  · rw [heq] at hx
    rcases List.mem_append.mp hx with hin | hlast
    · exact ht x hin
    · obtain rfl := List.mem_singleton.mp hlast
      exact hnew v (mem_of_passed hv).1 slot hslot

theorem forall_admitted {P : Admission → Prop} {Q : Schedules → ScheduleEvent → Prop}
    {es : List ScheduleEvent} (h : Orderly s) (hold : ∀ x ∈ s.admitted, P x)
    (hQ : Each (Schedules.step locate) Q s es)
    (hnew : ∀ s enqueues clock, Orderly s → Q s (.pass enqueues clock) → ∀ v ∈ s.rows, ∀ slot,
      scheduleSlot locate v (clock v.id) = some slot → P ⟨v, clock v.id, slot⟩)
    (hrun : run (Schedules.step locate) s es = some s') : ∀ x ∈ s'.admitted, P x := by
  induction es generalizing s with
  | nil => exact Option.some.inj hrun ▸ hold
  | cons e es ih =>
    obtain ⟨t, ht, hrest⟩ := run_cons.mp hrun
    refine ih (h.step ht) ?_ (hQ.2 t ht) hrest
    cases e with
    | pass enqueues clock =>
      rw [← Option.some.inj ht]
      exact h.forall_admitSchedules hold (hnew s enqueues clock h hQ.1)
    | save adapter valid now c => rwa [admitted_save ht]

theorem Orderly.run {es : List ScheduleEvent} (h : Orderly s)
    (hrun : run (Schedules.step locate) s es = some s') : Orderly s' :=
  run_invariant (fun _ _ _ hs hstep => hs.step hstep) h hrun

/-- Where the passes are clear, an admission is of the window that its slot names. -/
theorem began_of_clear (hv : v.Timed) (hslot : scheduleSlot locate v now = some slot)
    (hclear : ∀ l, locate v.timezone = some l → afterMidnight l v now → YesterdayHas l now) :
    (⟨v, now, slot⟩ : Admission).Began locate slot := by
  obtain ⟨l, hl, -, hlocal⟩ := scheduleSlot_eq_some.mp hslot
  exact ⟨l, hl, ((scheduleSlotLocal_eq_some hv (hclear l hl)).mp hlocal).1⟩

theorem Admission.Began.unique {x : Admission} (hx : x.schedule.Timed) (h : x.Began locate d)
    (h' : x.Began locate d') : d = d' := by
  obtain ⟨l, hl, hopen⟩ := h
  obtain ⟨l', hl', hopen'⟩ := h'
  obtain rfl := Option.some.inj (hl.symm.trans hl')
  exact hopen.unique hx hopen'

/-- A window whose start is skipped is not admitted without catching up: no minute is the first. -/
theorem not_began_of_skipped (hv : v.Timed) (hslot : scheduleSlot locate v now = some slot)
    (hoff : v.catchUp = false) (hl : locate v.timezone = some l) (hskipped : Skipped l v d) :
    ¬ (⟨v, now, slot⟩ : Admission).Began locate d := by
  rintro ⟨l', hl', hopen⟩
  obtain rfl := Option.some.inj (hl.symm.trans hl')
  obtain ⟨l', hl', -, hlocal⟩ := scheduleSlot_eq_some.mp hslot
  obtain rfl := Option.some.inj (hl.symm.trans hl')
  have hopen : Open l v d now := hopen
  have hminute := minuteOf_eq l now
  have hnot := hskipped now
  unfold scheduleSlotLocal at hlocal
  dsimp only at hlocal
  obtain ⟨-, hready⟩ := Option.ite_none_right_eq_some.mp hlocal
  obtain ⟨hcatch | hfirst, -⟩ := Option.ite_none_right_eq_some.mp hready
  · rw [hoff] at hcatch
    cases hcatch
  · rcases (open_iff hv).mp hopen with ⟨hafter, rfl, -⟩ | ⟨hafter, rfl, -⟩
    · rw [if_neg hafter] at hfirst
      omega
    · rw [if_pos hafter] at hfirst
      omega

/-! ## Ticks reach a window -/

/-- The instants at which a schedule was passed. -/
def ticks (id : String) (es : List ScheduleEvent) : List ℤ :=
  es.filterMap fun
    | .pass _ clock => some (clock id)
    | .save .. => none

/-- In every minute from one instant to another there is a tick. -/
def EveryMinute (a b : ℤ) (ts : List ℤ) : Prop :=
  ∀ t, a ≤ t → t + minuteNs ≤ b → ∃ x ∈ ts, t ≤ x ∧ x < t + minuteNs

/-- No edit of a schedule, and its job is taken. -/
def Untouched (id : String) : ScheduleEvent → Prop
  | .pass enqueues _ => enqueues id = true
  | .save _ _ _ c => c.value.id ≠ id

theorem admitted_mono {es : List ScheduleEvent} {x : Admission} (hx : x ∈ s.admitted)
    (hrun : run (Schedules.step locate) s es = some s') : x ∈ s'.admitted := by
  refine run_invariant (P := fun t => x ∈ t.admitted) (fun t e t' ht hstep => ?_) hx hrun
  cases e with
  | pass enqueues clock =>
    rw [← Option.some.inj hstep]
    unfold admitSchedules
    exact List.foldlRecOn _ _ (motive := fun t : Schedules => x ∈ t.admitted) ht
      fun t ht u _ => admitted_subset x ht
  | save adapter valid now c => rwa [admitted_save hstep]

theorem mem_save {adapter valid : Bool} {c : ScheduleChange} (hv : v ∈ s.rows)
    (hne : c.value.id ≠ v.id) (hstep : s.step locate (.save adapter valid now c) = some s') :
    v ∈ s'.rows := by
  unfold Schedules.step at hstep
  dsimp only at hstep
  cases hsave : saveSchedule locate adapter valid now c s.rows with
  | error fault => simp [hsave] at hstep
  | ok rows =>
    simp only [hsave] at hstep
    rw [← Option.some.inj hstep]
    obtain ⟨-, ⟨-, -, rfl⟩ | ⟨current, -, rfl⟩⟩ := saveSchedule_eq_ok hsave
    · exact List.mem_append_left _ hv
    · exact mem_updateWhere.mpr ⟨v, hv, by simp [hne.symm]⟩

/-- **Ticks while a window is open**: it stays open for a minute or more, and ticks come at least once a
minute, none of them before it opens. -/
structure Ticked (l : Place) (v : Schedule) (d a b : ℤ) (es : List ScheduleEvent) : Prop where
  isOpen : ∀ t, a ≤ t → t < b → Open l v d t
  long : a + minuteNs ≤ b
  untouched : ∀ e ∈ es, Untouched v.id e
  sorted : (ticks v.id es).Pairwise (· ≤ ·)
  since : ∀ t ∈ ticks v.id es, a ≤ t
  often : EveryMinute a b (ticks v.id es)

/-- **The first tick in a window admits it**, with catching up, if neither it nor a later one was admitted
before. -/
theorem Orderly.reaches {es : List ScheduleEvent} {a b : ℤ} (h : Orderly s) (hv : v ∈ s.rows)
    (hl : locate v.timezone = some l) (hon : v.enabled = true) (hcatch : v.catchUp = true)
    (hlast : ∀ last ∈ v.lastSlot, last < d) (hticked : Ticked l v d a b es)
    (hclear : Each (Schedules.step locate) (DayBefore locate) s es)
    (hrun : Machine.run (Schedules.step locate) s es = some s') :
    ∃ now, (⟨v, now, d⟩ : Admission) ∈ s'.admitted := by
  obtain ⟨hopen, hlong, huntouched, hsorted, hsince, hoften⟩ := hticked
  obtain ⟨x, hx, -, hsoon⟩ := hoften a le_rfl hlong
  clear hoften
  induction es generalizing s with
  | nil => cases hx
  | cons e es ih =>
    obtain ⟨t, ht, hrest⟩ := run_cons.mp hrun
    obtain ⟨huntouched, huntouched'⟩ := List.forall_mem_cons.mp huntouched
    cases e with
    | pass enqueues clock =>
      -- the first tick isn't after the one that comes within the minute
      have hfirst : ticks v.id (.pass enqueues clock :: es) = clock v.id :: ticks v.id es := rfl
      rw [hfirst] at hsorted hsince hx
      have hle : clock v.id ≤ x := by
        rcases List.mem_cons.mp hx with rfl | hmem
        · exact le_rfl
        · exact (List.pairwise_cons.mp hsorted).1 x hmem
      have hin := hopen (clock v.id) (hsince _ List.mem_cons_self) (by omega)
      have hslot : scheduleSlot locate v (clock v.id) = some d :=
        scheduleSlot_eq_some.mpr ⟨l, hl, hon, (scheduleSlotLocal_eq_some (h.timed v hv)
          (hclear.1 v hv l hl)).mpr ⟨hin, hlast, .inl hcatch⟩⟩
      refine ⟨clock v.id, admitted_mono ?_ hrest⟩
      rw [← Option.some.inj ht]
      exact h.mem_admitSchedules hv hslot huntouched
    | save adapter valid now c =>
      have hsame : ticks v.id (.save adapter valid now c :: es) = ticks v.id es := rfl
      rw [hsame] at hsorted hsince hx
      exact ih (h.step ht) (mem_save hv huntouched ht) (hclear.2 t ht) hrest huntouched' hsorted hsince hx

/-! ## The minute the loop wakes at -/

theorem firstMinute_eq_some {ready : ℤ → Bool} {last first : ℤ} {n : ℕ} :
    firstMinute ready last n first = some t ↔
      ∃ i < n, t = first + i * minuteNs ∧ t ≤ last ∧ ready t = true ∧
        ∀ j < i, ready (first + j * minuteNs) = false := by
  induction n generalizing first with
  | zero => simp [firstMinute]
  | succ n ih =>
    rw [firstMinute]
    split_ifs with hlate hready
    · refine ⟨nofun, ?_⟩
      rintro ⟨i, -, rfl, hle, -⟩
      have : 0 ≤ (i : ℤ) * minuteNs := by unfold minuteNs; positivity
      omega
    · constructor
      · intro h
        obtain rfl := Option.some.inj h
        exact ⟨0, n.succ_pos, by simp, not_lt.mp hlate, hready, nofun⟩
      · rintro ⟨i, -, rfl, -, hi, hbefore⟩
        cases i with
        | zero => simp
        | succ i => simpa [hready] using hbefore 0 i.succ_pos
    · rw [ih]
      constructor
      · rintro ⟨i, hi, rfl, hle, hr, hbefore⟩
        refine ⟨i + 1, by omega, by push_cast; ring, hle, hr, fun j hj => ?_⟩
        cases j with
        | zero => simpa using hready
        | succ j =>
          have hj := hbefore j (by omega)
          rwa [add_assoc, ← one_add_mul, add_comm 1, ← Nat.cast_succ] at hj
      · rintro ⟨i, hi, rfl, hle, hr, hbefore⟩
        cases i with
        | zero => simp [hready] at hr
        | succ i =>
          refine ⟨i, by omega, by push_cast; ring, hle, hr, fun j hj => ?_⟩
          rw [add_assoc, ← one_add_mul, add_comm 1, ← Nat.cast_succ]
          exact hbefore (j + 1) (by omega)

/-- Now, or a whole minute within two local days. -/
def Soon (locate : String → Option Place) (v : Schedule) (now t : ℤ) : Prop :=
  t = now ∨ minuteNs ∣ t ∧ now < t ∧ ∃ l, locate v.timezone = some l ∧ t ≤ addDate l 2 now

/-- **The minute the loop wakes at** for a schedule is the first at which it has a slot. -/
theorem nextScheduleDue_eq_some : nextScheduleDue locate v now = some t ↔
    IsLeast {t | Soon locate v now t ∧ (scheduleSlot locate v t).isSome} t := by
  unfold nextScheduleDue
  have hle {t : ℤ} (ht : Soon locate v now t) : now ≤ t := ht.elim Eq.ge fun h => h.2.1.le
  by_cases hnow : (scheduleSlot locate v now).isSome
  · rw [if_pos hnow, Option.some.injEq]
    have hleast : IsLeast {t | Soon locate v now t ∧ (scheduleSlot locate v t).isSome} now :=
      ⟨⟨.inl rfl, hnow⟩, fun t ht => hle ht.1⟩
    exact ⟨fun h => h ▸ hleast, hleast.unique⟩
  · rw [if_neg hnow]
    cases hl : locate v.timezone with
    | none =>
      refine ⟨nofun, ?_⟩
      rintro ⟨⟨-, hsome⟩, -⟩
      simp [scheduleSlot, hl] at hsome
    | some l =>
      dsimp only
      cases hon : v.enabled with
      | false =>
        refine ⟨nofun, ?_⟩
        rintro ⟨⟨-, hsome⟩, -⟩
        simp [scheduleSlot_eq hl, hon] at hsome
      | true =>
        rw [if_neg (by decide), firstMinute_eq_some]
        have hlocal (t : ℤ) : scheduleSlotLocal l v t = scheduleSlot locate v t := by
          rw [scheduleSlot_eq hl, hon, if_neg (by decide)]
        simp only [hlocal]
        constructor
        · rintro ⟨i, -, rfl, hlast, hready, hbefore⟩
          refine ⟨⟨.inr ⟨?_, ?_, l, hl, hlast⟩, hready⟩, ?_⟩
          · unfold minuteNs
            omega
          · unfold minuteNs
            omega
          · -- any other minute is a later step, since the earlier ones weren't ready
            rintro t ⟨rfl | ⟨⟨q, rfl⟩, hlt, l', hl', hle⟩, hsome⟩
            · exact absurd hsome hnow
            · by_contra hearly
              have hj := hbefore (q - now / minuteNs - 1).toNat (by unfold minuteNs at *; omega)
              rw [show now / minuteNs * minuteNs + minuteNs +
                  ((q - now / minuteNs - 1).toNat : ℤ) * minuteNs = minuteNs * q by
                unfold minuteNs at *; omega] at hj
              rw [hj] at hsome
              cases hsome
        · rintro ⟨⟨rfl | ⟨⟨q, rfl⟩, hlt, l', hl', hle⟩, hsome⟩, hleast⟩
          · exact absurd hsome hnow
          · obtain rfl := Option.some.inj (hl.symm.trans hl')
            refine ⟨(q - now / minuteNs - 1).toNat, by unfold minuteNs at *; omega,
              by unfold minuteNs at *; omega, hle, hsome, fun j hj => ?_⟩
            cases hr : (scheduleSlot locate v (now / minuteNs * minuteNs + minuteNs + j * minuteNs)).isSome with
            | false => rfl
            | true =>
              have hmin := hleast ⟨.inr ⟨by unfold minuteNs; omega, by unfold minuteNs; omega, l, hl,
                by unfold minuteNs at *; omega⟩, hr⟩
              unfold minuteNs at *
              omega

theorem nextScheduleDue_eq_none : nextScheduleDue locate v now = none ↔
    ∀ t, Soon locate v now t → scheduleSlot locate v t = none := by
  constructor
  · intro h t ht
    by_contra hsome
    have hsome : (scheduleSlot locate v t).isSome := Option.isSome_iff_ne_none.mpr hsome
    obtain ⟨first, hfirst, hleast⟩ := Int.exists_least_of_bdd
      (P := fun t => Soon locate v now t ∧ (scheduleSlot locate v t).isSome)
      ⟨now, fun t ht => ht.1.elim Eq.ge fun h => h.2.1.le⟩ ⟨t, ht, hsome⟩
    have hdue := nextScheduleDue_eq_some.mpr ⟨hfirst, fun t ht => hleast t ht⟩
    rw [h] at hdue
    cases hdue
  · intro h
    cases hdue : nextScheduleDue locate v now with
    | none => rfl
    | some t =>
      obtain ⟨⟨hsoon, hsome⟩, -⟩ := nextScheduleDue_eq_some.mp hdue
      rw [h t hsoon] at hsome
      cases hsome

/-! ## Once a local day -/

/-- The window that began on a date is admitted once. -/
def Schedules.Once (locate : String → Option Place) (s : Schedules) : Prop :=
  s.admitted.Pairwise fun x y => x.schedule.id = y.schedule.id →
    ∀ d, ¬ (x.Began locate d ∧ y.Began locate d)

/-- **Schedules run once a local day**, in a run from no schedules to a state. -/
structure RunsOnce (locate : String → Option Place) (es : List ScheduleEvent) (s : Schedules) :
    Prop where
  /-- What is admitted is named later each time. -/
  later : s.admitted.Pairwise fun x y => x.schedule.id = y.schedule.id → x.slot < y.slot
  /-- Where all passes are clear, the names are those of the windows, and each is admitted once. -/
  once : Each (Schedules.step locate) (DayBefore locate) ⟨[], []⟩ es →
    (∀ x ∈ s.admitted, x.Began locate x.slot) ∧ s.Once locate
  /-- A window whose start is skipped is admitted with catching up. -/
  caught : ∀ v ∈ s.rows, ∀ l d, locate v.timezone = some l → v.enabled = true → Skipped l v d →
    (∀ last ∈ v.lastSlot, last < d) → v.catchUp = true → ∀ a b es' s', Ticked l v d a b es' →
    Each (Schedules.step locate) (DayBefore locate) s es' → run (Schedules.step locate) s es' = some s' →
    ∃ now, ⟨v, now, d⟩ ∈ s'.admitted
  /-- Without, it is not. -/
  uncaught : ∀ x ∈ s.admitted, x.schedule.catchUp = false → ∀ l d,
    locate x.schedule.timezone = some l → Skipped l x.schedule d → ¬ x.Began locate d
  /-- The loop wakes at the first minute with a slot, and at none if there is none. -/
  wakes : ∀ v now,
    (∀ t, nextScheduleDue locate v now = some t ↔
      IsLeast {t | Soon locate v now t ∧ (scheduleSlot locate v t).isSome} t) ∧
    (nextScheduleDue locate v now = none ↔ ∀ t, Soon locate v now t → scheduleSlot locate v t = none)

theorem orderly_empty : Orderly ⟨[], []⟩ where
  keys := List.nodup_nil
  timed := nofun
  few := Nat.zero_le _
  wasTimed := nofun
  last := nofun
  later := .nil

/-- Windows that are named by their dates, later each time, are admitted once. -/
theorem Orderly.once (h : Orderly s) (hbegan : ∀ x ∈ s.admitted, x.Began locate x.slot) : s.Once locate := by
  refine h.later.imp_of_mem fun hx hy hlt hid d hboth => ?_
  obtain rfl := hboth.1.unique (h.wasTimed _ hx) (hbegan _ hx)
  have heq := hboth.2.unique (h.wasTimed _ hy) (hbegan _ hy)
  exact (hlt hid).ne heq

/-- **Schedules.** In every run the slots of a schedule increase; where the day before has the wall time of
every admission, each window is admitted once, and one whose start is skipped is admitted just with
catching up. -/
theorem schedules_once (locate : String → Option Place) (es : List ScheduleEvent) {s : Schedules}
    (hrun : run (Schedules.step locate) ⟨[], []⟩ es = some s) : RunsOnce locate es s := by
  have hkept := orderly_empty.run hrun
  have hany : Each (Schedules.step locate) (fun _ _ => True) ⟨[], []⟩ es :=
    each_of_kept (I := fun _ => True) (fun _ _ _ _ _ => trivial) (fun _ _ _ => trivial) trivial
  refine ⟨hkept.later, fun hclear => ?_, fun v hv l d hl hon _ hlast hcatch a b es' s' hticked hclear hrun' =>
    hkept.reaches hv hl hon hcatch hlast hticked hclear hrun', ?_,
    fun v now => ⟨fun t => nextScheduleDue_eq_some, nextScheduleDue_eq_none⟩⟩
  · have hbegan : ∀ x ∈ s.admitted, x.Began locate x.slot := by
      refine forall_admitted orderly_empty nofun hclear (fun t enqueues clock ht hpass v hv slot hslot => ?_) hrun
      exact began_of_clear (ht.timed v hv) hslot (hpass v hv)
    exact ⟨hbegan, hkept.once hbegan⟩
  · refine forall_admitted orderly_empty nofun hany (fun t enqueues clock ht _ v hv slot hslot => ?_) hrun
    exact fun hoff l d hl hskipped => not_began_of_skipped (ht.timed v hv) hslot hoff hl hskipped

/-- An edit that adds a schedule of a library scan in Havana. -/
def scanChange (startMinute windowMinutes : ℤ) (catchUp : Bool) : ScheduleChange :=
  { expectedRevision := 0
    value :=
      { id := "nightly", revision := 0, kind := "library-scan", resource := "", enabled := true
        timezone := "America/Havana", startMinute, windowMinutes, catchUp, lastSlot := none
        createdAt := 0 } }

/-- The passes at two instants, after the schedule was added. -/
def twoPasses (t t' : ℤ) : List ScheduleEvent :=
  [.save true true 1 (scanChange 1380 240 true), .pass (fun _ => true) fun _ => t,
    .pass (fun _ => true) fun _ => t']

/-- The passes at eleven in the evening and at two in the morning are clear. -/
theorem schedules_once_havana :
    RunsOnce (fun _ => some havana) (twoPasses 97200000000000 108000000000000)
      { rows := [{ (scanChange 1380 240 true).value with
          revision := 1, createdAt := 1, lastSlot := some 0 }]
        admitted := [⟨{ (scanChange 1380 240 true).value with revision := 1, createdAt := 1 },
          97200000000000, 0⟩] } :=
  schedules_once _ _ (by decide +kernel)

/-- On day one, at half past midnight and at one, the window from eleven on day zero to three is admitted
twice: day zero has no half past midnight. One from half past midnight on day zero, without catching up,
is not admitted by the tick at one. -/
theorem nightly_twice :
    (¬ ∀ es s, run (Schedules.step fun _ => some havana) ⟨[], []⟩ es = some s →
      s.Once fun _ => some havana) ∧
    ¬ ∀ es s, run (Schedules.step fun _ => some havana) ⟨[], []⟩ es = some s → ∀ v ∈ s.rows, ∀ d,
      v.enabled = true → Skipped havana v d → (∀ last ∈ v.lastSlot, last < d) → ∀ a b es' s',
      Ticked havana v d a b es' → run (Schedules.step fun _ => some havana) s es' = some s' →
      ∃ now, ⟨v, now, d⟩ ∈ s'.admitted := by
  constructor
  · intro h
    have hrun : run (Schedules.step fun _ => some havana) ⟨[], []⟩
        (twoPasses 102600000000000 104400000000000) = some
          { rows := [{ (scanChange 1380 240 true).value with
              revision := 1, createdAt := 1, lastSlot := some 0 }]
            admitted := [⟨{ (scanChange 1380 240 true).value with revision := 1, createdAt := 1 },
                102600000000000, -1⟩,
              ⟨{ (scanChange 1380 240 true).value with
                revision := 1, createdAt := 1, lastSlot := some (-1) }, 104400000000000, 0⟩] } := by
      decide +kernel
    have hpair := (List.pairwise_cons.mp (h _ _ hrun)).1 _ (List.mem_singleton_self _) rfl 0
    refine hpair ⟨⟨havana, rfl, ?_⟩, havana, rfl, ?_⟩
    · unfold Open
      decide +kernel
    · unfold Open
      decide +kernel
  · intro h
    have hrun : run (Schedules.step fun _ => some havana) ⟨[], []⟩
        [.save true true 1 (scanChange 30 120 false)] = some
          ⟨[{ (scanChange 30 120 false).value with revision := 1, createdAt := 1 }], []⟩ := by
      decide +kernel
    have htick : run (Schedules.step fun _ => some havana)
        ⟨[{ (scanChange 30 120 false).value with revision := 1, createdAt := 1 }], []⟩
        [.pass (fun _ => true) fun _ => 18000000000000] = some
          ⟨[{ (scanChange 30 120 false).value with revision := 1, createdAt := 1 }], []⟩ := by
      decide +kernel
    refine absurd (h _ _ hrun _ (List.mem_singleton_self _) 0 rfl (fun t => ?_) nofun
      18000000000000 18060000000000 _ _ ?_ htick) (fun ⟨now, hmem⟩ => nomatch hmem)
    · unfold Place.minuteOf Zone.shown havana minuteNs scanChange
      dsimp only
      split_ifs <;> omega
    · constructor
      · intro t hge hlt
        unfold Open Place.minuteOf Zone.shown havana minuteNs scanChange
        dsimp only
        split_ifs <;> omega
      · decide
      · exact List.forall_mem_singleton.mpr rfl
      · exact List.pairwise_singleton _ _
      · exact List.forall_mem_singleton.mpr le_rfl
      · intro t hge hle
        refine ⟨18000000000000, List.mem_singleton_self _, ?_⟩
        unfold minuteNs at *
        omega

end Portico.Operations
