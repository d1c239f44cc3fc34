import Portico.Lib.Machine
import Portico.Lib.OrderedMap

/-!
# Remote sources: reservations of disk growth

Caches and captures that share a volume reserve the growth that they are about to write. A volume has a
record while something is reserved on it: the bytes that are still to come, and how many reservations
ask for each free-space floor. A reservation is settled in parts, and may be settled again long after it
has nothing left and its volume has another record.

## Main results

* `Sound.step`: every operation keeps the records
* `disk_growth`: what holds of the records in every run, and of each operation
-/

namespace Portico.RemoteSources

open Machine

/-- What is reserved on a volume: the bytes that are to come, and the reservations at each floor. -/
structure VolumeGrowth where
  pending : ℤ
  floors : OrderedMap ℤ ℕ

/-- A reservation of a volume. -/
structure Reservation where
  volume : String
  floor : ℤ
  remaining : ℤ
deriving DecidableEq, Repr

/-- The records of the volumes, and the reservations in the order they were made. -/
structure DiskGrowth where
  byVolume : OrderedMap String VolumeGrowth
  reservations : List Reservation

/-- A callback that decides whether a volume can grow, above a floor. -/
abbrev SpaceFor := ℤ → ℤ → Bool

def maxInt64 : ℤ := 2 ^ 63 - 1

namespace DiskGrowth

variable (s : DiskGrowth)

/-- The largest of a floor and those in force. -/
def maximumFloor (floor : ℤ) (floors : OrderedMap ℤ ℕ) : ℤ :=
  floors.entries.foldl (fun m e => max m e.1) floor

/-- **A reservation**, when the volume can grow by all that is reserved on it. -/
def reserve (volume : String) (floor growth : ℤ) (spaceFor : Option SpaceFor) : Option DiskGrowth :=
  match spaceFor with
  | none => none
  | some spaceFor =>
    if volume = "" || floor < 0 || growth ≤ 0 then none
    else
      let state := (s.byVolume.get volume).getD { pending := 0, floors := {} }
      if state.pending < 0 || growth > maxInt64 - state.pending ||
          !spaceFor (maximumFloor floor state.floors) (growth + state.pending) then none
      else some
        { byVolume := s.byVolume.set volume
            { pending := state.pending + growth
              floors := state.floors.set floor ((state.floors.get floor).getD 0 + 1) }
          reservations := s.reservations ++ [⟨volume, floor, growth⟩] }

/-- One reservation less at a floor. -/
def dropFloor (floor : ℤ) (floors : OrderedMap ℤ ℕ) : OrderedMap ℤ ℕ :=
  let count := (floors.get floor).getD 0 - 1
  if count = 0 then floors.erase floor else floors.set floor count

/-- **A part of a reservation is settled.** There is nothing to run on when the volume has no
record. -/
def settle (id : ℕ) (growth : ℤ) : Option DiskGrowth :=
  match s.reservations[id]? with
  | none => none
  | some r =>
    if growth ≤ 0 then some s
    else if r.remaining = 0 then some s
    else
      let settled := min growth r.remaining
      (s.byVolume.get r.volume).map fun state =>
        let remaining := r.remaining - settled
        let state := { state with
          pending := state.pending - settled
          floors := if remaining = 0 then dropFloor r.floor state.floors else state.floors }
        { byVolume := if state.pending = 0 then s.byVolume.erase r.volume
            else s.byVolume.set r.volume state
          reservations := s.reservations.set id { r with remaining } }

/-- Whether there is still space for what is reserved. -/
def available (id : ℕ) (spaceFor : Option SpaceFor) : Bool :=
  match s.reservations[id]?, spaceFor with
  | some r, some spaceFor =>
    match s.byVolume.get r.volume with
    | some state => spaceFor (maximumFloor r.floor state.floors) state.pending
    | none => spaceFor r.floor 0
  | _, _ => false

/-- What a volume's record says is to come. -/
def pending (volume : String) : ℤ := ((s.byVolume.get volume).map VolumeGrowth.pending).getD 0

/-- How many reservations a volume's record has at a floor. -/
def floorCount (volume : String) (floor : ℤ) : ℕ :=
  (((s.byVolume.get volume).map VolumeGrowth.floors).bind fun floors => floors.get floor).getD 0

/-- What is left of the reservations of a volume. -/
def owed (volume : String) : ℤ :=
  (s.reservations.map fun r => if r.volume = volume then r.remaining else 0).sum

end DiskGrowth

/-- A reservation that something is left of. -/
def Reservation.live (r : Reservation) (volume : String) : Bool :=
  r.volume = volume && r.remaining ≠ 0

/-- What happens. A reservation that is refused is no event. -/
inductive GrowthEvent
  | reserve (volume : String) (floor growth : ℤ) (spaceFor : Option SpaceFor)
  | settle (id : ℕ) (growth : ℤ)
  | available (id : ℕ) (spaceFor : Option SpaceFor)

def step (s : DiskGrowth) : GrowthEvent → Option DiskGrowth
  | .reserve volume floor growth spaceFor => s.reserve volume floor growth spaceFor
  | .settle id growth => s.settle id growth
  | .available _ _ => some s

/-- Before the first reservation. -/
def fresh : DiskGrowth := { byVolume := {}, reservations := [] }

variable {s s' : DiskGrowth} {volume : String} {floor growth : ℤ} {r : Reservation} {id : ℕ}

/-! ## The invariant -/

/-- **The records are those of the live reservations.** -/
structure Sound (s : DiskGrowth) : Prop where
  remaining : ∀ r ∈ s.reservations, 0 ≤ r.remaining
  pending : ∀ volume, s.pending volume = s.owed volume
  floors : ∀ volume floor, s.floorCount volume floor =
    s.reservations.countP fun r => r.live volume && r.floor = floor
  record : ∀ volume state, s.byVolume.get volume = some state → 0 < state.pending
  counted : ∀ volume state, s.byVolume.get volume = some state →
    ∀ floor n, state.floors.get floor = some n → 0 < n

theorem fresh_sound : Sound fresh where
  remaining _ h := nomatch h
  pending _ := rfl
  floors _ _ := rfl
  record _ _ h := nomatch h
  counted _ _ h := nomatch h

theorem pending_of_get {state : VolumeGrowth} (h : s.byVolume.get volume = some state) :
    s.pending volume = state.pending := by
  unfold DiskGrowth.pending
  rw [h]
  rfl

theorem floorCount_of_get {state : VolumeGrowth} (h : s.byVolume.get volume = some state) :
    s.floorCount volume floor = (state.floors.get floor).getD 0 := by
  unfold DiskGrowth.floorCount
  rw [h]
  rfl

theorem pending_of_none (h : s.byVolume.get volume = none) : s.pending volume = 0 := by
  unfold DiskGrowth.pending
  rw [h]
  rfl

theorem floorCount_of_none (h : s.byVolume.get volume = none) : s.floorCount volume floor = 0 := by
  unfold DiskGrowth.floorCount
  rw [h]
  rfl

theorem pending_congr (h : s'.byVolume.get volume = s.byVolume.get volume) :
    s'.pending volume = s.pending volume := by
  unfold DiskGrowth.pending
  rw [h]

theorem floorCount_congr (h : s'.byVolume.get volume = s.byVolume.get volume) :
    s'.floorCount volume floor = s.floorCount volume floor := by
  unfold DiskGrowth.floorCount
  rw [h]

theorem Sound.le_owed (h : Sound s) (hr : r ∈ s.reservations) : r.remaining ≤ s.owed r.volume := by
  have hle := List.single_le_sum (l := s.reservations.map fun x =>
    if x.volume = r.volume then x.remaining else 0) ?_ r.remaining
    (List.mem_map.mpr ⟨r, hr, if_pos rfl⟩)
  · exact hle
  · intro x hx
    obtain ⟨y, hy, rfl⟩ := List.mem_map.mp hx
    split_ifs
    · exact h.remaining y hy
    · exact le_rfl

theorem Sound.owed_nonneg (h : Sound s) (volume : String) : 0 ≤ s.owed volume := by
  apply List.sum_nonneg
  intro x hx
  obtain ⟨y, hy, rfl⟩ := List.mem_map.mp hx
  split_ifs
  · exact h.remaining y hy
  · exact le_rfl

/-- A volume has a record just when one of its reservations is live. -/
theorem Sound.record_iff (h : Sound s) (volume : String) :
    (s.byVolume.get volume).isSome ↔ ∃ r ∈ s.reservations, r.live volume = true := by
  constructor
  · intro hsome
    obtain ⟨state, hget⟩ := Option.isSome_iff_exists.mp hsome
    by_contra hnone
    push Not at hnone
    have howed : s.owed volume = 0 := by
      apply List.sum_eq_zero
      intro x hx
      obtain ⟨y, hy, rfl⟩ := List.mem_map.mp hx
      split_ifs with hv
      · have hdead := hnone y hy
        simpa [Reservation.live, hv] using hdead
      · rfl
    have hpos := h.record volume state hget
    rw [← pending_of_get hget, h.pending, howed] at hpos
    exact lt_irrefl 0 hpos
  · rintro ⟨r, hr, hlive⟩
    rw [Reservation.live, Bool.and_eq_true, decide_eq_true_eq, decide_eq_true_eq] at hlive
    obtain ⟨rfl, hne⟩ := hlive
    rw [Option.isSome_iff_ne_none]
    intro hnone
    have hle := h.le_owed hr
    rw [← h.pending, pending_of_none hnone] at hle
    exact hne (le_antisymm hle (h.remaining r hr))

/-! ## Floors -/

theorem isGreatest_foldl_max {l : List (ℤ × ℕ)} :
    IsGreatest (insert floor {f | ∃ e ∈ l, e.1 = f}) (l.foldl (fun m e => max m e.1) floor) := by
  induction l generalizing floor with
  | nil =>
    refine ⟨Set.mem_insert _ _, ?_⟩
    rintro f (rfl | ⟨e, he, -⟩)
    · exact le_rfl
    · cases he
  | cons e l ih =>
    obtain ⟨hmem, hle⟩ := @ih (max floor e.1)
    rw [List.foldl_cons]
    constructor
    · rcases hmem with heq | ⟨x, hx, heq⟩
      · rw [heq]
        rcases max_choice floor e.1 with h | h
        · exact Or.inl h
        · exact Or.inr ⟨e, List.mem_cons_self, h.symm⟩
      · exact Or.inr ⟨x, List.mem_cons_of_mem _ hx, heq⟩
    · rintro f (rfl | ⟨x, hx, rfl⟩)
      · exact (le_max_left _ _).trans (hle (Set.mem_insert _ _))
      · rcases List.mem_cons.mp hx with rfl | hx
        · exact (le_max_right _ _).trans (hle (Set.mem_insert _ _))
        · exact hle (Or.inr ⟨x, hx, rfl⟩)

/-- The floors in force on a volume are those of its live reservations. -/
theorem Sound.floor_mem (h : Sound s) {state : VolumeGrowth}
    (hget : s.byVolume.get volume = some state) :
    (∃ e ∈ state.floors.entries, e.1 = floor) ↔
      ∃ r ∈ s.reservations, r.live volume = true ∧ r.floor = floor := by
  have hcount := h.floors volume floor
  rw [floorCount_of_get hget] at hcount
  have hpos : (∃ r ∈ s.reservations, r.live volume = true ∧ r.floor = floor) ↔
      0 < (state.floors.get floor).getD 0 := by
    rw [hcount, List.countP_pos_iff]
    simp
  rw [hpos]
  constructor
  · rintro ⟨⟨f, n⟩, he, rfl⟩
    have hn := OrderedMap.get_eq_some.mpr he
    rw [hn]
    exact h.counted volume state hget f n hn
  · intro hlt
    cases hn : state.floors.get floor with
    | none =>
      rw [hn] at hlt
      cases hlt
    | some n => exact ⟨(floor, n), OrderedMap.get_eq_some.mp hn, rfl⟩

/-- The floors that a request has to keep: its own and those in force. -/
def inForce (s : DiskGrowth) (volume : String) (floor : ℤ) : Set ℤ :=
  insert floor {f | ∃ r ∈ s.reservations, r.live volume = true ∧ r.floor = f}

theorem Sound.isGreatest (h : Sound s) {state : VolumeGrowth}
    (hget : s.byVolume.get volume = some state) :
    IsGreatest (inForce s volume floor) (DiskGrowth.maximumFloor floor state.floors) := by
  have heq : inForce s volume floor =
      insert floor {f | ∃ e ∈ state.floors.entries, e.1 = f} := by
    unfold inForce
    congr 1
    ext f
    exact (h.floor_mem hget).symm
  rw [heq]
  exact isGreatest_foldl_max

theorem Sound.isGreatest_of_none (h : Sound s) (hget : s.byVolume.get volume = none) :
    IsGreatest (inForce s volume floor) floor := by
  refine ⟨Set.mem_insert _ _, ?_⟩
  rintro f (rfl | ⟨r, hr, hlive, -⟩)
  · exact le_rfl
  · have hsome := (h.record_iff volume).mpr ⟨r, hr, hlive⟩
    rw [hget] at hsome
    cases hsome

/-! ## Reservations -/

/-- What a reservation was admitted for, and what it makes of the volumes. -/
theorem reserve_cases {spaceFor : Option SpaceFor}
    (hs : s.reserve volume floor growth spaceFor = some s') :
    ∃ check state, spaceFor = some check ∧ volume ≠ "" ∧ 0 ≤ floor ∧ 0 < growth ∧
      (s.byVolume.get volume).getD { pending := 0, floors := {} } = state ∧
      growth + state.pending ≤ maxInt64 ∧
      check (DiskGrowth.maximumFloor floor state.floors) (growth + state.pending) = true ∧
      s' = { byVolume := s.byVolume.set volume
              { pending := state.pending + growth
                floors := state.floors.set floor ((state.floors.get floor).getD 0 + 1) }
             reservations := s.reservations ++ [⟨volume, floor, growth⟩] } := by
  unfold DiskGrowth.reserve at hs
  cases spaceFor with
  | none => cases hs
  | some check =>
    simp only at hs
    split_ifs at hs with hbad hfull
    simp only [Bool.or_eq_true, decide_eq_true_eq, not_or, Bool.not_eq_true', Bool.not_eq_false]
      at hbad hfull
    refine ⟨check, _, rfl, hbad.1.1, by omega, by omega, rfl, by omega, hfull.2,
      (Option.some.inj hs).symm⟩

theorem owed_append : DiskGrowth.owed { s with reservations := s.reservations ++ [r] } volume =
    s.owed volume + if r.volume = volume then r.remaining else 0 := by
  unfold DiskGrowth.owed
  simp

theorem Sound.reserve (h : Sound s) {spaceFor : Option SpaceFor}
    (hs : s.reserve volume floor growth spaceFor = some s') : Sound s' := by
  obtain ⟨check, state, -, -, -, hgrowth, hstate, -, -, rfl⟩ := reserve_cases hs
  have hpending : state.pending = s.pending volume := by
    rw [← hstate]
    unfold DiskGrowth.pending
    cases s.byVolume.get volume <;> rfl
  have hfloors : ∀ f, (state.floors.get f).getD 0 = s.floorCount volume f := by
    intro f
    rw [← hstate]
    unfold DiskGrowth.floorCount
    cases s.byVolume.get volume <;> rfl
  have hcounted : ∀ f n, state.floors.get f = some n → 0 < n := by
    intro f n hn
    cases hget : s.byVolume.get volume with
    | none =>
      rw [← hstate, hget] at hn
      cases hn
    | some state' =>
      rw [← hstate, hget] at hn
      exact h.counted volume state' hget f n hn
  have howed := h.owed_nonneg volume
  rw [← h.pending, ← hpending] at howed
  refine ⟨fun r hr => ?_, fun v => ?_, fun v f => ?_, fun v g hg => ?_, fun v g hg => ?_⟩
  · rcases List.mem_append.mp hr with hr | hr
    · exact h.remaining r hr
    · obtain rfl := List.mem_singleton.mp hr
      exact hgrowth.le
  · refine Eq.trans ?_ (owed_append (s := s)).symm
    simp only
    by_cases hv : volume = v
    · subst hv
      rw [if_pos rfl, ← h.pending, ← hpending, pending_of_get (OrderedMap.get_set_self)]
    · rw [if_neg hv, add_zero, ← h.pending]
      exact pending_congr (OrderedMap.get_set_of_ne (Ne.symm hv))
  · rw [List.countP_append, ← h.floors]
    by_cases hv : volume = v
    · subst hv
      rw [floorCount_of_get OrderedMap.get_set_self, ← hfloors, OrderedMap.get_set]
      have hne : growth ≠ 0 := by omega
      by_cases hf : f = floor
      · subst hf
        simp [Reservation.live, hne]
      · rw [if_neg hf]
        simp [Reservation.live, Ne.symm hf]
    · rw [floorCount_congr (OrderedMap.get_set_of_ne (Ne.symm hv))]
      simp [Reservation.live, hv]
  · rw [OrderedMap.get_set] at hg
    split_ifs at hg with hv
    · obtain rfl := Option.some.inj hg
      simp only
      omega
    · exact h.record v g hg
  · rw [OrderedMap.get_set] at hg
    split_ifs at hg with hv
    · obtain rfl := Option.some.inj hg
      intro f n hn
      simp only at hn
      rw [OrderedMap.get_set] at hn
      split_ifs at hn with hf
      · obtain rfl := Option.some.inj hn
        omega
      · exact hcounted f n hn
    · exact h.counted v g hg

/-! ## Settlements -/

theorem getD_dropFloor {floors : OrderedMap ℤ ℕ} {f : ℤ} :
    ((DiskGrowth.dropFloor floor floors).get f).getD 0 =
      (floors.get f).getD 0 - if f = floor then 1 else 0 := by
  unfold DiskGrowth.dropFloor
  simp only
  split_ifs with hzero hf hf
  · subst hf
    rw [OrderedMap.get_erase_self]
    exact hzero.symm
  · rw [OrderedMap.get_erase_of_ne hf]
    rfl
  · subst hf
    rw [OrderedMap.get_set_self]
    rfl
  · rw [OrderedMap.get_set_of_ne hf]
    rfl

theorem pos_of_dropFloor {floors : OrderedMap ℤ ℕ} {f : ℤ} {n : ℕ}
    (hpos : ∀ f n, floors.get f = some n → 0 < n)
    (h : (DiskGrowth.dropFloor floor floors).get f = some n) : 0 < n := by
  unfold DiskGrowth.dropFloor at h
  simp only at h
  split_ifs at h with hzero
  · exact hpos f n (OrderedMap.get_erase_eq_some.mp h).1
  · rw [OrderedMap.get_set] at h
    split_ifs at h
    · obtain rfl := Option.some.inj h
      omega
    · exact hpos f n h

/-- What a settlement takes off its reservation. -/
def settledOf (r : Reservation) (growth : ℤ) : ℤ := if growth ≤ 0 then 0 else min growth r.remaining

theorem set_eq_self_of_get {α : Type*} {l : List α} {i : ℕ} {x : α} (h : l[i]? = some x) :
    l.set i x = l := by
  apply List.ext_getElem?
  intro j
  rw [List.getElem?_set]
  split_ifs with hij hlt
  · rw [← hij, h]
  · rw [← hij, List.getElem?_eq_none (by omega)]
  · rfl

/-- **A settlement** takes its part off the reservation and off its volume, and nothing else. -/
theorem Sound.settle_eq (h : Sound s) (hr : s.reservations[id]? = some r) :
    ∃ s', s.settle id growth = some s' ∧
      s'.reservations = s.reservations.set id { r with remaining := r.remaining - settledOf r growth } ∧
      (∀ v ≠ r.volume, s'.byVolume.get v = s.byVolume.get v) ∧
      s'.pending r.volume = s.pending r.volume - settledOf r growth ∧
      (s'.byVolume.get r.volume = none ∨ ∀ f, s'.floorCount r.volume f = s.floorCount r.volume f -
        if r.remaining ≠ 0 ∧ r.remaining - settledOf r growth = 0 ∧ f = r.floor then 1 else 0) ∧
      (∀ state, s'.byVolume.get r.volume = some state → 0 < state.pending ∧
        ∀ f n, state.floors.get f = some n → 0 < n) := by
  have hmem : r ∈ s.reservations := List.mem_of_getElem? hr
  have hremaining := h.remaining r hmem
  have hsame : s.reservations.set id { r with remaining := r.remaining - 0 } = s.reservations := by
    rw [sub_zero]
    exact set_eq_self_of_get hr
  unfold DiskGrowth.settle
  rw [hr]
  simp only
  by_cases hgrowth : growth ≤ 0
  · have hzero : settledOf r growth = 0 := if_pos hgrowth
    rw [if_pos hgrowth, hzero]
    refine ⟨s, rfl, hsame.symm, fun _ _ => rfl, (sub_zero _).symm, Or.inr fun f => ?_,
      fun state hget => ⟨h.record _ _ hget, h.counted _ _ hget⟩⟩
    rw [sub_zero, if_neg (fun hf => hf.1 hf.2.1), Nat.sub_zero]
  · rw [if_neg hgrowth]
    have hsettled : settledOf r growth = min growth r.remaining := if_neg hgrowth
    by_cases hzero : r.remaining = 0
    · have hnone : settledOf r growth = 0 := by rw [hsettled, hzero]; omega
      rw [if_pos hzero, hnone]
      refine ⟨s, rfl, hsame.symm, fun _ _ => rfl, (sub_zero _).symm, Or.inr fun f => ?_,
        fun state hget => ⟨h.record _ _ hget, h.counted _ _ hget⟩⟩
      rw [if_neg (fun hf => hf.1 hzero), Nat.sub_zero]
    · rw [if_neg hzero, hsettled]
      -- a live reservation has a record
      obtain ⟨state, hget⟩ := Option.isSome_iff_exists.mp
        ((h.record_iff r.volume).mpr ⟨r, hmem, by simp [Reservation.live, hzero]⟩)
      have hle := h.le_owed hmem
      rw [← h.pending, pending_of_get hget] at hle
      rw [hget, Option.map_some]
      refine ⟨_, rfl, rfl, fun v hv => ?_, ?_, ?_, fun state' hget' => ?_⟩
      · by_cases hdone : state.pending - min growth r.remaining = 0
        · simp only [hdone, if_true]
          exact OrderedMap.get_erase_of_ne hv
        · simp only [hdone, if_false]
          exact OrderedMap.get_set_of_ne hv
      · rw [pending_of_get hget]
        by_cases hdone : state.pending - min growth r.remaining = 0
        · simp only [hdone, if_true]
          exact pending_of_none OrderedMap.get_erase_self
        · simp only [hdone, if_false]
          unfold DiskGrowth.pending
          simp only
          rw [OrderedMap.get_set_self]
          rfl
      · by_cases hdone : state.pending - min growth r.remaining = 0
        · simp only [hdone, if_true]
          exact Or.inl OrderedMap.get_erase_self
        · simp only [hdone, if_false]
          refine Or.inr fun f => ?_
          rw [floorCount_of_get hget]
          unfold DiskGrowth.floorCount
          simp only
          rw [OrderedMap.get_set_self]
          simp only [Option.map_some, Option.bind_some]
          by_cases hall : r.remaining - min growth r.remaining = 0
          · simp only [hall, if_true]
            rw [getD_dropFloor]
            simp [hzero]
          · simp only [hall, if_false]
            simp
      · by_cases hdone : state.pending - min growth r.remaining = 0
        · simp only [hdone, if_true] at hget'
          rw [OrderedMap.get_erase_self] at hget'
          cases hget'
        · simp only [hdone, if_false] at hget'
          rw [OrderedMap.get_set_self] at hget'
          obtain rfl := Option.some.inj hget'
          refine ⟨by simp only; omega, fun f n hn => ?_⟩
          by_cases hall : r.remaining - min growth r.remaining = 0
          · simp only [hall, if_true] at hn
            exact pos_of_dropFloor (h.counted _ _ hget) hn
          · simp only [hall, if_false] at hn
            exact h.counted _ _ hget f n hn

theorem settledOf_le (hremaining : 0 ≤ r.remaining) :
    0 ≤ settledOf r growth ∧ settledOf r growth ≤ r.remaining := by
  unfold settledOf
  split_ifs <;> omega

/-- What is left of a volume's reservations after one of them was settled. -/
theorem owed_set {remaining : ℤ} (hr : s.reservations[id]? = some r)
    (hs : s'.reservations = s.reservations.set id { r with remaining }) (v : String) :
    s'.owed v = s.owed v + if r.volume = v then remaining - r.remaining else 0 := by
  obtain ⟨hlt, rfl⟩ := List.getElem?_eq_some_iff.mp hr
  unfold DiskGrowth.owed
  rw [hs, List.map_set, List.sum_set', dif_pos (by rw [List.length_map]; exact hlt), List.getElem_map]
  simp only
  split_ifs <;> ring

theorem live_eq_false (hremaining : ∀ r ∈ s.reservations, 0 ≤ r.remaining)
    (howed : s.owed volume = 0) (hr : r ∈ s.reservations) : r.live volume = false := by
  have hnonneg : ∀ x ∈ s.reservations.map fun r => if r.volume = volume then r.remaining else 0,
      0 ≤ x := by
    intro x hx
    obtain ⟨y, hy, rfl⟩ := List.mem_map.mp hx
    split_ifs
    · exact hremaining y hy
    · exact le_rfl
  have hle := List.single_le_sum hnonneg _ (List.mem_map.mpr ⟨r, hr, rfl⟩)
  unfold DiskGrowth.owed at howed
  rw [howed] at hle
  unfold Reservation.live
  by_cases hv : r.volume = volume
  · rw [if_pos hv] at hle
    have hzero : r.remaining = 0 := le_antisymm hle (hremaining r hr)
    simp [hzero]
  · simp [hv]

theorem Sound.settle (h : Sound s) (hs : s.settle id growth = some s') : Sound s' := by
  cases hr : s.reservations[id]? with
  | none =>
    unfold DiskGrowth.settle at hs
    rw [hr] at hs
    cases hs
  | some r =>
    obtain ⟨t, ht, hres, hothers, hpending, hfloors, hrecord⟩ := @Sound.settle_eq _ growth _ _ h hr
    obtain rfl := Option.some.inj (ht.symm.trans hs)
    have hmem : r ∈ s.reservations := List.mem_of_getElem? hr
    obtain ⟨hnonneg, hle⟩ := @settledOf_le growth _ (h.remaining r hmem)
    have hremaining : ∀ x ∈ t.reservations, 0 ≤ x.remaining := by
      intro x hx
      rw [hres] at hx
      rcases List.mem_or_eq_of_mem_set hx with hx | rfl
      · exact h.remaining x hx
      · simp only
        omega
    have howed : ∀ v, t.pending v = t.owed v := by
      intro v
      rw [owed_set hr hres v]
      split_ifs with hv
      · rw [← hv, hpending, h.pending]
        ring
      · rw [add_zero, ← h.pending]
        exact pending_congr (hothers v (Ne.symm hv))
    refine ⟨hremaining, howed, fun v f => ?_, fun v g hg => ?_, fun v g hg => ?_⟩
    · obtain ⟨hlt, hget⟩ := List.getElem?_eq_some_iff.mp hr
      have hcount := List.countP_set (p := fun x : Reservation => x.live v && x.floor = f) hlt
        (a := { r with remaining := r.remaining - settledOf r growth })
      rw [← hres, hget, ← h.floors] at hcount
      by_cases hv : v = r.volume
      · subst hv
        rcases hfloors with hnone | hfloors
        · -- the record is gone, and so are the live reservations
          rw [floorCount_of_none hnone]
          symm
          rw [List.countP_eq_zero]
          intro x hx
          have hzero : t.owed r.volume = 0 := by rw [← howed, pending_of_none hnone]
          simp [live_eq_false hremaining hzero hx]
        · rw [hfloors, hcount]
          have hone : r.remaining ≠ 0 → f = r.floor → 0 < s.floorCount r.volume f := by
            intro hne hf
            rw [h.floors, List.countP_pos_iff]
            exact ⟨r, hmem, by simp [Reservation.live, hne, hf]⟩
          by_cases hf : f = r.floor
          · subst hf
            by_cases hne : r.remaining = 0
            · have hsettled : settledOf r growth = 0 := by omega
              simp [Reservation.live, hne, hsettled]
            · have := hone hne rfl
              by_cases hall : r.remaining - settledOf r growth = 0
              · simp [Reservation.live, hne, hall]
              · simp [Reservation.live, hne, hall]
                omega
          · simp [Reservation.live, hf, Ne.symm hf]
      · rw [floorCount_congr (hothers v hv), hcount]
        simp [Reservation.live, Ne.symm hv]
    · by_cases hv : v = r.volume
      · subst hv
        exact (hrecord g hg).1
      · rw [hothers v hv] at hg
        exact h.record v g hg
    · by_cases hv : v = r.volume
      · subst hv
        exact (hrecord g hg).2
      · rw [hothers v hv] at hg
        exact h.counted v g hg

/-! ## Runs -/

theorem Sound.step (h : Sound s) {e : GrowthEvent} (hs : step s e = some s') : Sound s' := by
  cases e with
  | reserve volume floor growth spaceFor => exact h.reserve hs
  | settle id growth => exact h.settle hs
  | available id spaceFor =>
    obtain rfl := Option.some.inj hs
    exact h

theorem run_sound {es : List GrowthEvent} (hrun : run step fresh es = some s) : Sound s :=
  run_invariant (fun _ _ _ h hs => h.step hs) fresh_sound hrun

/-- **Disk growth.** In every run of reservations, settlements and checks on any volumes: what a
volume's record has pending is the sum of what is left of its reservations and not negative, its floors
are those of its live reservations, and it has a record just when it has a live reservation. A
reservation was checked against the largest floor in force and all that is left on its volume together
with itself. A settlement takes what it asks for, but no more than what is left, off its own reservation
and its volume, and leaves the others. -/
theorem disk_growth {es : List GrowthEvent} (hrun : run step fresh es = some s) :
    (∀ volume, s.pending volume = s.owed volume ∧ 0 ≤ s.pending volume ∧
      (∀ floor, s.floorCount volume floor =
        s.reservations.countP fun r => r.live volume && r.floor = floor) ∧
      ((s.byVolume.get volume).isSome ↔ ∃ r ∈ s.reservations, r.live volume = true)) ∧
    (∀ volume floor growth spaceFor s', s.reserve volume floor growth spaceFor = some s' →
      s'.reservations = s.reservations ++ [⟨volume, floor, growth⟩] ∧
      ∃ check largest, spaceFor = some check ∧ IsGreatest (inForce s volume floor) largest ∧
        check largest (s.owed volume + growth) = true) ∧
    (∀ id r growth, s.reservations[id]? = some r → ∃ s', s.settle id growth = some s' ∧
      s'.reservations =
        s.reservations.set id { r with remaining := r.remaining - settledOf r growth } ∧
      s'.pending r.volume = s.pending r.volume - settledOf r growth ∧
      ∀ v ≠ r.volume, s'.byVolume.get v = s.byVolume.get v) ∧
    ∀ id r check, s.reservations[id]? = some r → ∃ largest,
      IsGreatest (inForce s r.volume r.floor) largest ∧
        s.available id (some check) = check largest (s.owed r.volume) := by
  have h := run_sound hrun
  refine ⟨fun volume => ⟨h.pending volume, ?_, h.floors volume, h.record_iff volume⟩, ?_, ?_, ?_⟩
  · rw [h.pending]
    exact h.owed_nonneg volume
  · intro volume floor growth spaceFor s' hs
    obtain ⟨check, state, hcheck, -, -, -, hstate, -, hspace, rfl⟩ := reserve_cases hs
    refine ⟨rfl, check, DiskGrowth.maximumFloor floor state.floors, hcheck, ?_, ?_⟩
    · cases hget : s.byVolume.get volume with
      | none =>
        rw [hget] at hstate
        obtain rfl := hstate
        exact h.isGreatest_of_none hget
      | some state' =>
        rw [hget] at hstate
        obtain rfl := hstate
        exact h.isGreatest hget
    · have hpending : state.pending = s.owed volume := by
        rw [← hstate, ← h.pending]
        unfold DiskGrowth.pending
        cases s.byVolume.get volume <;> rfl
      rw [← hpending, add_comm]
      exact hspace
  · intro id r growth hr
    obtain ⟨s', hs, hres, hothers, hpending, -, -⟩ := @Sound.settle_eq _ growth _ _ h hr
    exact ⟨s', hs, hres, hpending, hothers⟩
  · intro id r check hr
    unfold DiskGrowth.available
    rw [hr]
    cases hget : s.byVolume.get r.volume with
    | none =>
      refine ⟨r.floor, h.isGreatest_of_none hget, ?_⟩
      rw [← h.pending, pending_of_none hget]
      simp only [hget]
    | some state =>
      refine ⟨_, h.isGreatest hget, ?_⟩
      rw [← h.pending, pending_of_get hget]
      simp only [hget]

/-- Two reservations of one volume, one of them settled in two parts. -/
theorem disk_growth_volume :
    ∃ s, run step fresh [.reserve "disk" 100 20 (some fun _ _ => true),
        .reserve "disk" 10 5 (some fun floor total => floor = 100 && total = 25), .settle 0 10,
        .settle 0 20, .settle 1 1] = some s ∧ s.pending "disk" = 4 ∧ 0 ≤ s.pending "disk" := by
  have hrun : (run step fresh [.reserve "disk" 100 20 (some fun _ _ => true),
      .reserve "disk" 10 5 (some fun floor total => floor = 100 && total = 25), .settle 0 10,
      .settle 0 20, .settle 1 1]).map (fun s => s.pending "disk") = some 4 := by decide +kernel
  obtain ⟨s, hs, hpending⟩ := Option.map_eq_some_iff.mp hrun
  exact ⟨s, hs, hpending, ((disk_growth hs).1 "disk").2.1⟩

end Portico.RemoteSources
