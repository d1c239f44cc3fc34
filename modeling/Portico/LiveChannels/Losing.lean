import Portico.LiveChannels.Conflicts
import Portico.Lib.Sweep
import Portico.Recordings.Record

/-!
# What a reservation loses

The intervals in which a reservation has no tuner, and the test that the list of recordings makes of it by a
query of its own. Both count the other channels that a reservation which ranks before has in progress.

## Main definitions

* `losingDemand`: the other channels that rank before, at an instant
* `Losing`: intervals that cover the instants at which these are too many
* `ReservationTable`, `RecordingRow`: the reservations of sources and a recording that is to come
* `conflictsTx`, `currentConflict`: the intervals of a recording, and the test of the query

## Main results

* `sweep_covers`: the intervals of a sweep cover the instants at which the count is high
* `conflicts_losing`: the sweep finds what a reservation loses
* `exists_point_iff`: demand is highest where a reservation starts
* `losing_intervals`: the sweep finds what a reservation loses, and the query whether it loses anything
-/

namespace Portico.LiveChannels

open Sweeping Conflicts

variable {all : List Conflicts.Reservation} {target r : Conflicts.Reservation} {capacity t u : ℤ}
  {es before rest : List Conflicts.Edge} {e : Conflicts.Edge} {s : Sweep} {keys : Finset String}
  {c : String} {found : List LosingInterval} {x : LosingInterval}

/-! ## The demand that a reservation loses to -/

def Conflicts.Reservation.key (r : Conflicts.Reservation) : String :=
  if r.channelID = "" then r.id else r.channelID

/-- A reservation of another channel than the target's. -/
def otherThan (target r : Conflicts.Reservation) : Bool :=
  r.id ≠ target.id && !(target.channelID ≠ "" && r.channelID = target.channelID)

/-- The other channels with a reservation in progress that ranks before the target. -/
def losingDemand (all : List Conflicts.Reservation) (target : Conflicts.Reservation) (t : ℤ) : Finset String :=
  held Conflicts.Reservation.start Conflicts.Reservation.stop Conflicts.Reservation.key
    (all.filter fun r => otherThan target r && reservationBefore r target) t

def Conflicts.LosingInterval.Covers (x : LosingInterval) (t : ℤ) : Prop := x.start ≤ t ∧ t < x.stop

/-- **What a reservation loses**: intervals in order, apart and within it, that cover the instants at which
the other channels that rank before it need all tuners. -/
structure Losing (all : List Conflicts.Reservation) (target : Conflicts.Reservation) (capacity : ℤ)
    (found : List LosingInterval) : Prop where
  ordered : found.Pairwise fun x y => x.stop ≤ y.start
  inside : ∀ x ∈ found, target.start ≤ x.start ∧ x.start < x.stop ∧ x.stop ≤ target.stop
  covers : ∀ t, (∃ x ∈ found, x.Covers t) ↔
    (target.start ≤ t ∧ t < target.stop) ∧ capacity ≤ (losingDemand all target t).card

/-! ## Intervals that are put together -/

/-- Intervals in order from one instant to another. -/
structure Spanned (a b : ℤ) (found : List LosingInterval) : Prop where
  ordered : found.Pairwise fun x y => x.stop ≤ y.start
  inside : ∀ x ∈ found, a ≤ x.start ∧ x.start < x.stop ∧ x.stop ≤ b

theorem Spanned.mono {a b b' : ℤ} (h : Spanned a b found) (hb : b ≤ b') : Spanned a b' found :=
  ⟨h.ordered, fun x hx => ⟨(h.inside x hx).1, (h.inside x hx).2.1, (h.inside x hx).2.2.trans hb⟩⟩

theorem Spanned.append {a b : ℤ} (h : Spanned a b found) (hab : a ≤ b) (hx : x.start = b)
    (hlt : x.start < x.stop) : Spanned a x.stop (found ++ [x]) := by
  refine ⟨List.pairwise_append.mpr ⟨h.ordered, List.pairwise_singleton _ _, fun y hy z hz => ?_⟩, ?_⟩
  · rw [List.mem_singleton.mp hz, hx]
    exact (h.inside y hy).2.2
  · intro y hy
    rcases List.mem_append.mp hy with hy | hy
    · obtain ⟨h₁, h₂, h₃⟩ := h.inside y hy
      exact ⟨h₁, h₂, h₃.trans (hx ▸ hlt.le)⟩
    · rw [List.mem_singleton.mp hy]
      exact ⟨hx ▸ hab, hlt, le_rfl⟩

theorem exists_covers_append : (∃ y ∈ found ++ [x], y.Covers t) ↔ (∃ y ∈ found, y.Covers t) ∨ x.Covers t := by
  simp only [List.mem_append, List.mem_singleton, or_and_right, exists_or, exists_eq_left]

/-- **One more interval**, whether it carries the last one on or not. -/
theorem Spanned.extend {a b : ℤ} (h : Spanned a b found) (hab : a ≤ b) (hx : x.start = b)
    (hlt : x.start < x.stop) : Spanned a x.stop (extend found x) ∧
      ∀ t, (∃ y ∈ extend found x, y.Covers t) ↔ (∃ y ∈ found, y.Covers t) ∨ x.Covers t := by
  have happend : Spanned a x.stop (found ++ [x]) ∧
      ∀ t, (∃ y ∈ found ++ [x], y.Covers t) ↔ (∃ y ∈ found, y.Covers t) ∨ x.Covers t :=
    ⟨h.append hab hx hlt, fun t => exists_covers_append⟩
  unfold Conflicts.extend
  cases hlast : found.getLast? with
  | none =>
    obtain rfl := List.getLast?_eq_none_iff.mp hlast
    exact happend
  | some l =>
    simp only
    split_ifs with hjoin
    · obtain ⟨init, rfl⟩ := List.getLast?_eq_some_iff.mp hlast
      rw [List.dropLast_concat]
      obtain ⟨hinit, -, hbefore⟩ := List.pairwise_append.mp h.ordered
      obtain ⟨h₁, h₂, -⟩ := h.inside l (List.mem_append_right _ (List.mem_singleton.mpr rfl))
      refine ⟨⟨List.pairwise_append.mpr ⟨hinit, List.pairwise_singleton _ _, ?_⟩, ?_⟩, fun t => ?_⟩
      · intro y hy z hz
        rw [List.mem_singleton.mp hz]
        exact hbefore y hy l (List.mem_singleton.mpr rfl)
      · intro y hy
        rcases List.mem_append.mp hy with hy | hy
        · obtain ⟨h₁, h₂, h₃⟩ := h.inside y (List.mem_append_left _ hy)
          exact ⟨h₁, h₂, h₃.trans (hx ▸ hlt.le)⟩
        · rw [List.mem_singleton.mp hy]
          refine ⟨h₁, ?_, le_rfl⟩
          show l.start < x.stop
          have hjoined := hjoin.1
          omega
      · rw [exists_covers_append, exists_covers_append, or_assoc]
        refine or_congr_right ?_
        unfold LosingInterval.Covers
        have hjoined := hjoin.1
        simp only
        omega
    · exact happend

/-! ## The sweep -/

/-- A sweep over several edges. -/
def Conflicts.Sweep.run (capacity : ℤ) (s : Sweep) (es : List Conflicts.Edge) : Sweep :=
  es.foldl (Sweep.move capacity) s

@[simp] theorem run_nil : s.run capacity [] = s := rfl

@[simp] theorem run_cons : s.run capacity (e :: es) = (s.move capacity e).run capacity es := rfl

@[simp] theorem move_last : (s.move capacity e).last = e.instant := rfl

/-- The number of channels that rank before is kept. -/
def Conflicts.Sweep.Counted (keys : Finset String) (s : Sweep) : Prop :=
  Keeps keys (fun c => (s.counts c).2) s.higher

theorem move_counted (hs : s.Counted keys) (hkey : e.channel ∈ keys) (hlow : -1 ≤ e.higher)
    (hhigh : e.higher ≤ 1) : (s.move capacity e).Counted keys := by
  have hkept := hs.toggled hkey hlow hhigh
  have hcounts : (fun c => ((s.move capacity e).counts c).2) =
      Function.update (fun c => (s.counts c).2) e.channel ((s.counts e.channel).2 + e.higher) := by
    funext c
    show (Function.update s.counts e.channel _ c).2 = _
    by_cases hc : c = e.channel
    · rw [hc, Function.update_self, Function.update_self]
    · rw [Function.update_of_ne hc, Function.update_of_ne hc]
  unfold Conflicts.Sweep.Counted
  rw [hcounts]
  exact hkept

theorem move_higher (c : String) : ((s.move capacity e).counts c).2 =
    (s.counts c).2 + if e.channel = c then e.higher else 0 := by
  show (Function.update s.counts e.channel _ c).2 = _
  by_cases hc : e.channel = c
  · rw [← hc, Function.update_self, if_pos rfl]
  · rw [Function.update_of_ne (Ne.symm hc), if_neg hc, add_zero]

/-- **The counts of a sweep.** They change by what the edges come to. -/
theorem run_counted (hes : ∀ e ∈ es, e.channel ∈ keys ∧ -1 ≤ e.higher ∧ e.higher ≤ 1) (hs : s.Counted keys) :
    (s.run capacity es).Counted keys ∧
      ∀ c, ((s.run capacity es).counts c).2 = (s.counts c).2 + net Conflicts.Edge.channel Conflicts.Edge.higher es c := by
  induction es generalizing s with
  | nil => exact ⟨hs, fun c => (add_zero _).symm⟩
  | cons e es ih =>
    obtain ⟨⟨hkey, hlow, hhigh⟩, hes⟩ := List.forall_mem_cons.mp hes
    obtain ⟨hcounted, hcounts⟩ := ih hes (@move_counted capacity _ _ _ hs hkey hlow hhigh)
    refine ⟨hcounted, fun c => ?_⟩
    rw [run_cons, hcounts, move_higher, net_cons, add_assoc]

/-- How many channels rank before after the edges up to an instant. -/
def Conflicts.Sweep.higherAt (capacity : ℤ) (s : Sweep) (es : List Conflicts.Edge) (t : ℤ) : ℤ :=
  (s.run capacity (es.filter fun e => e.instant ≤ t)).higher

theorem higherAt_of_lt (h : ∀ e ∈ es, t < e.instant) : s.higherAt capacity es t = s.higher := by
  unfold Conflicts.Sweep.higherAt
  rw [List.filter_eq_nil_iff.mpr fun e he => by simpa using h e he, run_nil]

theorem higherAt_cons (h : e.instant ≤ t) :
    s.higherAt capacity (e :: es) t = (s.move capacity e).higherAt capacity es t := by
  unfold Conflicts.Sweep.higherAt
  rw [List.filter_cons_of_pos (by simpa using h), run_cons]

/-- **One edge** adds the time since the last one when the count is high. -/
theorem move_covers {a : ℤ} (hw : Spanned a s.last s.found) (ha : a ≤ s.last) (hle : s.last ≤ e.instant) :
    Spanned a e.instant (s.move capacity e).found ∧
      ∀ t, (∃ x ∈ (s.move capacity e).found, x.Covers t) ↔
        (∃ x ∈ s.found, x.Covers t) ∨ ((s.last ≤ t ∧ t < e.instant) ∧ capacity ≤ s.higher) := by
  have hfound : (s.move capacity e).found = if s.last < e.instant ∧ capacity ≤ s.higher then
      Conflicts.extend s.found ⟨s.last, e.instant, s.demand, capacity⟩ else s.found := rfl
  rw [hfound]
  by_cases hlong : s.last < e.instant ∧ capacity ≤ s.higher
  · rw [if_pos hlong]
    obtain ⟨hwithin, hcovers⟩ :=
      hw.extend (x := ⟨s.last, e.instant, s.demand, capacity⟩) ha rfl hlong.1
    refine ⟨hwithin, fun t => ?_⟩
    rw [hcovers]
    exact or_congr_right (and_iff_left hlong.2).symm
  · rw [if_neg hlong]
    refine ⟨hw.mono hle, fun t => (or_iff_left ?_).symm⟩
    rintro ⟨⟨hlast, hlt⟩, hhigh⟩
    exact hlong ⟨hlast.trans_lt hlt, hhigh⟩

/-- **The intervals of a sweep** cover the instants at which the count is high. -/
theorem sweep_covers {a : ℤ} (hsorted : es.Pairwise fun e f => e.instant ≤ f.instant)
    (hlater : ∀ e ∈ es, s.last ≤ e.instant) (hw : Spanned a s.last s.found) (ha : a ≤ s.last) :
    Spanned a (s.run capacity es).last (s.run capacity es).found ∧
      ((s.run capacity es).last = s.last ∨ ∃ e ∈ es, (s.run capacity es).last = e.instant) ∧
      (∀ e ∈ es, e.instant ≤ (s.run capacity es).last) ∧
      ∀ t, (∃ x ∈ (s.run capacity es).found, x.Covers t) ↔ (∃ x ∈ s.found, x.Covers t) ∨
        ((s.last ≤ t ∧ t < (s.run capacity es).last) ∧ capacity ≤ s.higherAt capacity es t) := by
  induction es generalizing s with
  | nil =>
    refine ⟨hw, Or.inl rfl, nofun, fun t => (or_iff_left ?_).symm⟩
    rintro ⟨⟨hle, hlt⟩, -⟩
    exact absurd hlt hle.not_gt
  | cons e es ih =>
    obtain ⟨hfirst, hsorted⟩ := List.pairwise_cons.mp hsorted
    have hle := hlater e List.mem_cons_self
    obtain ⟨hwithin, hcovers⟩ := @move_covers capacity _ _ _ hw ha hle
    obtain ⟨hrun, hlast, hbound, hcover⟩ :=
      ih (s := s.move capacity e) hsorted hfirst hwithin (ha.trans hle)
    have hpast : e.instant ≤ ((s.move capacity e).run capacity es).last := by
      rcases hlast with hlast | ⟨f, hf, hlast⟩
      · exact hlast.ge
      · exact hlast ▸ hfirst f hf
    rw [run_cons]
    refine ⟨hrun, Or.inr ?_, List.forall_mem_cons.mpr ⟨hpast, hbound⟩, fun t => ?_⟩
    · rcases hlast with hlast | ⟨f, hf, hlast⟩
      · exact ⟨e, List.mem_cons_self, hlast⟩
      · exact ⟨f, List.mem_cons_of_mem _ hf, hlast⟩
    · rw [hcover, hcovers, or_assoc]
      refine or_congr_right ?_
      -- before the edge the count is the one so far, from it on it is that of the edges after it
      by_cases ht : e.instant ≤ t
      · rw [higherAt_cons ht, move_last]
        constructor
        · rintro (⟨⟨-, hlt⟩, -⟩ | ⟨⟨-, hlt⟩, hhigh⟩)
          · exact absurd hlt ht.not_gt
          · exact ⟨⟨hle.trans ht, hlt⟩, hhigh⟩
        · rintro ⟨⟨-, hlt⟩, hhigh⟩
          exact Or.inr ⟨⟨ht, hlt⟩, hhigh⟩
      · have hnext : ∀ f ∈ e :: es, t < f.instant := by
          intro f hf
          rcases List.mem_cons.mp hf with rfl | hf
          · exact not_le.mp ht
          · exact (not_le.mp ht).trans_le (hfirst f hf)
        rw [higherAt_of_lt hnext, move_last]
        constructor
        · rintro (⟨⟨hge, -⟩, hhigh⟩ | ⟨⟨hge, -⟩, -⟩)
          · exact ⟨⟨hge, (not_le.mp ht).trans_le hpast⟩, hhigh⟩
          · exact absurd hge ht
        · rintro ⟨⟨hge, -⟩, hhigh⟩
          exact Or.inl ⟨⟨hge, not_le.mp ht⟩, hhigh⟩

/-! ## The edges of the rivals -/

/-- The part of a reservation that is within the target. -/
def partFrom (target r : Conflicts.Reservation) : ℤ := max r.start target.start

def partTo (target r : Conflicts.Reservation) : ℤ := min r.stop target.stop

/-- The rivals, and their edges in order. -/
def rivals (all : List Conflicts.Reservation) (target : Conflicts.Reservation) : List Conflicts.Reservation :=
  all.filter (rival target)

def rivalEdges (all : List Conflicts.Reservation) (target : Conflicts.Reservation) : List Conflicts.Edge :=
  ((rivals all target).flatMap (Conflicts.edges target)).insertionSort fun e f => e.instant ≤ f.instant

theorem rivalEdges_pairwise : (rivalEdges all target).Pairwise fun e f => e.instant ≤ f.instant := by
  have : IsTrans Conflicts.Edge fun e f => e.instant ≤ f.instant := ⟨fun _ _ _ => le_trans⟩
  have : Std.Total fun e f : Conflicts.Edge => e.instant ≤ f.instant := ⟨fun _ _ => le_total _ _⟩
  exact List.pairwise_insertionSort _ _

theorem mem_rivalEdges : e ∈ rivalEdges all target ↔ ∃ r ∈ rivals all target, e ∈ Conflicts.edges target r := by
  rw [rivalEdges, (List.perm_insertionSort _ _).mem_iff, List.mem_flatMap]

theorem mem_rivals : r ∈ rivals all target ↔
    r ∈ all ∧ otherThan target r = true ∧ r.start < target.stop ∧ target.start < r.stop := by
  unfold rivals rival otherThan
  simp only [List.mem_filter, Bool.and_eq_true, decide_eq_true_eq, and_assoc]

theorem mem_edges (he : e ∈ Conflicts.edges target r) :
    e.channel = r.key ∧ (-1 ≤ e.higher ∧ e.higher ≤ 1) ∧
      (e.instant = partFrom target r ∨ e.instant = partTo target r) := by
  unfold Conflicts.edges at he
  simp only [List.mem_cons, List.not_mem_nil, or_false] at he
  rcases he with rfl | rfl
  · refine ⟨rfl, ?_, Or.inl rfl⟩
    split_ifs <;> simp
  · refine ⟨rfl, ?_, Or.inr rfl⟩
    split_ifs <;> simp

theorem net_edges : net Conflicts.Edge.channel Conflicts.Edge.higher
      ((Conflicts.edges target r).filter fun e => e.instant ≤ t) c =
    if reservationBefore r target = true then
      if r.key = c then
        (if partFrom target r ≤ t then (1 : ℤ) else 0) - (if partTo target r ≤ t then 1 else 0)
      else 0
    else 0 := by
  set h : ℤ := if reservationBefore r target = true then 1 else 0 with hh
  have hlist : (Conflicts.edges target r).filter (fun e => e.instant ≤ t) =
      (if partFrom target r ≤ t then [⟨partFrom target r, 1, h, r.key⟩] else []) ++
        if partTo target r ≤ t then [⟨partTo target r, -1, -h, r.key⟩] else [] := by
    have hedges : Conflicts.edges target r =
        [⟨partFrom target r, 1, h, r.key⟩, ⟨partTo target r, -1, -h, r.key⟩] := rfl
    rw [hedges]
    by_cases h₁ : partFrom target r ≤ t
    · by_cases h₂ : partTo target r ≤ t <;> simp [h₁, h₂]
    · by_cases h₂ : partTo target r ≤ t <;> simp [h₁, h₂]
  rw [hlist, net_append]
  unfold net
  by_cases hkey : r.key = c
  · by_cases hrank : reservationBefore r target = true
    · rw [if_pos hrank] at hh
      rw [if_pos hrank, if_pos hkey, hh]
      split_ifs <;> simp [hkey]
    · rw [if_neg hrank] at hh
      rw [if_neg hrank, hh]
      split_ifs <;> simp [hkey]
  · rw [if_neg hkey, ite_self]
    split_ifs <;> simp [hkey]

/-- **How many reservations of a channel rank before**, from the edges. -/
theorem net_rivalEdges (hall : ∀ r ∈ all, r.start < r.stop) (htarget : target.start < target.stop) :
    net Conflicts.Edge.channel Conflicts.Edge.higher
        ((rivalEdges all target).filter fun e => e.instant ≤ t) c =
      holders (partFrom target) (partTo target) Conflicts.Reservation.key
        ((rivals all target).filter fun r => reservationBefore r target) t c := by
  have hsorted : ((rivalEdges all target).filter fun e => e.instant ≤ t).Perm
      ((rivals all target).flatMap fun r => (Conflicts.edges target r).filter fun e => e.instant ≤ t) := by
    rw [← List.filter_flatMap]
    exact (List.perm_insertionSort _ _).filter _
  have hwell : ∀ r ∈ (rivals all target).filter fun r => reservationBefore r target,
      partFrom target r ≤ partTo target r := by
    intro r hr
    obtain ⟨hmem, -, hstart, hstop⟩ := mem_rivals.mp (List.mem_of_mem_filter hr)
    have hr := hall r hmem
    exact max_le (le_min hr.le hstart.le) (le_min hstop.le htarget.le)
  rw [holders_eq_sum hwell, net_perm hsorted, net_flatMap]
  induction rivals all target with
  | nil => rfl
  | cons r l ih =>
    rw [List.map_cons, List.sum_cons, ih, net_edges]
    by_cases hrank : reservationBefore r target = true
    · rw [if_pos hrank, List.filter_cons_of_pos (p := fun r => reservationBefore r target) hrank, List.map_cons, List.sum_cons]
    · rw [if_neg hrank, List.filter_cons_of_neg (p := fun r => reservationBefore r target) hrank, zero_add]

/-- Within the target, what holds a tuner is what the rivals that rank before hold. -/
theorem losingDemand_eq (ht : target.start ≤ t ∧ t < target.stop) : losingDemand all target t =
    held (partFrom target) (partTo target) Conflicts.Reservation.key
      ((rivals all target).filter fun r => reservationBefore r target) t := by
  ext k
  unfold losingDemand
  rw [mem_held, mem_held]
  refine exists_congr fun r => ?_
  rw [List.mem_filter, List.mem_filter, mem_rivals, Bool.and_eq_true]
  unfold partFrom partTo
  rw [max_le_iff, lt_min_iff]
  constructor
  · rintro ⟨⟨hmem, hother, hrank⟩, ⟨hstart, hstop⟩, hkey⟩
    exact ⟨⟨⟨hmem, hother, hstart.trans_lt ht.2, ht.1.trans_lt hstop⟩, hrank⟩,
      ⟨⟨hstart, ht.1⟩, hstop, ht.2⟩, hkey⟩
  · rintro ⟨⟨⟨hmem, hother, -, -⟩, hrank⟩, ⟨⟨hstart, -⟩, hstop, -⟩, hkey⟩
    exact ⟨⟨hmem, hother, hrank⟩, ⟨hstart, hstop⟩, hkey⟩

/-- **The count of the sweep** is the demand that the target loses to. -/
theorem higherAt_eq (hall : ∀ r ∈ all, r.start < r.stop) (htarget : target.start < target.stop)
    (ht : target.start ≤ t ∧ t < target.stop) :
    Sweep.higherAt capacity { last := target.start } (rivalEdges all target) t =
      (losingDemand all target t).card := by
  set keys := (all.map Conflicts.Reservation.key).toFinset with hkeys
  have hmem : ∀ r ∈ all, r.key ∈ keys := fun r hr => List.mem_toFinset.mpr (List.mem_map_of_mem hr)
  have hedges : ∀ e ∈ (rivalEdges all target).filter fun e => e.instant ≤ t,
      e.channel ∈ keys ∧ -1 ≤ e.higher ∧ e.higher ≤ 1 := by
    intro e he
    obtain ⟨r, hr, he⟩ := mem_rivalEdges.mp (List.mem_of_mem_filter he)
    obtain ⟨hkey, hbound, -⟩ := mem_edges he
    exact ⟨hkey ▸ hmem r (mem_rivals.mp hr).1, hbound⟩
  have hzero : Conflicts.Sweep.Counted keys { last := target.start } := by
    show (0 : ℤ) = (keys.filter fun _ => (0 : ℤ) < 0).card
    simp
  obtain ⟨hcounted, hcounts⟩ := @run_counted capacity _ _ _ hedges hzero
  rw [losingDemand_eq ht]
  refine hcounted.eq_card_held (fun k => ?_) fun r hr => ?_
  · rw [hcounts, net_rivalEdges hall htarget, zero_add]
  · exact hmem r (mem_rivals.mp (List.mem_of_mem_filter hr)).1

/-! ## What the sweep finds -/

/-- **The sweep finds what a reservation loses.** -/
theorem conflicts_losing {capacity : Capacity} (hknown : capacity.known = true) (heff : 1 ≤ capacity.effective)
    (hall : ∀ r ∈ all, r.start < r.stop) (hmem : target ∈ all)
    (hids : (all.map Conflicts.Reservation.id).Nodup) :
    Losing all target capacity.effective (conflicts all target.id capacity) := by
  have htarget := hall target hmem
  have hfind : all.find? (fun r => r.id = target.id) = some target := by
    cases h : all.find? fun r => r.id = target.id with
    | none =>
      rw [List.find?_eq_none] at h
      exact absurd (decide_eq_true rfl) (h target hmem)
    | some x =>
      have hx : x.id = target.id := by simpa using List.find?_some h
      rw [List.inj_on_of_nodup_map hids (List.mem_of_find?_eq_some h) hmem hx]
  have hconflicts : conflicts all target.id capacity =
      (Sweep.run capacity.effective { last := target.start } (rivalEdges all target)).found := by
    unfold conflicts
    rw [if_neg (by simp [hknown]), hfind]
    exact if_neg (not_le.mpr htarget)
  -- all edges are within the target
  have hbounds : ∀ e ∈ rivalEdges all target, target.start ≤ e.instant ∧ e.instant ≤ target.stop := by
    intro e he
    obtain ⟨r, hr, he⟩ := mem_rivalEdges.mp he
    obtain ⟨-, -, hstart, hstop⟩ := mem_rivals.mp hr
    rcases (mem_edges he).2.2 with h | h
    · rw [h]
      exact ⟨le_max_right _ _, max_le hstart.le htarget.le⟩
    · rw [h]
      exact ⟨le_min hstop.le htarget.le, min_le_right _ _⟩
  obtain ⟨hwithin, hlast, hpast, hcovers⟩ :=
    @sweep_covers capacity.effective _ ({ last := target.start }) target.start rivalEdges_pairwise (fun e he => (hbounds e he).1) ⟨List.Pairwise.nil, nofun⟩ le_rfl
  set final := Sweep.run capacity.effective { last := target.start } (rivalEdges all target) with hfinal
  have hstop : final.last ≤ target.stop := by
    rcases hlast with hlast | ⟨e, he, hlast⟩
    · exact hlast ▸ htarget.le
    · exact hlast ▸ (hbounds e he).2
  rw [hconflicts]
  refine ⟨hwithin.ordered, fun x hx => ?_, fun t => ?_⟩
  · obtain ⟨h₁, h₂, h₃⟩ := hwithin.inside x hx
    exact ⟨h₁, h₂, h₃.trans hstop⟩
  · rw [hcovers]
    constructor
    · rintro (⟨x, hx, -⟩ | ⟨⟨hstart, hlt⟩, hhigh⟩)
      · cases hx
      · have ht : target.start ≤ t ∧ t < target.stop := ⟨hstart, hlt.trans_le hstop⟩
        rw [higherAt_eq hall htarget ht] at hhigh
        exact ⟨ht, hhigh⟩
    · rintro ⟨ht, hhigh⟩
      refine Or.inr ⟨⟨ht.1, ?_⟩, ?_⟩
      · -- a channel is needed, so that one of its reservations has still to end
        have hpos : 0 < (losingDemand all target t).card := by omega
        obtain ⟨k, hk⟩ := Finset.card_pos.mp hpos
        rw [losingDemand_eq ht, mem_held] at hk
        obtain ⟨r, hr, ⟨-, hlt⟩, -⟩ := hk
        refine hlt.trans_le (hpast ⟨partTo target r, -1, -(if reservationBefore r target then 1 else 0), r.key⟩ ?_)
        exact mem_rivalEdges.mpr ⟨r, List.mem_of_mem_filter hr, List.mem_cons_of_mem _ List.mem_cons_self⟩
      · rw [higherAt_eq hall htarget ht]
        exact hhigh

/-! ## The reservations of sources -/

/-- A row of `live_reservations`, with the channel of the recording that it is for. -/
structure ReservationRow where
  id : String
  sourceID : String
  startMS : ℤ
  endMS : ℤ
  priority : ℤ
  enabled : Bool
  channel : Option String
deriving DecidableEq, Repr

/-- The reservations have ids of their own, end after they start, and their channels have ids. -/
structure ReservationTable where
  rows : List ReservationRow
  ids : (rows.map ReservationRow.id).Nodup
  ordered : ∀ x ∈ rows, x.startMS < x.endMS
  named : ∀ x ∈ rows, x.id ≠ "" ∧ x.channel ≠ some ""

/-- A row of `dvr_recordings`. -/
structure RecordingRow where
  id : String
  sourceID : String
  channelID : String
  startMS : ℤ
  endMS : ℤ
  priority : ℤ
  state : Recordings.RecordingState
  ordered : startMS < endMS
  named : id ≠ "" ∧ channelID ≠ ""

variable {table : ReservationTable} {rec : RecordingRow} {x y : ReservationRow} {sources : List Source}

/-- `COALESCE(channel_id, id)`. -/
def ReservationRow.channelOr (x : ReservationRow) : String := x.channel.getD x.id

def ReservationRow.reservation (x : ReservationRow) : Conflicts.Reservation :=
  ⟨x.channelOr, x.id, x.startMS, x.endMS, x.priority⟩

def RecordingRow.reservation (rec : RecordingRow) : Conflicts.Reservation :=
  ⟨rec.channelID, rec.id, rec.startMS, rec.endMS, rec.priority⟩

/-- The enabled reservations of a source that overlap an interval. -/
def overlapping (rows : List ReservationRow) (sid : String) (start stop : ℤ) : List Conflicts.Reservation :=
  ((rows.filter fun x => x.sourceID = sid && x.enabled && x.startMS < stop && start < x.endMS).map
    ReservationRow.reservation).insertionSort fun a b => a.start < b.start ∨ a.start = b.start ∧ a.id ≤ b.id

/-- The reservations that a recording competes with, and its own. -/
def competing (table : ReservationTable) (rec : RecordingRow) : List Conflicts.Reservation :=
  let all := (overlapping table.rows rec.sourceID rec.startMS rec.endMS).map fun a =>
    if a.id = rec.id then { a with channelID := rec.channelID } else a
  if all.any fun a => a.id = rec.id then all else all ++ [rec.reservation]

/-- The intervals in which a recording has no tuner. -/
def conflictsTx (sources : List Source) (table : ReservationTable) (rec : RecordingRow) :
    Except Fault (List LosingInterval) :=
  match capacityTx sources rec.sourceID with
  | .error fault => .error fault
  | .ok capacity =>
    if capacity.known = false then .ok [] else .ok (conflicts (competing table rec) rec.id capacity)

/-! ## The query -/

/-- A recording that is still to come. -/
def RecordingRow.awaited (rec : RecordingRow) : Bool :=
  rec.state ∈ [.scheduled, .conflicted, .waitingSource, .waitingGuide]

/-- The instants at which the demand may go up. -/
def points (table : ReservationTable) (rec : RecordingRow) : List ℤ :=
  rec.startMS :: (table.rows.filter fun x => x.sourceID = rec.sourceID && x.enabled &&
    rec.startMS ≤ x.startMS && x.startMS < rec.endMS).map ReservationRow.startMS

/-- The other reservations that rank before a recording. -/
def higherRows (table : ReservationTable) (rec : RecordingRow) : List ReservationRow :=
  table.rows.filter fun h => h.sourceID = rec.sourceID && h.enabled && h.id ≠ rec.id &&
    h.channelOr ≠ rec.channelID && (rec.priority < h.priority || h.priority = rec.priority &&
      (h.startMS < rec.startMS || h.startMS = rec.startMS && h.id < rec.id))

/-- The channels that the query counts at an instant. -/
def higherChannels (table : ReservationTable) (rec : RecordingRow) (t : ℤ) : Finset String :=
  held ReservationRow.startMS ReservationRow.endMS ReservationRow.channelOr (higherRows table rec) t

/-- `currentConflictSQL`: at some instant as many other channels rank before as the source has tuners. -/
def currentConflict (sources : List Source) (table : ReservationTable) (rec : RecordingRow) : Bool :=
  rec.awaited &&
    match sources.find? fun s => s.id = rec.sourceID ∧ s.active with
    | none => false
    | some src =>
      0 < src.tunerCount &&
        (points table rec).any fun t => src.tunerCount ≤ (higherChannels table rec t).card

/-! ## The query and the sweep -/

theorem mem_points : t ∈ points table rec ↔ t = rec.startMS ∨ ∃ x ∈ table.rows,
    (x.sourceID = rec.sourceID ∧ x.enabled = true ∧ rec.startMS ≤ x.startMS ∧ x.startMS < rec.endMS) ∧
      x.startMS = t := by
  unfold points
  simp only [List.mem_cons, List.mem_map, List.mem_filter, Bool.and_eq_true, decide_eq_true_eq, and_assoc]

theorem mem_higherRows (hx : x ∈ higherRows table rec) :
    x ∈ table.rows ∧ x.sourceID = rec.sourceID ∧ x.enabled = true := by
  unfold higherRows at hx
  simp only [List.mem_filter, Bool.and_eq_true, decide_eq_true_eq, and_assoc] at hx
  exact ⟨hx.1, hx.2.1, hx.2.2.1⟩

/-- **Demand is highest where a reservation starts**: the channels that are needed at an instant are needed
at the latest start of their reservations too. -/
theorem exists_point_iff {n : ℤ} : (∃ t ∈ points table rec, n ≤ (higherChannels table rec t).card) ↔
    ∃ t, (rec.startMS ≤ t ∧ t < rec.endMS) ∧ n ≤ (higherChannels table rec t).card := by
  constructor
  · rintro ⟨t, ht, hn⟩
    refine ⟨t, ?_, hn⟩
    rcases mem_points.mp ht with rfl | ⟨x, -, ⟨-, -, hstart, hstop⟩, rfl⟩
    · exact ⟨le_rfl, rec.ordered⟩
    · exact ⟨hstart, hstop⟩
  · rintro ⟨t, ⟨hstart, hstop⟩, hn⟩
    -- the instants of the query up to `t`, of which there is a last one
    set upTo := ((points table rec).filter fun p => p ≤ t).toFinset with hupTo
    have hmem : ∀ p, p ∈ upTo ↔ p ∈ points table rec ∧ p ≤ t := fun p => by
      rw [hupTo, List.mem_toFinset, List.mem_filter, decide_eq_true_eq]
    have hne : upTo.Nonempty := ⟨rec.startMS, (hmem _).mpr ⟨mem_points.mpr (Or.inl rfl), hstart⟩⟩
    obtain ⟨hlast, hle⟩ := (hmem _).mp (upTo.max'_mem hne)
    refine ⟨upTo.max' hne, hlast, hn.trans ?_⟩
    refine Int.ofNat_le.mpr (Finset.card_le_card fun k hk => ?_)
    obtain ⟨x, hx, ⟨hbegan, hends⟩, hkey⟩ := mem_held.mp hk
    refine mem_held.mpr ⟨x, hx, ⟨?_, hle.trans_lt hends⟩, hkey⟩
    obtain ⟨hrow, hsource, henabled⟩ := mem_higherRows hx
    by_cases hbefore : x.startMS ≤ rec.startMS
    · exact hbefore.trans (upTo.le_max' _ ((hmem _).mpr ⟨mem_points.mpr (Or.inl rfl), hstart⟩))
    · refine upTo.le_max' _ ((hmem _).mpr ⟨mem_points.mpr (Or.inr ⟨x, hrow, ?_, rfl⟩), hbegan⟩)
      exact ⟨hsource, henabled, (not_le.mp hbefore).le, hbegan.trans_lt hstop⟩

/-- The reservation of a recording, when it has one, says what the recording says. -/
def Agrees (table : ReservationTable) (rec : RecordingRow) : Prop :=
  ∀ x ∈ table.rows, x.id = rec.id → x.enabled = true → x.sourceID = rec.sourceID →
    x.startMS = rec.startMS ∧ x.endMS = rec.endMS ∧ x.priority = rec.priority

theorem mem_overlapping {a : Conflicts.Reservation} {sid : String} {start stop : ℤ} :
    a ∈ overlapping table.rows sid start stop ↔ ∃ x ∈ table.rows,
      (x.sourceID = sid ∧ x.enabled = true ∧ x.startMS < stop ∧ start < x.endMS) ∧ x.reservation = a := by
  unfold overlapping
  rw [(List.perm_insertionSort _ _).mem_iff, List.mem_map]
  simp only [List.mem_filter, Bool.and_eq_true, decide_eq_true_eq, and_assoc]

/-- The overlapping reservations, with the recording's channel for its own. -/
def withChannel (table : ReservationTable) (rec : RecordingRow) : List Conflicts.Reservation :=
  (overlapping table.rows rec.sourceID rec.startMS rec.endMS).map fun a =>
    if a.id = rec.id then { a with channelID := rec.channelID } else a

theorem withChannel_ids : (withChannel table rec).map Conflicts.Reservation.id =
    (overlapping table.rows rec.sourceID rec.startMS rec.endMS).map Conflicts.Reservation.id := by
  unfold withChannel
  rw [List.map_map]
  refine List.map_congr_left fun a _ => ?_
  show (if a.id = rec.id then { a with channelID := rec.channelID } else a).id = a.id
  split_ifs <;> rfl

theorem competing_eq : competing table rec =
    if (withChannel table rec).any fun a => a.id = rec.id then withChannel table rec
    else withChannel table rec ++ [rec.reservation] := rfl

theorem mem_competing {a : Conflicts.Reservation} (hne : a.id ≠ rec.id) :
    a ∈ competing table rec ↔ a ∈ overlapping table.rows rec.sourceID rec.startMS rec.endMS := by
  have hown : a ≠ rec.reservation := fun h => hne (congrArg Conflicts.Reservation.id h)
  have hmem : a ∈ withChannel table rec ↔ a ∈ overlapping table.rows rec.sourceID rec.startMS rec.endMS := by
    unfold withChannel
    rw [List.mem_map]
    constructor
    · rintro ⟨b, hb, rfl⟩
      by_cases hid : b.id = rec.id
      · rw [if_pos hid] at hne
        exact absurd hid hne
      · rw [if_neg hid]
        exact hb
    · exact fun ha => ⟨a, ha, if_neg hne⟩
  rw [competing_eq]
  split_ifs
  · exact hmem
  · rw [List.mem_append, List.mem_singleton, or_iff_left hown, hmem]

theorem reservation_mem_competing (hagree : Agrees table rec) : rec.reservation ∈ competing table rec := by
  rw [competing_eq]
  split_ifs with hany
  · obtain ⟨a, ha, hid⟩ := List.any_eq_true.mp hany
    have hid : a.id = rec.id := of_decide_eq_true hid
    unfold withChannel at ha ⊢
    obtain ⟨b, hb, rfl⟩ := List.mem_map.mp ha
    have hb' : b.id = rec.id := by
      by_contra hne
      rw [if_neg hne] at hid
      exact hne hid
    refine List.mem_map.mpr ⟨b, hb, ?_⟩
    rw [if_pos hb']
    obtain ⟨x, hx, ⟨hsource, henabled, -, -⟩, rfl⟩ := mem_overlapping.mp hb
    obtain ⟨hstart, hstop, hpriority⟩ := hagree x hx hb' henabled hsource
    show Conflicts.Reservation.mk rec.channelID x.id x.startMS x.endMS x.priority = rec.reservation
    have hid' : x.id = rec.id := hb'
    rw [hid', hstart, hstop, hpriority]
    rfl
  · exact List.mem_append_right _ (List.mem_singleton.mpr rfl)

theorem competing_ordered : ∀ a ∈ competing table rec, a.start < a.stop := by
  have hoverlapping : ∀ a ∈ withChannel table rec, a.start < a.stop := by
    intro a ha
    unfold withChannel at ha
    obtain ⟨b, hb, rfl⟩ := List.mem_map.mp ha
    obtain ⟨x, hx, -, rfl⟩ := mem_overlapping.mp hb
    split_ifs
    · exact table.ordered x hx
    · exact table.ordered x hx
  intro a ha
  rw [competing_eq] at ha
  split_ifs at ha
  · exact hoverlapping a ha
  · rcases List.mem_append.mp ha with ha | ha
    · exact hoverlapping a ha
    · rw [List.mem_singleton.mp ha]
      exact rec.ordered

theorem competing_ids : ((competing table rec).map Conflicts.Reservation.id).Nodup := by
  have hnodup : ((withChannel table rec).map Conflicts.Reservation.id).Nodup := by
    rw [withChannel_ids]
    refine (((List.perm_insertionSort _ _).map _).nodup_iff).mpr ?_
    rw [List.map_map]
    exact table.ids.sublist ((List.filter_sublist).map _)
  rw [competing_eq]
  split_ifs with hany
  · exact hnodup
  · rw [List.map_append]
    refine List.nodup_append.mpr ⟨hnodup, List.nodup_singleton _, ?_⟩
    intro i hi j hj
    rw [List.mem_singleton.mp hj]
    obtain ⟨a, ha, rfl⟩ := List.mem_map.mp hi
    intro hid
    exact hany (List.any_eq_true.mpr ⟨a, ha, decide_eq_true hid⟩)

theorem channelOr_ne (hx : x ∈ table.rows) : x.channelOr ≠ "" := by
  obtain ⟨hid, hchannel⟩ := table.named x hx
  unfold ReservationRow.channelOr
  cases h : x.channel with
  | none => exact hid
  | some c =>
    rw [h] at hchannel
    exact fun hc => hchannel (congrArg some hc)

theorem reservationBefore_iff : reservationBefore x.reservation rec.reservation = true ↔
    rec.priority < x.priority ∨ x.priority = rec.priority ∧
      (x.startMS < rec.startMS ∨ x.startMS = rec.startMS ∧ x.id < rec.id) := by
  unfold reservationBefore ReservationRow.reservation RecordingRow.reservation
  simp only
  split_ifs with hpriority hstart
  · rw [decide_eq_true_iff, or_iff_left fun h => hpriority h.1]
  · rw [decide_eq_true_iff]
    push Not at hpriority
    simp only [hpriority, lt_irrefl, false_or, true_and]
    exact (or_iff_left fun h => hstart h.1).symm
  · rw [decide_eq_true_iff]
    push Not at hpriority hstart
    simp only [hpriority, hstart, lt_irrefl, false_or, true_and]

/-- **The query counts the channels that the sweep counts.** -/
theorem losingDemand_competing (ht : rec.startMS ≤ t ∧ t < rec.endMS) :
    losingDemand (competing table rec) rec.reservation t = higherChannels table rec t := by
  ext k
  unfold losingDemand higherChannels
  rw [mem_held, mem_held]
  constructor
  · rintro ⟨a, ha, ⟨hstart, hstop⟩, rfl⟩
    obtain ⟨hmem, hwhich⟩ := List.mem_filter.mp ha
    rw [Bool.and_eq_true] at hwhich
    obtain ⟨hother, hrank⟩ := hwhich
    unfold otherThan at hother
    simp only [Bool.and_eq_true, decide_eq_true_eq, Bool.not_eq_true', Bool.and_eq_false_iff,
      decide_eq_false_iff_not] at hother
    obtain ⟨hne, hchannel⟩ := hother
    obtain ⟨x, hx, ⟨hsource, henabled, -, -⟩, rfl⟩ := mem_overlapping.mp ((mem_competing hne).mp hmem)
    have hchannel : x.channelOr ≠ rec.channelID := hchannel.resolve_left fun h => h rec.named.2
    refine ⟨x, List.mem_filter.mpr ⟨hx, ?_⟩, ⟨hstart, hstop⟩, ?_⟩
    · simp only [Bool.and_eq_true, Bool.or_eq_true, decide_eq_true_eq]
      exact ⟨⟨⟨⟨hsource, henabled⟩, hne⟩, hchannel⟩, reservationBefore_iff.mp hrank⟩
    · exact (if_neg (channelOr_ne hx)).symm
  · rintro ⟨x, hx, ⟨hstart, hstop⟩, rfl⟩
    unfold higherRows at hx
    simp only [List.mem_filter, Bool.and_eq_true, Bool.or_eq_true, decide_eq_true_eq] at hx
    obtain ⟨hmem, ⟨⟨⟨hsource, henabled⟩, hne⟩, hchannel⟩, hrank⟩ := hx
    refine ⟨x.reservation, List.mem_filter.mpr ⟨?_, ?_⟩, ⟨hstart, hstop⟩, if_neg (channelOr_ne hmem)⟩
    · refine (mem_competing hne).mpr (mem_overlapping.mpr ⟨x, hmem, ⟨hsource, henabled, ?_, ?_⟩, rfl⟩)
      · exact hstart.trans_lt ht.2
      · exact ht.1.trans_lt hstop
    · rw [Bool.and_eq_true]
      refine ⟨?_, reservationBefore_iff.mpr hrank⟩
      unfold otherThan
      simp only [Bool.and_eq_true, decide_eq_true_eq, Bool.not_eq_true', Bool.and_eq_false_iff,
        decide_eq_false_iff_not]
      exact ⟨hne, Or.inr hchannel⟩

/-! ## Both -/

theorem capacityTx_ok {capacity : Capacity} {sid : String} (h : capacityTx sources sid = .ok capacity) :
    (∃ src, sources.find? (fun s => s.id = sid ∧ s.active) = some src) ∧
      (1 ≤ capacity.effective → capacity.known = true) := by
  unfold capacityTx at h
  cases hfind : sources.find? fun s => s.id = sid ∧ s.active with
  | none =>
    rw [hfind] at h
    cases h
  | some src =>
    rw [hfind] at h
    refine ⟨⟨src, rfl⟩, fun heff => ?_⟩
    simp only at h
    cases hsettings : src.settings with
    | none =>
      rw [hsettings] at h
      obtain rfl := Except.ok.inj h
      simp only at heff
      split_ifs at heff with hpos
      · exact decide_eq_true hpos
      · omega
    | some settings =>
      rw [hsettings] at h
      obtain rfl := Except.ok.inj h
      exact decide_eq_true (show 0 < effectiveCapacity settings.1 settings.2 from heff)

theorem Losing.ne_nil_iff {n : ℤ} (h : Losing all target n found) : found ≠ [] ↔
    ∃ t, (target.start ≤ t ∧ t < target.stop) ∧ n ≤ (losingDemand all target t).card := by
  constructor
  · intro hne
    obtain ⟨x, hx⟩ := List.exists_mem_of_ne_nil found hne
    exact ⟨x.start, (h.covers x.start).mp ⟨x, hx, le_rfl, (h.inside x hx).2.1⟩⟩
  · rintro ⟨t, ht⟩ rfl
    obtain ⟨x, hx, -⟩ := (h.covers t).mpr ht
    cases hx

/-- The query reports a recording that is still to come when at some instant it has no tuner. -/
theorem currentConflict_iff {src : Source} (hfind : sources.find? (fun s => s.id = rec.sourceID ∧ s.active) = some src)
    (hcount : 1 ≤ src.tunerCount) : currentConflict sources table rec = true ↔ rec.awaited = true ∧
      ∃ t, (rec.startMS ≤ t ∧ t < rec.endMS) ∧
        src.tunerCount ≤ (losingDemand (competing table rec) rec.reservation t).card := by
  unfold currentConflict
  rw [hfind, Bool.and_eq_true]
  refine and_congr_right fun _ => ?_
  simp only [Bool.and_eq_true, decide_eq_true_eq, List.any_eq_true]
  rw [and_iff_right (by omega : 0 < src.tunerCount), exists_point_iff]
  refine exists_congr fun t => and_congr_right fun ht => ?_
  rw [losingDemand_competing ht]

/-- **What a reservation loses.** The sweep reports intervals in order and apart within the reservation, which
cover the instants at which the other channels that rank before it need all tuners. For a recording that is
still to come the query reports a conflict when there is such an instant. A source keeps the number of its
tuners beside its settings, and a recording's reservation has the recording's times and priority. -/
theorem losing_intervals :
    (∀ (all : List Conflicts.Reservation) (target : Conflicts.Reservation) (capacity : Capacity),
      capacity.known = true → 1 ≤ capacity.effective → (∀ r ∈ all, r.start < r.stop) → target ∈ all →
      (all.map Conflicts.Reservation.id).Nodup →
      Losing all target capacity.effective (conflicts all target.id capacity)) ∧
    (∀ (sources : List Source) (table : ReservationTable) (rec : RecordingRow) (capacity : Capacity),
      capacityTx sources rec.sourceID = .ok capacity → 1 ≤ capacity.effective →
      (∀ src ∈ sources, src.id = rec.sourceID → src.active = true → src.tunerCount = capacity.effective) →
      Agrees table rec →
      ∃ found, conflictsTx sources table rec = .ok found ∧
        Losing (competing table rec) rec.reservation capacity.effective found ∧
        (currentConflict sources table rec = true ↔ rec.awaited = true ∧
          ∃ t, (rec.startMS ≤ t ∧ t < rec.endMS) ∧
            capacity.effective ≤ (losingDemand (competing table rec) rec.reservation t).card) ∧
        (rec.awaited = true → (currentConflict sources table rec = true ↔ found ≠ []))) := by
  refine ⟨fun all target capacity hknown heff hall hmem hids => conflicts_losing hknown heff hall hmem hids, ?_⟩
  intro sources table rec capacity hcap heff hcount hagree
  obtain ⟨⟨src, hfind⟩, hknown⟩ := capacityTx_ok hcap
  have hknown := hknown heff
  have hsrc : src.tunerCount = capacity.effective := by
    have hwhich : src.id = rec.sourceID ∧ src.active = true := by simpa using List.find?_some hfind
    exact hcount src (List.mem_of_find?_eq_some hfind) hwhich.1 hwhich.2
  have hlosing : Losing (competing table rec) rec.reservation capacity.effective
      (conflicts (competing table rec) rec.id capacity) :=
    conflicts_losing hknown heff competing_ordered (reservation_mem_competing hagree) competing_ids
  have hquery := @currentConflict_iff table rec _ _ hfind (hsrc ▸ heff)
  rw [hsrc] at hquery
  refine ⟨_, ?_, hlosing, hquery, fun hawaited => ?_⟩
  · unfold conflictsTx
    rw [hcap]
    simp only
    rw [if_neg (by simp [hknown])]
  · rw [hquery, hlosing.ne_nil_iff, and_iff_right hawaited]
    rfl

/-- A film with one tuner, and the news and a match before it; the match shares its channel with the news. -/
def tonight : ReservationTable where
  rows := [⟨"film", "s", 10, 40, 1, true, some "two"⟩, ⟨"news", "s", 5, 20, 2, true, some "one"⟩,
    ⟨"match", "s", 20, 30, 2, true, some "one"⟩, ⟨"talk", "s", 0, 50, 0, true, some "three"⟩]
  ids := by decide
  ordered := by decide
  named := by decide

def film : RecordingRow where
  id := "film"
  sourceID := "s"
  channelID := "two"
  startMS := 10
  endMS := 40
  priority := 1
  state := .scheduled
  ordered := by decide
  named := by decide

def oneTuner : List Source := [⟨"s", true, 1, none⟩]

example : conflictsTx oneTuner tonight film = .ok [⟨10, 30, 3, 1⟩] := by decide +kernel

theorem losing_intervals_film :
    Losing (competing tonight film) film.reservation 1 (conflicts (competing tonight film) "film" ⟨true, 1⟩) ∧
    ∃ found, conflictsTx oneTuner tonight film = .ok found ∧
        Losing (competing tonight film) film.reservation 1 found ∧
        (currentConflict oneTuner tonight film = true ↔ film.awaited = true ∧
          ∃ t, (film.startMS ≤ t ∧ t < film.endMS) ∧
            1 ≤ ((losingDemand (competing tonight film) film.reservation t).card : ℤ)) ∧
        (film.awaited = true → (currentConflict oneTuner tonight film = true ↔ found ≠ [])) :=
  ⟨losing_intervals.1 (competing tonight film) film.reservation ⟨true, 1⟩ rfl le_rfl (by decide +kernel)
      (by decide +kernel) (by decide +kernel),
    losing_intervals.2 oneTuner tonight film ⟨true, 1⟩ rfl le_rfl (by decide) (by unfold Agrees; decide)⟩

end Portico.LiveChannels
