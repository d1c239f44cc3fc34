import Portico.LiveChannels.Allocator
import Portico.Lib.Sweep

/-!
# When protected recordings need the tuners

The sweep over the starts and ends of the protected recordings finds the earliest instant from now on at
which more channels have one in progress than there are tuners for them.

## Main results

* `process_spec`: the counts and the number of needed channels after several edges
* `sweep_spec`: the sweep stops at the first overloaded edge
* `protectedBoundary_earliest`: the boundary is the earliest overloaded instant
-/

namespace Portico.LiveChannels

open Sweeping

variable {all : List Reservation} {now available t : ℤ} {es rest : List Edge} {e : Edge} {d : Demand}
  {keys : Finset String} {c : String}

/-- The channels with a reservation in progress. -/
def needed (all : List Reservation) (t : ℤ) : Finset String :=
  held Reservation.startMS Reservation.endMS Reservation.key all t

/-- More channels are needed than there are tuners. -/
def Overloaded (all : List Reservation) (available t : ℤ) : Prop := available < (needed all t).card

/-! ## Several edges -/

/-- The demand after several edges. -/
def process (d : Demand) (es : List Edge) : Demand := es.foldl Demand.move d

/-- **Several edges.** The counts change by what the edges come to, and the number of needed channels is
kept. -/
theorem process_spec (hes : ∀ e ∈ es, e.channel ∈ keys ∧ -1 ≤ e.delta ∧ e.delta ≤ 1)
    (hd : Keeps keys d.counts d.demand) :
    Keeps keys (process d es).counts (process d es).demand ∧
      ∀ c, (process d es).counts c = d.counts c + net Edge.channel Edge.delta es c := by
  induction es generalizing d with
  | nil => exact ⟨hd, fun c => (add_zero _).symm⟩
  | cons e es ih =>
    obtain ⟨⟨hchannel, hlow, hhigh⟩, hes⟩ := List.forall_mem_cons.mp hes
    obtain ⟨hkeeps, hcounts⟩ := ih hes (d := d.move e) (hd.toggled hchannel hlow hhigh)
    refine ⟨hkeeps, fun c => ?_⟩
    show (process (d.move e) es).counts c = _
    rw [hcounts, net_cons]
    unfold Demand.move
    simp only
    by_cases hc : e.channel = c
    · rw [if_pos hc, ← hc, Function.update_self]
      ring
    · rw [if_neg hc, Function.update_of_ne (Ne.symm hc), zero_add]

/-! ## The sweep -/

/-- The demand after the edges up to an instant is more than there is. -/
def Over (available : ℤ) (es : List Edge) (d : Demand) (t : ℤ) : Prop :=
  available < (process d (es.filter fun e => e.at_ ≤ t)).demand

theorem over_cons (h : e.at_ ≤ t) : Over available (e :: rest) d t ↔ Over available rest (d.move e) t := by
  unfold Over
  rw [List.filter_cons_of_pos (by simpa using h)]
  rfl

theorem over_of_lt (h : ∀ e ∈ es, t < e.at_) : Over available es d t ↔ available < d.demand := by
  unfold Over
  rw [List.filter_eq_nil_iff.mpr fun e he => by simpa using h e he]
  rfl

/-- An edge is before the next ones when it isn't at the instant of the next one. -/
theorem later_of_ne {e' : Edge} (hes : (e :: e' :: rest).Pairwise fun e f => e.at_ ≤ f.at_)
    (hne : e'.at_ ≠ e.at_) : ∀ x ∈ e' :: rest, e.at_ < x.at_ := by
  obtain ⟨hfirst, hrest⟩ := List.pairwise_cons.mp hes
  have hlt : e.at_ < e'.at_ := lt_of_le_of_ne (hfirst e' List.mem_cons_self) hne.symm
  intro x hx
  rcases List.mem_cons.mp hx with rfl | hx
  · exact hlt
  · exact hlt.trans_le ((List.pairwise_cons.mp hrest).1 x hx)

/-- What the sweep over edges in order finds: the first of them after which the demand is too much. -/
theorem sweep_spec (hes : es.Pairwise fun e f => e.at_ ≤ f.at_) :
    (∀ t, sweep available es d = some t → Over available es d t ∧ (∃ e ∈ es, e.at_ = t) ∧
      ∀ e ∈ es, e.at_ < t → ¬ Over available es d e.at_) ∧
    (sweep available es d = none → ∀ e ∈ es, ¬ Over available es d e.at_) := by
  induction es generalizing d with
  | nil => exact ⟨nofun, fun _ => nofun⟩
  | cons e rest ih =>
    obtain ⟨hfirst, hrest⟩ := List.pairwise_cons.mp hes
    obtain ⟨hsome, hnone⟩ := ih (d := d.move e) hrest
    cases rest with
    | nil =>
      have hover : Over available [e] d e.at_ ↔ available < (d.move e).demand :=
        (over_cons le_rfl).trans (over_of_lt nofun)
      rw [sweep]
      by_cases hdemand : available < (d.move e).demand
      · simp only [hdemand, if_true]
        refine ⟨fun t ht => ?_, nofun⟩
        obtain rfl := Option.some.inj ht
        refine ⟨hover.mpr hdemand, ⟨e, List.mem_cons_self, rfl⟩, fun e' he' hlt => ?_⟩
        rw [List.mem_singleton.mp he'] at hlt
        exact absurd hlt (lt_irrefl _)
      · simp only [hdemand, if_false]
        refine ⟨nofun, fun _ e' he' => ?_⟩
        rw [List.mem_singleton.mp he', hover]
        exact hdemand
    | cons e' rest =>
      rw [sweep]
      by_cases hstop : e'.at_ ≠ e.at_ ∧ available < (d.move e).demand
      · rw [if_pos hstop]
        refine ⟨fun t ht => ?_, nofun⟩
        obtain rfl := Option.some.inj ht
        have hlater := later_of_ne hes hstop.1
        refine ⟨(over_cons le_rfl).mpr ((over_of_lt hlater).mpr hstop.2),
          ⟨e, List.mem_cons_self, rfl⟩, fun x hx hlt => ?_⟩
        rcases List.mem_cons.mp hx with rfl | hx
        · exact absurd hlt (lt_irrefl _)
        · exact absurd hlt (hlater x hx).asymm
      · rw [if_neg hstop]
        -- the first edge isn't overloaded, unless the next one is at its instant
        have hnot : e'.at_ ≠ e.at_ → ¬ Over available (e :: e' :: rest) d e.at_ := by
          intro hne hover
          rw [over_cons le_rfl, over_of_lt (later_of_ne hes hne)] at hover
          exact hstop ⟨hne, hover⟩
        constructor
        · intro t ht
          obtain ⟨hover, ⟨x, hx, hxt⟩, hearlier⟩ := hsome t ht
          have het : e.at_ ≤ t := hxt ▸ hfirst x hx
          refine ⟨(over_cons het).mpr hover, ⟨x, List.mem_cons_of_mem _ hx, hxt⟩, fun y hy hlt => ?_⟩
          rcases List.mem_cons.mp hy with rfl | hy
          · by_cases heq : e'.at_ = y.at_
            · rw [over_cons le_rfl, ← heq]
              exact hearlier e' List.mem_cons_self (heq ▸ hlt)
            · exact hnot heq
          · rw [over_cons (hfirst y hy)]
            exact hearlier y hy hlt
        · intro hsweep y hy
          rcases List.mem_cons.mp hy with rfl | hy
          · by_cases heq : e'.at_ = y.at_
            · rw [over_cons le_rfl, ← heq]
              exact hnone hsweep e' List.mem_cons_self
            · exact hnot heq
          · rw [over_cons (hfirst y hy)]
            exact hnone hsweep y hy

/-! ## The boundary -/

/-- The reservations that end after an instant, the edges they have after it, and the demand at it. -/
def aheadOf (all : List Reservation) (now : ℤ) : List Reservation := all.filter fun r => now < r.endMS

def edgesOf (now : ℤ) (r : Reservation) : List Edge :=
  (if now < r.startMS then [⟨r.startMS, r.key, 1⟩] else []) ++ [⟨r.endMS, r.key, -1⟩]

def sortedEdges (all : List Reservation) (now : ℤ) : List Edge :=
  ((aheadOf all now).flatMap (edgesOf now)).insertionSort fun e f => e.at_ ≤ f.at_

def demandAt (all : List Reservation) (now : ℤ) : Demand :=
  { counts := fun c => ((aheadOf all now).filter fun r => r.startMS ≤ now).countP fun r => r.key = c
    demand := (((aheadOf all now).filter fun r => r.startMS ≤ now).map Reservation.key).toFinset.card }

theorem protectedBoundary_eq : protectedBoundary all now available =
    if available < (demandAt all now).demand then some now
    else sweep available (sortedEdges all now) (demandAt all now) := rfl

theorem sortedEdges_pairwise : (sortedEdges all now).Pairwise fun e f => e.at_ ≤ f.at_ := by
  have : IsTrans Edge fun e f => e.at_ ≤ f.at_ := ⟨fun _ _ _ => le_trans⟩
  have : Std.Total fun e f : Edge => e.at_ ≤ f.at_ := ⟨fun _ _ => le_total _ _⟩
  exact List.pairwise_insertionSort _ _

theorem mem_sortedEdges (he : e ∈ sortedEdges all now) :
    ∃ r ∈ all, now < e.at_ ∧ e.channel = r.key ∧ -1 ≤ e.delta ∧ e.delta ≤ 1 := by
  rw [sortedEdges, (List.perm_insertionSort _ _).mem_iff, List.mem_flatMap] at he
  obtain ⟨r, hr, he⟩ := he
  obtain ⟨hall, hahead⟩ := List.mem_filter.mp hr
  refine ⟨r, hall, ?_⟩
  rcases List.mem_append.mp he with he | he
  · split_ifs at he with hstart
    · obtain rfl := List.mem_singleton.mp he
      exact ⟨hstart, rfl, by norm_num, by norm_num⟩
    · cases he
  · obtain rfl := List.mem_singleton.mp he
    exact ⟨of_decide_eq_true hahead, rfl, by norm_num, by norm_num⟩

/-- The edges of a reservation up to an instant come to its start and its stop, unless it began before. -/
theorem net_edgesOf {r : Reservation} (hnow : now ≤ t) :
    net Edge.channel Edge.delta ((edgesOf now r).filter fun e => e.at_ ≤ t) c =
      if r.key = c then
        (if r.startMS ≤ t then (1 : ℤ) else 0) - (if r.endMS ≤ t then 1 else 0) -
          (if r.startMS ≤ now then 1 else 0)
      else 0 := by
  have hlist : (edgesOf now r).filter (fun e => e.at_ ≤ t) =
      (if now < r.startMS ∧ r.startMS ≤ t then [⟨r.startMS, r.key, 1⟩] else []) ++
        if r.endMS ≤ t then [⟨r.endMS, r.key, -1⟩] else [] := by
    unfold edgesOf
    rw [List.filter_append]
    congr 1
    · by_cases h₁ : now < r.startMS
      · by_cases h₂ : r.startMS ≤ t <;> simp [h₁, h₂]
      · simp [h₁]
    · by_cases h₃ : r.endMS ≤ t <;> simp [h₃]
  have hsum : net Edge.channel Edge.delta ((edgesOf now r).filter fun e => e.at_ ≤ t) c =
      (if r.key = c then if now < r.startMS ∧ r.startMS ≤ t then 1 else 0 else 0) +
        if r.key = c then if r.endMS ≤ t then -1 else 0 else 0 := by
    rw [hlist, net_append]
    congr 1
    · split_ifs with h₁ h₂ <;> simp [net, *]
    · split_ifs with h₁ h₂ <;> simp [net, *]
  rw [hsum]
  by_cases hkey : r.key = c
  · simp only [hkey, if_true]
    split_ifs <;> omega
  · simp [hkey]

/-- **How many reservations a channel has in progress**, counted from now on. -/
theorem counts_eq_holders (hall : ∀ r ∈ all, r.startMS ≤ r.endMS) (hnow : now ≤ t) :
    (demandAt all now).counts c +
        net Edge.channel Edge.delta ((sortedEdges all now).filter fun e => e.at_ ≤ t) c =
      holders Reservation.startMS Reservation.endMS Reservation.key all t c := by
  have hsorted : ((sortedEdges all now).filter fun e => e.at_ ≤ t).Perm
      ((aheadOf all now).flatMap fun r => (edgesOf now r).filter fun e => e.at_ ≤ t) := by
    rw [← List.filter_flatMap]
    exact (List.perm_insertionSort _ _).filter _
  have hbase : (demandAt all now).counts c =
      ((aheadOf all now).map fun r =>
        if r.key = c then if r.startMS ≤ now then (1 : ℤ) else 0 else 0).sum := by
    unfold demandAt
    simp only
    induction aheadOf all now with
    | nil => rfl
    | cons r l ih =>
      rw [List.map_cons, List.sum_cons, ← ih, List.filter_cons]
      by_cases hstart : r.startMS ≤ now
      · by_cases hkey : r.key = c <;> simp [hstart, hkey, add_comm]
      · simp [hstart]
  have hahead : holders Reservation.startMS Reservation.endMS Reservation.key all t c =
      holders Reservation.startMS Reservation.endMS Reservation.key (aheadOf all now) t c := by
    unfold holders aheadOf
    rw [List.countP_filter]
    congr 1
    refine List.countP_congr fun r _ => ?_
    simp only [decide_eq_true_eq, Bool.and_eq_true]
    constructor
    · rintro ⟨hkey, hstart, hstop⟩
      exact ⟨⟨hkey, hstart, hstop⟩, by omega⟩
    · exact And.left
  have hwell : ∀ r ∈ aheadOf all now, r.startMS ≤ r.endMS := fun r hr =>
    hall r (List.mem_of_mem_filter hr)
  rw [hahead, holders_eq_sum hwell, net_perm hsorted, net_flatMap,
    hbase, ← List.sum_map_add]
  congr 1
  refine List.map_congr_left fun r _ => ?_
  rw [net_edgesOf hnow]
  by_cases hkey : r.key = c
  · simp only [hkey, if_true]
    ring
  · simp [hkey]

/-- The demand after the edges up to an instant is how many channels are needed then. -/
theorem over_iff_overloaded (hall : ∀ r ∈ all, r.startMS ≤ r.endMS) (hnow : now ≤ t) :
    Over available (sortedEdges all now) (demandAt all now) t ↔ Overloaded all available t := by
  set keys := (all.map Reservation.key).toFinset with hkeys
  have hmem : ∀ r ∈ all, r.key ∈ keys := fun r hr => List.mem_toFinset.mpr (List.mem_map_of_mem hr)
  have hbase : Keeps keys (demandAt all now).counts (demandAt all now).demand := by
    unfold Keeps demandAt
    simp only
    congr 2
    ext c
    rw [Finset.mem_filter, Int.natCast_pos, List.countP_pos_iff, List.mem_toFinset, List.mem_map]
    constructor
    · rintro ⟨r, hr, rfl⟩
      refine ⟨hmem r ?_, r, hr, decide_eq_true rfl⟩
      exact List.mem_of_mem_filter (List.mem_of_mem_filter hr)
    · rintro ⟨-, r, hr, hkey⟩
      exact ⟨r, hr, of_decide_eq_true hkey⟩
  have hedges : ∀ e ∈ (sortedEdges all now).filter fun e => e.at_ ≤ t,
      e.channel ∈ keys ∧ -1 ≤ e.delta ∧ e.delta ≤ 1 := by
    intro e he
    obtain ⟨r, hr, -, hkey, hdelta⟩ := mem_sortedEdges (List.mem_of_mem_filter he)
    exact ⟨hkey ▸ hmem r hr, hdelta⟩
  obtain ⟨hkeeps, hcounts⟩ := process_spec hedges hbase
  have hcard := @Sweeping.Keeps.eq_card_held _ _ _ Reservation.startMS Reservation.endMS Reservation.key all t _ _ _ hkeeps (fun c => (hcounts c).trans (counts_eq_holders hall hnow)) hmem
  unfold Over Overloaded needed
  rw [hcard]

/-- An overloaded instant that isn't so from the beginning comes after an edge that is overloaded. -/
theorem exists_edge_of_over (hes : es.Pairwise fun e f => e.at_ ≤ f.at_) (hbase : ¬ available < d.demand)
    (hover : Over available es d t) : ∃ e ∈ es, e.at_ ≤ t ∧ Over available es d e.at_ := by
  set before := es.filter fun e => e.at_ ≤ t with hbefore
  have hne : before ≠ [] := by
    intro hnil
    unfold Over at hover
    rw [← hbefore, hnil] at hover
    exact hbase hover
  obtain ⟨l, e, hlast⟩ := List.eq_nil_or_concat before |>.resolve_left hne
  rw [List.concat_eq_append] at hlast
  have he : e ∈ before := by
    rw [hlast]
    exact List.mem_append_right _ (List.mem_singleton.mpr rfl)
  have het : e.at_ ≤ t := of_decide_eq_true (List.mem_filter.mp he).2
  refine ⟨e, List.mem_of_mem_filter he, het, ?_⟩
  -- the edges up to the instant are those up to the last of them
  have hsame : es.filter (fun e' => e'.at_ ≤ e.at_) = before := by
    refine List.filter_congr fun x hx => ?_
    rw [decide_eq_decide]
    refine ⟨fun hxe => hxe.trans het, fun hxt => ?_⟩
    have hmem : x ∈ before := List.mem_filter.mpr ⟨hx, decide_eq_true hxt⟩
    have hsorted := hes.sublist (List.filter_sublist (p := fun e => decide (e.at_ ≤ t)))
    rw [← hbefore, hlast] at hsorted
    rw [hlast] at hmem
    rcases List.mem_append.mp hmem with hmem | hmem
    · exact (List.pairwise_append.mp hsorted).2.2 x hmem e (List.mem_singleton.mpr rfl)
    · rw [List.mem_singleton.mp hmem]
  unfold Over
  rw [hsame]
  exact hover

/-- **The boundary is the earliest overloaded instant** from now on, and there is none when there is no such
instant. Reservations end after they start. -/
theorem protectedBoundary_earliest (all : List Reservation) (now available : ℤ)
    (hall : ∀ r ∈ all, r.startMS ≤ r.endMS) :
    (∀ t, protectedBoundary all now available = some t ↔
      now ≤ t ∧ Overloaded all available t ∧ ∀ u, now ≤ u → u < t → ¬ Overloaded all available u) ∧
    (protectedBoundary all now available = none ↔ ∀ t, now ≤ t → ¬ Overloaded all available t) := by
  have hlater : ∀ e ∈ sortedEdges all now, now < e.at_ := fun e he =>
    (mem_sortedEdges he).elim fun _ h => h.2.1
  obtain ⟨hsome, hnever⟩ := @sweep_spec available _ (demandAt all now) (@sortedEdges_pairwise all now)
  rw [protectedBoundary_eq]
  -- what is found is an overloaded instant, and no earlier one is
  have hfound : ∀ t, (if available < (demandAt all now).demand then some now
      else sweep available (sortedEdges all now) (demandAt all now)) = some t →
      now ≤ t ∧ Overloaded all available t ∧ ∀ u, now ≤ u → u < t → ¬ Overloaded all available u := by
    intro t ht
    by_cases hbase : available < (demandAt all now).demand
    · rw [if_pos hbase] at ht
      obtain rfl := Option.some.inj ht
      refine ⟨le_rfl, (over_iff_overloaded hall le_rfl).mp ((over_of_lt hlater).mpr hbase), ?_⟩
      intro u hu hlt
      exact absurd hlt hu.not_gt
    · rw [if_neg hbase] at ht
      obtain ⟨hover, ⟨e, he, rfl⟩, hearlier⟩ := hsome t ht
      have hnow := (hlater e he).le
      refine ⟨hnow, (over_iff_overloaded hall hnow).mp hover, fun u hu hlt hbad => ?_⟩
      obtain ⟨x, hx, hxu, hxover⟩ := exists_edge_of_over sortedEdges_pairwise hbase
        ((over_iff_overloaded hall hu).mpr hbad)
      exact hearlier x hx (hxu.trans_lt hlt) hxover
  have hnone : (if available < (demandAt all now).demand then some now
      else sweep available (sortedEdges all now) (demandAt all now)) = none →
      ∀ t, now ≤ t → ¬ Overloaded all available t := by
    intro h t ht hbad
    by_cases hbase : available < (demandAt all now).demand
    · rw [if_pos hbase] at h
      cases h
    · rw [if_neg hbase] at h
      obtain ⟨x, hx, -, hxover⟩ := exists_edge_of_over sortedEdges_pairwise hbase
        ((over_iff_overloaded hall ht).mpr hbad)
      exact hnever h x hx hxover
  refine ⟨fun t => ⟨hfound t, ?_⟩, hnone, fun h => ?_⟩
  · rintro ⟨hnow, hover, hfirst⟩
    cases hb : (if available < (demandAt all now).demand then some now
      else sweep available (sortedEdges all now) (demandAt all now)) with
    | none => exact absurd hover (hnone hb t hnow)
    | some u =>
      obtain ⟨hnow', hover', hfirst'⟩ := hfound u hb
      rcases lt_trichotomy u t with hlt | rfl | hgt
      · exact absurd hover' (hfirst u hnow' hlt)
      · rfl
      · exact absurd hover (hfirst' t hnow hgt)
  · cases hb : (if available < (demandAt all now).demand then some now
      else sweep available (sortedEdges all now) (demandAt all now)) with
    | none => rfl
    | some u =>
      obtain ⟨hnow', hover', -⟩ := hfound u hb
      exact absurd hover' (h u hnow')

/-- Two channels from 10 on, and a third from 20 on. -/
def evening : List Reservation :=
  [⟨"r1", "s", "news", 0, 30, true⟩, ⟨"r2", "s", "news", 10, 25, true⟩, ⟨"r3", "s", "film", 10, 40, true⟩,
    ⟨"r4", "s", "", 20, 30, true⟩]

example : protectedBoundary evening 5 2 = some 20 := by decide +kernel

theorem protectedBoundary_evening :
    (∀ t, protectedBoundary evening 5 2 = some t ↔
      5 ≤ t ∧ Overloaded evening 2 t ∧ ∀ u, 5 ≤ u → u < t → ¬ Overloaded evening 2 u) ∧
    (protectedBoundary evening 5 2 = none ↔ ∀ t, 5 ≤ t → ¬ Overloaded evening 2 t) :=
  protectedBoundary_earliest evening 5 2 (by decide)

end Portico.LiveChannels
