import Portico.Lib.Runs

/-!
# Sweeps over intervals

Half-open intervals, each with a key. How many distinct keys are held at an instant is found by going over
the ends of the intervals in order: a count for each key goes up where one of its intervals starts and down
where one stops, and the number of positive counts is kept beside them.

## Main results

* `Keeps.toggled`: the number is kept
* `holders_eq_sum`: how many intervals hold a key, from their starts and stops
* `Keeps.eq_card_held`: the number of positive counts is the number of keys that are held
-/

namespace Portico.Sweeping

/-! ## The number of positive counts -/

section Counts

variable {κ : Type*} [DecidableEq κ] {keys : Finset κ} {counts : κ → ℤ} {n δ : ℤ} {k : κ}

/-- The number of positive counts, after one of them changed. -/
def toggled (old next n : ℤ) : ℤ :=
  if old = 0 ∧ 0 < next then n + 1 else if 0 < old ∧ next = 0 then n - 1 else n

/-- `n` is the number of positive counts. -/
def Keeps (keys : Finset κ) (counts : κ → ℤ) (n : ℤ) : Prop := n = (keys.filter fun k => 0 < counts k).card

theorem card_filter_eq (hk : k ∈ keys) : (keys.filter fun k => 0 < counts k).card =
    ((keys.erase k).filter fun k => 0 < counts k).card + if 0 < counts k then 1 else 0 := by
  conv_lhs => rw [← Finset.insert_erase hk]
  rw [Finset.filter_insert]
  split_ifs with hpos
  · rw [Finset.card_insert_of_notMem]
    simp
  · rw [Nat.add_zero]

theorem Keeps.toggled (h : Keeps keys counts n) (hk : k ∈ keys) (hlow : -1 ≤ δ) (hhigh : δ ≤ 1) :
    Keeps keys (Function.update counts k (counts k + δ)) (toggled (counts k) (counts k + δ) n) := by
  unfold Keeps at h ⊢
  have hrest : ((keys.erase k).filter fun j => 0 < Function.update counts k (counts k + δ) j) =
      (keys.erase k).filter fun j => 0 < counts j := by
    refine Finset.filter_congr fun j hj => ?_
    rw [Function.update_of_ne (Finset.ne_of_mem_erase hj)]
  rw [card_filter_eq hk, hrest, Function.update_self]
  rw [card_filter_eq hk] at h
  -- a step of one can't pass zero without meeting it
  unfold Sweeping.toggled
  split_ifs at h ⊢ <;> push_cast at h ⊢ <;> omega

end Counts

/-! ## Intervals that hold keys -/

section Intervals

variable {ι κ : Type*} [DecidableEq κ] (start stop : ι → ℤ) (key : ι → κ) {items : List ι} {t : ℤ}
  {k : κ}

/-- The keys that are held at an instant. -/
def held (items : List ι) (t : ℤ) : Finset κ :=
  ((items.filter fun r => start r ≤ t ∧ t < stop r).map key).toFinset

/-- How many intervals hold a key at an instant. -/
def holders (items : List ι) (t : ℤ) (k : κ) : ℤ :=
  items.countP fun r => key r = k ∧ start r ≤ t ∧ t < stop r

variable {start stop key}

theorem mem_held : k ∈ held start stop key items t ↔ ∃ r ∈ items, (start r ≤ t ∧ t < stop r) ∧ key r = k := by
  unfold held
  simp only [List.mem_toFinset, List.mem_map, List.mem_filter, decide_eq_true_eq, and_assoc]

theorem holders_pos : 0 < holders start stop key items t k ↔ k ∈ held start stop key items t := by
  unfold holders
  rw [Int.natCast_pos, List.countP_pos_iff, mem_held]
  refine exists_congr fun r => and_congr_right fun _ => ?_
  rw [decide_eq_true_iff]
  tauto

/-- **The number of positive counts** is the number of keys that are held. -/
theorem Keeps.eq_card_held {keys : Finset κ} {counts : κ → ℤ} {n : ℤ} (h : Keeps keys counts n)
    (hcounts : ∀ k, counts k = holders start stop key items t k) (hkeys : ∀ r ∈ items, key r ∈ keys) :
    n = (held start stop key items t).card := by
  unfold Keeps at h
  rw [h]
  congr 2
  ext k
  rw [Finset.mem_filter, hcounts, holders_pos]
  refine ⟨And.right, fun hk => ⟨?_, hk⟩⟩
  obtain ⟨r, hr, -, rfl⟩ := mem_held.mp hk
  exact hkeys r hr

theorem indicator_eq {a b : ℤ} (hab : a ≤ b) :
    (if a ≤ t then (1 : ℤ) else 0) - (if b ≤ t then 1 else 0) = if a ≤ t ∧ t < b then 1 else 0 := by
  split_ifs <;> omega

/-- **How many intervals hold a key**, from their starts and stops. -/
theorem holders_eq_sum (hitems : ∀ r ∈ items, start r ≤ stop r) :
    holders start stop key items t k = (items.map fun r =>
      if key r = k then (if start r ≤ t then (1 : ℤ) else 0) - (if stop r ≤ t then 1 else 0) else 0).sum := by
  unfold holders
  induction items with
  | nil => rfl
  | cons r items ih =>
    rw [List.forall_mem_cons] at hitems
    rw [List.countP_cons, List.map_cons, List.sum_cons, ← ih hitems.2, indicator_eq hitems.1]
    by_cases hkey : key r = k
    · by_cases hin : start r ≤ t ∧ t < stop r
      · simp [hkey, hin, add_comm]
      · simp [hkey, hin]
    · simp [hkey]

end Intervals

/-! ## Edges -/

section Edges

variable {ε ι κ : Type*} [DecidableEq κ] {channel : ε → κ} {delta instant : ε → ℤ} {es es' : List ε} {k : κ}
  {t : ℤ}

/-- What edges come to for a key. -/
def net (channel : ε → κ) (delta : ε → ℤ) (es : List ε) (k : κ) : ℤ :=
  ((es.filter fun e => channel e = k).map delta).sum

@[simp] theorem net_nil : net channel delta [] k = 0 := rfl

theorem net_cons (e : ε) :
    net channel delta (e :: es) k = (if channel e = k then delta e else 0) + net channel delta es k := by
  unfold net
  rw [List.filter_cons]
  by_cases he : channel e = k
  · simp [he]
  · simp [he]

theorem net_append : net channel delta (es ++ es') k = net channel delta es k + net channel delta es' k := by
  unfold net
  rw [List.filter_append, List.map_append, List.sum_append]

theorem net_perm (h : es.Perm es') : net channel delta es k = net channel delta es' k :=
  ((h.filter _).map _).sum_eq

theorem net_flatMap {items : List ι} {edges : ι → List ε} :
    net channel delta (items.flatMap edges) k = (items.map fun r => net channel delta (edges r) k).sum := by
  induction items with
  | nil => rfl
  | cons r items ih => rw [List.flatMap_cons, net_append, ih, List.map_cons, List.sum_cons]

end Edges

end Portico.Sweeping
