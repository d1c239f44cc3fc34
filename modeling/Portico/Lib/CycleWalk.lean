import Mathlib

/-!
# Permutations of a range of numbers

A Feistel round replaces `(l, r)` by `(r, l ⊕ F r)`. It is invertible for every round function,
as long as combining twice with the same value gives the left half back. The network composes one
round for each key, and the reversed key schedule undoes it.

A permutation of a finite set restricts to a subset by walking: apply the permutation until the
result lies in the subset. The walk from a point of the subset ends, because the permutation's
cycle returns to the point, and the walk of the inverse permutation undoes it.

## Main results

* `unfeistel_feistel`, `feistel_unfeistel`: the two compositions are the identity on the halves
* `feistel_mem`: the network keeps both halves in the set of halves
* `exists_cycleWalk`: on a finite set closed under an injective map the walk ends, after at most
  as many steps as the set has elements
* `cycleWalk_leftInverse`: the walk along a left inverse leads back
* `cycleWalk_map`: the walk along a map that does the same to other points
-/

namespace Portico

variable {α κ : Type*} (combine : α → α → α) (F : κ → α → α)

/-- The network: one round for each key, in order. -/
def feistel (keys : List κ) (x : α × α) : α × α :=
  keys.foldl (fun x k => (x.2, combine x.1 (F k x.2))) x

/-- The inverse network: the keys in reverse order. -/
def unfeistel (keys : List κ) (x : α × α) : α × α :=
  keys.foldr (fun k x => (combine x.2 (F k x.1), x.1)) x

variable {combine F} {halves : Set α}

@[simp] theorem feistel_nil (x : α × α) : feistel combine F [] x = x := rfl

@[simp] theorem feistel_cons (k : κ) (keys : List κ) (x : α × α) :
    feistel combine F (k :: keys) x = feistel combine F keys (x.2, combine x.1 (F k x.2)) := rfl

@[simp] theorem unfeistel_nil (x : α × α) : unfeistel combine F [] x = x := rfl

@[simp] theorem unfeistel_cons (k : κ) (keys : List κ) (x : α × α) :
    unfeistel combine F (k :: keys) x =
      (combine (unfeistel combine F keys x).2 (F k (unfeistel combine F keys x).1),
        (unfeistel combine F keys x).1) := rfl

theorem feistel_mem (hmem : ∀ a b, combine a b ∈ halves) (keys : List κ) {x : α × α}
    (hx : x.1 ∈ halves ∧ x.2 ∈ halves) :
    (feistel combine F keys x).1 ∈ halves ∧ (feistel combine F keys x).2 ∈ halves := by
  induction keys generalizing x with
  | nil => exact hx
  | cons k keys ih => exact ih ⟨hx.2, hmem _ _⟩

theorem unfeistel_mem (hmem : ∀ a b, combine a b ∈ halves) (keys : List κ) {x : α × α}
    (hx : x.1 ∈ halves ∧ x.2 ∈ halves) :
    (unfeistel combine F keys x).1 ∈ halves ∧ (unfeistel combine F keys x).2 ∈ halves := by
  induction keys with
  | nil => exact hx
  | cons k keys ih => exact ⟨hmem _ _, ih.1⟩

/-- **The inverse network undoes the network**, for any round function. -/
theorem unfeistel_feistel (hmem : ∀ a b, combine a b ∈ halves)
    (hcancel : ∀ a ∈ halves, ∀ b, combine (combine a b) b = a) (keys : List κ) {x : α × α}
    (hx : x.1 ∈ halves ∧ x.2 ∈ halves) :
    unfeistel combine F keys (feistel combine F keys x) = x := by
  induction keys generalizing x with
  | nil => rfl
  | cons k keys ih =>
    rw [feistel_cons, unfeistel_cons, ih ⟨hx.2, hmem _ _⟩]
    exact Prod.ext (hcancel x.1 hx.1 _) rfl

theorem feistel_unfeistel (hmem : ∀ a b, combine a b ∈ halves)
    (hcancel : ∀ a ∈ halves, ∀ b, combine (combine a b) b = a) (keys : List κ) {x : α × α}
    (hx : x.1 ∈ halves ∧ x.2 ∈ halves) :
    feistel combine F keys (unfeistel combine F keys x) = x := by
  induction keys with
  | nil => rfl
  | cons k keys ih =>
    have hy := (unfeistel_mem (F := F) hmem keys hx).2
    rw [unfeistel_cons, feistel_cons]
    simp only
    rw [hcancel _ hy]
    exact ih

end Portico

/-! # Cycle walking -/

namespace Portico

variable {α : Type*} (f : α → α) (p : α → Prop) [DecidablePred p]

/-- Apply `f` until the result satisfies `p`, at most `fuel` times. -/
def cycleWalk : ℕ → α → Option α
  | 0, _ => none
  | fuel + 1, x => if p (f x) then some (f x) else cycleWalk fuel (f x)

variable {f p}

/-- The walk returns the first iterate that satisfies the predicate. -/
theorem cycleWalk_eq_some {fuel : ℕ} {x y : α} :
    cycleWalk f p fuel x = some y ↔
      ∃ k < fuel, f^[k + 1] x = y ∧ p y ∧ ∀ j < k, ¬ p (f^[j + 1] x) := by
  induction fuel generalizing x with
  | zero => simp [cycleWalk]
  | succ fuel ih =>
    rw [cycleWalk]
    split_ifs with hp
    · constructor
      · intro h
        obtain rfl := Option.some.inj h
        exact ⟨0, by omega, rfl, hp, by simp⟩
      · rintro ⟨k, -, rfl, -, hmin⟩
        rcases Nat.eq_zero_or_pos k with rfl | hk
        · rfl
        · exact absurd hp (hmin 0 hk)
    · rw [ih]
      constructor
      · rintro ⟨k, hk, rfl, hy, hmin⟩
        refine ⟨k + 1, by omega, rfl, hy, fun j hj => ?_⟩
        rcases j with - | j
        · exact hp
        · exact hmin j (by omega)
      · rintro ⟨k, hk, rfl, hy, hmin⟩
        rcases k with - | k
        · exact absurd hy hp
        · exact ⟨k, by omega, rfl, hy, fun j hj => hmin (j + 1) (by omega)⟩

theorem cycleWalk_prop {fuel : ℕ} {x y : α} (h : cycleWalk f p fuel x = some y) : p y := by
  obtain ⟨-, -, -, hy, -⟩ := cycleWalk_eq_some.mp h
  exact hy

/-- A point of a finite set closed under an injective map lies on a cycle. -/
theorem exists_iterate_eq_self {s : Finset α} (hmaps : Set.MapsTo f s s) (hinj : Set.InjOn f s)
    {x : α} (hx : x ∈ s) : ∃ n, 0 < n ∧ n ≤ s.card ∧ f^[n] x = x := by
  classical
  have hmem : ∀ k, f^[k] x ∈ s := fun k => hmaps.iterate k hx
  obtain ⟨a, ha, b, hb, hne, heq⟩ :=
    Finset.exists_ne_map_eq_of_card_lt_of_maps_to (s := Finset.range (s.card + 1)) (t := s)
      (by simp) (f := fun k => f^[k] x) (fun k _ => hmem k)
  rw [Finset.mem_range] at ha hb
  -- Of two equal iterates the later one is the earlier one moved along the cycle.
  have cancel : ∀ {i j : ℕ}, i < j → j < s.card + 1 → f^[i] x = f^[j] x →
      ∃ n, 0 < n ∧ n ≤ s.card ∧ f^[n] x = x := by
    intro i j hij hj h
    refine ⟨j - i, by omega, by omega, ?_⟩
    have hsplit : f^[i] (f^[j - i] x) = f^[i] x := by
      rw [← Function.iterate_add_apply, show i + (j - i) = j by omega, h]
    exact (hinj.iterate hmaps i) (hmem _) hx hsplit
  rcases lt_or_gt_of_ne hne with hab | hab
  · exact cancel hab hb heq
  · exact cancel hab ha heq.symm

/-- **The walk ends**: on a finite set closed under an injective map, the walk from a point that
satisfies the predicate finds one, within as many steps as the set has elements. -/
theorem exists_cycleWalk {s : Finset α} (hmaps : Set.MapsTo f s s) (hinj : Set.InjOn f s)
    {fuel : ℕ} (hfuel : s.card ≤ fuel) {x : α} (hx : x ∈ s) (hp : p x) :
    ∃ y ∈ s, cycleWalk f p fuel x = some y := by
  obtain ⟨n, hpos, hle, hn⟩ := exists_iterate_eq_self hmaps hinj hx
  obtain ⟨m, rfl⟩ : ∃ m, n = m + 1 := ⟨n - 1, by omega⟩
  have hex : ∃ k, p (f^[k + 1] x) := ⟨m, by rwa [hn]⟩
  refine ⟨f^[Nat.find hex + 1] x, hmaps.iterate _ hx, cycleWalk_eq_some.mpr
    ⟨Nat.find hex, ?_, rfl, Nat.find_spec hex, fun j hj => Nat.find_min hex hj⟩⟩
  have : Nat.find hex ≤ m := Nat.find_min' hex (by rwa [hn])
  omega

/-- A walk along a map that does the same to other points, with at least as much fuel. -/
theorem cycleWalk_map {β : Type*} {g : β → β} {q : β → Prop} [DecidablePred q] {c : α → β} {s : Set α}
    (hmaps : Set.MapsTo f s s) (hg : ∀ z ∈ s, g (c z) = c (f z)) (hq : ∀ z ∈ s, q (c z) ↔ p z)
    {fuel fuel' : ℕ} (hfuel : fuel ≤ fuel') {x y : α} (hx : x ∈ s)
    (h : cycleWalk f p fuel x = some y) : cycleWalk g q fuel' (c x) = some (c y) := by
  obtain ⟨k, hk, rfl, hy, hmin⟩ := cycleWalk_eq_some.mp h
  have hmem : ∀ j, f^[j] x ∈ s := fun j => hmaps.iterate j hx
  have hiterate : ∀ j, g^[j] (c x) = c (f^[j] x) := by
    intro j
    induction j with
    | zero => rfl
    | succ j ih =>
      rw [Function.iterate_succ_apply', ih, hg _ (hmem j), Function.iterate_succ_apply']
  refine cycleWalk_eq_some.mpr ⟨k, by omega, hiterate _, ?_, fun j hj => ?_⟩
  · rw [hq _ (hmem _)]
    exact hy
  · rw [hiterate, hq _ (hmem _)]
    exact hmin j hj

/-- **The walk back**: a left inverse of the map walks from the end of a walk to its start. -/
theorem cycleWalk_leftInverse {g : α → α} {s : Set α} (hmaps : Set.MapsTo f s s)
    (hinv : ∀ z ∈ s, g (f z) = z) {fuel : ℕ} {x y : α} (hx : x ∈ s) (hp : p x)
    (h : cycleWalk f p fuel x = some y) : cycleWalk g p fuel y = some x := by
  obtain ⟨k, hk, rfl, -, hmin⟩ := cycleWalk_eq_some.mp h
  have hback : ∀ i ≤ k + 1, g^[i] (f^[k + 1] x) = f^[k + 1 - i] x := by
    intro i hi
    induction i with
    | zero => rfl
    | succ i ih =>
      rw [Function.iterate_succ_apply', ih (by omega),
        show k + 1 - i = (k + 1 - (i + 1)) + 1 by omega, Function.iterate_succ_apply']
      exact hinv _ (hmaps.iterate _ hx)
  refine cycleWalk_eq_some.mpr ⟨k, hk, ?_, hp, fun j hj => ?_⟩
  · simpa using hback (k + 1) le_rfl
  · rw [hback (j + 1) (by omega), show k + 1 - (j + 1) = (k - j - 1) + 1 by omega]
    exact hmin _ (by omega)

end Portico
