import Portico.Lib.CycleWalk

/-!
# The seeded shuffle

`playbackv1/shuffle.go`: a keyed permutation of the queue positions below `n`. A four-round Feistel
network permutes the smallest domain of an even number of bits that holds `n` positions, and a
cycle walk brings it back below `n`.

## Main results

* `Shuffle.exists_atIndex`, `Shuffle.exists_indexOf`: both loops end on every position below `n`
* `Shuffle.indexOf_atIndex`, `Shuffle.atIndex_indexOf`: the two are inverse to each other
* `Shuffle.at_permutes`: every permutation of a size, a seed and a lap
-/

namespace Portico

/-- 32-bit words wrap around. -/
def word32 (x : ℕ) : ℕ := x % 2 ^ 32

/-- The integer hash of the round function, on 32-bit words. -/
def mix (x key : ℕ) : ℕ :=
  let h := x ^^^ key
  let h := word32 ((h ^^^ h >>> 16) * 0x7feb352d)
  let h := word32 ((h ^^^ h >>> 15) * 0x846ca68b)
  h ^^^ h >>> 16

/-- The largest shuffled size. -/
def maxShuffleDomain : ℕ := 2 ^ 40

/-- The loop of `NewShuffle`: two more bits until the domain holds `n` positions. -/
def growBits (n : ℕ) : ℕ → ℕ → ℕ
  | 0, bits => bits
  | fuel + 1, bits => if 2 ^ bits < n then growBits n fuel (bits + 2) else bits

theorem le_two_pow_growBits {n fuel bits : ℕ} (h : n ≤ 2 ^ (bits + 2 * fuel)) :
    n ≤ 2 ^ growBits n fuel bits := by
  induction fuel generalizing bits with
  | zero => simpa [growBits] using h
  | succ fuel ih =>
    rw [growBits]
    split_ifs with hlt
    · exact ih (by rwa [show bits + 2 + 2 * fuel = bits + 2 * (fuel + 1) by ring])
    · omega

theorem even_growBits (n fuel : ℕ) {bits : ℕ} (h : Even bits) : Even (growBits n fuel bits) := by
  induction fuel generalizing bits with
  | zero => exact h
  | succ fuel ih =>
    rw [growBits]
    split_ifs
    · exact ih (h.add even_two)
    · exact h

/-- A permutation of the positions below `n`: the half width of its domain and its round keys. -/
structure Shuffle where
  n : ℕ
  halfBits : ℕ
  keys : List ℕ
  le_domain : n ≤ 2 ^ (halfBits + halfBits)

namespace Shuffle

/-- `NewShuffle`: the permutation for `1 ≤ n ≤ 2 ^ 40` positions. -/
def new (n seed lap : ℕ) : Option Shuffle :=
  if h : 1 ≤ n ∧ n ≤ maxShuffleDomain then
    let bits := growBits n 20 2
    let base := mix (word32 seed) (0x9e3779b9 ^^^ word32 lap)
    some
      { n := n
        halfBits := bits / 2
        keys := [1, 2, 3, 4].map fun i => mix base (word32 (0x85ebca6b * i))
        le_domain := by
          have hn : n ≤ 2 ^ bits :=
            le_two_pow_growBits (h.2.trans (Nat.pow_le_pow_right (by norm_num) (by norm_num)))
          have heven : bits / 2 + bits / 2 = bits := by
            have := Nat.even_iff.mp (even_growBits n 20 even_two)
            omega
          rwa [heven] }
  else none

variable (s : Shuffle)

/-- The low half of a domain value. -/
def mask : ℕ := 2 ^ s.halfBits - 1

/-- The round function. -/
def f (k r : ℕ) : ℕ := mix (word32 r) k &&& s.mask

/-- One pass of the network over the domain. -/
def forward (x : ℕ) : ℕ :=
  let y := feistel (fun l v => (l ^^^ v) &&& s.mask) s.f s.keys (x >>> s.halfBits, x &&& s.mask)
  y.1 <<< s.halfBits ||| y.2

/-- The same pass with the keys in reverse order. -/
def backward (x : ℕ) : ℕ :=
  let y := unfeistel (fun r v => (r ^^^ v) &&& s.mask) s.f s.keys
    (x >>> s.halfBits, x &&& s.mask)
  y.1 <<< s.halfBits ||| y.2

/-- The number of values of the domain, which bounds the walks. -/
def domain : ℕ := 2 ^ (s.halfBits + s.halfBits)

/-- `At`: the source position shown at shuffled position `i`. -/
def atIndex (i : ℕ) : Option ℕ :=
  if s.n ≤ i then none else cycleWalk s.forward (· < s.n) s.domain i

/-- `IndexOf`: the shuffled position of source position `p`. -/
def indexOf (p : ℕ) : Option ℕ :=
  if s.n ≤ p then none else cycleWalk s.backward (· < s.n) s.domain p

/-! ## The network permutes the domain -/

variable {s}

theorem and_mask (x : ℕ) : x &&& s.mask = x % 2 ^ s.halfBits :=
  Nat.and_two_pow_sub_one_eq_mod x s.halfBits

theorem and_mask_lt (x : ℕ) : x &&& s.mask < 2 ^ s.halfBits := by
  rw [and_mask]
  exact Nat.mod_lt _ (by positivity)

theorem combine_mem (a b : ℕ) : (a ^^^ b) &&& s.mask ∈ Set.Iio (2 ^ s.halfBits) :=
  and_mask_lt _

theorem combine_cancel (a : ℕ) (ha : a ∈ Set.Iio (2 ^ s.halfBits)) (b : ℕ) :
    ((a ^^^ b) &&& s.mask ^^^ b) &&& s.mask = a := by
  have hmask : a &&& s.mask = a := by rw [and_mask, Nat.mod_eq_of_lt ha]
  rw [Nat.and_xor_distrib_right, Nat.and_assoc, Nat.and_self, ← Nat.and_xor_distrib_right,
    Nat.xor_assoc, Nat.xor_self, Nat.xor_zero, hmask]

theorem join_halves (x : ℕ) : (x >>> s.halfBits) <<< s.halfBits ||| (x &&& s.mask) = x := by
  rw [← Nat.shiftLeft_add_eq_or_of_lt (and_mask_lt x), and_mask, Nat.shiftLeft_eq,
    Nat.shiftRight_eq_div_pow, Nat.mul_comm]
  exact Nat.div_add_mod x _

theorem halves_join {l r : ℕ} (hr : r < 2 ^ s.halfBits) :
    ((l <<< s.halfBits ||| r) >>> s.halfBits, (l <<< s.halfBits ||| r) &&& s.mask) = (l, r) := by
  rw [← Nat.shiftLeft_add_eq_or_of_lt hr, Nat.shiftLeft_eq, Nat.shiftRight_eq_div_pow, and_mask,
    Nat.mul_comm]
  ext
  · simp [Nat.mul_add_div (show 0 < 2 ^ s.halfBits by positivity), Nat.div_eq_of_lt hr]
  · simp [Nat.mod_eq_of_lt hr]

theorem halves_lt {x : ℕ} (hx : x < s.domain) :
    x >>> s.halfBits ∈ Set.Iio (2 ^ s.halfBits) ∧ x &&& s.mask ∈ Set.Iio (2 ^ s.halfBits) := by
  refine ⟨?_, and_mask_lt x⟩
  rw [Set.mem_Iio, Nat.shiftRight_eq_div_pow, Nat.div_lt_iff_lt_mul (by positivity), ← pow_add]
  exact hx

theorem join_lt {l r : ℕ} (hl : l < 2 ^ s.halfBits) (hr : r < 2 ^ s.halfBits) :
    l <<< s.halfBits ||| r < s.domain := by
  rw [← Nat.shiftLeft_add_eq_or_of_lt hr, Nat.shiftLeft_eq, domain, pow_add]
  nlinarith

theorem forward_lt {x : ℕ} (hx : x < s.domain) : s.forward x < s.domain := by
  have hy := feistel_mem (F := s.f) (x := (x >>> s.halfBits, x &&& s.mask)) combine_mem s.keys
    (halves_lt hx)
  exact join_lt hy.1 hy.2

theorem backward_lt {x : ℕ} (hx : x < s.domain) : s.backward x < s.domain := by
  have hy := unfeistel_mem (F := s.f) (x := (x >>> s.halfBits, x &&& s.mask)) combine_mem s.keys
    (halves_lt hx)
  exact join_lt hy.1 hy.2

theorem backward_forward {x : ℕ} (hx : x < s.domain) : s.backward (s.forward x) = x := by
  have hy := feistel_mem (F := s.f) (x := (x >>> s.halfBits, x &&& s.mask)) combine_mem s.keys
    (halves_lt hx)
  have hcancel := unfeistel_feistel (F := s.f) (x := (x >>> s.halfBits, x &&& s.mask))
    combine_mem combine_cancel s.keys (halves_lt hx)
  rw [backward, forward]
  simp only [halves_join hy.2, Prod.mk.eta, hcancel]
  exact join_halves x

theorem forward_backward {x : ℕ} (hx : x < s.domain) : s.forward (s.backward x) = x := by
  have hy := unfeistel_mem (F := s.f) (x := (x >>> s.halfBits, x &&& s.mask)) combine_mem s.keys
    (halves_lt hx)
  have hcancel := feistel_unfeistel (F := s.f) (x := (x >>> s.halfBits, x &&& s.mask))
    combine_mem combine_cancel s.keys (halves_lt hx)
  rw [backward, forward]
  simp only [halves_join hy.2, Prod.mk.eta, hcancel]
  exact join_halves x

/-! ## Walking back below `n` -/

theorem lt_domain {i : ℕ} (hi : i < s.n) : i < s.domain := hi.trans_le s.le_domain

/-- A walk along an injective map of the domain ends. -/
private theorem exists_walk {g : ℕ → ℕ} (hmaps : ∀ x < s.domain, g x < s.domain)
    (hinj : ∀ x < s.domain, ∀ y < s.domain, g x = g y → x = y) {i : ℕ} (hi : i < s.n) :
    ∃ p < s.n, cycleWalk g (· < s.n) s.domain i = some p := by
  obtain ⟨y, -, hy⟩ := exists_cycleWalk (s := Finset.range s.domain) (f := g) (p := (· < s.n))
    (fun x hx => by simpa using hmaps x (by simpa using hx))
    (fun x hx y hy h => hinj x (by simpa using hx) y (by simpa using hy) h)
    (show (Finset.range s.domain).card ≤ s.domain by simp) (by simpa using lt_domain hi) hi
  exact ⟨y, cycleWalk_prop (p := (· < s.n)) hy, hy⟩

/-- **The loop of `At` ends**, at a position below `n`. -/
theorem exists_atIndex {i : ℕ} (hi : i < s.n) : ∃ p < s.n, s.atIndex i = some p := by
  rw [atIndex, if_neg (by omega)]
  refine exists_walk (fun _ => forward_lt) (fun x hx y hy h => ?_) hi
  rw [← backward_forward hx, h, backward_forward hy]

/-- **The loop of `IndexOf` ends**, at a position below `n`. -/
theorem exists_indexOf {p : ℕ} (hp : p < s.n) : ∃ i < s.n, s.indexOf p = some i := by
  rw [indexOf, if_neg (by omega)]
  refine exists_walk (fun _ => backward_lt) (fun x hx y hy h => ?_) hp
  rw [← forward_backward hx, h, forward_backward hy]

theorem lt_of_atIndex_eq_some {i p : ℕ} (h : s.atIndex i = some p) : i < s.n ∧ p < s.n := by
  rw [atIndex] at h
  split_ifs at h with hi
  exact ⟨by omega, cycleWalk_prop (p := (· < s.n)) h⟩

theorem lt_of_indexOf_eq_some {i p : ℕ} (h : s.indexOf p = some i) : i < s.n ∧ p < s.n := by
  rw [indexOf] at h
  split_ifs at h with hp
  exact ⟨cycleWalk_prop (p := (· < s.n)) h, by omega⟩

/-- **`IndexOf` inverts `At`.** -/
theorem indexOf_atIndex {i p : ℕ} (h : s.atIndex i = some p) : s.indexOf p = some i := by
  obtain ⟨hi, hp⟩ := lt_of_atIndex_eq_some h
  rw [atIndex, if_neg (by omega)] at h
  rw [indexOf, if_neg (by omega)]
  exact cycleWalk_leftInverse (s := {x | x < s.domain}) (fun _ => forward_lt)
    (fun _ => backward_forward) (lt_domain hi) hi h

/-- **`At` inverts `IndexOf`.** -/
theorem atIndex_indexOf {i p : ℕ} (h : s.indexOf p = some i) : s.atIndex i = some p := by
  obtain ⟨hi, hp⟩ := lt_of_indexOf_eq_some h
  rw [indexOf, if_neg (by omega)] at h
  rw [atIndex, if_neg (by omega)]
  exact cycleWalk_leftInverse (s := {x | x < s.domain}) (fun _ => backward_lt)
    (fun _ => forward_backward) (lt_domain hp) hp h

theorem new_eq_some {n seed lap : ℕ} {s : Shuffle} (h : new n seed lap = some s) : s.n = n := by
  rw [new] at h
  split_ifs at h
  obtain rfl := Option.some.inj h
  rfl

theorem exists_new {n : ℕ} (hpos : 1 ≤ n) (hle : n ≤ maxShuffleDomain) (seed lap : ℕ) :
    ∃ s, new n seed lap = some s ∧ s.n = n := by
  have h : (new n seed lap).isSome := by rw [new, dif_pos ⟨hpos, hle⟩]; rfl
  obtain ⟨s, hs⟩ := Option.isSome_iff_exists.mp h
  exact ⟨s, hs, new_eq_some hs⟩

/-! ## The permutation -/

/-- The walk of `At` from a position below `n`, without a bound on its steps: it goes on while it
is not below `n`. -/
theorem atIndex_walk {i p : ℕ} (h : s.atIndex i = some p) :
    ∃ k, s.forward^[k + 1] i = p ∧ ∀ j < k, s.n ≤ s.forward^[j + 1] i := by
  rw [atIndex, if_neg (by have := (lt_of_atIndex_eq_some h).1; omega)] at h
  obtain ⟨k, -, hk, -, hmin⟩ := cycleWalk_eq_some.mp h
  exact ⟨k, hk, fun j hj => not_lt.mp (hmin j hj)⟩

theorem indexOf_walk {p i : ℕ} (h : s.indexOf p = some i) :
    ∃ k, s.backward^[k + 1] p = i ∧ ∀ j < k, s.n ≤ s.backward^[j + 1] p := by
  rw [indexOf, if_neg (by have := (lt_of_indexOf_eq_some h).2; omega)] at h
  obtain ⟨k, -, hk, -, hmin⟩ := cycleWalk_eq_some.mp h
  exact ⟨k, hk, fun j hj => not_lt.mp (hmin j hj)⟩

variable (s) in
/-- The positions below `n`, permuted by `At`. -/
def perm : Equiv.Perm (Fin s.n) where
  toFun i := ⟨(s.atIndex i).getD 0, by
    obtain ⟨p, hp, h⟩ := exists_atIndex i.2
    rwa [h]⟩
  invFun p := ⟨(s.indexOf p).getD 0, by
    obtain ⟨i, hi, h⟩ := exists_indexOf p.2
    rwa [h]⟩
  left_inv i := by
    obtain ⟨p, hp, h⟩ := exists_atIndex i.2
    ext
    simp [h, indexOf_atIndex h]
  right_inv p := by
    obtain ⟨i, hi, h⟩ := exists_indexOf p.2
    ext
    simp [h, atIndex_indexOf h]

theorem atIndex_eq_perm (i : Fin s.n) : s.atIndex i = some (s.perm i : ℕ) := by
  obtain ⟨p, -, h⟩ := exists_atIndex i.2
  simp [perm, h]

theorem indexOf_eq_perm (p : Fin s.n) : s.indexOf p = some (s.perm.symm p : ℕ) := by
  obtain ⟨i, -, h⟩ := exists_indexOf p.2
  simp [perm, h]

/-- **`At` permutes the positions below `n`, and `IndexOf` is its inverse**, for every size, seed
and lap. Both loops end: their walks reach a position below `n`. -/
theorem at_permutes {n : ℕ} (hpos : 1 ≤ n) (hle : n ≤ maxShuffleDomain) (seed lap : ℕ) :
    ∃ s, new n seed lap = some s ∧ ∃ π : Equiv.Perm (Fin n),
      (∀ i : Fin n, s.atIndex i = some (π i : ℕ) ∧
        ∃ k, s.forward^[k + 1] i = π i ∧ ∀ j < k, n ≤ s.forward^[j + 1] i) ∧
      (∀ p : Fin n, s.indexOf p = some (π.symm p : ℕ) ∧
        ∃ k, s.backward^[k + 1] p = π.symm p ∧ ∀ j < k, n ≤ s.backward^[j + 1] p) := by
  obtain ⟨s, hs, rfl⟩ := exists_new hpos hle seed lap
  refine ⟨s, hs, s.perm, fun i => ?_, fun p => ?_⟩
  · exact ⟨atIndex_eq_perm i, atIndex_walk (atIndex_eq_perm i)⟩
  · exact ⟨indexOf_eq_perm p, indexOf_walk (indexOf_eq_perm p)⟩

theorem at_permutes_five : (1 ≤ 5 ∧ 5 ≤ maxShuffleDomain) ∧
    ∃ s, new 5 7 0 = some s ∧ ∃ π : Equiv.Perm (Fin 5),
      (∀ i : Fin 5, s.atIndex i = some (π i : ℕ) ∧
        ∃ k, s.forward^[k + 1] i = π i ∧ ∀ j < k, 5 ≤ s.forward^[j + 1] i) ∧
      (∀ p : Fin 5, s.indexOf p = some (π.symm p : ℕ) ∧
        ∃ k, s.backward^[k + 1] p = π.symm p ∧ ∀ j < k, 5 ≤ s.backward^[j + 1] p) :=
  ⟨by decide, at_permutes (by decide) (by decide) 7 0⟩

end Shuffle

end Portico
