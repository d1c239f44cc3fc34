import Portico.Lib.Number
import Portico.Queue.Shuffle

/-!
# The client's shuffle

`client-core`'s `ShufflePermutation` computes the order of a shuffled queue in the numbers of its
language: doubles, whose bit operations work on signed words. It is the server's `Shuffle`, for every
size, seed and lap.

## Main results

* `ShufflePermutation.mix_eq`, `mix_eq_mixWord`: both hashes are the one on words
* `Same.forward`, `Same.backward`: one pass of the network
* `ShufflePermutation.same_permutation`: the two are the same
-/

namespace Portico

open Number

/-- Why a call returns nothing: a range error that is thrown, or a loop that is not at its end. -/
inductive RangeFault
  | rangeError (message : String)
  | unfinished
deriving DecidableEq, Repr

/-- The client's permutation. -/
structure ShufflePermutation where
  n : Number
  halfBits : Number
  mask : Number
  keys : List Number
deriving DecidableEq, Repr

namespace ShufflePermutation

/-- The hash of the round function. -/
def mix (x key : Number) : Number :=
  let h := (x ^^^ key) >>> 0
  let h := imul (h ^^^ h >>> 16) 0x7feb352d >>> 0
  let h := imul (h ^^^ h >>> 15) 0x846ca68b >>> 0
  (h ^^^ h >>> 16) >>> 0

/-- The keys of the four rounds. -/
def roundKeys (seed lap : Number) : List Number :=
  let base := mix (seed >>> 0) (0x9e3779b9 ^^^ lap)
  [0, 1, 2, 3].map fun i : Number => mix base (0x85ebca6b * (i + 1))

/-- Two more bits until the domain holds `n` positions. -/
def growBits (n : Number) : ℕ → Number → Number
  | 0, bits => bits
  | fuel + 1, bits => if twoPow bits < n then growBits n fuel (bits + 2) else bits

/-- The permutation of `n` positions for a seed and a lap. -/
def new (n seed lap : Number) : Except RangeFault ShufflePermutation :=
  if !n.isSafeInteger || n < 1 || twoPow 40 < n then .error (.rangeError "n must be in [1, 2^40]")
  else
    let bits := growBits n 20 2
    if twoPow bits < n then .error .unfinished
    else
      .ok
        { n := n
          halfBits := bits / 2
          mask := twoPow (bits / 2) - 1
          keys := roundKeys seed lap }

variable (p : ShufflePermutation)

/-- The halves of a domain value. -/
def split (x : Number) : Number × Number :=
  let r := x % (p.mask + 1)
  ((x - r) / (p.mask + 1), r)

/-- The domain value of two halves. -/
def join (l r : Number) : Number := l * (p.mask + 1) + r

/-- The round function. -/
def f (r k : Number) : Number := mix r k &&& p.mask

/-- One pass of the network over the domain. -/
def forward (x : Number) : Number :=
  let y := p.keys.foldl (fun (l, r) k => (r, (l ^^^ p.f r k) >>> 0 &&& p.mask)) (p.split x)
  p.join y.1 y.2

/-- The same pass with the keys in reverse order. -/
def backward (x : Number) : Number :=
  let y := p.keys.reverse.foldl (fun (l, r) k => ((r ^^^ p.f l k) >>> 0 &&& p.mask, l)) (p.split x)
  p.join y.1 y.2

/-- The walk of `at` and `indexOf`: a pass, and another while the value is out of range. -/
def walk (pass : Number → Number) (x : Number) : Except RangeFault Number :=
  if !x.isSafeInteger || x < 0 || ¬ x < p.n then .error (.rangeError "position out of range")
  else
    match cycleWalk pass (fun x => x < p.n) maxShuffleDomain x with
    | none => .error .unfinished
    | some y => .ok y

/-- The source position shown at a shuffled position. -/
def atIndex (i : Number) : Except RangeFault Number := p.walk p.forward i

/-- The shuffled position of a source position. -/
def indexOf (s : Number) : Except RangeFault Number := p.walk p.backward s

end ShufflePermutation

/-! ## The hash -/

/-- The hash of the round function on words. -/
def mixWord (x key : BitVec 32) : BitVec 32 :=
  let h := x ^^^ key
  let h := (h ^^^ h >>> 16) * 0x7feb352d#32
  let h := (h ^^^ h >>> 15) * 0x846ca68b#32
  h ^^^ h >>> 16

theorem ShufflePermutation.mix_eq (x key : Number) :
    ShufflePermutation.mix x key = ((mixWord x.toWord key.toWord).toNat : Number) := by
  unfold ShufflePermutation.mix mixWord
  simp only [shiftRight_zero, toWord_imul, toWord_xor, toWord_shiftRight, toWord_toNat]
  rfl

theorem toNat_mul (w : BitVec 32) (n : ℕ) : (w * BitVec.ofNat 32 n).toNat = word32 (w.toNat * n) := by
  rw [BitVec.toNat_mul, BitVec.toNat_ofNat, Nat.mul_mod_mod]
  rfl

theorem mix_eq_mixWord (x key : BitVec 32) : mix x.toNat key.toNat = (mixWord x key).toNat := by
  unfold mix mixWord
  simp only [toNat_mul, BitVec.toNat_xor, BitVec.toNat_ushiftRight]

theorem toNat_ofNat_word (x : ℕ) : (BitVec.ofNat 32 x).toNat = word32 x := BitVec.toNat_ofNat x 32

theorem clientMix_natCast (x key : ℕ) :
    ShufflePermutation.mix x key = ((mix (word32 x) (word32 key) : ℕ) : Number) := by
  rw [ShufflePermutation.mix_eq, toWord_natCast, toWord_natCast, ← mix_eq_mixWord, toNat_ofNat_word,
    toNat_ofNat_word]

theorem mix_lt (x key : ℕ) : mix x key < 2 ^ 32 := by
  have hword : ∀ h, word32 h < 2 ^ 32 := fun h => Nat.mod_lt _ (by omega)
  exact Nat.xor_lt_two_pow (hword _) ((Nat.shiftRight_le _ _).trans_lt (hword _))

/-! ## The two permutations -/

/-- The client's permutation is the server's, in its own numbers. -/
structure Same (p : ShufflePermutation) (s : Shuffle) : Prop where
  n : p.n = s.n
  mask : p.mask = ((2 ^ s.halfBits - 1 : ℕ) : Number)
  keys : p.keys = s.keys.map Nat.cast
  words : ∀ k ∈ s.keys, k < 2 ^ 32
  small : s.halfBits ≤ 20

variable {p : ShufflePermutation} {s : Shuffle} {l r x k : ℕ}

theorem Same.pow_le (h : Same p s) : 2 ^ s.halfBits ≤ 2 ^ 20 :=
  Nat.pow_le_pow_right two_pos h.small

theorem Same.base (h : Same p s) : p.mask + 1 = ((2 ^ s.halfBits : ℕ) : Number) := by
  have hle := h.pow_le
  have hpos : 0 < 2 ^ s.halfBits := by positivity
  rw [h.mask]
  change _ + ((1 : ℕ) : Number) = _
  rw [add_natCast (by omega), Nat.sub_add_cancel hpos]

theorem Same.split (h : Same p s) (hx : x < s.domain) :
    p.split x = (((x >>> s.halfBits : ℕ) : Number), ((x &&& s.mask : ℕ) : Number)) := by
  have hle := h.pow_le
  have hne : 2 ^ s.halfBits ≠ 0 := by positivity
  have hx53 : x < 2 ^ 53 := by
    have hdomain : s.domain ≤ 2 ^ 40 := Nat.pow_le_pow_right two_pos (by have := h.small; omega)
    omega
  unfold ShufflePermutation.split
  rw [h.base, mod_natCast hne]
  dsimp only
  rw [sub_natCast (Nat.mod_le _ _) hx53, div_natCast hne (Nat.dvd_sub_mod x) (by omega),
    ← Nat.div_eq_sub_mod_div, Shuffle.and_mask, Nat.shiftRight_eq_div_pow]

theorem Same.join (h : Same p s) (hl : l < 2 ^ s.halfBits) (hr : r < 2 ^ s.halfBits) :
    p.join l r = ((l <<< s.halfBits ||| r : ℕ) : Number) := by
  have hlt := Shuffle.join_lt hl hr
  have hdomain : s.domain ≤ 2 ^ 40 := Nat.pow_le_pow_right two_pos (by have := h.small; omega)
  rw [← Nat.shiftLeft_add_eq_or_of_lt hr, Nat.shiftLeft_eq] at hlt ⊢
  unfold ShufflePermutation.join
  rw [h.base, mul_natCast (by omega), add_natCast (by omega)]

theorem Same.combine (h : Same p s) (hl : l < 2 ^ s.halfBits) (hk : k < 2 ^ 32) :
    ((l : Number) ^^^ p.f r k) >>> 0 &&& p.mask = (((l ^^^ s.f k r) &&& s.mask : ℕ) : Number) := by
  have hle := h.pow_le
  have hmask : 2 ^ s.halfBits - 1 < 2 ^ 31 := by omega
  have hkey : word32 k = k := Nat.mod_eq_of_lt hk
  have hleft : word32 l = l := Nat.mod_eq_of_lt (by omega)
  have hvalue : word32 (s.f k r) = s.f k r :=
    Nat.mod_eq_of_lt ((Shuffle.and_mask_lt _).trans_le (by omega))
  have hf : p.f r k = ((s.f k r : ℕ) : Number) := by
    unfold ShufflePermutation.f Shuffle.f
    rw [h.mask, and_natCast hmask, clientMix_natCast, toWord_natCast, toNat_ofNat_word, hkey]
    congr 2
    exact Nat.mod_eq_of_lt (mix_lt _ k)
  rw [h.mask, and_natCast hmask, shiftRight_zero, toWord_toNat, toWord_xor, hf, toWord_natCast,
    toWord_natCast, BitVec.toNat_xor, toNat_ofNat_word, toNat_ofNat_word, hleft, hvalue]
  rfl

theorem Same.rounds (h : Same p s) {keys : List ℕ} (hkeys : ∀ k ∈ keys, k < 2 ^ 32)
    (hl : l < 2 ^ s.halfBits) (hr : r < 2 ^ s.halfBits) :
    (keys.map Nat.cast).foldl (fun (y : Number × Number) k =>
        (y.2, (y.1 ^^^ p.f y.2 k) >>> 0 &&& p.mask)) ((l : Number), (r : Number)) =
      Prod.map Nat.cast Nat.cast
        (feistel (fun l v => (l ^^^ v) &&& s.mask) s.f keys (l, r)) := by
  induction keys generalizing l r with
  | nil => rfl
  | cons k keys ih =>
    obtain ⟨hk, hkeys⟩ := List.forall_mem_cons.mp hkeys
    rw [List.map_cons, List.foldl_cons, feistel_cons, h.combine hl hk]
    exact ih hkeys hr (Shuffle.and_mask_lt _)

theorem Same.roundsBack (h : Same p s) {keys : List ℕ} (hkeys : ∀ k ∈ keys, k < 2 ^ 32)
    (hl : l < 2 ^ s.halfBits) (hr : r < 2 ^ s.halfBits) :
    (keys.map Nat.cast).foldr (fun k (y : Number × Number) =>
        ((y.2 ^^^ p.f y.1 k) >>> 0 &&& p.mask, y.1)) ((l : Number), (r : Number)) =
      Prod.map Nat.cast Nat.cast
        (unfeistel (fun r v => (r ^^^ v) &&& s.mask) s.f keys (l, r)) := by
  induction keys with
  | nil => rfl
  | cons k keys ih =>
    obtain ⟨hk, hkeys⟩ := List.forall_mem_cons.mp hkeys
    have hmem := unfeistel_mem (F := s.f) (x := (l, r)) Shuffle.combine_mem keys ⟨hl, hr⟩
    rw [List.map_cons, List.foldr_cons, ih hkeys, unfeistel_cons]
    exact Prod.ext (h.combine hmem.2 hk) rfl

/-- **One pass** of the network is the same. -/
theorem Same.forward (h : Same p s) (hx : x < s.domain) : p.forward x = ((s.forward x : ℕ) : Number) := by
  obtain ⟨hl, hr⟩ := Shuffle.halves_lt hx
  have hmem := feistel_mem (F := s.f) (x := (x >>> s.halfBits, x &&& s.mask)) Shuffle.combine_mem
    s.keys ⟨hl, hr⟩
  unfold ShufflePermutation.forward
  rw [h.split hx, h.keys]
  have hrounds := h.rounds h.words hl hr
  dsimp only at hrounds ⊢
  rw [hrounds]
  exact h.join hmem.1 hmem.2

/-- **One pass back** is the same. -/
theorem Same.backward (h : Same p s) (hx : x < s.domain) :
    p.backward x = ((s.backward x : ℕ) : Number) := by
  obtain ⟨hl, hr⟩ := Shuffle.halves_lt hx
  have hmem := unfeistel_mem (F := s.f) (x := (x >>> s.halfBits, x &&& s.mask)) Shuffle.combine_mem
    s.keys ⟨hl, hr⟩
  unfold ShufflePermutation.backward
  rw [h.split hx, h.keys, List.foldl_reverse]
  have hrounds := h.roundsBack h.words hl hr
  dsimp only at hrounds ⊢
  rw [hrounds]
  exact h.join hmem.1 hmem.2

/-! ## The walks -/

theorem not_lt_zero_natCast : ¬ (x : Number) < 0 := by
  intro hlt
  exact absurd (lt_natCast.mp (hlt : (x : Number) < ((0 : ℕ) : Number))) (Nat.not_lt_zero x)

theorem Same.walk_out (h : Same p s) (pass : Number → Number) (hx : s.n ≤ x) :
    p.walk pass x = .error (.rangeError "position out of range") := by
  unfold ShufflePermutation.walk
  rw [h.n, if_pos]
  simp only [Bool.or_eq_true, decide_eq_true_eq]
  exact Or.inr (by rw [lt_natCast]; omega)

theorem Same.walk (h : Same p s) {pass : Number → Number} {g : ℕ → ℕ} {y : ℕ}
    (hmaps : ∀ x < s.domain, g x < s.domain) (hpass : ∀ x < s.domain, pass x = (g x : Number))
    (hx : x < s.n) (hy : cycleWalk g (· < s.n) s.domain x = some y) : p.walk pass x = .ok y := by
  have hdomain : s.domain ≤ maxShuffleDomain :=
    Nat.pow_le_pow_right two_pos (by have := h.small; omega)
  have hsafe : x < 2 ^ 53 := (Shuffle.lt_domain hx).trans_le (hdomain.trans (by decide))
  have hwalk : cycleWalk pass (fun z => z < (s.n : Number)) maxShuffleDomain (x : Number) =
      some (y : Number) :=
    cycleWalk_map (p := (· < s.n)) (q := fun z => z < (s.n : Number)) (s := {z | z < s.domain})
      hmaps hpass (fun z _ => lt_natCast) hdomain (Shuffle.lt_domain hx) hy
  unfold ShufflePermutation.walk
  rw [h.n, if_neg, hwalk]
  simp only [Bool.or_eq_true, Bool.not_eq_true', decide_eq_true_eq]
  rintro ((hloose | hneg) | hout)
  · rw [isSafeInteger_natCast.mpr hsafe] at hloose
    cases hloose
  · exact not_lt_zero_natCast hneg
  · exact hout (lt_natCast.mpr hx)

/-! ## The two constructors -/

theorem growBits_le {n bits : ℕ} (fuel : ℕ) (hn : n ≤ 2 ^ 40) (heven : Even bits)
    (hbits : bits ≤ 40) : growBits n fuel bits ≤ 40 := by
  induction fuel generalizing bits with
  | zero => exact hbits
  | succ fuel ih =>
    rw [growBits]
    split_ifs with hlt
    · have hless : bits < 40 := (Nat.pow_lt_pow_iff_right one_lt_two).mp (hlt.trans_le hn)
      obtain ⟨m, rfl⟩ := heven
      exact ih ⟨m + 1, by omega⟩ (by omega)
    · exact hbits

theorem clientGrowBits_natCast (n fuel bits : ℕ) (h : bits + 2 * fuel < 53) :
    ShufflePermutation.growBits n fuel bits = ((growBits n fuel bits : ℕ) : Number) := by
  induction fuel generalizing bits with
  | zero => rfl
  | succ fuel ih =>
    rw [ShufflePermutation.growBits, growBits, twoPow_natCast (by omega)]
    simp only [lt_natCast]
    split_ifs
    · change ShufflePermutation.growBits n fuel ((bits : Number) + ((2 : ℕ) : Number)) = _
      rw [add_natCast (by omega)]
      exact ih _ (by omega)
    · rfl

theorem clientKey (base : BitVec 32) {i : ℕ} (hi : i < 4) :
    ShufflePermutation.mix (base.toNat : Number) (0x85ebca6b * ((i : Number) + 1)) =
      ((mix base.toNat (word32 (0x85ebca6b * (i + 1))) : ℕ) : Number) := by
  change ShufflePermutation.mix _ (((0x85ebca6b : ℕ) : Number) * ((i : Number) + ((1 : ℕ) : Number))) = _
  rw [add_natCast (by omega), mul_natCast (by omega), ShufflePermutation.mix_eq, toWord_toNat,
    toWord_natCast, ← mix_eq_mixWord, toNat_ofNat_word]

theorem clientRoundKeys (seed lap : Number) :
    ShufflePermutation.roundKeys seed lap =
      ([1, 2, 3, 4].map fun i => mix (mix (word32 seed.toWord.toNat)
        (0x9e3779b9 ^^^ word32 lap.toWord.toNat)) (word32 (0x85ebca6b * i))).map Nat.cast := by
  have hword : ∀ w : BitVec 32, word32 w.toNat = w.toNat := fun w => Nat.mod_eq_of_lt w.isLt
  have hbase : ShufflePermutation.mix (seed >>> 0) (0x9e3779b9 ^^^ lap) =
      ((mixWord seed.toWord (0x9e3779b9#32 ^^^ lap.toWord)).toNat : Number) := by
    rw [ShufflePermutation.mix_eq, toWord_xor, shiftRight_zero, toWord_toNat]
    rfl
  have hserver : mix (word32 seed.toWord.toNat) (0x9e3779b9 ^^^ word32 lap.toWord.toNat) =
      (mixWord seed.toWord (0x9e3779b9#32 ^^^ lap.toWord)).toNat := by
    rw [← mix_eq_mixWord, hword, hword, BitVec.toNat_xor]
    rfl
  unfold ShufflePermutation.roundKeys
  rw [hbase, hserver]
  simp only [List.map_cons, List.map_nil, List.cons.injEq, and_true]
  exact ⟨clientKey _ (i := 0) (by omega), clientKey _ (i := 1) (by omega),
    clientKey _ (i := 2) (by omega), clientKey _ (i := 3) (by omega)⟩

theorem twoPow_forty : twoPow 40 = ((2 ^ 40 : ℕ) : Number) := twoPow_natCast (a := 40) (by omega)

theorem new_out {n : ℕ} (hn : ¬ (1 ≤ n ∧ n ≤ maxShuffleDomain)) (seed lap : Number) :
    ShufflePermutation.new n seed lap = .error (.rangeError "n must be in [1, 2^40]") ∧
      ∀ seed lap, Shuffle.new n seed lap = none := by
  constructor
  · unfold ShufflePermutation.new
    rw [if_pos]
    simp only [Bool.or_eq_true, decide_eq_true_eq]
    rcases Nat.eq_zero_or_pos n with rfl | hpos
    · exact Or.inl (Or.inr (lt_natCast.mpr one_pos))
    · refine Or.inr ?_
      rw [twoPow_forty, lt_natCast]
      unfold maxShuffleDomain at hn
      omega
  · intro seed lap
    rw [Shuffle.new, dif_neg hn]

theorem exists_same {n : ℕ} (hn : 1 ≤ n ∧ n ≤ maxShuffleDomain) (seed lap : Number) :
    ∃ p s, ShufflePermutation.new n seed lap = .ok p ∧
      Shuffle.new n seed.toWord.toNat lap.toWord.toNat = some s ∧ s.n = n ∧ Same p s := by
  have hle : n ≤ 2 ^ 40 := hn.2
  have heven := even_growBits n 20 even_two
  have hbits := growBits_le 20 hle even_two (by omega)
  have hgrown := clientGrowBits_natCast n 20 2 (by omega)
  have hends : n ≤ 2 ^ growBits n 20 2 :=
    le_two_pow_growBits (hle.trans (Nat.pow_le_pow_right two_pos (by omega)))
  set bits := growBits n 20 2
  have hhalf : (bits : Number) / 2 = ((bits / 2 : ℕ) : Number) :=
    div_natCast two_ne_zero heven.two_dvd (by omega)
  have hmask : twoPow ((bits / 2 : ℕ) : Number) - 1 = ((2 ^ (bits / 2) - 1 : ℕ) : Number) := by
    have hlt : 2 ^ (bits / 2) < 2 ^ 53 := Nat.pow_lt_pow_right one_lt_two (by omega)
    rw [twoPow_natCast (by omega)]
    exact sub_natCast Nat.one_le_two_pow hlt
  have hrange : ¬ (!(n : Number).isSafeInteger || (n : Number) < 1 || twoPow 40 < (n : Number)) =
      true := by
    simp only [Bool.or_eq_true, Bool.not_eq_true', decide_eq_true_eq]
    rintro ((hloose | hzero) | hlarge)
    · rw [isSafeInteger_natCast.mpr (by omega)] at hloose
      cases hloose
    · have hless : n < 1 := lt_natCast.mp hzero
      omega
    · rw [twoPow_forty, lt_natCast] at hlarge
      omega
  have hended : ¬ twoPow (bits : Number) < (n : Number) := by
    rw [twoPow_natCast (by omega), lt_natCast]
    omega
  refine ⟨⟨n, (bits / 2 : ℕ), (2 ^ (bits / 2) - 1 : ℕ), ShufflePermutation.roundKeys seed lap⟩, _, ?_,
    by rw [Shuffle.new, dif_pos hn], rfl, ?_⟩
  · unfold ShufflePermutation.new
    rw [if_neg hrange, show ShufflePermutation.growBits n 20 2 = (bits : Number) from hgrown]
    dsimp only
    rw [if_neg hended, hhalf, hmask]
  · exact
      { n := rfl
        mask := rfl
        keys := clientRoundKeys seed lap
        words := fun k hk => by
          obtain ⟨i, -, rfl⟩ := List.mem_map.mp hk
          exact mix_lt _ _
        small := by
          change bits / 2 ≤ 20
          omega }

/-- **The client's permutation is the server's**: for every size in range, and every seed and lap,
both show the same source position at every shuffled position, and both find it at the same one. A
size or a position out of range is refused by both. -/
theorem ShufflePermutation.same_permutation (n : ℕ) (seed lap : Number) :
    (1 ≤ n ∧ n ≤ maxShuffleDomain → ∃ p s, ShufflePermutation.new n seed lap = .ok p ∧
      Shuffle.new n seed.toWord.toNat lap.toWord.toNat = some s ∧
      (∀ i < n, ∃ x < n, s.atIndex i = some x ∧ p.atIndex i = .ok x) ∧
      (∀ x < n, ∃ i < n, s.indexOf x = some i ∧ p.indexOf x = .ok i) ∧
      ∀ i, n ≤ i → s.atIndex i = none ∧ s.indexOf i = none ∧
        p.atIndex i = .error (.rangeError "position out of range") ∧
        p.indexOf i = .error (.rangeError "position out of range")) ∧
    (¬ (1 ≤ n ∧ n ≤ maxShuffleDomain) →
      ShufflePermutation.new n seed lap = .error (.rangeError "n must be in [1, 2^40]") ∧
      Shuffle.new n seed.toWord.toNat lap.toWord.toNat = none) := by
  refine ⟨fun hn => ?_, fun hn => ⟨(new_out hn seed lap).1, (new_out hn seed lap).2 _ _⟩⟩
  obtain ⟨p, s, hp, hs, rfl, hsame⟩ := exists_same hn seed lap
  refine ⟨p, s, hp, hs, fun i hi => ?_, fun x hx => ?_, fun i hi => ⟨?_, ?_, ?_, ?_⟩⟩
  · obtain ⟨x, hx, hat⟩ := Shuffle.exists_atIndex hi
    refine ⟨x, hx, hat, ?_⟩
    rw [Shuffle.atIndex, if_neg (by omega)] at hat
    exact hsame.walk (fun _ => Shuffle.forward_lt) (fun _ => hsame.forward) hi hat
  · obtain ⟨i, hi, hindex⟩ := Shuffle.exists_indexOf hx
    refine ⟨i, hi, hindex, ?_⟩
    rw [Shuffle.indexOf, if_neg (by omega)] at hindex
    exact hsame.walk (fun _ => Shuffle.backward_lt) (fun _ => hsame.backward) hx hindex
  · rw [Shuffle.atIndex, if_pos hi]
  · rw [Shuffle.indexOf, if_pos hi]
  · exact hsame.walk_out _ hi
  · exact hsame.walk_out _ hi

end Portico
