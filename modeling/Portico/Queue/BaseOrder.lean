import Portico.Queue.Layout

/-!
# The base order of a shuffled queue

The play order of the shuffle domain before any placement: the first entry, then the permutation
without it, with captured windows in place of their part. Both directions are bijections of the
domain and inverse to each other; outside the domain they leave positions alone.

## Main results

* `Layout.exists_ordinary`, `Layout.ordinary_exists`: the order without windows
* `Layout.exists_base`, `Layout.base_exists`: the order with the captured windows
-/

namespace Portico

namespace Layout

variable {l : Layout}

/-! ## Without windows -/

theorem u64_of_lt {x : ℤ} (h0 : 0 ≤ x) (h : x < 2 ^ 64) : u64 x = x.toNat := by
  rw [u64, Int.emod_eq_of_lt h0 h]

theorem shuffle_spec {sh : Shuffle} (h : l.shuffle = some sh) :
    sh.n = l.q.domain ∧ l.q.domain ≤ maxShuffleDomain ∧ 1 ≤ l.q.domain := by
  rw [Layout.shuffle] at h
  split_ifs at h with hcond
  refine ⟨Shuffle.new_eq_some h, ?_, hcond.2⟩
  rw [Shuffle.new] at h
  split_ifs at h with hbound
  omega

/-- The order reads the permutation at the first entry's index removed. -/
theorem ordinaryOrderToSource_of_shuffle {sh : Shuffle} (hsh : l.shuffle = some sh) {p : ℕ}
    (hp : p < l.q.domain) (hne : p ≠ 0) {c : ℕ} (hc : sh.indexOf l.q.first = some c) :
    l.ordinaryOrderToSource p = (sh.atIndex (if p - 1 < c then p - 1 else p)).getD 0 := by
  obtain ⟨-, hmax, -⟩ := shuffle_spec hsh
  have h64 : p < 2 ^ 64 := by
    rw [maxShuffleDomain] at hmax
    omega
  have hpred : u64 ((p : ℤ) - 1) = p - 1 := by
    rw [u64_of_lt (by omega) (by omega)]
    omega
  have hself : u64 (p : ℤ) = p := by rw [u64_of_lt (by omega) (by omega), Int.toNat_natCast]
  rw [ordinaryOrderToSource]
  simp only [hsh]
  rw [if_neg (by omega), if_neg (by omega), hc, Option.getD_some, hpred, hself]

theorem ordinarySourceToOrder_of_shuffle {sh : Shuffle} (hsh : l.shuffle = some sh) {s : ℕ}
    (hs : s < l.q.domain) (hne : s ≠ l.q.first) {c k : ℕ} (hc : sh.indexOf l.q.first = some c)
    (hk : sh.indexOf s = some k) :
    l.ordinarySourceToOrder s = (if k < c then k + 1 else k : ℕ) := by
  obtain ⟨-, hmax, -⟩ := shuffle_spec hsh
  have hself : u64 (s : ℤ) = s := by
    rw [maxShuffleDomain] at hmax
    rw [u64_of_lt (by omega) (by omega), Int.toNat_natCast]
  rw [ordinarySourceToOrder]
  simp only [hsh]
  rw [if_neg (by omega), if_neg (by omega), hc, hself, hk, Option.getD_some, Option.getD_some]
  split_ifs <;> simp

theorem ordinaryOrderToSource_of_le {p : ℤ} (hp : l.q.domain ≤ p) :
    l.ordinaryOrderToSource p = p := by
  rw [ordinaryOrderToSource]
  split
  · rfl
  · rw [if_pos hp]

theorem ordinarySourceToOrder_of_le {s : ℤ} (hs : l.q.domain ≤ s) :
    l.ordinarySourceToOrder s = s := by
  rw [ordinarySourceToOrder]
  split
  · rfl
  · rw [if_pos hs]

theorem exists_ordinary (hfirst : l.q.first < l.q.domain) {p : ℕ} (hp : p < l.q.domain) :
    ∃ s : ℕ, s < l.q.domain ∧ l.ordinaryOrderToSource p = s ∧ l.ordinarySourceToOrder s = p := by
  cases hsh : l.shuffle with
  | none =>
    refine ⟨p, hp, ?_, ?_⟩
    · simp only [ordinaryOrderToSource, hsh]
    · simp only [ordinarySourceToOrder, hsh]
  | some sh =>
    obtain ⟨hn, -, -⟩ := shuffle_spec hsh
    by_cases hzero : p = 0
    · refine ⟨l.q.first, hfirst, ?_, ?_⟩
      · simp only [ordinaryOrderToSource, hsh, hzero]
        rw [if_neg (by omega), if_pos (by simp)]
      · simp only [ordinarySourceToOrder, hsh, hzero]
        rw [if_neg (by omega), if_pos trivial]
        rfl
    · obtain ⟨c, hcn, hc⟩ := sh.exists_indexOf (hn ▸ hfirst)
      obtain ⟨s, hsn, hs⟩ := sh.exists_atIndex (i := if p - 1 < c then p - 1 else p)
        (by split_ifs <;> omega)
      have hindex := Shuffle.indexOf_atIndex hs
      have hne : s ≠ l.q.first := by
        rintro rfl
        rw [hc] at hindex
        have := Option.some.inj hindex
        split_ifs at this <;> omega
      refine ⟨s, hn ▸ hsn, ?_, ?_⟩
      · rw [ordinaryOrderToSource_of_shuffle hsh hp hzero hc, hs, Option.getD_some]
      · rw [ordinarySourceToOrder_of_shuffle hsh (hn ▸ hsn) hne hc hindex]
        congr 1
        split_ifs <;> omega

/-- A map of the positions below a bound with an inverse reaches all of them. -/
theorem exists_of_leftInverse {n : ℕ} {f g : ℤ → ℤ}
    (h : ∀ p : ℕ, p < n → ∃ s : ℕ, s < n ∧ f p = s ∧ g s = p) {s : ℕ} (hs : s < n) :
    ∃ p : ℕ, p < n ∧ g s = p ∧ f p = s := by
  choose! image hlt hf hg using h
  have hinj : Function.Injective fun p : Fin n => (⟨image p, hlt p p.2⟩ : Fin n) := by
    intro p q hpq
    have himage : image p = image q := congrArg Fin.val hpq
    have hp := hg p p.2
    rw [himage, hg q q.2] at hp
    exact Fin.ext (by exact_mod_cast hp.symm)
  obtain ⟨p, hp⟩ := Finite.injective_iff_surjective.mp hinj ⟨s, hs⟩
  have himage : image p = s := congrArg Fin.val hp
  exact ⟨p, p.2, himage ▸ hg p p.2, himage ▸ hf p p.2⟩

/-- The sources of a window in the order without windows. -/
def windowSources (l : Layout) (window : ℕ) : List ℤ :=
  (List.range (min smoothWindowMax (l.q.domain - window * smoothWindowMax))).map fun index =>
    l.ordinaryOrderToSource (window * smoothWindowMax + index : ℕ)

/-- Every window that was read reorders its own sources. -/
def Reorders (l : Layout) (windows : ℕ → Option (List ℤ)) : Prop :=
  ∀ w ordinals, windows w = some ordinals → ordinals.Perm (l.windowSources w)

private theorem map_eq_of_mapM {α β γ : Type*} {f : α → Option β} {g : β → γ} {h : α → γ}
    (hf : ∀ x y, f x = some y → g y = h x) {xs : List α} {ys : List β}
    (hxs : xs.mapM f = some ys) : ys.map g = xs.map h := by
  induction xs generalizing ys with
  | nil =>
    obtain rfl : [] = ys := by simpa using hxs
    rfl
  | cons x xs ih =>
    simp only [List.mapM_cons, Option.bind_eq_bind, Option.bind_eq_some_iff] at hxs
    obtain ⟨y, hy, ys', hys', hcons⟩ := hxs
    obtain rfl : y :: ys' = ys := by simpa using hcons
    rw [List.map_cons, List.map_cons, hf x y hy, ih hys']

theorem sonicWindowSource_map {window : ℕ} {contents : List (ℤ × Entry)}
    (h : l.sonicWindowSource window = some contents) :
    contents.map Prod.fst = l.windowSources window := by
  refine map_eq_of_mapM (fun index y hy => ?_) h
  simp only [Option.bind_eq_bind, Option.bind_eq_some_iff] at hy
  obtain ⟨e, -, he⟩ := hy
  obtain rfl := Option.some.inj he
  rfl

theorem sonicWindow_spec {window : ℕ} {ordinals : List ℤ}
    (h : l.sonicWindow window = some ordinals) :
    ordinals.Perm (l.windowSources window) ∧
      ordinals.head? = (l.windowSources window).head? := by
  rw [sonicWindow] at h
  split_ifs at h
  simp only [Option.bind_eq_bind, Option.bind_eq_some_iff] at h
  obtain ⟨contents, hcontents, captured, -, hordinals⟩ := h
  obtain rfl := Option.some.inj hordinals
  rw [← sonicWindowSource_map hcontents]
  exact ⟨captured.perm, captured.head⟩

theorem reorders_sonicWindow : l.Reorders l.sonicWindow := fun _ _ h => (sonicWindow_spec h).1

theorem nodup_windowSources (hfirst : l.q.first < l.q.domain) (window : ℕ) :
    (l.windowSources window).Nodup := by
  refine List.Nodup.map_on (fun i hi j hj heq => ?_) List.nodup_range
  rw [List.mem_range] at hi hj
  obtain ⟨s, -, hs, hinv⟩ :=
    exists_ordinary hfirst (p := window * smoothWindowMax + i) (by omega)
  obtain ⟨t, -, ht, hinv'⟩ :=
    exists_ordinary hfirst (p := window * smoothWindowMax + j) (by omega)
  rw [hs, ht] at heq
  rw [heq, hinv'] at hinv
  omega

theorem mem_windowSources {window : ℕ} {src : ℤ} : src ∈ l.windowSources window ↔
    ∃ p : ℕ, p < l.q.domain ∧ p / smoothWindowMax = window ∧ l.ordinaryOrderToSource p = src := by
  simp only [windowSources, List.mem_map, List.mem_range, smoothWindowMax]
  constructor
  · rintro ⟨i, hi, rfl⟩
    exact ⟨_, by omega, by omega, rfl⟩
  · rintro ⟨p, hp, rfl, rfl⟩
    exact ⟨p % 256, by omega, by congr 1; omega⟩

section Windows

variable {windows : ℕ → Option (List ℤ)}

theorem baseOrderToSourceIn_of_le {p : ℤ} (hp : l.q.domain ≤ p) :
    l.baseOrderToSourceIn windows p = p := by
  rw [baseOrderToSourceIn, if_neg (by omega), ordinaryOrderToSource_of_le hp]

theorem baseSourceToOrderIn_of_le {s : ℤ} (hs : l.q.domain ≤ s) :
    l.baseSourceToOrderIn windows s = s := by
  simp only [baseSourceToOrderIn, ordinarySourceToOrder_of_le hs]
  rw [if_neg (by omega)]

theorem exists_base (hfirst : l.q.first < l.q.domain) (hw : l.Reorders windows) {p : ℕ}
    (hp : p < l.q.domain) :
    ∃ s : ℕ, s < l.q.domain ∧ l.baseOrderToSourceIn windows p = s ∧
      l.baseSourceToOrderIn windows s = p := by
  by_cases hs : l.q.shuffle = true
  · cases hwin : windows (p / smoothWindowMax) with
    | none =>
      obtain ⟨s, hsd, hord, hinv⟩ := exists_ordinary hfirst hp
      refine ⟨s, hsd, ?_, ?_⟩
      · rw [baseOrderToSourceIn, if_pos ⟨by omega, by omega, hs⟩, Int.toNat_natCast, hwin]
        exact hord
      · simp only [baseSourceToOrderIn, hinv]
        rw [if_pos ⟨by omega, by omega, hs⟩, Int.toNat_natCast, hwin]
    | some ordinals =>
      have hperm := hw _ _ hwin
      have hlen : ordinals.length =
          min smoothWindowMax (l.q.domain - p / smoothWindowMax * smoothWindowMax) := by
        rw [hperm.length_eq, windowSources, List.length_map, List.length_range]
      have hi : p % smoothWindowMax < ordinals.length := by
        rw [hlen]
        simp only [smoothWindowMax]
        omega
      have hmem : ordinals[p % smoothWindowMax] ∈ l.windowSources (p / smoothWindowMax) :=
        hperm.mem_iff.mp (List.getElem_mem hi)
      obtain ⟨p', hp', hdiv, hsrc⟩ := mem_windowSources.mp hmem
      obtain ⟨s, hsd, hord, hinv⟩ := exists_ordinary hfirst hp'
      refine ⟨s, hsd, ?_, ?_⟩
      · rw [baseOrderToSourceIn, if_pos ⟨by omega, by omega, hs⟩, Int.toNat_natCast, hwin]
        simp only [List.getD_eq_getElem _ _ hi, ← hsrc, hord]
      · have hnodup : ordinals.Nodup := hperm.nodup_iff.mpr (nodup_windowSources hfirst _)
        have hfind : ordinals.findIdx? (fun o => decide (o = (s : ℤ))) =
            some (p % smoothWindowMax) := by
          rw [List.findIdx?_eq_some_iff_getElem]
          refine ⟨hi, by simp [← hsrc, hord], fun j hj => ?_⟩
          simp only [decide_eq_true_eq]
          intro heq
          rw [← hord, hsrc] at heq
          have := (List.Nodup.getElem_inj_iff hnodup).mp heq
          omega
        simp only [baseSourceToOrderIn, hinv]
        rw [if_pos ⟨by omega, by omega, hs⟩, Int.toNat_natCast, hdiv, hwin]
        simp only [hfind]
        congr 1
        exact Nat.div_add_mod' p smoothWindowMax
  · obtain ⟨s, hsd, hord, hinv⟩ := exists_ordinary hfirst hp
    refine ⟨s, hsd, ?_, ?_⟩
    · rw [baseOrderToSourceIn, if_neg (by tauto), hord]
    · simp only [baseSourceToOrderIn, hinv]
      rw [if_neg (by tauto)]

theorem base_exists (hfirst : l.q.first < l.q.domain) (hw : l.Reorders windows) {s : ℕ}
    (hs : s < l.q.domain) :
    ∃ p : ℕ, p < l.q.domain ∧ l.baseSourceToOrderIn windows s = p ∧
      l.baseOrderToSourceIn windows p = s :=
  exists_of_leftInverse (fun _ hp => exists_base hfirst hw hp) hs

end Windows

end Layout

end Portico
