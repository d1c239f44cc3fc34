import Portico.Lib.Rounding

/-!
# Playback: the timeline of a copied picture

A copied picture is cut at keyframes of its source. The answers to "the keyframe at or before this grid
line" are folded into a list of cuts, and a position is looked up in it with a tolerance of a
microsecond. Times are doubles, in seconds.

## Main results

* `buildCopyTimeline_eq`: the boundaries are the start, answered keyframes and the end
* `copy_timeline`: what the boundaries keep, and which segment a position is given
* `early_segment`: a position just before a cut is given the segment that the cut begins
-/

namespace Portico.Playback

open Number

/-! ## The cut list -/

def hlsSegmentSeconds : Number := 6
def hlsMaxSegments : ℕ := 100800
def copyTimelineMaxSegment : Number := 30
def copyTimelineMinSegment : Number := 1

/-- The grid line of an answer. -/
def gridLine (k : ℕ) : Number := nearest (k + 1) * hlsSegmentSeconds

/-- The answers are folded into the cuts so far, whose last is the second argument. -/
def foldKeyframes (duration : Number) :
    ℕ → Number → Number → List (Number × Bool) → Option (List Number)
  | _, _, _, [] => some []
  | k, previous, last, (keyframe, ok) :: rest =>
    if !ok then none
    else if keyframe = nan || gridLine k + nearest (1 / 20) < keyframe then none
    else if keyframe < previous - nearest (1 / 1000) then none
    else if keyframe < last + copyTimelineMinSegment ||
        duration - copyTimelineMinSegment ≤ keyframe then
      foldKeyframes duration (k + 1) keyframe last rest
    else (foldKeyframes duration (k + 1) keyframe keyframe rest).map (keyframe :: ·)

/-- Whether a segment between neighbours is longer than the maximum. -/
def tooLong : List Number → Bool
  | x :: y :: l => copyTimelineMaxSegment < y - x || tooLong (y :: l)
  | _ => false

/-- **The boundaries** of the segments, from the answers and whether each was one. -/
def buildCopyTimeline (duration : Number) (keyframes : List Number) (ok : List Bool) :
    Option (List Number) :=
  if !(0 < duration) || keyframes.length ≠ ok.length then none
  else (foldKeyframes duration 0 0 0 (keyframes.zip ok)).bind fun cuts =>
    let boundaries := 0 :: cuts ++ [duration]
    if tooLong boundaries then none
    else if hlsMaxSegments < boundaries.length - 1 then none
    else some boundaries

/-! ## The lookup -/

def count (boundaries : List Number) : ℕ := boundaries.length - 1

/-- The first boundary that isn't before a time. -/
def searchFloat64s (boundaries : List Number) (x : Number) : ℕ := boundaries.findIdx fun b => x ≤ b

def tolerance : Number := nearest (1 / 1000000)

/-- **The segment** of a position. -/
def indexAt (boundaries : List Number) (seconds : Number) : ℕ :=
  let n := count boundaries
  if n = 0 || seconds ≤ 0 then 0
  else
    let i : ℤ := searchFloat64s boundaries (seconds + tolerance) - 1
    if i < 0 then 0
    else if n ≤ i then n - 1
    else i.toNat

variable {duration previous last keyframe x y : Number} {keyframes cuts boundaries : List Number}
  {ok : List Bool} {answers : List (Number × Bool)} {a b q : ℚ} {k : ℕ}

/-! ## Doubles of this size -/

theorem abs_rounded_sub_le_nano (h : |q| ≤ 2 ^ 22) : |rounded q - q| ≤ 1 / 10 ^ 9 := by
  refine (abs_rounded_sub_le q).trans ?_
  have hshare : |q| / 2 ^ 52 ≤ 2 ^ 22 / 2 ^ 52 := div_le_div_of_nonneg_right h (by positivity)
  refine (add_le_add_left hshare _).trans ?_
  norm_num

theorem rounded_intCast {z : ℤ} (hz : |z| < 2 ^ 53) : rounded z = z := by
  have hnear := nearest_intCast hz
  have hsize : |(z : ℚ)| ≤ 2 ^ 200 := by
    have hlt : |(z : ℚ)| < 2 ^ 53 := by exact_mod_cast hz
    exact hlt.le.trans (pow_le_pow_right₀ one_le_two (by norm_num))
  rw [nearest_eq hsize, intCast_eq] at hnear
  exact Number.finite.inj hnear

theorem maxSegment_lt_nearest (hq : 31 ≤ q) : copyTimelineMaxSegment < nearest q := by
  have hround : (31 : ℚ) ≤ rounded q := by
    have h31 := rounded_intCast (z := 31) (by norm_num)
    push_cast at h31
    rw [← h31]
    exact rounded_mono (by norm_num) hq
  unfold nearest
  simp only
  change copyTimelineMaxSegment < if 2 ^ 1024 ≤ |rounded q| then infinite (rounded q < 0)
    else finite (rounded q)
  split_ifs
  · have hneg : decide (rounded q < 0) = false := by
      rw [decide_eq_false_iff_not]
      linarith
    rw [hneg]
    rfl
  · refine finite_lt.mpr ?_
    push_cast
    linarith

/-! ## Folding -/

/-- A cut that is kept: a minimum after the last one and before the end. -/
structure Cut (duration last keyframe : Number) : Prop where
  real : keyframe ≠ nan
  spaced : ¬ keyframe < last + copyTimelineMinSegment
  early : ¬ duration - copyTimelineMinSegment ≤ keyframe

/-- **What is folded** are answers, each a cut after the one before. -/
theorem foldKeyframes_eq (h : foldKeyframes duration k previous last answers = some cuts) :
    (∀ x ∈ cuts, x ∈ answers.map Prod.fst) ∧ List.IsChain (Cut duration) (last :: cuts) := by
  induction answers generalizing k previous last cuts with
  | nil =>
    obtain rfl := Option.some.inj h
    exact ⟨fun _ hx => (nomatch hx), List.isChain_singleton _⟩
  | cons answer answers ih =>
    obtain ⟨keyframe, isKeyframe⟩ := answer
    rw [foldKeyframes] at h
    split_ifs at h with hok hbad hback hfolded
    · obtain ⟨hmem, hchain⟩ := ih h
      exact ⟨fun x hx => List.mem_cons_of_mem _ (hmem x hx), hchain⟩
    · obtain ⟨cuts, hcuts, rfl⟩ := Option.map_eq_some_iff.mp h
      obtain ⟨hmem, hchain⟩ := ih hcuts
      simp only [Bool.or_eq_true, decide_eq_true_eq, not_or] at hbad hfolded
      refine ⟨fun x hx => ?_, List.isChain_cons_cons.mpr ⟨⟨hbad.1, hfolded.1, hfolded.2⟩, hchain⟩⟩
      rcases List.mem_cons.mp hx with rfl | hx
      · exact List.mem_cons_self
      · exact List.mem_cons_of_mem _ (hmem x hx)

theorem buildCopyTimeline_eq (h : buildCopyTimeline duration keyframes ok = some boundaries) :
    0 < duration ∧ ∃ cuts, boundaries = 0 :: cuts ++ [duration] ∧ (∀ x ∈ cuts, x ∈ keyframes) ∧
      List.IsChain (Cut duration) (0 :: cuts) ∧ tooLong boundaries = false ∧
      boundaries.length - 1 ≤ hlsMaxSegments := by
  unfold buildCopyTimeline at h
  split_ifs at h with hbad
  simp only [Bool.or_eq_true, Bool.not_eq_true', decide_eq_false_iff_not, decide_eq_true_eq, not_or,
    not_not] at hbad
  obtain ⟨cuts, hcuts, h⟩ := Option.bind_eq_some_iff.mp h
  simp only at h
  split_ifs at h with hlong hmany
  obtain rfl := Option.some.inj h
  obtain ⟨hmem, hchain⟩ := foldKeyframes_eq hcuts
  refine ⟨hbad.1, cuts, rfl, fun x hx => ?_, hchain, Bool.not_eq_true _ ▸ hlong, not_lt.mp hmany⟩
  obtain ⟨⟨y, o⟩, hy, rfl⟩ := List.mem_map.mp (hmem x hx)
  exact (List.of_mem_zip hy).1

theorem tooLong_append : tooLong (x :: y :: cuts) = false ↔
    ¬ copyTimelineMaxSegment < y - x ∧ tooLong (y :: cuts) = false := by
  rw [tooLong, Bool.or_eq_false_iff, decide_eq_false_iff_not]

theorem isChain_of_tooLong (h : tooLong boundaries = false) :
    List.IsChain (fun x y => ¬ copyTimelineMaxSegment < y - x) boundaries := by
  induction boundaries with
  | nil => exact List.isChain_nil
  | cons x l ih =>
    cases l with
    | nil => exact List.isChain_singleton _
    | cons y l =>
      obtain ⟨hshort, hrest⟩ := tooLong_append.mp h
      exact List.isChain_cons_cons.mpr ⟨hshort, ih hrest⟩

/-! ## The values of the boundaries -/

theorem Cut.finite (h : Cut duration (finite a) keyframe) (ha : 0 ≤ a) (hsize : a + 1 ≤ 2 ^ 22)
    (hduration : 0 < duration) : ∃ b, keyframe = finite b ∧ a + 1 / 2 ≤ b := by
  have habs : |a + 1| ≤ 2 ^ 22 := by rwa [abs_of_nonneg (by linarith)]
  have hsum : Number.finite a + copyTimelineMinSegment = Number.finite (rounded (a + 1)) := by
    have h1 : copyTimelineMinSegment = Number.finite 1 := rfl
    rw [h1]
    exact finite_add (habs.trans (pow_le_pow_right₀ one_le_two (by norm_num)))
  have hround := abs_rounded_sub_le_nano habs
  rw [abs_le] at hround
  have hspaced := h.spaced
  rw [hsum] at hspaced
  cases hk : keyframe with
  | nan => exact absurd hk h.real
  | finite b =>
    rw [hk, finite_lt, not_lt] at hspaced
    exact ⟨b, rfl, by linarith⟩
  | infinite negative =>
    exfalso
    cases negative with
    | true =>
      rw [hk] at hspaced
      exact hspaced rfl
    | false =>
      -- nothing is after the end
      apply h.early
      rw [hk]
      cases hd : duration with
      | nan =>
        rw [hd] at hduration
        cases hduration
      | infinite s =>
        cases s with
        | true =>
          rw [hd] at hduration
          cases hduration
        | false => rfl
      | finite d =>
        change (Number.nearest (d + -1)).le (infinite false) = true
        unfold nearest
        simp only
        split_ifs
        · exact Bool.or_true _
        · rfl

theorem short_of_le (h : ¬ copyTimelineMaxSegment < finite b - finite a) : b - a < 31 := by
  by_contra hlong
  apply h
  rw [sub_eq_neg_add] at hlong
  change copyTimelineMaxSegment < nearest (b + -a)
  exact maxSegment_lt_nearest (by linarith)

/-- **The values of the cuts**: each is at least half a second after the one before, and they are no
larger than the segments allow. -/
theorem finite_of_chain {cuts : List Number} {last : ℚ} {n : ℕ} (hlast : 0 ≤ last)
    (hsize : last ≤ 31 * n) (hn : n + cuts.length ≤ hlsMaxSegments) (hduration : 0 < duration)
    (hchain : List.IsChain (Cut duration) (finite last :: cuts))
    (hshort : List.IsChain (fun x y => ¬ copyTimelineMaxSegment < y - x) (finite last :: cuts)) :
    ∃ qs : List ℚ, cuts = qs.map finite ∧ List.IsChain (fun a b => a + 1 / 2 ≤ b) (last :: qs) ∧
      ∀ b ∈ last :: qs, b ≤ 31 * hlsMaxSegments := by
  have hbound {m : ℕ} (hm : m ≤ hlsMaxSegments) : (31 * m : ℚ) ≤ 31 * hlsMaxSegments := by
    have : (m : ℚ) ≤ hlsMaxSegments := by exact_mod_cast hm
    linarith
  have hlimit : last ≤ 31 * hlsMaxSegments := hsize.trans (hbound (by omega))
  induction cuts generalizing last n with
  | nil =>
    refine ⟨[], rfl, List.isChain_singleton _, fun b hb => ?_⟩
    rw [List.mem_singleton] at hb
    rwa [hb]
  | cons keyframe cuts ih =>
    obtain ⟨hcut, hchain⟩ := List.isChain_cons_cons.mp hchain
    obtain ⟨hle, hshort⟩ := List.isChain_cons_cons.mp hshort
    obtain ⟨b, rfl, hb⟩ := hcut.finite hlast (by norm_num [hlsMaxSegments] at hlimit ⊢; linarith)
      hduration
    have hgap := short_of_le hle
    rw [List.length_cons] at hn
    have hnext : b ≤ 31 * (n + 1 : ℕ) := by
      push_cast
      linarith
    obtain ⟨qs, rfl, hspaced, hbounds⟩ := ih (n := n + 1) (by linarith) hnext (by omega) hchain hshort
      (hnext.trans (hbound (by omega)))
    refine ⟨b :: qs, rfl, List.isChain_cons_cons.mpr ⟨hb, hspaced⟩, fun c hc => ?_⟩
    rcases List.mem_cons.mp hc with rfl | hc
    · exact hlimit
    · exact hbounds c hc

/-- The boundaries as values. -/
structure Values (duration : Number) (cuts : List Number) (qs : List ℚ) (d : ℚ) : Prop where
  duration_eq : duration = finite d
  cuts_eq : cuts = qs.map finite
  spaced : List.IsChain (fun a b => a + 1 / 2 ≤ b) (0 :: qs)
  early : ∀ b ∈ qs, b + 1 / 2 ≤ d
  pos : 0 < d
  small : d + 1 ≤ 2 ^ 22

theorem exists_before {α : Type} {R : α → α → Prop} {a x : α} {l : List α}
    (h : List.IsChain R (a :: l)) (hx : x ∈ l) : ∃ y, R y x := by
  induction l generalizing a with
  | nil => exact (nomatch hx)
  | cons b l ih =>
    obtain ⟨hab, hrest⟩ := List.isChain_cons_cons.mp h
    rcases List.mem_cons.mp hx with rfl | hx
    · exact ⟨a, hab⟩
    · exact ih hrest hx

theorem finite_end (hduration : 0 < duration)
    (hshort : ¬ copyTimelineMaxSegment < duration - finite a) :
    ∃ d, duration = finite d ∧ 0 < d ∧ d - a < 31 := by
  cases duration with
  | nan => cases hduration
  | infinite negative =>
    cases negative with
    | true => cases hduration
    | false => exact absurd rfl hshort
  | finite d => exact ⟨d, rfl, finite_lt.mp hduration, short_of_le hshort⟩

theorem Cut.before_end {d : ℚ} (h : Cut (Number.finite d) last (Number.finite b)) (hd : 0 < d)
    (hsmall : d + 1 ≤ 2 ^ 22) : b + 1 / 2 ≤ d := by
  have habs : |d - 1| ≤ 2 ^ 22 := by
    rw [abs_le]
    constructor <;> linarith
  have hsub : Number.finite d - copyTimelineMinSegment = Number.finite (rounded (d - 1)) := by
    have h1 : copyTimelineMinSegment = Number.finite 1 := rfl
    rw [h1]
    exact finite_sub (habs.trans (pow_le_pow_right₀ one_le_two (by norm_num)))
  have hearly := h.early
  rw [hsub, finite_le, not_le] at hearly
  have hround := abs_rounded_sub_le_nano habs
  rw [abs_le] at hround
  linarith

theorem values_of_build (h : buildCopyTimeline duration keyframes ok = some boundaries) :
    ∃ cuts qs d, boundaries = 0 :: cuts ++ [duration] ∧ (∀ x ∈ cuts, x ∈ keyframes) ∧
      List.IsChain (Cut duration) (0 :: cuts) ∧
      List.IsChain (fun x y => ¬ copyTimelineMaxSegment < y - x) boundaries ∧
      Values duration cuts qs d := by
  obtain ⟨hduration, cuts, rfl, hmem, hchain, hlong, hmany⟩ := buildCopyTimeline_eq h
  have hshort := isChain_of_tooLong hlong
  have hinner := List.IsChain.left_of_append hshort
  have hlength : 0 + cuts.length ≤ hlsMaxSegments := by
    simp only [List.length_cons, List.length_append] at hmany
    omega
  have hstart : (0 : ℚ) ≤ 31 * (0 : ℕ) := by simp
  obtain ⟨qs, rfl, hspaced, hbounds⟩ :=
    finite_of_chain le_rfl hstart hlength hduration hchain hinner
  obtain ⟨last, hlast, hhead⟩ : ∃ last ∈ 0 :: qs, ¬ copyTimelineMaxSegment < duration - finite last := by
    refine ⟨(0 :: qs).getLast (List.cons_ne_nil _ _), List.getLast_mem _, ?_⟩
    have hlink := (List.isChain_append.mp hshort).2.2
    refine hlink _ ?_ duration rfl
    rw [Option.mem_def, show (0 : Number) :: qs.map finite = (0 :: qs).map finite from rfl,
      List.getLast?_map, List.getLast?_eq_getLast_of_ne_nil (List.cons_ne_nil _ _)]
    rfl
  obtain ⟨d, rfl, hd, hgap⟩ := finite_end hduration hhead
  have hsmall : d + 1 ≤ 2 ^ 22 := by
    have hle := hbounds last hlast
    norm_num [hlsMaxSegments] at hle ⊢
    linarith
  refine ⟨qs.map finite, qs, d, rfl, hmem, hchain, hshort, rfl, rfl, hspaced, fun b hb => ?_, hd,
    hsmall⟩
  obtain ⟨before, hcut⟩ := exists_before hchain (List.mem_map_of_mem hb)
  exact hcut.before_end hd hsmall

namespace Values

variable {qs : List ℚ} {d : ℚ}

theorem boundaries_eq (h : Values duration cuts qs d) :
    (0 :: cuts ++ [duration] : List Number) = (0 :: qs ++ [d]).map finite := by
  rw [h.duration_eq, h.cuts_eq]
  simp only [List.map_append, List.map_cons, List.map_nil]
  rfl

theorem sorted (h : Values duration cuts qs d) : (0 :: qs ++ [d]).Pairwise (· < ·) := by
  have hinner : (0 :: qs).Pairwise (· < ·) := by
    rw [← List.isChain_iff_pairwise]
    exact h.spaced.imp fun a b hab => by linarith
  refine List.pairwise_append.mpr ⟨hinner, List.pairwise_singleton _ _, fun a ha b hb => ?_⟩
  rw [List.mem_singleton.mp hb]
  rcases List.mem_cons.mp ha with rfl | ha
  · exact h.pos
  · have := h.early a ha
    linarith

/-- Where there is a cut, every segment is at least half a second long. -/
theorem apart (h : Values duration cuts qs d) (hqs : qs ≠ []) :
    List.IsChain (fun a b => a + 1 / 2 ≤ b) (0 :: qs ++ [d]) := by
  refine List.isChain_append.mpr ⟨h.spaced, List.isChain_singleton _, fun a ha b hb => ?_⟩
  rw [List.getLast?_cons, List.getLast?_eq_getLast_of_ne_nil hqs] at ha
  obtain rfl := Option.some.inj ha
  obtain rfl := Option.some.inj hb
  exact h.early _ (List.getLast_mem hqs)

end Values

/-! ## The lookup -/

variable {s t : ℚ}

theorem searchFloat64s_finite (l : List ℚ) (t : ℚ) :
    searchFloat64s (l.map finite) (finite t) = l.findIdx (t ≤ ·) := by
  unfold searchFloat64s
  induction l with
  | nil => rfl
  | cons a l ih =>
    simp only [List.map_cons, List.findIdx_cons, ih, finite_le]

theorem lt_searched {l : List ℚ} (hl : l.Pairwise (· < ·)) {k : ℕ} (hk : k < l.length) :
    k < l.findIdx (t ≤ ·) ↔ l[k] < t := by
  constructor
  · intro hlt
    have := List.not_of_lt_findIdx hlt
    simpa using this
  · intro hlt
    by_contra hle
    rw [not_lt] at hle
    have hfound := List.findIdx_getElem (w := hle.trans_lt hk)
    have hle' := List.Pairwise.rel_get_of_le (R := (· ≤ ·)) (hl.imp le_of_lt)
      (a := ⟨l.findIdx (t ≤ ·), hle.trans_lt hk⟩) (b := ⟨k, hk⟩) hle
    simp only [decide_eq_true_eq, List.get_eq_getElem] at hfound hle'
    linarith

/-- The value that a position is looked up by. -/
def later (s : ℚ) : ℚ := rounded (s + rounded (1 / 1000000))

theorem tolerance_near : |rounded (1 / 1000000) - 1 / 1000000| ≤ 1 / 10 ^ 9 :=
  abs_rounded_sub_le_nano (by norm_num [abs_of_pos])

theorem later_near (hs : 0 ≤ s) (hsmall : s + 1 ≤ 2 ^ 22) :
    |later s - (s + 1 / 1000000)| ≤ 1 / 10 ^ 8 := by
  have htolerance := tolerance_near
  rw [abs_le] at htolerance
  have hround := abs_rounded_sub_le_nano (q := s + rounded (1 / 1000000)) (by
    rw [abs_le]
    constructor <;> linarith)
  unfold later
  rw [abs_le] at hround ⊢
  constructor <;> linarith

theorem add_tolerance (hs : 0 ≤ s) (hsmall : s + 1 ≤ 2 ^ 22) :
    finite s + tolerance = finite (later s) := by
  have htolerance := tolerance_near
  rw [abs_le] at htolerance
  have htol : tolerance = finite (rounded (1 / 1000000)) :=
    nearest_eq (by norm_num [abs_of_pos])
  rw [htol]
  refine finite_add (le_trans ?_ (pow_le_pow_right₀ one_le_two (by norm_num : 22 ≤ 200)))
  rw [abs_le]
  constructor <;> linarith

namespace Values

theorem nonneg (h : Values duration cuts qs d) {k : ℕ} (hk : k < (0 :: qs ++ [d]).length) :
    0 ≤ (0 :: qs ++ [d])[k] := by
  cases k with
  | zero => exact le_rfl
  | succ k => exact (List.pairwise_iff_getElem.mp h.sorted 0 (k + 1) (by simp) hk (by omega)).le

theorem half_le (h : Values duration cuts qs d) {k : ℕ} (hk : k + 2 < (0 :: qs ++ [d]).length) :
    (0 :: qs ++ [d])[k] + 1 / 2 ≤ (0 :: qs ++ [d])[k + 1] := by
  have hqs : qs ≠ [] := by
    rintro rfl
    simp at hk
  exact List.isChain_iff_getElem.mp (h.apart hqs) k (by omega)

theorem count_eq (_ : Values duration cuts qs d) :
    count ((0 :: qs ++ [d]).map finite) = qs.length + 1 := by
  simp [count]

/-- **The lookup** of a position. -/
theorem indexAt_eq (h : Values duration cuts qs d) (hs : 0 ≤ s) (hsd : s ≤ d) {k : ℕ}
    (hk : k + 1 < (0 :: qs ++ [d]).length) :
    indexAt ((0 :: qs ++ [d]).map finite) (finite s) = k ↔
      (0 :: qs ++ [d])[k] < later s ∧
        (later s ≤ (0 :: qs ++ [d])[k + 1] ∨ k + 2 = (0 :: qs ++ [d]).length) := by
  have hlength : (0 :: qs ++ [d]).length = qs.length + 2 := by simp
  have hsmall : s + 1 ≤ 2 ^ 22 := by
    have := h.small
    linarith
  have hlater := later_near hs hsmall
  rw [abs_le] at hlater
  have hpos : 0 < later s := by linarith
  have hfirst : 0 < (0 :: qs ++ [d]).findIdx (later s ≤ ·) :=
    (lt_searched h.sorted (by omega)).mpr hpos
  have hlow := lt_searched (t := later s) h.sorted (k := k) (by omega)
  have hhigh := lt_searched (t := later s) h.sorted (k := k + 1) hk
  rw [← not_lt, ← hlow, ← hhigh]
  -- the start of the first segment is below everything that is searched for
  have hzero (hs0 : s ≤ 0) (hmany : 2 < (0 :: qs ++ [d]).length) :
      ¬ 1 < (0 :: qs ++ [d]).findIdx (later s ≤ ·) := by
    rw [lt_searched h.sorted (by omega)]
    have hhalf := h.half_le (k := 0) hmany
    have h0 : (0 :: qs ++ [d])[0] = 0 := rfl
    rw [h0, zero_add] at hhalf
    rw [not_lt]
    linarith
  unfold indexAt
  rw [h.count_eq, add_tolerance hs hsmall, searchFloat64s_finite]
  generalize (0 :: qs ++ [d]).findIdx (later s ≤ ·) = j at *
  have hle : finite s ≤ 0 ↔ s ≤ 0 := finite_le
  by_cases hs0 : s ≤ 0
  · have hj := hzero hs0
    simp only [hle, hs0, decide_true, Bool.or_true, if_true]
    omega
  · rw [if_neg (by simp [hle, hs0])]
    simp only
    split_ifs <;> omega

theorem indexAt_start (h : Values duration cuts qs d) {k : ℕ}
    (hk : k + 1 < (0 :: qs ++ [d]).length) :
    indexAt ((0 :: qs ++ [d]).map finite) (finite (0 :: qs ++ [d])[k]) = k := by
  have hnonneg := h.nonneg (k := k) (by omega)
  have hlast : (0 :: qs ++ [d])[qs.length + 1] = d := by simp
  have hd : (0 :: qs ++ [d])[k] < d := by
    have hlt := List.pairwise_iff_getElem.mp h.sorted k (qs.length + 1) (by omega) (by simp)
      (by simp at hk; omega)
    rwa [hlast] at hlt
  have hlater := later_near hnonneg (by linarith [h.small])
  rw [abs_le] at hlater
  refine (h.indexAt_eq hnonneg hd.le hk).mpr ⟨by linarith, ?_⟩
  by_cases hend : k + 2 = (0 :: qs ++ [d]).length
  · exact .inr hend
  · have hhalf := h.half_le (k := k) (by omega)
    exact .inl (by linarith)

theorem indexAt_lt (h : Values duration cuts qs d) (x : Number) :
    indexAt ((0 :: qs ++ [d]).map finite) x < qs.length + 1 := by
  unfold indexAt
  rw [h.count_eq]
  simp only
  split_ifs <;> omega

theorem indexAt_mono (h : Values duration cuts qs d) (hs : 0 ≤ s) (hst : s ≤ t) (ht : t ≤ d) :
    indexAt ((0 :: qs ++ [d]).map finite) (finite s) ≤
      indexAt ((0 :: qs ++ [d]).map finite) (finite t) := by
  have hlength : (0 :: qs ++ [d]).length = qs.length + 2 := by simp
  obtain ⟨i, hi⟩ : ∃ i, indexAt ((0 :: qs ++ [d]).map finite) (finite s) = i := ⟨_, rfl⟩
  obtain ⟨j, hj⟩ : ∃ j, indexAt ((0 :: qs ++ [d]).map finite) (finite t) = j := ⟨_, rfl⟩
  have hlti := hi ▸ h.indexAt_lt (finite s)
  have hltj := hj ▸ h.indexAt_lt (finite t)
  obtain ⟨hlow, -⟩ := (h.indexAt_eq hs (hst.trans ht) (by omega)).mp hi
  obtain ⟨-, hhigh⟩ := (h.indexAt_eq (hs.trans hst) ht (by omega)).mp hj
  have hlater : later s ≤ later t := by
    have htolerance := tolerance_near
    rw [abs_le] at htolerance
    exact rounded_mono (by linarith) (by linarith)
  rw [hi, hj]
  rcases hhigh with hhigh | hend
  · by_contra hlt
    rcases (show j + 1 ≤ i by omega).lt_or_eq with hji | rfl
    · have hsorted := List.pairwise_iff_getElem.mp h.sorted (j + 1) i (by omega) (by omega) hji
      linarith
    · linarith
  · omega

end Values

/-- **A timeline that is built** begins at the start and finishes at the end, is cut at answered
keyframes, and has no segment over the maximum or cut under the minimum. A position is given the
segment that holds the time a tolerance after it, or the last one. -/
theorem copy_timeline (h : buildCopyTimeline duration keyframes ok = some boundaries) :
    (∃ cuts, boundaries = 0 :: cuts ++ [duration] ∧ (∀ x ∈ cuts, x ∈ keyframes) ∧
      List.IsChain (fun x y => x + copyTimelineMinSegment ≤ y) (0 :: cuts) ∧
      ∀ x ∈ cuts, x < duration - copyTimelineMinSegment) ∧
    boundaries.Pairwise (· < ·) ∧
    List.IsChain (fun x y => y - x ≤ copyTimelineMaxSegment) boundaries ∧
    (∀ seconds, 0 ≤ seconds → seconds ≤ duration → ∀ k, ∀ hk : k + 1 < boundaries.length,
      indexAt boundaries seconds = k ↔ boundaries[k] < seconds + tolerance ∧
        (seconds + tolerance ≤ boundaries[k + 1] ∨ k + 1 = count boundaries)) ∧
    (∀ k, ∀ hk : k + 1 < boundaries.length, indexAt boundaries boundaries[k] = k) ∧
    (∀ seconds, indexAt boundaries seconds < count boundaries) ∧
    ∀ seconds later, 0 ≤ seconds → seconds ≤ later → later ≤ duration →
      indexAt boundaries seconds ≤ indexAt boundaries later := by
  obtain ⟨cuts, qs, d, rfl, hmem, hchain, hshort, hvalues⟩ := values_of_build h
  have hspaced : List.IsChain (fun x y => x + copyTimelineMinSegment ≤ y) (0 :: cuts) := by
    rw [hvalues.cuts_eq] at hchain ⊢
    have hmap : (0 : Number) :: qs.map finite = (0 :: qs).map finite := rfl
    rw [hmap, List.isChain_map] at hchain ⊢
    exact hchain.imp fun a b hcut => le_of_not_lt (nearest_ne_nan _) Number.noConfusion hcut.spaced
  have hearly : ∀ x ∈ cuts, x < duration - copyTimelineMinSegment := by
    intro x hx
    obtain ⟨before, hcut⟩ := exists_before hchain hx
    rw [hvalues.cuts_eq] at hx
    obtain ⟨b, -, rfl⟩ := List.mem_map.mp hx
    exact lt_of_not_le Number.noConfusion (hvalues.duration_eq ▸ nearest_ne_nan _) hcut.early
  rw [hvalues.boundaries_eq] at hshort ⊢
  refine ⟨⟨cuts, hvalues.boundaries_eq.symm, hmem, hspaced, hearly⟩, ?_, ?_, ?_, ?_, ?_, ?_⟩
  · exact List.pairwise_map.mpr (hvalues.sorted.imp fun hab => finite_lt.mpr hab)
  · rw [List.isChain_map] at hshort ⊢
    exact hshort.imp fun a b hle => le_of_not_lt (nearest_ne_nan _) Number.noConfusion hle
  · intro seconds hfrom hto k hk
    rw [hvalues.duration_eq] at hto
    obtain ⟨s, rfl, hs, hsd⟩ := le_finite hfrom hto
    rw [List.length_map] at hk
    rw [hvalues.indexAt_eq hs hsd hk, List.getElem_map, List.getElem_map,
      add_tolerance hs (by linarith [hvalues.small]), finite_lt, finite_le, hvalues.count_eq]
    have hend : k + 2 = (0 :: qs ++ [d]).length ↔ k + 1 = qs.length + 1 := by
      simp only [List.cons_append, List.length_cons, List.length_append, List.length_nil]
      omega
    exact and_congr_right fun _ => or_congr_right hend
  · intro k hk
    rw [List.length_map] at hk
    rw [List.getElem_map]
    exact hvalues.indexAt_start hk
  · intro seconds
    rw [hvalues.count_eq]
    exact hvalues.indexAt_lt seconds
  · intro seconds later hfrom hle hto
    rw [hvalues.duration_eq] at hto
    obtain ⟨s, t, rfl, rfl, hs, hst, htd⟩ := le_le_finite hfrom hle hto
    exact hvalues.indexAt_mono hs hst htd

/-- A position less than half a microsecond before a cut is given the segment that the cut begins. -/
theorem early_segment :
    ¬ ∀ (duration : Number) (keyframes : List Number) (ok : List Bool) (boundaries : List Number),
      buildCopyTimeline duration keyframes ok = some boundaries →
      ∀ (seconds : Number) (k : ℕ) (hk : k + 1 < boundaries.length), boundaries[k] ≤ seconds →
        seconds < boundaries[k + 1] → indexAt boundaries seconds = k := by
  intro h
  have hlate : indexAt [0, 4, 8] (finite (4 - 1 / 2 ^ 21)) = 1 := by decide +kernel
  have hkept := h 8 [4] [true] [0, 4, 8] (by decide +kernel) (finite (4 - 1 / 2 ^ 21)) 0 (by decide)
    (by decide +kernel) (by decide +kernel)
  rw [hlate] at hkept
  exact absurd hkept one_ne_zero

/-- Two answers for one keyframe are folded, and one close to the end. -/
theorem copy_timeline_folded :
    buildCopyTimeline 20 [4, 12, 12, finite (39 / 2)] [true, true, true, true] =
      some [0, 4, 12, 20] ∧ indexAt [0, 4, 12, 20] 12 = 2 :=
  ⟨by decide +kernel, by
    have hbuilt : buildCopyTimeline 20 [4, 12, 12, finite (39 / 2)] [true, true, true, true] =
        some [0, 4, 12, 20] := by decide +kernel
    exact (copy_timeline hbuilt).2.2.2.2.1 2 (by decide)⟩

end Portico.Playback
