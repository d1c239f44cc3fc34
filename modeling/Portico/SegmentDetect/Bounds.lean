import Portico.SegmentDetect.Consensus

/-!
# What is detected lies in the file

Intro and credits read nothing outside the fingerprint, whatever segments they are given. What they
return comes from a run that enough neighbours share, and lies in the file.

## Main results

* `exists_coverage`, `exists_support`: the neighbours are counted without a read out of range
* `exists_intro`, `exists_credits`: so are intro and credits found, as they have to be
* `matched_segments`: the bounds of all three
-/

namespace Portico.SegmentDetect

variable {self : Fingerprint} {pairs : List PairMatches} {durationUS : ℤ}

/-! ## The neighbours are counted -/

theorem index_le (f : Fingerprint) (us : ℤ) : f.index us ≤ f.points.length := by
  unfold Fingerprint.index
  omega

theorem exists_setRange {l : List Bool} (first : ℕ) {last : ℕ} (h : last ≤ l.length) :
    ∃ m, setRange l first last = some m ∧ m.length = l.length := by
  unfold setRange
  rw [if_neg (by omega)]
  exact ⟨_, rfl, List.length_mapIdx⟩

theorem exists_setWhen {l : List Bool} (cond : Bool) (first : ℕ) {last : ℕ} (h : last ≤ l.length) :
    ∃ m, setWhen cond l first last = some m ∧ m.length = l.length := by
  unfold setWhen
  split_ifs
  · exact exists_setRange first h
  · exact ⟨l, rfl, rfl⟩

/-- A mask over all points of a fingerprint. -/
structure Covers (f : Fingerprint) (m : NeighbourMask) : Prop where
  seen : m.seen.length = f.points.length
  guessed : m.guessed.length = f.points.length

theorem exists_addSegment (p : PairMatches) {m : NeighbourMask} (h : Covers self m) (s : Segment) :
    ∃ m', addSegment self p m s = some m' ∧ Covers self m' := by
  have hfirst := index_le self s.aStartUS
  have hlast := index_le self s.aEndUS
  obtain ⟨seen, hseen, hlen⟩ := exists_setRange (l := m.seen) (self.index s.aStartUS)
    (hlast.trans h.seen.ge)
  obtain ⟨guessed, hguessed, hglen⟩ := exists_setWhen (l := m.guessed)
    (p.bStartUS > 0 && s.bStartUS ≤ p.bStartUS + stepUS) 0 (hfirst.trans h.guessed.ge)
  obtain ⟨guessed', hguessed', hglen'⟩ := exists_setWhen (l := guessed)
    (s.bEndUS ≥ p.bEndUS - stepUS) (self.index s.aEndUS) (hglen.trans h.guessed).ge
  refine ⟨⟨seen, guessed'⟩, ?_, hlen.trans h.seen, hglen'.trans (hglen.trans h.guessed)⟩
  simp only [addSegment, hseen, hguessed, hguessed', Option.bind_eq_bind, Option.bind_some]
  rfl

theorem exists_mask (self : Fingerprint) (p : PairMatches) :
    ∃ m, mask self p = some m ∧ Covers self m :=
  exists_foldlM (fun _ hm s _ => exists_addSegment p hm s)
    ⟨List.length_replicate, List.length_replicate⟩

theorem exists_masks (self : Fingerprint) (pairs : List PairMatches) :
    ∃ all, masks self pairs = some all ∧ ∀ m ∈ all, Covers self m := by
  have hsteps : ∀ p ∈ pairs, ∃ m, mask self p = some m :=
    fun p _ => (exists_mask self p).imp fun _ h => h.1
  obtain ⟨all, hall⟩ := exists_mapM hsteps
  refine ⟨all, hall, fun m hm => ?_⟩
  obtain ⟨p, -, hp⟩ := mem_mapM hall hm
  obtain ⟨m', hm', hcovers⟩ := exists_mask self p
  exact Option.some.inj (hm'.symm.trans hp) ▸ hcovers

theorem exists_counts {m : NeighbourMask} (h : Covers self m) {i : ℕ}
    (hi : i < self.points.length) : ∃ c, counts i m = some c := by
  obtain ⟨seen, hseen⟩ := exists_getElem (h.seen ▸ hi)
  obtain ⟨guessed, hguessed⟩ := exists_getElem (h.guessed ▸ hi)
  unfold counts
  rw [hseen, hguessed]
  cases seen <;> exact ⟨_, rfl⟩

theorem exists_coverage (self : Fingerprint) (pairs : List PairMatches) :
    ∃ c, coverage self pairs = some c ∧ c.length = self.points.length := by
  obtain ⟨all, hall, hcovers⟩ := exists_masks self pairs
  have hsteps : ∀ i ∈ List.range self.points.length, ∃ n, coverageAt all i = some n := by
    intro i hi
    have hcounts : ∀ m ∈ all, ∃ c, counts i m = some c :=
      fun m hm => exists_counts (hcovers m hm) (List.mem_range.mp hi)
    obtain ⟨counted, hcounted⟩ := exists_mapM hcounts
    rw [coverageAt, hcounted]
    exact ⟨_, rfl⟩
  obtain ⟨c, hc⟩ := exists_mapM hsteps
  refine ⟨c, ?_, by simpa using length_mapM hc⟩
  rw [coverage, hall]
  exact hc

/-- **The neighbours of a run are counted** without a read out of range. -/
theorem exists_support (pairs : List PairMatches) {r : Run} (h : r.last ≤ self.points.length) :
    ∃ s, support self pairs r = some s := by
  obtain ⟨all, hall, hcovers⟩ := exists_masks self pairs
  have hshares : ∀ m ∈ all, ∃ v, shares r m = some v := by
    intro m hm
    have hcounts : ∀ i ∈ List.range' r.first (r.last - r.first), ∃ c, counts i m = some c := by
      intro i hi
      rw [List.mem_range'_1] at hi
      exact exists_counts (hcovers m hm) (by omega)
    obtain ⟨counted, hcounted⟩ := exists_mapM hcounts
    rw [shares, hcounted]
    exact ⟨_, rfl⟩
  obtain ⟨sharing, hsharing⟩ := exists_mapM hshares
  rw [support, hall, Option.bind_eq_bind, Option.bind_some, hsharing]
  exact ⟨_, rfl⟩

theorem mem_sharedRuns {c : List ℕ} {need : ℕ} {r : Run} (h : r ∈ sharedRuns c need) :
    r.first < r.last ∧ r.last ≤ c.length := by
  obtain ⟨p, hp, rfl⟩ := List.mem_map.mp h
  have := mem_bridged hp
  rw [List.length_map] at this
  exact ⟨by show p.1 < p.2 + 1; omega, by show p.2 + 1 ≤ c.length; omega⟩

theorem sharedRuns_pairwise (c : List ℕ) (need : ℕ) :
    (sharedRuns c need).Pairwise fun r s => r.last ≤ s.first :=
  List.pairwise_map.mpr (bridged_pairwise.imp fun h => h)

/-! ## Silence -/

theorem exists_trailFrom {i : ℕ} (left : ℕ) (h : i + left ≤ self.points.length) :
    ∃ j, trailFrom self i left = some j ∧ i ≤ j ∧ j ≤ i + left := by
  induction left generalizing i with
  | zero => exact ⟨i, rfl, le_rfl, le_rfl⟩
  | succ left ih =>
    obtain ⟨e, he⟩ := exists_getElem (l := self.energy) (i := i) (by rw [self.paired]; omega)
    unfold trailFrom
    rw [he, Option.bind_eq_bind, Option.bind_some]
    split_ifs
    · obtain ⟨j, hj, hle⟩ := ih (i := i + 1) (by omega)
      exact ⟨j, hj, by omega⟩
    · exact ⟨i, rfl, by omega⟩

theorem exists_trailSilence {i : ℕ} (limit : ℤ) (h : i ≤ self.points.length) :
    ∃ j, trailSilence self i limit = some j ∧ i ≤ j ∧ j ≤ self.points.length := by
  unfold trailSilence
  have hroom : i + (min (self.points.length : ℤ) (i + limit.tdiv stepUS) - i).toNat ≤
      self.points.length := by omega
  obtain ⟨j, hj, hle⟩ := exists_trailFrom _ hroom
  exact ⟨j, hj, hle.1, hle.2.trans hroom⟩

theorem exists_audibleUS (first last : ℕ) : ∃ n, audibleUS self first last = some n := by
  have hsteps : ∀ i ∈ List.range' first (min last self.points.length - first),
      ∃ e, self.energy[i]? = some e := by
    intro i hi
    rw [List.mem_range'_1] at hi
    exact exists_getElem (by rw [self.paired]; omega)
  obtain ⟨energies, henergies⟩ := exists_mapM hsteps
  rw [audibleUS, henergies]
  exact ⟨_, rfl⟩

theorem atPoint_le {f : Fingerprint} {i j : ℕ} (h : i ≤ j) : f.atPoint i ≤ f.atPoint j := by
  simp only [Fingerprint.atPoint, stepUS]
  omega

theorem atPoint_sub {f : Fingerprint} (i j : ℕ) :
    f.atPoint j - f.atPoint i = ((j : ℤ) - i) * stepUS := by
  simp only [Fingerprint.atPoint]
  ring

theorem atPoint_le_endUS {f : Fingerprint} {i : ℕ} (h : i ≤ f.points.length) :
    f.atPoint i ≤ f.endUS := atPoint_le h

theorem tdiv_two (d : ℤ) :
    (0 ≤ d → 2 * d.tdiv 2 ≤ d ∧ 0 ≤ d.tdiv 2) ∧ (d < 0 → d ≤ d.tdiv 2 ∧ d.tdiv 2 ≤ 0) := by
  refine ⟨fun h => ?_, fun h => ?_⟩
  · rw [Int.tdiv_eq_ediv_of_nonneg h]
    omega
  · rw [← Int.neg_neg d, Int.neg_tdiv, Int.tdiv_eq_ediv_of_nonneg (by omega)]
    omega

/-! ## Intro -/

/-- The run that an intro comes from: enough neighbours share it, it is as long as an intro may be
and ends no later than the middle of the file. -/
structure IntroRun (f : Fingerprint) (pairs : List PairMatches) (durationUS : ℤ) (n : ℕ) (dist : ℚ)
    (r : Run) : Prop where
  order : r.first < r.last
  inside : r.last ≤ f.points.length
  counted : support f pairs r = some (n, dist)
  backed : required pairs.length ≤ n
  long : minIntroUS ≤ ((r.last : ℤ) - r.first) * stepUS
  short : ((r.last : ℤ) - r.first) * stepUS ≤ maxIntroUS
  early : f.atPoint r.last ≤ durationUS.tdiv 2

/-- What an intro is: it begins with its run, or with the file when that is close, and ends with
the silence after the run. -/
structure IntroOf (f : Fingerprint) (pairs : List PairMatches) (durationUS : ℤ) (d : Detection)
    (r : Run) : Prop where
  run : IntroRun f pairs durationUS d.support d.meanDistanceBits r
  kind : d.kind = .intro
  start : d.startUS = if f.atPoint r.first ≤ introSnapUS then 0 else f.atPoint r.first
  trail : ∃ j : ℕ, r.last ≤ j ∧ j ≤ f.points.length ∧ d.endUS = min (f.atPoint j) durationUS

/-- The best run so far is one that an intro can come from, if there is one. -/
def BestIntro (f : Fingerprint) (pairs : List PairMatches) (durationUS : ℤ) (best : Run × ℕ × ℚ) :
    Prop :=
  best.2.1 = 0 ∨ IntroRun f pairs durationUS best.2.1 best.2.2 best.1

theorem exists_betterIntro {best : Run × ℕ × ℚ} (hbest : BestIntro self pairs durationUS best)
    {r : Run} (hlt : r.first < r.last) (hle : r.last ≤ self.points.length) :
    ∃ next, betterIntro self pairs durationUS best r = some next ∧
      BestIntro self pairs durationUS next := by
  obtain ⟨⟨n, dist⟩, hs⟩ := exists_support pairs hle
  unfold betterIntro
  simp only [hs, Option.bind_eq_bind, Option.bind_some]
  split_ifs with hbounds hback hbetter
  · exact ⟨best, rfl, hbest⟩
  · exact ⟨best, rfl, hbest⟩
  · simp only [Bool.or_eq_true, decide_eq_true_eq, not_or, not_lt] at hbounds
    exact ⟨_, rfl, .inr ⟨hlt, hle, hs, not_lt.mp hback, hbounds.1.1, hbounds.1.2, hbounds.2⟩⟩
  · exact ⟨best, rfl, hbest⟩

/-- **An intro** is found without a read out of range, and comes from a run that it can come
from. -/
theorem exists_intro (self : Fingerprint) (pairs : List PairMatches) (durationUS : ℤ) :
    ∃ o, intro self pairs durationUS = some o ∧
      ∀ d, o = some d → ∃ r, IntroOf self pairs durationUS d r := by
  unfold intro
  split_ifs with hempty
  · exact ⟨none, rfl, fun d hd => nomatch hd⟩
  · obtain ⟨c, hc, hlen⟩ := exists_coverage self pairs
    have hruns : ∃ best, (sharedRuns c (required pairs.length)).foldlM
        (betterIntro self pairs durationUS) (⟨0, 0⟩, 0, 0) = some best ∧
        BestIntro self pairs durationUS best :=
      exists_foldlM (fun b hb r hr => exists_betterIntro hb (mem_sharedRuns hr).1
        ((mem_sharedRuns hr).2.trans hlen.le)) (.inl rfl)
    obtain ⟨⟨best, n, dist⟩, hfold, hbest⟩ := hruns
    simp only [hc, hfold, Option.bind_eq_bind, Option.bind_some]
    by_cases hn : n = 0
    · rw [if_pos hn]
      exact ⟨none, rfl, fun d hd => nomatch hd⟩
    · have hrun := hbest.resolve_left hn
      obtain ⟨j, hj, hle, hlej⟩ := exists_trailSilence silenceTrailUS hrun.inside
      rw [if_neg hn, hj]
      refine ⟨_, rfl, fun d hd => ?_⟩
      obtain rfl := Option.some.inj hd
      exact ⟨best, hrun, rfl, rfl, j, hle, hlej, rfl⟩

/-- An intro lies in the file, if its fingerprint doesn't begin before it. -/
theorem IntroOf.inside_file {d : Detection} {r : Run} (h : IntroOf self pairs durationUS d r)
    (hstart : 0 ≤ self.startUS) :
    0 ≤ d.startUS ∧ d.startUS < d.endUS ∧ d.endUS ≤ durationUS := by
  obtain ⟨j, hlej, -, hend⟩ := h.trail
  have hfirst : 0 ≤ self.atPoint r.first := by
    simp only [Fingerprint.atPoint, stepUS]
    omega
  have hlong := h.run.long
  rw [← atPoint_sub (f := self)] at hlong
  have hmin : minIntroUS = 15000000 := by decide
  have hsnap : introSnapUS = 5000000 := by decide
  have hmono := atPoint_le (f := self) hlej
  have hearly := h.run.early
  have hduration : 0 ≤ durationUS := by
    by_contra hneg
    have := (tdiv_two durationUS).2 (by omega)
    omega
  have hhalf := (tdiv_two durationUS).1 hduration
  have hs := h.start
  split_ifs at hs <;> omega

/-! ## Credits -/

/-- The run that credits come from: enough neighbours share it, it is as long as credits have to
be and begins no earlier than the middle of the file. -/
structure CreditsRun (f : Fingerprint) (pairs : List PairMatches) (durationUS : ℤ) (c : Candidate) :
    Prop where
  order : c.run.first < c.run.last
  inside : c.run.last ≤ f.points.length
  counted : support f pairs c.run = some (c.support, c.dist)
  backed : required pairs.length ≤ c.support
  long : minCreditsUS ≤ ((c.run.last : ℤ) - c.run.first) * stepUS
  late : durationUS.tdiv 2 ≤ f.atPoint c.run.first

/-- What credits are: they begin with their run, and end with the file, or with a scene that is
left before its end. -/
structure CreditsOf (f : Fingerprint) (pairs : List PairMatches) (durationUS : ℤ) (d : Detection)
    (r : Run) : Prop where
  run : CreditsRun f pairs durationUS ⟨r, d.support, d.meanDistanceBits⟩
  kind : d.kind = .credits
  start : d.startUS = f.atPoint r.first
  tail : d.followedByScene = false ∧ d.endUS = durationUS ∨ ∃ j : ℕ, r.last ≤ j ∧
    j ≤ f.points.length ∧ d.endUS = f.atPoint j ∧ d.endUS < durationUS - minSceneUS

/-- A candidate among the runs that enough neighbours share. -/
structure Supported (f : Fingerprint) (pairs : List PairMatches) (c : Candidate) : Prop where
  order : c.run.first < c.run.last
  inside : c.run.last ≤ f.points.length
  counted : support f pairs c.run = some (c.support, c.dist)
  backed : required pairs.length ≤ c.support

/-- Candidates in order, and apart. -/
def Apart (l : List Candidate) : Prop := l.Pairwise fun c d => c.run.last ≤ d.run.first

theorem exists_candidates {need : ℕ} (hneed : need = required pairs.length) {r : Run}
    (hlt : r.first < r.last) (hle : r.last ≤ self.points.length) :
    ∃ l, candidates self pairs need r = some l ∧ (∀ c ∈ l, Supported self pairs c) ∧
      (l.map (·.run)).Sublist [r] := by
  obtain ⟨⟨n, dist⟩, hs⟩ := exists_support pairs hle
  unfold candidates
  simp only [hs, Option.bind_eq_bind, Option.bind_some]
  split_ifs with hn
  · refine ⟨_, rfl, fun c hc => ?_, .refl _⟩
    obtain rfl := List.mem_singleton.mp hc
    exact ⟨hlt, hle, hs, hneed ▸ hn⟩
  · exact ⟨[], rfl, fun c hc => (nomatch hc), List.nil_sublist _⟩

/-- The candidates are found without a read out of range, in order and apart. -/
theorem exists_supported {need : ℕ} (hneed : need = required pairs.length) {runs : List Run}
    (hruns : ∀ r ∈ runs, r.first < r.last ∧ r.last ≤ self.points.length)
    (hapart : runs.Pairwise fun r s => r.last ≤ s.first) :
    ∃ l, supported self pairs need runs = some l ∧ (∀ c ∈ l, Supported self pairs c) ∧ Apart l := by
  have hall : ∃ m, runs.mapM (candidates self pairs need) = some m ∧
      (∀ c ∈ m.flatten, Supported self pairs c) ∧ (m.flatten.map (·.run)).Sublist runs := by
    clear hapart
    induction runs with
    | nil => exact ⟨[], rfl, fun c hc => (nomatch hc), List.nil_sublist _⟩
    | cons r runs ih =>
      obtain ⟨hlt, hle⟩ := hruns r List.mem_cons_self
      obtain ⟨l, hl, hsup, hsub⟩ := exists_candidates hneed hlt hle
      obtain ⟨m, hm, hmsup, hmsub⟩ := ih fun s hs => hruns s (List.mem_cons_of_mem _ hs)
      refine ⟨l :: m, by rw [List.mapM_cons, hl, hm]; rfl, fun c hc => ?_, ?_⟩
      · rw [List.flatten_cons] at hc
        exact (List.mem_append.mp hc).elim (hsup c) (hmsup c)
      · rw [List.flatten_cons, List.map_append]
        exact hsub.append hmsub
  obtain ⟨m, hm, hsup, hsub⟩ := hall
  have hpair : Apart m.flatten := List.pairwise_map.mp (hapart.sublist hsub)
  have hsorted : m.flatten.Pairwise fun c d => decide (c.run.first ≤ d.run.first) = true :=
    hpair.imp_of_mem fun {c d} hc _ hle => decide_eq_true ((hsup c hc).order.le.trans hle)
  refine ⟨m.flatten, ?_, hsup, hpair⟩
  rw [supported, hm, Option.bind_eq_bind, Option.bind_some, List.mergeSort_of_pairwise hsorted]
  rfl

/-- The candidate that is chosen stands among them, before what follows it. -/
theorem bestCredits_eq {l after : List Candidate} {best : Option (Candidate × List Candidate)}
    {c : Candidate} (h : bestCredits self durationUS best l = some (c, after)) :
    best = some (c, after) ∨ ∃ before, l = before ++ c :: after ∧
      minCreditsUS ≤ ((c.run.last : ℤ) - c.run.first) * stepUS ∧
      durationUS.tdiv 2 ≤ self.atPoint c.run.first := by
  induction l generalizing best with
  | nil => exact .inl h
  | cons x l ih =>
    have hskip : ∀ best', bestCredits self durationUS best' l = some (c, after) →
        best' = some (c, after) ∨ ∃ before, x :: l = before ++ c :: after ∧
          minCreditsUS ≤ ((c.run.last : ℤ) - c.run.first) * stepUS ∧
          durationUS.tdiv 2 ≤ self.atPoint c.run.first := by
      intro best' h'
      refine (ih h').imp id ?_
      rintro ⟨before, rfl, hrest⟩
      exact ⟨x :: before, rfl, hrest⟩
    unfold bestCredits at h
    simp only at h
    by_cases hout : (decide (((x.run.last : ℤ) - x.run.first) * stepUS < minCreditsUS) ||
        decide (self.atPoint x.run.first < durationUS.tdiv 2)) = true
    · rw [if_pos hout] at h
      exact hskip best h
    · rw [if_neg hout] at h
      have htake : ∀ best', bestCredits self durationUS (some (x, l)) l = some (c, after) →
          best' = some (c, after) ∨ ∃ before, x :: l = before ++ c :: after ∧
            minCreditsUS ≤ ((c.run.last : ℤ) - c.run.first) * stepUS ∧
            durationUS.tdiv 2 ≤ self.atPoint c.run.first := by
        intro best' h'
        rcases hskip _ h' with heq | hmem
        · obtain ⟨rfl, rfl⟩ := Prod.mk.inj (Option.some.inj heq)
          simp only [Bool.or_eq_true, decide_eq_true_eq, not_or, not_lt] at hout
          exact .inr ⟨[], rfl, hout⟩
        · exact .inr hmem
      cases best with
      | none => exact htake none h
      | some b =>
        simp only at h
        split_ifs at h
        · exact htake _ h
        · exact hskip _ h

theorem joined_le {l : List Candidate} {last n : ℕ} (hlast : last ≤ n)
    (hl : ∀ c ∈ l, c.run.last ≤ n) : joined last l ≤ n := by
  induction l generalizing last with
  | nil => exact hlast
  | cons c l ih =>
    rw [joined]
    split_ifs
    · exact hlast
    · exact ih (hl c List.mem_cons_self) fun x hx => hl x (List.mem_cons_of_mem _ hx)

theorem le_joined {l : List Candidate} {last : ℕ} (hlast : ∀ c ∈ l, last ≤ c.run.last)
    (hl : l.Pairwise fun c d => c.run.last ≤ d.run.last) : last ≤ joined last l := by
  induction l generalizing last with
  | nil => exact le_rfl
  | cons c l ih =>
    rw [List.pairwise_cons] at hl
    rw [joined]
    split_ifs
    · exact le_rfl
    · exact (hlast c List.mem_cons_self).trans (ih hl.1 hl.2)

/-- **Credits** are found without a read out of range, and come from a run that they can come
from. -/
theorem exists_credits (self : Fingerprint) (pairs : List PairMatches) (durationUS : ℤ) :
    ∃ o, credits self pairs durationUS = some o ∧
      ∀ d, o = some d → ∃ r, CreditsOf self pairs durationUS d r := by
  unfold credits
  by_cases hempty : (decide (pairs.length = 0) || decide (self.points.length = 0)) = true
  · rw [if_pos hempty]
    exact ⟨none, rfl, fun d hd => nomatch hd⟩
  · rw [if_neg hempty]
    obtain ⟨c, hc, hlen⟩ := exists_coverage self pairs
    obtain ⟨l, hl, hsup, hapart⟩ := @exists_supported self pairs _ rfl _ (fun r hr => (mem_sharedRuns hr).imp id fun h => h.trans hlen.le) (sharedRuns_pairwise c (required pairs.length))
    simp only [hc, hl, Option.bind_eq_bind, Option.bind_some]
    cases hbest : bestCredits self durationUS none l with
    | none => exact ⟨none, rfl, fun d hd => nomatch hd⟩
    | some b =>
      obtain ⟨best, rest⟩ := b
      obtain ⟨before, rfl, hlong, hlate⟩ := (bestCredits_eq hbest).resolve_left nofun
      have hmem : best ∈ before ++ best :: rest := by simp
      have hb := hsup best hmem
      have hrest : ∀ x ∈ rest, Supported self pairs x := fun x hx => hsup x (by simp [hx])
      obtain ⟨hfollow, hrestapart⟩ := List.pairwise_cons.mp (List.pairwise_append.mp hapart).2.1
      -- the runs that follow end later, so that joining them never moves the end back
      have hend : best.run.last ≤ joined best.run.last rest :=
        le_joined (fun x hx => (hfollow x hx).trans (hrest x hx).order.le)
          (hrestapart.imp_of_mem fun {x y} _ hy h => h.trans (hrest y hy).order.le)
      have hin : joined best.run.last rest ≤ self.points.length :=
        joined_le hb.inside fun x hx => (hrest x hx).inside
      obtain ⟨j, hj, hlej, hjlen⟩ := exists_trailSilence silenceTrailUS hin
      obtain ⟨audible, haudible⟩ := @exists_audibleUS self j self.points.length
      simp only [hj, haudible, Option.bind_some]
      by_cases hmax : ((joined best.run.last rest : ℤ) - best.run.first) * stepUS > maxCreditsUS
      · rw [if_pos hmax]
        exact ⟨none, rfl, fun d hd => nomatch hd⟩
      · rw [if_neg hmax]
        refine ⟨_, rfl, fun d hd => ?_⟩
        obtain rfl := Option.some.inj hd
        refine ⟨best.run, ⟨hb.order, hb.inside, hb.counted, hb.backed, hlong, hlate⟩, rfl, rfl, ?_⟩
        cases hscene : (decide (audible ≥ minSceneUS) &&
            decide (self.atPoint j < durationUS - minSceneUS)) with
        | false => exact .inl ⟨rfl, rfl⟩
        | true =>
          rw [Bool.and_eq_true, decide_eq_true_eq, decide_eq_true_eq] at hscene
          exact .inr ⟨j, hend.trans hlej, hjlen, rfl, hscene.2⟩

/-- Credits lie in the file, if their fingerprint doesn't go on for as long as credits last after
its end. -/
theorem CreditsOf.inside_file {d : Detection} {r : Run} (h : CreditsOf self pairs durationUS d r)
    (hend : self.endUS < durationUS + minCreditsUS) :
    0 ≤ d.startUS ∧ d.startUS < d.endUS ∧ d.endUS ≤ durationUS := by
  have hlong := h.run.long
  have horder := h.run.order
  have hlate := h.run.late
  have hstart := h.start
  have hlast := atPoint_le_endUS h.run.inside
  rw [← atPoint_sub (f := self)] at hlong
  simp only at hlong hlate hlast horder
  have hmin : minSceneUS = 8000000 := by decide
  have hduration : 0 ≤ durationUS := by
    by_contra hneg
    have := (tdiv_two durationUS).2 (by omega)
    omega
  have hhalf := (tdiv_two durationUS).1 hduration
  rcases h.tail with ⟨-, hfile⟩ | ⟨j, hle, -, htail, hscene⟩
  · omega
  · have hmono := atPoint_le (f := self) hle
    have hcredits : minCreditsUS = 15000000 := by decide
    omega

/-! ## The bounds -/

/-- **Segments, intro and credits.** What two fingerprints share stands in order and apart, lies in
both and is long enough. Intro and credits read nothing outside the fingerprint. An intro comes from
a run that enough neighbours share, which is as long as an intro may be and ends no later than the
middle of the file, and lies in the file if its fingerprint doesn't begin before it; credits come
from a run that enough neighbours share and that begins no earlier than the middle, and lie in the
file if the fingerprint ends less than the length of credits after it. -/
theorem matched_segments :
    (∀ (a b : Fingerprint) (minUS : ℤ) (sorted : List Peak → List Peak),
      ∃ out, matchSegments a b minUS sorted = some out ∧
        out.Pairwise (fun s t => s.aEndUS ≤ t.aStartUS) ∧ ∀ s ∈ out, Inside a b minUS s) ∧
    (∀ (self : Fingerprint) (pairs : List PairMatches) (durationUS : ℤ),
      ∃ o, intro self pairs durationUS = some o ∧ ∀ d, o = some d →
        (∃ r, IntroOf self pairs durationUS d r) ∧
        (0 ≤ self.startUS → 0 ≤ d.startUS ∧ d.startUS < d.endUS ∧ d.endUS ≤ durationUS)) ∧
    (∀ (self : Fingerprint) (pairs : List PairMatches) (durationUS : ℤ),
      ∃ o, credits self pairs durationUS = some o ∧ ∀ d, o = some d →
        (∃ r, CreditsOf self pairs durationUS d r) ∧
        (self.endUS < durationUS + minCreditsUS →
          0 ≤ d.startUS ∧ d.startUS < d.endUS ∧ d.endUS ≤ durationUS)) := by
  refine ⟨exists_matchSegments, fun self pairs durationUS => ?_, fun self pairs durationUS => ?_⟩
  · obtain ⟨o, ho, hof⟩ := exists_intro self pairs durationUS
    refine ⟨o, ho, fun d hd => ⟨hof d hd, fun hstart => ?_⟩⟩
    obtain ⟨r, hr⟩ := hof d hd
    exact hr.inside_file hstart
  · obtain ⟨o, ho, hof⟩ := exists_credits self pairs durationUS
    refine ⟨o, ho, fun d hd => ⟨hof d hd, fun hend => ?_⟩⟩
    obtain ⟨r, hr⟩ := hof d hd
    exact hr.inside_file hend

/-- A fingerprint of audible points, and a neighbour that shares a stretch of it. -/
def audible (startUS : ℤ) (n : ℕ) : Fingerprint where
  startUS := startUS
  points := List.replicate n 0
  energy := List.replicate n 255
  paired := by rw [List.length_replicate, List.length_replicate]

def sharing (first last : ℤ) : List PairMatches := [⟨[⟨first, last, first, last, 0⟩], 0, last + 1⟩]

theorem matched_segments_opening :
    ∃ d, intro (audible 0 140) (sharing (seconds 2) (seconds 17)) (seconds 100) = some (some d) ∧
      0 ≤ d.startUS ∧ d.startUS < d.endUS ∧ d.endUS ≤ seconds 100 := by
  obtain ⟨o, ho, hof⟩ := matched_segments.2.1 (audible 0 140) (sharing (seconds 2) (seconds 17))
    (seconds 100)
  have hfound : intro (audible 0 140) (sharing (seconds 2) (seconds 17)) (seconds 100) ≠
      some none := by decide +kernel
  cases o with
  | none => exact absurd ho hfound
  | some d => exact ⟨d, ho, (hof d rfl).2 (by decide)⟩

/-- A fingerprint that begins after the file has ended gives credits that begin there. -/
theorem credits_after_end :
    ∃ d, credits (audible (seconds 200) 120) (sharing (seconds 200) (seconds 215)) (seconds 100) =
        some (some d) ∧ d.startUS = seconds 200 ∧ d.endUS = seconds 100 := by
  have hcoverage : coverage (audible (seconds 200) 120) (sharing (seconds 200) (seconds 215)) =
      some (List.replicate 120 1) := by decide +kernel
  have hcandidates : (sharedRuns (List.replicate 120 1) (required 1)).mapM (candidates
      (audible (seconds 200) 120) (sharing (seconds 200) (seconds 215)) (required 1)) =
      some [[⟨⟨0, 120⟩, 1, 0⟩]] := by decide +kernel
  have hsupported : supported (audible (seconds 200) 120) (sharing (seconds 200) (seconds 215))
      (required 1) (sharedRuns (List.replicate 120 1) (required 1)) =
      some [⟨⟨0, 120⟩, 1, 0⟩] := by
    rw [supported, hcandidates, Option.bind_eq_bind, Option.bind_some, List.flatten_singleton,
      List.mergeSort_singleton]
    rfl
  have hbest : bestCredits (audible (seconds 200) 120) (seconds 100) none [⟨⟨0, 120⟩, 1, 0⟩] =
      some (⟨⟨0, 120⟩, 1, 0⟩, []) := by decide +kernel
  have htrail : trailSilence (audible (seconds 200) 120) 120 silenceTrailUS = some 120 := by
    decide +kernel
  have haudible : audibleUS (audible (seconds 200) 120) 120 120 = some 0 := by decide +kernel
  have hlen : (audible (seconds 200) 120).points.length = 120 := List.length_replicate
  unfold credits
  rw [if_neg (by decide +kernel), hcoverage, Option.bind_eq_bind, Option.bind_some]
  simp only [show (sharing (seconds 200) (seconds 215)).length = 1 from rfl, hsupported, hbest,
    joined, htrail, hlen, haudible, Option.bind_eq_bind, Option.bind_some]
  rw [if_neg (by decide +kernel)]
  exact ⟨_, rfl, rfl, rfl⟩

end Portico.SegmentDetect
