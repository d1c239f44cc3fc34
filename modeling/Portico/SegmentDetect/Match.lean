import Portico.Lib.Bridge
import Portico.Lib.Outcome
import Portico.Lib.Rounding

/-!
# Audio that two files share

Two fingerprints are laid over each other at the offsets that most of their points vote for. At one
offset the runs where the points agree are found by a window that slides over them, trimmed to where
the points themselves begin and cease to agree, and returned as segments; of segments that
overlap the longest stays. A read outside a fingerprint would stop the program, and is `none` here.

## Main definitions

* `Fingerprint`, `Segment`
* `candidateOffsets`: the offsets that points vote for
* `alignedRuns`: the segments at one offset
* `matchSegments`: the segments of all offsets

## Main results

* `Inside`, `exists_alignedRuns`: a segment lies in both fingerprints
* `clear_pairwise`: segments that stay don't overlap
* `exists_matchSegments`: what two fingerprints share is in order and apart
-/

namespace Portico.SegmentDetect

open Number (rounded)

def stepUS : ℤ := 125000

def quietEnergy : ℕ := 78

/-- The audio of one stretch of a file: a point every step, and its loudness. -/
structure Fingerprint where
  startUS : ℤ
  points : List (BitVec 32)
  energy : List ℕ
  paired : energy.length = points.length

namespace Fingerprint

/-- The file time of a point. -/
def atPoint (f : Fingerprint) (i : ℤ) : ℤ := f.startUS + i * stepUS

/-- The file time just after the last point. -/
def endUS (f : Fingerprint) : ℤ := f.startUS + f.points.length * stepUS

/-- The point that covers a file time, clamped to the fingerprint. -/
def index (f : Fingerprint) (us : ℤ) : ℕ :=
  (max 0 (min (f.points.length : ℤ) ((us - f.startUS).tdiv stepUS))).toNat

end Fingerprint

/-- The number of bits in which two points differ. -/
def distance (p q : BitVec 32) : ℕ := (List.range 32).countP fun i => (p ^^^ q).getLsbD i

structure Segment where
  aStartUS : ℤ
  aEndUS : ℤ
  bStartUS : ℤ
  bEndUS : ℤ
  distance : ℚ
  deriving DecidableEq, Repr

def Segment.lengthUS (s : Segment) : ℤ := s.aEndUS - s.aStartUS

def matchBits : ℚ := 10
def matchWindow : ℕ := 16
def bridgeGap : ℕ := 12
def maxOffsets : ℕ := 12
def minVotes : ℕ := 6
def popularKey : ℕ := 48

variable (a b : Fingerprint) (offset minUS : ℤ)

/-! ## Offsets -/

/-- Whether a point can vote: it isn't quiet, and not the same as the point before it. -/
def informative (f : Fingerprint) (i : ℕ) : Option Bool := do
  let energy ← readAt f.energy i
  if energy ≤ quietEnergy then return false
  else if i = 0 then return true
  else
    let p ← readAt f.points i
    let before ← readAt f.points (i - 1)
    return p ≠ before

def halves (v : BitVec 32) : List (BitVec 32) := [v &&& 0xffff#32, 0x10000#32 ||| v >>> 16]

/-- The keys of the points that can vote, each with its point. -/
def keys (f : Fingerprint) : Option (List (BitVec 32 × ℕ)) := do
  let voting ← (List.range f.points.length).mapM fun i => do
    if ← informative f i then
      let p ← readAt f.points i
      return (halves p).map fun k => (k, i)
    else return []
  return voting.flatten

structure Peak where
  offset : ℤ
  votes : ℕ
  deriving DecidableEq, Repr

/-- The votes for each offset: the offset `j - i` is stored at `j - i + |a|`. -/
def votes : Option (List ℕ) := do
  let index ← keys b
  let voting ← keys a
  let votes := voting.flatMap fun (k, i) =>
    let hits := (index.filter fun h => h.1 = k).map (·.2)
    if hits.length > popularKey then [] else hits.map fun j => (j : ℤ) - i + a.points.length
  return (List.range (a.points.length + b.points.length)).map fun o => votes.count (o : ℤ)

def peaks (base : ℕ) (votes : List ℕ) : List Peak :=
  let vote (o : ℕ) := votes.getD o 0
  (List.range' 1 (votes.length - 2)).filterMap fun o =>
    let v := vote (o - 1) + vote o + vote (o + 1)
    if v ≥ minVotes && v ≥ vote (o - 1) + vote (o - 2) + vote o &&
        v ≥ vote o + vote (o + 1) + vote (min (votes.length - 1) (o + 2)) then
      some ⟨o - base, v⟩
    else none

def chooseOffsets : List ℤ → List Peak → List ℤ
  | out, [] => out
  | out, p :: ps =>
    let out := if out.any fun o => |o - p.offset| ≤ 2 then out else out ++ [p.offset]
    if out.length = maxOffsets then out else chooseOffsets out ps

/-- The offsets that most points vote for. The order among peaks with as many votes is left to the
sort, which isn't stable. -/
def candidateOffsets (sorted : List Peak → List Peak) : Option (List ℤ) := do
  let votes ← votes a b
  return chooseOffsets [] (sorted (peaks a.points.length votes))

/-! ## Runs at one offset -/

/-- How two points at one offset compare: the bits that differ, and whether both are quiet. -/
structure Compared where
  dist : ℕ
  quiet : Bool
  deriving DecidableEq, Repr

/-- The distance of a point to another one where that is less, if the other is looked at. -/
def closer (points : List (BitVec 32)) (p : BitVec 32) (looked : Bool) (j : ℤ) (d : ℕ) :
    Option ℕ :=
  if looked then (readAt points j).map fun q => min d (distance p q) else some d

/-- A point of `a` and the one of `b` at the offset, or a neighbour of that which is closer. -/
def compare (i : ℤ) : Option Compared := do
  let j := i + offset
  let p ← readAt a.points i
  let q ← readAt b.points j
  let d ← closer b.points p (j > 0) (j - 1) (distance p q)
  let d ← closer b.points p (j + 1 < b.points.length) (j + 1) d
  let ea ← readAt a.energy i
  let eb ← readAt b.energy j
  return ⟨d, ea ≤ quietEnergy && eb ≤ quietEnergy⟩

section Points

variable (points : List Compared)

/-- What one place adds to the window: its bits and itself, if it is heard. -/
def heardAt (k : ℕ) : ℤ × ℤ :=
  match points[k]? with
  | none => (0, 0)
  | some p => if p.quiet then (0, 0) else (p.dist, 1)

/-- What the window of two seconds around each place says, from place `k` on. -/
def verdictsFrom : ℕ → ℤ × ℤ → ℕ → List Verdict
  | _, _, 0 => []
  | k, window, left + 1 =>
    let window := window + heardAt points (k + matchWindow / 2)
    let window :=
      if k ≥ matchWindow / 2 + 1 then window - heardAt points (k - matchWindow / 2 - 1) else window
    let verdict :=
      if window.2 < matchWindow / 4 then .neutral
      else if rounded ((window.1 : ℚ) / window.2) ≤ matchBits then .agree
      else .differ
    verdict :: verdictsFrom (k + 1) window left

def verdicts : List Verdict :=
  let window := ((List.range (min points.length (matchWindow / 2))).map (heardAt points)).sum
  verdictsFrom points 0 window points.length

/-- The places of a stretch that are heard. -/
def heard (first last : ℤ) : List Compared :=
  let first := (max 0 first).toNat
  ((points.drop first).take ((min (points.length : ℤ) last).toNat - first)).filter fun p => !p.quiet

def mean (first last : ℤ) : ℚ :=
  let heard := heard points first last
  if heard = [] then 16 else rounded (((heard.map (·.dist)).sum : ℚ) / heard.length)

def side : ℤ := 8

/-- The place of a stretch with the best score, the first of them. -/
def bestEdge (score : ℕ → ℚ) (init first last : ℕ) : ℕ :=
  ((List.range' first (last + 1 - first)).foldl
    (fun best s => if score s > best.2 then (s, score s) else best) (init, -1000000000)).1

/-- The edges of a run, where the points themselves begin and cease to agree. -/
def trimRun (start last : ℕ) : ℕ × ℕ :=
  let start := bestEdge
    (fun s => rounded (mean points (s - side) s - mean points s (s + side))) start
    (start - matchWindow / 2) (min (points.length - 1) (start + matchWindow / 2))
  let last := bestEdge
    (fun e => rounded (mean points (e + 1) (e + 1 + side) - mean points (e + 1 - side) (e + 1)))
    last (max start (last - matchWindow / 2)) (min (points.length - 1) (last + matchWindow / 2))
  (start, last)

/-- The segment of one run, if it is long enough. -/
def segment (first : ℤ) (run : ℕ × ℕ) : Option Segment :=
  let (start, last) := trimRun points run.1 run.2
  if last ≤ start then none
  else
    let heard := heard points start (last + 1)
    let seg : Segment := {
      aStartUS := a.atPoint (first + start)
      aEndUS := a.atPoint (first + last + 1)
      bStartUS := b.atPoint (first + start + offset)
      bEndUS := b.atPoint (first + last + 1 + offset)
      distance := rounded (((heard.map (·.dist)).sum : ℚ) / max 1 heard.length) }
    if seg.lengthUS < minUS then none else some seg

end Points

def alignedRuns : Option (List Segment) :=
  let first := max 0 (-offset)
  let last := min (a.points.length : ℤ) (b.points.length - offset)
  if last - first < matchWindow then some []
  else do
    let points ← (List.range (last - first).toNat).mapM fun (k : ℕ) =>
      compare a b offset (first + k)
    return (bridged bridgeGap (verdicts points)).filterMap (segment a b offset minUS points first)

/-! ## The best segments -/

/-- The order of the segments: longer ones first, and of the same length the closer ones. -/
def better (s t : Segment) : Bool :=
  if s.lengthUS ≠ t.lengthUS then s.lengthUS > t.lengthUS else s.distance < t.distance

def overlaps (s t : Segment) : Bool := s.aStartUS < t.aEndUS && t.aStartUS < s.aEndUS

/-- The segments that overlap none of those before them that stay. -/
def clear (found : List Segment) : List Segment :=
  found.foldl (fun out s => if out.any (overlaps s) then out else out ++ [s]) []

def matchSegments (sorted : List Peak → List Peak) : Option (List Segment) :=
  if a.points.length < matchWindow || b.points.length < matchWindow then some []
  else do
    let offsets ← candidateOffsets a b sorted
    let found ← offsets.mapM fun offset => alignedRuns a b offset minUS
    let out := clear (found.flatten.mergeSort fun s t => !better t s)
    return out.mergeSort fun s t => s.aStartUS ≤ t.aStartUS

/-! ## Every read is in range -/

section Reads

variable {a b : Fingerprint} {offset minUS : ℤ}

theorem exists_energy {f : Fingerprint} {i : ℤ} (h : 0 ≤ i) (hlt : i < f.points.length) :
    ∃ e, readAt f.energy i = some e :=
  exists_readAt h (by rw [f.paired]; exact hlt)

theorem exists_informative {f : Fingerprint} {i : ℕ} (h : i < f.points.length) :
    ∃ v, informative f i = some v := by
  obtain ⟨e, he⟩ := exists_energy (f := f) (i := i) (by omega) (by omega)
  unfold informative
  rw [he, Option.bind_eq_bind, Option.bind_some]
  split_ifs with hq h0
  · exact ⟨_, rfl⟩
  · exact ⟨_, rfl⟩
  · obtain ⟨p, hp⟩ := exists_readAt (l := f.points) (i := i) (by omega) (by omega)
    obtain ⟨q, hq⟩ := exists_readAt (l := f.points) (i := (i : ℤ) - 1) (by omega) (by omega)
    rw [hp, hq]
    exact ⟨_, rfl⟩

theorem exists_keys (f : Fingerprint) : ∃ k, keys f = some k := by
  unfold keys
  have hsteps : ∀ i ∈ List.range f.points.length, ∃ k, (do
      if ← informative f i then
        let p ← readAt f.points i
        return (halves p).map fun k => (k, i)
      else return []) = some k := by
    intro i hi
    have hlt := List.mem_range.mp hi
    obtain ⟨v, hv⟩ := exists_informative hlt
    obtain ⟨p, hp⟩ := exists_readAt (l := f.points) (i := i) (by omega) (by omega)
    rw [hv, hp]
    cases v <;> exact ⟨_, rfl⟩
  obtain ⟨m, hm⟩ := exists_mapM hsteps
  rw [hm]
  exact ⟨_, rfl⟩

theorem exists_candidateOffsets (sorted : List Peak → List Peak) :
    ∃ offsets, candidateOffsets a b sorted = some offsets := by
  obtain ⟨index, hindex⟩ := exists_keys b
  obtain ⟨voting, hvoting⟩ := exists_keys a
  unfold candidateOffsets votes
  rw [hindex, hvoting]
  exact ⟨_, rfl⟩

theorem exists_closer {points : List (BitVec 32)} {p : BitVec 32} {looked : Bool} {j : ℤ} {d : ℕ}
    (h : looked = true → 0 ≤ j ∧ j < points.length) : ∃ e, closer points p looked j d = some e := by
  unfold closer
  split_ifs with hl
  · obtain ⟨q, hq⟩ := exists_readAt (h hl).1 (h hl).2
    rw [hq]
    exact ⟨_, rfl⟩
  · exact ⟨d, rfl⟩

theorem exists_compare {i : ℤ} (hi : 0 ≤ i) (ha : i < a.points.length) (hj : 0 ≤ i + offset)
    (hb : i + offset < b.points.length) : ∃ c, compare a b offset i = some c := by
  obtain ⟨p, hp⟩ := exists_readAt (l := a.points) hi ha
  obtain ⟨q, hq⟩ := exists_readAt (l := b.points) hj hb
  obtain ⟨ea, hea⟩ := exists_energy (f := a) hi ha
  obtain ⟨eb, heb⟩ := exists_energy (f := b) hj hb
  have hbefore : ∃ d, closer b.points p (i + offset > 0) (i + offset - 1) (distance p q) = some d :=
    exists_closer fun h => by
      have := of_decide_eq_true h
      omega
  obtain ⟨d, hd⟩ := hbefore
  have hafter : ∃ e,
      closer b.points p (i + offset + 1 < b.points.length) (i + offset + 1) d = some e :=
    exists_closer fun h => by
      have := of_decide_eq_true h
      omega
  obtain ⟨e, he⟩ := hafter
  unfold compare
  simp only [hp, hq, hea, heb, hd, he, Option.bind_eq_bind, Option.bind_some]
  exact ⟨_, rfl⟩

end Reads

/-! ## A segment lies in both fingerprints -/

/-- A segment of two fingerprints that is long enough. -/
structure Inside (a b : Fingerprint) (minUS : ℤ) (s : Segment) : Prop where
  a_start : a.startUS ≤ s.aStartUS
  a_lt : s.aStartUS < s.aEndUS
  a_end : s.aEndUS ≤ a.endUS
  b_start : b.startUS ≤ s.bStartUS
  b_end : s.bEndUS ≤ b.endUS
  same : s.bEndUS - s.bStartUS = s.aEndUS - s.aStartUS
  long : minUS ≤ s.aEndUS - s.aStartUS

section Inside

variable {a b : Fingerprint} {offset minUS : ℤ} {points : List Compared}

theorem bestEdge_mem (score : ℕ → ℚ) (init first last : ℕ) :
    bestEdge score init first last = init ∨
      first ≤ bestEdge score init first last ∧ bestEdge score init first last ≤ last := by
  have hfold : ∀ (l : List ℕ) (best : ℕ × ℚ),
      (l.foldl (fun best s => if score s > best.2 then (s, score s) else best) best).1 = best.1 ∨
      (l.foldl (fun best s => if score s > best.2 then (s, score s) else best) best).1 ∈ l := by
    intro l
    induction l with
    | nil => exact fun best => .inl rfl
    | cons s l ih =>
      intro best
      rw [List.foldl_cons]
      split_ifs with hs
      · rcases ih (s, score s) with h | h
        · exact .inr (h ▸ List.mem_cons_self)
        · exact .inr (List.mem_cons_of_mem _ h)
      · exact (ih best).imp id (List.mem_cons_of_mem _)
  rcases hfold (List.range' first (last + 1 - first)) (init, -1000000000) with h | h
  · exact .inl h
  · rw [List.mem_range'_1] at h
    unfold bestEdge
    exact .inr (by omega)

theorem trimRun_lt {start last : ℕ} (hstart : start < points.length)
    (hlast : last < points.length) :
    (trimRun points start last).1 < points.length ∧
      (trimRun points start last).2 < points.length := by
  unfold trimRun
  refine ⟨?_, ?_⟩
  · rcases bestEdge_mem (fun s => rounded (mean points (s - side) s - mean points s (s + side)))
      start (start - matchWindow / 2) (min (points.length - 1) (start + matchWindow / 2)) with h | h
    · exact h.trans_lt hstart
    · have hle := h.2.trans (min_le_left _ _)
      exact hle.trans_lt (by omega)
  · simp only
    generalize bestEdge _ start _ _ = first
    rcases bestEdge_mem
      (fun e => rounded (mean points (e + 1) (e + 1 + side) - mean points (e + 1 - side) (e + 1)))
      last (max first (last - matchWindow / 2))
      (min (points.length - 1) (last + matchWindow / 2)) with h | h
    · exact h.trans_lt hlast
    · have hle := h.2.trans (min_le_left _ _)
      exact hle.trans_lt (by omega)

theorem inside_segment {first : ℤ} {run : ℕ × ℕ} {s : Segment}
    (h : segment a b offset minUS points first run = some s) (hfirst : 0 ≤ first)
    (ha : first + points.length ≤ a.points.length) (hj : 0 ≤ first + offset)
    (hb : first + offset + points.length ≤ b.points.length) (hstart : run.1 < points.length)
    (hlast : run.2 < points.length) : Inside a b minUS s := by
  have hlt := trimRun_lt hstart hlast
  unfold segment at h
  generalize trimRun points run.1 run.2 = trimmed at h hlt
  obtain ⟨start, last⟩ := trimmed
  simp only at h hlt
  rw [Option.ite_none_left_eq_some, Option.ite_none_left_eq_some] at h
  obtain ⟨horder, hlong, hs⟩ := h
  obtain rfl := Option.some.inj hs
  simp only [Segment.lengthUS, not_lt, not_le] at hlong horder
  constructor <;>
    simp only [Fingerprint.atPoint, Fingerprint.endUS, stepUS] at hlong ⊢ <;> omega

theorem length_verdictsFrom {k : ℕ} {window : ℤ × ℤ} {left : ℕ} :
    (verdictsFrom points k window left).length = left := by
  induction left generalizing k window with
  | zero => rfl
  | succ left ih =>
    rw [verdictsFrom, List.length_cons, ih]

theorem length_verdicts : (verdicts points).length = points.length := length_verdictsFrom

/-- **A segment lies in both fingerprints**, and every read at an offset is in range. -/
theorem exists_alignedRuns (a b : Fingerprint) (offset minUS : ℤ) :
    ∃ found, alignedRuns a b offset minUS = some found ∧ ∀ s ∈ found, Inside a b minUS s := by
  unfold alignedRuns
  simp only
  split_ifs with hshort
  · exact ⟨[], rfl, fun s hs => nomatch hs⟩
  · have hsteps : ∀ k ∈ List.range (min (a.points.length : ℤ) (b.points.length - offset) -
        max 0 (-offset)).toNat, ∃ c, compare a b offset (max 0 (-offset) + k) = some c := by
      intro k hk
      have hk := List.mem_range.mp hk
      exact exists_compare (by omega) (by omega) (by omega) (by omega)
    obtain ⟨points, hpoints⟩ := exists_mapM hsteps
    have hlen : points.length = (min (a.points.length : ℤ) (b.points.length - offset) -
        max 0 (-offset)).toNat := by simpa using length_mapM hpoints
    rw [hpoints]
    refine ⟨_, rfl, fun s hs => ?_⟩
    obtain ⟨run, hrun, hseg⟩ := List.mem_filterMap.mp hs
    have hin := mem_bridged hrun
    have hverdicts : (verdicts points).length = points.length := length_verdicts
    have hwindow : (matchWindow : ℤ) = 16 := rfl
    exact inside_segment hseg (by omega) (by omega) (by omega) (by omega) (by omega) (by omega)

/-! ## The best segments don't overlap -/

/-- Segments stay apart when none is kept that overlaps one that stays. -/
theorem clear_pairwise (found : List Segment) :
    (clear found).Pairwise (fun s t => overlaps t s = false) ∧ ∀ s ∈ clear found, s ∈ found := by
  have hfold : ∀ (l out : List Segment), out.Pairwise (fun s t => overlaps t s = false) →
      (l.foldl (fun out s => if out.any (overlaps s) then out else out ++ [s]) out).Pairwise
        (fun s t => overlaps t s = false) ∧
      ∀ s ∈ l.foldl (fun out s => if out.any (overlaps s) then out else out ++ [s]) out,
        s ∈ out ∨ s ∈ l := by
    intro l
    induction l with
    | nil => exact fun out hout => ⟨hout, fun s hs => .inl hs⟩
    | cons s l ih =>
      intro out hout
      rw [List.foldl_cons]
      split_ifs with hany
      · obtain ⟨hpair, hmem⟩ := ih out hout
        exact ⟨hpair, fun t ht => (hmem t ht).imp id (List.mem_cons_of_mem _)⟩
      · have hnone : ∀ t ∈ out, overlaps s t = false := by simpa using hany
        have hout' := List.pairwise_append.mpr ⟨hout, List.pairwise_singleton _ s,
          fun t ht u hu => List.mem_singleton.mp hu ▸ hnone t ht⟩
        obtain ⟨hpair, hmem⟩ := ih (out ++ [s]) hout'
        refine ⟨hpair, fun t ht => ?_⟩
        rcases hmem t ht with h | h
        · rcases List.mem_append.mp h with h | h
          · exact .inl h
          · exact .inr (List.mem_singleton.mp h ▸ List.mem_cons_self)
        · exact .inr (List.mem_cons_of_mem _ h)
  obtain ⟨hpair, hmem⟩ := hfold found [] .nil
  exact ⟨hpair, fun s hs => (hmem s hs).resolve_left nofun⟩

theorem overlaps_symm (s t : Segment) : overlaps s t = overlaps t s := Bool.and_comm _ _

/-- **What two fingerprints share** is found without a read outside them, stands in order and apart
in the first file, lies in both and is long enough. -/
theorem exists_matchSegments (a b : Fingerprint) (minUS : ℤ) (sorted : List Peak → List Peak) :
    ∃ out, matchSegments a b minUS sorted = some out ∧
      out.Pairwise (fun s t => s.aEndUS ≤ t.aStartUS) ∧ ∀ s ∈ out, Inside a b minUS s := by
  unfold matchSegments
  split_ifs with hshort
  · exact ⟨[], rfl, .nil, fun s hs => nomatch hs⟩
  · obtain ⟨offsets, hoffsets⟩ := exists_candidateOffsets (a := a) (b := b) sorted
    have hruns : ∀ offset ∈ offsets, ∃ found, alignedRuns a b offset minUS = some found :=
      fun offset _ => (exists_alignedRuns a b offset minUS).imp fun _ h => h.1
    obtain ⟨found, hfound⟩ := exists_mapM hruns
    have hinside : ∀ s ∈ found.flatten, Inside a b minUS s := by
      intro s hs
      obtain ⟨run, hrun, hsrun⟩ := List.mem_flatten.mp hs
      obtain ⟨offset, -, hoffset⟩ := mem_mapM hfound hrun
      obtain ⟨run', hrun', hall⟩ := exists_alignedRuns a b offset minUS
      obtain rfl := Option.some.inj (hoffset.symm.trans hrun')
      exact hall s hsrun
    rw [hoffsets, Option.bind_eq_bind, Option.bind_some, hfound, Option.bind_eq_bind,
      Option.bind_some]
    refine ⟨_, rfl, ?_, ?_⟩
    all_goals
      obtain ⟨hpair, hmem⟩ := clear_pairwise (found.flatten.mergeSort fun s t => !better t s)
      generalize clear (found.flatten.mergeSort fun s t => !better t s) = out at hpair hmem
    · -- in the order of their starts, segments that don't overlap end before the next begins
      have hall : ∀ s ∈ out, Inside a b minUS s :=
        fun s hs => hinside s (List.mem_mergeSort.mp (hmem s hs))
      have hsorted : (out.mergeSort fun s t => s.aStartUS ≤ t.aStartUS).Pairwise fun s t =>
          decide (s.aStartUS ≤ t.aStartUS) = true :=
        List.pairwise_mergeSort
          (fun x y z hxy hyz => by simp only [decide_eq_true_eq] at *; omega)
          (fun x y => by simp only [Bool.or_eq_true, decide_eq_true_eq]; omega) out
      have hperm := List.mergeSort_perm out fun s t : Segment => s.aStartUS ≤ t.aStartUS
      have hapart := hperm.symm.pairwise hpair fun {s t} h => (overlaps_symm s t).trans h
      refine (hsorted.and hapart).imp_of_mem fun {s t} hs ht h => ?_
      have hle := of_decide_eq_true h.1
      have hs := hall s (List.mem_mergeSort.mp hs)
      have ht := hall t (List.mem_mergeSort.mp ht)
      have hov := h.2
      simp only [overlaps, Bool.and_eq_false_iff, decide_eq_false_iff_not, not_lt] at hov
      have := ht.a_lt
      omega
    · intro s hs
      exact hinside s (List.mem_mergeSort.mp (hmem s (List.mem_mergeSort.mp hs)))

end Inside

end Portico.SegmentDetect
