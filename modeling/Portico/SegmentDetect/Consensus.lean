import Portico.SegmentDetect.Match

/-!
# Intro and credits

What the neighbours of an episode share with it is laid over its fingerprint. The stretches that
enough of them share are runs; the best supported run of an opening is its intro, and the longest
run of a closing, joined to those that follow it closely, its credits.

## Main definitions

* `masks`, `coverage`: where each neighbour shares the region, and how many share each point
* `sharedRuns`, `support`: the stretches that enough neighbours share, and how many share one
* `intro`, `credits`: what is detected
-/

namespace Portico.SegmentDetect

open Number (rounded)

/-- Seconds, in microseconds. -/
def seconds (n : ℤ) : ℤ := n * 1000000

def minIntroUS : ℤ := seconds 15
def maxIntroUS : ℤ := seconds 200
def minCreditsUS : ℤ := seconds 15
def maxCreditsUS : ℤ := seconds 600
def minSceneUS : ℤ := seconds 8
def introSnapUS : ℤ := seconds 5
def silenceTrailUS : ℤ := seconds 3

inductive Kind where
  | intro
  | credits
  deriving DecidableEq, Repr

/-- One segment of a file, with the evidence for it. -/
structure Detection where
  kind : Kind
  startUS : ℤ
  endUS : ℤ
  confidence : ℚ
  provenance : String
  support : ℕ
  compared : ℕ
  followedByScene : Bool
  meanDistanceBits : ℚ
  deriving DecidableEq, Repr

def introProvenance : String := "season_audio_match:intro:v1"
def creditsProvenance : String := "season_audio_match:credits:v1"

/-- What one neighbour shares with a file, and the extent of its own region. -/
structure PairMatches where
  segments : List Segment
  bStartUS : ℤ
  bEndUS : ℤ

/-- Where one neighbour shares the region: seen where a segment covers a point, guessed beyond a
segment that the edge of the neighbour's region cuts off. -/
structure NeighbourMask where
  seen : List Bool
  guessed : List Bool

/-- A stretch of points, its end exclusive. -/
structure Run where
  first : ℕ
  last : ℕ
  deriving DecidableEq, Repr

variable (self : Fingerprint) (pairs : List PairMatches) (durationUS : ℤ)

/-! ## What the neighbours share -/

/-- The places of a stretch, set. Places outside the list would stop the program. -/
def setRange (l : List Bool) (first last : ℕ) : Option (List Bool) :=
  if first < last ∧ l.length < last then none
  else some (l.mapIdx fun i b => b || (first ≤ i && i < last))

def setWhen (cond : Bool) (l : List Bool) (first last : ℕ) : Option (List Bool) :=
  if cond then setRange l first last else some l

def addSegment (p : PairMatches) (m : NeighbourMask) (s : Segment) : Option NeighbourMask := do
  let first := self.index s.aStartUS
  let last := self.index s.aEndUS
  let seen ← setRange m.seen first last
  let guessed ← setWhen (p.bStartUS > 0 && s.bStartUS ≤ p.bStartUS + stepUS) m.guessed 0 first
  let guessed ← setWhen (s.bEndUS ≥ p.bEndUS - stepUS) guessed last self.points.length
  return ⟨seen, guessed⟩

def mask (p : PairMatches) : Option NeighbourMask :=
  p.segments.foldlM (addSegment self p)
    ⟨List.replicate self.points.length false, List.replicate self.points.length false⟩

def masks : Option (List NeighbourMask) := pairs.mapM (mask self)

/-- Whether a neighbour counts for a point, and whether it really shares it. -/
def counts (i : ℕ) (m : NeighbourMask) : Option (Bool × Bool) := do
  if ← m.seen[i]? then return (true, true)
  else
    let guessed ← m.guessed[i]?
    return (guessed, false)

/-- How many neighbours share a point, guesses only beside one that really does. -/
def coverageAt (all : List NeighbourMask) (i : ℕ) : Option ℕ := do
  let counted ← all.mapM (counts i)
  return if counted.any (·.2) then counted.countP (·.1) else 0

def coverage : Option (List ℕ) := do
  let all ← masks self pairs
  (List.range self.points.length).mapM (coverageAt all)

/-- The stretches that enough neighbours share, with gaps of up to a second bridged. -/
def sharedRuns (c : List ℕ) (need : ℕ) : List Run :=
  (bridged 8 (c.map fun n => if n ≥ need then .agree else .differ)).map fun r => ⟨r.1, r.2 + 1⟩

/-- Whether a neighbour shares enough of a run: three fifths, guessed or not, and some of it
really. -/
def shares (r : Run) (m : NeighbourMask) : Option Bool := do
  let counted ← (List.range' r.first (r.last - r.first)).mapM fun i => counts i m
  let covered := counted.countP (·.1)
  return !(covered * 10 < (r.last - r.first) * 6 || !counted.any (·.2))

/-- How many neighbours share a run, and their mean distance where they really do. -/
def support (r : Run) : Option (ℕ × ℚ) := do
  let all ← masks self pairs
  let sharing ← all.mapM (shares r)
  let parts := ((sharing.zip pairs).filter (·.1)).flatMap fun (_, p) =>
    p.segments.filterMap fun s =>
      let lo := max r.first (self.index s.aStartUS)
      let hi := min r.last (self.index s.aEndUS)
      if hi > lo then some (s.distance, hi - lo) else none
  let total := parts.foldl (fun t s => rounded (t + rounded (s.1 * s.2))) 0
  let weight := (parts.map (·.2)).sum
  return (sharing.count true, if weight = 0 then 0 else rounded (total / weight))

def required (neighbours : ℕ) : ℕ := if neighbours ≥ 2 then 2 else 1

def confidence (support : ℕ) : ℚ :=
  if support ≥ 3 then rounded (95 / 100)
  else if support = 2 then rounded (9 / 10)
  else if support = 1 then rounded (7 / 10)
  else 0

/-! ## Silence -/

/-- A place moved over the quiet points that follow it, up to a place. -/
def trailFrom (i : ℕ) : ℕ → Option ℕ
  | 0 => some i
  | left + 1 => do
    let e ← self.energy[i]?
    if e ≤ quietEnergy then trailFrom (i + 1) left else return i

def trailSilence (i : ℕ) (limit : ℤ) : Option ℕ :=
  let stop := min (self.points.length : ℤ) (i + limit.tdiv stepUS)
  trailFrom self i (stop - i).toNat

/-- How long the audio between two points is above silence. -/
def audibleUS (first last : ℕ) : Option ℤ := do
  let energies ← (List.range' first (min last self.points.length - first)).mapM fun i =>
    self.energy[i]?
  return (energies.countP fun e => e > quietEnergy : ℕ) * stepUS

/-! ## Intro -/

/-- The best run of an opening so far, with the neighbours that share it and their distance. -/
def betterIntro (best : Run × ℕ × ℚ) (r : Run) : Option (Run × ℕ × ℚ) := do
  let length := ((r.last : ℤ) - r.first) * stepUS
  if length < minIntroUS || length > maxIntroUS || self.atPoint r.last > durationUS.tdiv 2 then
    return best
  else
    let (n, dist) ← support self pairs r
    if n < required pairs.length then return best
    else if n > best.2.1 || (n = best.2.1 && r.last - r.first > best.1.last - best.1.first) then
      return (r, n, dist)
    else return best

def intro : Option (Option Detection) :=
  if pairs.length = 0 || self.points.length = 0 then some none
  else do
    let c ← coverage self pairs
    let (best, bestSupport, bestDist) ←
      (sharedRuns c (required pairs.length)).foldlM (betterIntro self pairs durationUS)
        (⟨0, 0⟩, 0, 0)
    if bestSupport = 0 then return none
    else
      let start := self.atPoint best.first
      let start := if start ≤ introSnapUS then 0 else start
      let trailed ← trailSilence self best.last silenceTrailUS
      return some {
        kind := .intro
        startUS := start
        endUS := min (self.atPoint trailed) durationUS
        confidence := confidence bestSupport
        provenance := introProvenance
        support := bestSupport
        compared := pairs.length
        followedByScene := false
        meanDistanceBits := bestDist }

/-! ## Credits -/

structure Candidate where
  run : Run
  support : ℕ
  dist : ℚ
  deriving DecidableEq, Repr

/-- The longest of the candidates that can be credits, the first of them, and what follows it. -/
def bestCredits : Option (Candidate × List Candidate) → List Candidate →
    Option (Candidate × List Candidate)
  | best, [] => best
  | best, c :: rest =>
    let length := ((c.run.last : ℤ) - c.run.first) * stepUS
    if length < minCreditsUS || self.atPoint c.run.first < durationUS.tdiv 2 then
      bestCredits best rest
    else
      match best with
      | none => bestCredits (some (c, rest)) rest
      | some (b, after) =>
        if c.run.last - c.run.first > b.run.last - b.run.first then
          bestCredits (some (c, rest)) rest
        else bestCredits (some (b, after)) rest

/-- The end of a run joined to those that follow it closely. -/
def joined : ℕ → List Candidate → ℕ
  | last, [] => last
  | last, c :: rest =>
    if ((c.run.first : ℤ) - last) * stepUS > silenceTrailUS then last else joined c.run.last rest

def candidates (need : ℕ) (r : Run) : Option (List Candidate) := do
  let (n, dist) ← support self pairs r
  return if n ≥ need then [⟨r, n, dist⟩] else []

def supported (need : ℕ) (runs : List Run) : Option (List Candidate) := do
  let candidates ← runs.mapM (candidates self pairs need)
  return candidates.flatten.mergeSort fun c d => c.run.first ≤ d.run.first

def credits : Option (Option Detection) :=
  if pairs.length = 0 || self.points.length = 0 then some none
  else do
    let need := required pairs.length
    let c ← coverage self pairs
    let supported ← supported self pairs need (sharedRuns c need)
    match bestCredits self durationUS none supported with
    | none => return none
    | some (best, rest) =>
      let last := joined best.run.last rest
      if ((last : ℤ) - best.run.first) * stepUS > maxCreditsUS then return none
      else
        let tailStart ← trailSilence self last silenceTrailUS
        let audible ← audibleUS self tailStart self.points.length
        let scene := audible ≥ minSceneUS && self.atPoint tailStart < durationUS - minSceneUS
        return some {
          kind := .credits
          startUS := self.atPoint best.run.first
          endUS := if scene then self.atPoint tailStart else durationUS
          confidence := confidence best.support
          provenance := creditsProvenance
          support := best.support
          compared := pairs.length
          followedByScene := scene
          meanDistanceBits := best.dist }

end Portico.SegmentDetect
