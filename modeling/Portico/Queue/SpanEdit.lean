import Portico.Queue.Layout

/-!
# Editing the placement spans

`playbackv1/queue_order.go`: edits of a shuffled play order split and join ranges of the spans and
never expand the entries they stand for.
-/

namespace Portico

/-- Why a queue command is refused. -/
inductive QueueError where
  | revision
  | notFound
  | field (path : String)
  | tooLarge
  | building
  | ended
  /-- the sort key loop does not end -/
  | endless
deriving DecidableEq, Repr

/-- The most segments, and the most placement spans, a queue has. -/
def maxQueueSegments : ℕ := 1000

/-- The loop of `insertOrder`: place `v` where position `pos` falls, or at the end. -/
def insertSpans (v : OrderSpan) : ℤ → List OrderSpan → List OrderSpan
  | pos, [] => if pos = 0 then [v] else []
  | pos, s :: ss =>
    if 0 ≤ pos ∧ pos ≤ s.count then
      (if 0 < pos then [⟨s.source, s.start, pos.toNat⟩] else []) ++
        v :: (if pos < s.count then [⟨s.source, s.start + pos.toNat, s.count - pos.toNat⟩] else []) ++
        ss
    else s :: insertSpans v (if 0 ≤ pos then pos - s.count else pos) ss

/-- The loop of `removeOrder`: drop the position `pos`. -/
def removeSpans : ℤ → List OrderSpan → List OrderSpan
  | _, [] => []
  | pos, s :: ss =>
    if 0 ≤ pos ∧ pos < s.count then
      (if 0 < pos then [⟨s.source, s.start, pos.toNat⟩] else []) ++
        (if pos + 1 < s.count then
          [⟨s.source, s.start + pos.toNat + 1, s.count - pos.toNat - 1⟩] else []) ++
        ss
    else s :: removeSpans (if 0 ≤ pos then pos - s.count else pos) ss

/-- The loop of `saveOrder`, with `last` the span merged last. -/
def mergeSpansInto (last : OrderSpan) : List OrderSpan → List OrderSpan
  | [] => [last]
  | s :: ss =>
    if s.count = 0 then mergeSpansInto last ss
    else if last.source = s.source ∧ last.start + last.count = s.start then
      mergeSpansInto { last with count := last.count + s.count } ss
    else last :: mergeSpansInto s ss

/-- Join adjacent ranges and drop empty ones. -/
def mergeSpans : List OrderSpan → List OrderSpan
  | [] => []
  | s :: ss => if s.count = 0 then mergeSpans ss else mergeSpansInto s ss

namespace Layout

variable (l : Layout)

def initOrder : Layout :=
  if l.spans ≠ [] then l
  else
    { l with
      spans :=
        (if 0 < l.q.domain then [⟨false, 0, l.q.domain⟩] else []) ++
        (if l.q.domain < l.sourceTotal then
          [⟨true, l.q.domain, l.sourceTotal - l.q.domain⟩] else []) }

def insertOrder (pos : ℤ) (v : OrderSpan) : Layout :=
  { l.initOrder with spans := insertSpans v pos l.initOrder.spans }

def removeOrder (pos : ℤ) : Layout :=
  { l.initOrder with spans := removeSpans pos l.initOrder.spans }

/-- Save the spans: an order with nothing left keeps one empty span. -/
def saveOrder : Except QueueError Layout :=
  let merged := mergeSpans l.spans
  let spans := if merged = [] then [⟨true, 0, 0⟩] else merged
  if maxQueueSegments < spans.length then .error .tooLarge else .ok { l with spans }

/-! ## Background growth -/

/-- The source range `[base, end)` of a snapshot's first segment. -/
def snapshotRange (snap : ℕ) (base : ℕ) : List Segment → Option (ℕ × ℕ)
  | [] => none
  | g :: gs =>
    if g.snapshot = snap then some (base, base + g.count)
    else snapshotRange snap (base + g.count) gs

/-- The loop that finds the position following a selector's last retained range: the highest source
position reached so far, the position after it, and the positions walked. -/
def lastRetained (base oldEnd : ℕ) : List OrderSpan → ℤ × ℕ × ℕ → ℤ × ℕ × ℕ
  | [], acc => acc
  | s :: ss, (highest, insertion, pos) =>
    let last := min (s.start + s.count) oldEnd
    let acc :=
      if s.source ∧ s.start < oldEnd ∧ base < s.start + s.count ∧ highest < last then
        ((last : ℤ), pos + last - s.start)
      else (highest, insertion)
    lastRetained base oldEnd ss (acc.1, acc.2, pos + s.count)

/-- Shift the source positions from `oldEnd` on by `delta`, splitting a span there. -/
def shiftSpan (oldEnd delta : ℕ) (s : OrderSpan) : List OrderSpan :=
  if ¬ s.source then [s]
  else if s.start < oldEnd ∧ oldEnd < s.start + s.count then
    [⟨true, s.start, oldEnd - s.start⟩,
      ⟨true, oldEnd + delta, s.count - (oldEnd - s.start)⟩]
  else if oldEnd ≤ s.start then [{ s with start := s.start + delta }]
  else [s]

/-- Retain explicit placement when an appended selector is checkpointed by the background builder:
later source positions shift, and what was added follows the selector's last retained range. -/
def extendShuffleOrder (snap built : ℕ) : Except QueueError Layout :=
  if ¬ l.q.shuffle ∨ l.spans = [] then .ok l
  else
    match snapshotRange snap 0 l.segments with
    | none => .ok l
    | some (base, oldEnd) =>
      if built ≤ oldEnd - base then .ok l
      else
        let delta := built - (oldEnd - base)
        let (highest, insertion, pos) := lastRetained base oldEnd l.spans (-1, 0, 0)
        let insertion := if highest < 0 then pos else insertion
        let shifted := { l with spans := l.spans.flatMap (shiftSpan oldEnd delta) }
        (shifted.insertOrder insertion ⟨true, oldEnd, delta⟩).saveOrder

end Layout

end Portico
