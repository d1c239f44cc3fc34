import Portico.Queue.SpanEdit

/-!
# Queue commands

The commands of `playbackv1/queue_commands.go` that edit a queue's structure: create, add, remove,
move, and the repeat and shuffle switches. Each runs in one write transaction, after which the
structure is compacted or its bounds are checked.

## Main definitions

* `Layout.compactQueue`: keep the structure small
* `Layout.queueWrite`: one mutation and what follows it
* `Layout.addSegment`, `Layout.removeEntry`, `Layout.moveEntry`, `Layout.updateQueue`
* `Layout.createQueue`
-/

namespace Portico

/-- The tombstone bound past which segments are compacted. -/
def maxQueueRemovals : ℕ := 10000

/-- The most entries of a queue, across its segments. -/
def maxQueueKeys : ℕ := 10000000

/-- The most live keys one tombstone compaction copies. -/
def rewriteLimit : ℕ := 250000

/-- `sortKeyBetween` as a step of a command. -/
def sortKeyOr (a b : SortKey) : Except QueueError SortKey :=
  (sortKeyBetween a b).elim (.error .endless) .ok

/-- Segments are read in sort key order: where a written row appears. -/
def insertSegment (g : Segment) : List Segment → List Segment
  | [] => [g]
  | h :: hs => if g.sortKey < h.sortKey then g :: h :: hs else h :: insertSegment g hs

/-- The sort key of the last segment, or the open end. -/
def lastSortKey (segments : List Segment) : SortKey := (segments.getLast?.map Segment.sortKey).getD []

namespace Layout

variable (l : Layout)

/-! ## Compaction -/

/-- The loop that merges neighbours: `a` takes in what continues it. -/
def mergeRunsInto (a : Segment) : List Segment → List Segment
  | [] => [a]
  | b :: rest =>
    if a.snapshot = b.snapshot ∧ a.first + a.count = b.first then
      mergeRunsInto { a with count := a.count + b.count, removed := a.removed + b.removed } rest
    else a :: mergeRunsInto b rest

/-- Merge neighbouring segments that are contiguous ranges of one snapshot. -/
def mergeRuns : List Segment → List Segment
  | [] => []
  | a :: rest => mergeRunsInto a rest

/-- Some segment shows the snapshot. -/
def Referenced (segments : List Segment) (snapshot : ℕ) : Prop :=
  ∃ g ∈ segments, g.snapshot = snapshot

instance (segments : List Segment) (snapshot : ℕ) : Decidable (Referenced segments snapshot) :=
  inferInstanceAs (Decidable (∃ g ∈ segments, g.snapshot = snapshot))

/-- Delete the tombstones that no segment's range holds. -/
def dropOrphans : Layout :=
  { l with
    removals := fun s => (l.removals s).filter fun r =>
      decide (∃ g ∈ l.segments, g.snapshot = s ∧ g.Holds r) }

/-- Delete the snapshots nothing references, and with them their tombstones. -/
def dropSnapshots : Layout :=
  { l with
    snapshots := l.snapshots.filter fun s => Referenced l.segments s.id
    removals := fun s => if Referenced l.segments s then l.removals s else [] }

def countRemovals : ℕ := (l.snapshots.map fun s => (l.removals s.id).length).sum

/-- The index of the most edited segment that may be rewritten. -/
def mostEdited : Option ℕ :=
  let candidates := (List.range l.segments.length).filter fun i =>
    l.segments[i]?.any fun g =>
      decide (0 < g.removed) && (l.snapshot? g.snapshot).any (·.state = .ready) &&
        decide (g.live ≤ (rewriteLimit : ℤ))
  candidates.argmax fun i => (l.segments[i]?.map Segment.removed).getD 0

/-- Copy a segment's live keys, in order, into a new snapshot and point the segment at it. -/
def rewriteSegment (i : ℕ) : Layout :=
  match l.segments[i]? with
  | none => l
  | some g =>
    match l.snapshot? g.snapshot with
    | none => l
    | some s =>
      let keys := (present g.first g.count (l.removals g.snapshot)).filterMap (s.keys[·]?)
      let fresh : Snapshot := { id := l.nextId, kind := s.kind, count := keys.length, keys }
      let segments := l.segments.set i
        { g with snapshot := l.nextId, first := 0, count := keys.length, removed := 0 }
      { l with
        segments
        snapshots := (l.snapshots ++ [fresh]).filter fun t =>
          t.id ≠ g.snapshot ∨ Referenced segments g.snapshot
        removals := fun t =>
          if t ≠ g.snapshot then l.removals t
          else if Referenced segments g.snapshot then (l.removals t).filter (¬ g.Holds ·)
          else []
        nextId := l.nextId + 1 }

/-- Past the tombstone bound, rewrite the most edited segments. A rewritten segment has no
tombstones left, so there are no more rewrites than segments. -/
def rewriteSegments : ℕ → Layout → Layout
  | 0, l => l
  | fuel + 1, l =>
    if l.countRemovals ≤ maxQueueRemovals then l
    else
      match l.mostEdited with
      | none => l
      | some i => rewriteSegments fuel (l.rewriteSegment i)

/-- Drop the segments with nothing left, merge neighbours, and delete what nothing references. -/
def tidy : Layout :=
  ({ l with segments := mergeRuns (l.segments.filter fun g => g.count ≠ g.removed) }
    : Layout).dropOrphans.dropSnapshots

/-- `compactQueue`: keep the structure small, then check its bounds. -/
def compactQueue : Except QueueError Layout :=
  let tidied := l.tidy
  let compacted := rewriteSegments tidied.segments.length tidied
  if maxQueueSegments < tidied.segments.length ∨ maxQueueRemovals < compacted.countRemovals then
    .error .tooLarge
  else .ok compacted

/-! ## One mutation -/

/-- `queueWrite`: run a mutation on the layout, at the revision the command names. The mutation
answers the rows it leaves and the queue row of the layout it was given, which is written back;
`none` is no change. -/
def queueWrite (ifMatch : ℕ)
    (mutate : Layout → Except QueueError (Option (Layout × QueueRow))) :
    Except QueueError Layout := do
  if l.q.revision ≠ ifMatch then throw .revision
  match ← mutate l with
  | none => return l
  | some (rows, q) =>
    let written := { rows with q := { q with revision := q.revision + 1 } }
    if written.q.shuffle then
      if maxQueueSegments < written.segments.length ∨
          maxQueueRemovals < (written.segments.map Segment.removed).sum then
        throw .tooLarge
      return written
    else written.compactQueue

/-! ## Adding -/

/-- What a command's scan of its selection made: the keys so far, and whether the rest is built in
the background. -/
structure ScannedSnapshot where
  kind : SnapshotKind := .selector
  keys : List ℕ
  isPartial : Bool := false
deriving DecidableEq

/-- A scanned snapshot with what a create decided for one it couldn't finish. -/
structure NewSnapshot extends ScannedSnapshot where
  /-- the full size when known up front -/
  declared : ℕ := 0
  start : Option QueueStart := none
  hint : Option (ℕ × ℕ) := none
deriving DecidableEq

/-- How many entries the segment has: all of them when known, else what's built. -/
def NewSnapshot.size (snap : NewSnapshot) : ℕ :=
  if 0 < snap.declared then snap.declared else snap.keys.length

/-- The row of a new snapshot. -/
def NewSnapshot.row (snap : NewSnapshot) (id : ℕ) : Snapshot where
  id := id
  kind := snap.kind
  state := if snap.isPartial then .building else .ready
  count := snap.size
  start := snap.start
  hint := snap.hint
  keys := snap.keys

/-- `storeSnapshot`, under a fresh id. -/
def storeSnapshot (snap : NewSnapshot) : Layout :=
  { l with snapshots := l.snapshots ++ [snap.row l.nextId], nextId := l.nextId + 1 }

/-- Write a segment row that shows a whole snapshot, or a range of it. -/
def addRow (snapshot : ℕ) (sortKey : SortKey) (first count removed : ℕ) : Layout :=
  { l with
    segments := insertSegment { id := l.nextId, snapshot, sortKey, first, count, removed } l.segments
    nextId := l.nextId + 1 }

/-- Where a segment is added. -/
inductive Placement where
  | next
  | last
  | after (e : Entry)
deriving DecidableEq

/-- The head of a segment cut after its first `cut` ordinals. -/
def splitHead (g : Segment) (cut : ℕ) : Segment :=
  { g with
    count := cut
    removed := (l.removals g.snapshot).countP fun r => g.first ≤ r ∧ r < g.first + cut }

/-- The tail of a segment cut after its first `cut` ordinals. It keeps its entries (same snapshot,
same ordinals): only ranges change. -/
def splitTail (g : Segment) (cut : ℕ) (tailKey : SortKey) : Segment :=
  { id := l.nextId
    snapshot := g.snapshot
    sortKey := tailKey
    first := g.first + cut
    count := g.count - cut
    removed := (l.removals g.snapshot).countP fun r =>
      g.first + cut ≤ r ∧ r < g.first + g.count }

/-- `splitAfter`: split the segment holding an entry right after it, and return the sort key a new
segment takes there. -/
def splitAfter (segIndex ordinal : ℕ) : Except QueueError (Layout × SortKey) := do
  let some g := l.segments[segIndex]? | throw .notFound
  let next := (l.segments[segIndex + 1]?.map Segment.sortKey).getD []
  let cut := ordinal + 1 - g.first
  let tailKey ← sortKeyOr g.sortKey next
  if g.count ≤ cut then return (l, tailKey)
  let key ← sortKeyOr g.sortKey tailKey
  return ({ l with
    segments := insertSegment (l.splitTail g cut tailKey)
      (l.segments.set segIndex (l.splitHead g cut))
    nextId := l.nextId + 1 }, key)

/-- Keep an entry current: its source position becomes the unshuffled play position. -/
def keepCurrent (e : Option Entry) : Layout :=
  match e.bind l.sourceIndexOf with
  | none => l
  | some (src, _) => l.setCurrent src.toNat

/-- The insertion position of a shuffled add. -/
def insertionOf : Placement → Except QueueError ℤ
  | .last => .ok l.total
  | .next => .ok (l.q.current + 1)
  | .after e => if (l.positionOf e).2 then .ok ((l.positionOf e).1 + 1) else .error .notFound

/-- The mutation of a shuffled add: the segment goes last, its span where it is placed. -/
def addShuffled (placement : Placement) (snap : ScannedSnapshot) : Except QueueError Layout := do
  let stored := (l.storeSnapshot { toScannedSnapshot := snap }).initOrder
  let insertion ← stored.insertionOf placement
  let key ← sortKeyOr (lastSortKey stored.segments) []
  let span : OrderSpan := ⟨true, stored.sourceTotal, snap.keys.length⟩
  let ordered ← (stored.insertOrder insertion span).saveOrder
  return ordered.addRow l.nextId key 0 snap.keys.length 0

/-- Split the anchor's segment right after it. -/
def placeAfter (anchor : Option Entry) : Except QueueError (Layout × SortKey) :=
  match anchor.bind fun e => (l.sourceIndexOf e).map fun x => (x.2, e.ordinal) with
  | none => .error (.field "placement.after")
  | some (segIndex, ordinal) => l.splitAfter segIndex ordinal

/-- The place of an unshuffled add, with the rows split there. -/
def placeFor (current : Option Entry) : Placement → Except QueueError (Layout × SortKey)
  | .last => (sortKeyOr (lastSortKey l.segments) []).map fun key => (l, key)
  | .next => l.placeAfter current
  | .after e => l.placeAfter (some e)

/-- The mutation of an unshuffled add. -/
def addUnshuffled (placement : Placement) (snap : ScannedSnapshot) : Except QueueError Layout := do
  let stored := l.storeSnapshot { toScannedSnapshot := snap }
  let (split, key) ← stored.placeFor l.currentEntry placement
  return (split.addRow l.nextId key 0 snap.keys.length 0).keepCurrent l.currentEntry

/-- `AddSegment`: Play next, Add to queue, or insert after an entry. -/
def addSegment (ifMatch : ℕ) (placement : Placement) (snap : ScannedSnapshot) :
    Except QueueError Layout := do
  if l.q.shuffle ∧ snap.kind = .radio then throw (.field "source.container.kind")
  if snap.keys = [] then throw .notFound
  l.queueWrite ifMatch fun l => do
    if maxQueueKeys < l.total + snap.keys.length then throw .tooLarge
    let added ← if l.q.shuffle then l.addShuffled placement snap else l.addUnshuffled placement snap
    return some (added, added.q)

/-! ## Removing -/

/-- `tombstone`: record the removal and count it in the segment. -/
def tombstone (segIndex : ℕ) (e : Entry) : Layout :=
  { l with
    removals := fun s =>
      if s = e.snapshot then (l.removals s).orderedInsert (· ≤ ·) e.ordinal else l.removals s
    segments := l.segments.modify segIndex fun g => { g with removed := g.removed + 1 } }

/-- The mutation of a shuffled removal. -/
def removeShuffled (segIndex : ℕ) (e : Entry) : Except QueueError Layout := do
  let (p, ok) := l.positionOf e
  if ¬ ok then throw .notFound
  let ordered := l.removeOrder p
  let current := if p < l.q.current then l.q.current - 1 else l.q.current
  let current := min current (ordered.total - 1).toNat
  let saved ← (ordered.setCurrent current).saveOrder
  return saved.tombstone segIndex e

/-- The mutation of an unshuffled removal. -/
def removeUnshuffled (src : ℤ) (segIndex : ℕ) (e : Entry) : Layout :=
  let removed := l.tombstone segIndex e
  if l.currentEntry = some e then
    -- The next entry slides into the removed one's place.
    removed.setCurrent (min src.toNat (removed.total - 1).toNat)
  else removed.keepCurrent l.currentEntry

/-- `RemoveEntry`. -/
def removeEntry (ifMatch : ℕ) (e : Entry) : Except QueueError Layout :=
  l.queueWrite ifMatch fun l => do
    let some (src, segIndex) := l.sourceIndexOf e | throw .notFound
    let removed ←
      if l.q.shuffle then l.removeShuffled segIndex e
      else .ok (l.removeUnshuffled src segIndex e)
    return some (removed, removed.q)

/-! ## Moving -/

/-- The mutation of a shuffled move. -/
def moveShuffled (e target : Entry) (after : Bool) : Except QueueError Layout := do
  let src := l.orderToSource (l.positionOf e).1
  let current := l.currentEntry
  let (start, place) := ((l.positionOf e).1, (l.positionOf target).1)
  let place := if start < place then place - 1 else place
  let place := if after then place + 1 else place
  let moved := (l.removeOrder start).insertOrder place ⟨true, src.toNat, 1⟩
  let moved :=
    match current with
    | none => moved
    | some c =>
      if (moved.positionOf c).2 then moved.setCurrent (moved.positionOf c).1.toNat else moved
  moved.saveOrder

/-- The key and the rows of a place before or after the target. -/
def placeBeside (targetIndex : ℕ) (target : Entry) (after : Bool) :
    Except QueueError (Layout × SortKey) := do
  if after then l.splitAfter targetIndex target.ordinal
  else
    let some g := l.segments[targetIndex]? | throw .notFound
    if g.first < target.ordinal then l.splitAfter targetIndex (target.ordinal - 1)
    else
      let prev := if targetIndex = 0 then [] else
        (l.segments[targetIndex - 1]?.map Segment.sortKey).getD []
      return (l, ← sortKeyOr prev g.sortKey)

/-- The mutation of an unshuffled move: a tombstone plus a one-key segment beside the target. -/
def moveUnshuffled (segIndex : ℕ) (e target : Entry) (after : Bool) :
    Except QueueError Layout := do
  let item ← match l.key e with
    | .key item => .ok item
    | .building => .error .building
    | .notFound => .error .notFound
  let current := l.currentEntry
  let removed := l.tombstone segIndex e
  let some (_, targetIndex) := removed.sourceIndexOf target | throw .notFound
  let (split, key) ← removed.placeBeside targetIndex target after
  let snap := split.nextId
  let stored := split.storeSnapshot { toScannedSnapshot := { kind := .items, keys := [item] } }
  let added := stored.addRow snap key 0 1 0
  let current := if current = some e then some ⟨snap, 0⟩ else current
  return added.keepCurrent current

/-- `MoveEntry`: the target is the entry to move after, or before. The unshuffled mutation goes on
with a layout it reads again after the tombstone, so what it sets as the current position is set
there, and the row that is written back is the one it was given. -/
def moveEntry (ifMatch : ℕ) (e target : Entry) (after : Bool) : Except QueueError Layout :=
  l.queueWrite ifMatch fun l => do
    let some (_, segIndex) := l.sourceIndexOf e | throw .notFound
    let some _ := l.sourceIndexOf target | throw .notFound
    if target = e then throw .notFound
    if l.q.shuffle then
      let moved ← l.moveShuffled e target after
      return some (moved, moved.q)
    else
      let moved ← l.moveUnshuffled segIndex e target after
      return some (moved, l.q)

/-! ## Repeat and shuffle -/

/-- What the scan of a create's segment made, with its anchor's ordinal if it has one. -/
structure PlannedSegment extends NewSnapshot where
  anchor : Option ℕ := none
deriving DecidableEq

/-- The loop of `CreateQueue` over the planned segments: the rows, the last sort key, and the
current position once a segment is anchored. -/
def createSegments (l : Layout) (sortKey : SortKey) (current : Option ℕ) :
    List PlannedSegment → Except QueueError (Layout × Option ℕ)
  | [] => .ok (l, current)
  | snap :: snaps =>
    if snap.keys = [] then createSegments l sortKey current snaps
    else do
      let key ← sortKeyOr sortKey []
      let stored := l.storeSnapshot snap.toNewSnapshot
      createSegments (stored.addRow l.nextId key 0 snap.size 0) key
        (current <|> snap.anchor.map (l.sourceTotal + ·)) snaps

/-- `CreateQueue`: the rows of a new queue. A shuffle of the first segment that waits for its
snapshot's size is set up when it's built. -/
def createQueue (repeatMode : RepeatMode) (snaps : List PlannedSegment) (order : Option ℕ) :
    Except QueueError Layout := do
  let empty : Layout := { q := { repeatMode }, segments := [], snapshots := [], nextId := 0 }
  let (created, anchored) ← empty.createSegments [] none snaps
  let base := created.sourceTotal
  if base = 0 then throw .notFound
  let order := order.filter fun _ => snaps.head?.any fun s => decide (s.keys ≠ []) && s.start.isNone
  match order with
  | none => return created.setCurrent (anchored.getD 0)
  | some seed =>
    let first := anchored.getD (((Shuffle.new base (word32 seed) 1).bind (·.atIndex 0)).getD 0)
    return { created with
      q := { created.q with shuffle := true, seed := word32 seed, domain := base, first } }

end Layout

end Portico
