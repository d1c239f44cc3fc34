import Portico.Lib.Gaps
import Portico.Queue.Shuffle
import Portico.Queue.SortKey

/-!
# Queue layouts

The rows of one playback queue (`playbackv1/queues.go`): its header row, its segments in order,
the snapshots they show, the tombstones of removed entries, the placement spans of a shuffled play
order, and the captured Sonic windows. A layout answers position ↔ entry.

Positions and source positions are signed, as in the source, where `-1` is no position. Random ids
are drawn from a counter: a fresh id is never equal to one in use.

## Main definitions

* `Layout`: the rows, `Layout.total` the number of play positions
* `Layout.sourceAt`, `Layout.sourceIndexOf`: source position ↔ entry
* `Layout.orderToSource`, `Layout.sourceToOrder`: play position ↔ source position
* `Layout.entryAtErr`, `Layout.positionOf`, `Layout.currentEntry`: play position ↔ entry
* `Layout.playOrder`: the entries in play order
-/

namespace Portico

/-! ## Rows -/

/-- An entry id, `<snapshot>-<ordinal>`. -/
structure Entry where
  snapshot : ℕ
  ordinal : ℕ
deriving DecidableEq, Repr

/-- A span refers either to the shuffle permutation or to appended source positions. -/
structure OrderSpan where
  source : Bool
  start : ℕ
  count : ℕ
deriving DecidableEq, Repr

inductive RepeatMode where
  | off
  | one
  | all
deriving DecidableEq, Repr

/-- A `queues_v1` row: the fields that place the queue. -/
structure QueueRow where
  revision : ℕ := 1
  repeatMode : RepeatMode := .off
  current : ℕ := 0
  seed : ℕ := 0
  lap : ℕ := 0
  domain : ℕ := 0
  first : ℕ := 0
  shuffle : Bool := false
deriving DecidableEq, Repr

/-- A `queue_v1_segments` row: a range of one snapshot's ordinals. -/
structure Segment where
  id : ℕ
  snapshot : ℕ
  sortKey : SortKey
  first : ℕ
  count : ℕ
  removed : ℕ := 0
deriving DecidableEq, Repr

namespace Segment

def live (g : Segment) : ℤ := g.count - g.removed

/-- The segment's range holds the ordinal. -/
def Holds (g : Segment) (ordinal : ℕ) : Prop := g.first ≤ ordinal ∧ ordinal < g.first + g.count

instance (g : Segment) (ordinal : ℕ) : Decidable (g.Holds ordinal) :=
  inferInstanceAs (Decidable (_ ∧ _))

/-- The segment's entries, removed ones included. -/
def entries (g : Segment) : List Entry := (List.range' g.first g.count).map (Entry.mk g.snapshot)

theorem mem_entries {g : Segment} {e : Entry} :
    e ∈ g.entries ↔ g.snapshot = e.snapshot ∧ g.Holds e.ordinal := by
  cases e
  simp only [entries, List.mem_map, List.mem_range'_1, Entry.mk.injEq, Holds]
  constructor
  · rintro ⟨o, ho, rfl, rfl⟩
    exact ⟨rfl, ho⟩
  · rintro ⟨rfl, ho⟩
    exact ⟨_, ho, rfl, rfl⟩

theorem mk_mem_entries {g : Segment} {o : ℕ} : ⟨g.snapshot, o⟩ ∈ g.entries ↔ g.Holds o := by
  simp [mem_entries]

end Segment

inductive SnapshotKind where
  | items
  | selector
  | radio
deriving DecidableEq, Repr

inductive BuildState where
  | building
  | ready
  | failed
deriving DecidableEq, Repr

/-- A start that waits for a building snapshot. -/
inductive QueueStart where
  /-- at an anchor the scan hadn't reached -/
  | ordered
  /-- over the final size, from a seed -/
  | shuffle (seed : ℕ)
deriving DecidableEq, Repr

/-- A `queue_v1_snapshots` row with the keys its chunks hold so far. A snapshot still building may
have a start that waits for it, and one key resolved ahead (`hint`). -/
structure Snapshot where
  id : ℕ
  kind : SnapshotKind := .selector
  state : BuildState := .ready
  /-- the size its segment was created with -/
  count : ℕ
  start : Option QueueStart := none
  hint : Option (ℕ × ℕ) := none
  keys : List ℕ
deriving DecidableEq, Repr

/-- How many ordinals are built. -/
def Snapshot.built (s : Snapshot) : ℕ := s.keys.length

/-- What a Sonic window is captured under. The occurrences stand for their digest. -/
structure SonicWindowKey where
  seed : ℕ
  lap : ℕ
  window : ℕ
  contents : List (ℤ × Entry)
deriving DecidableEq

/-- A captured window: the source positions of its key, reordered behind the first. -/
structure SonicWindowCapture (key : SonicWindowKey) where
  ordinals : List ℤ
  perm : ordinals.Perm (key.contents.map Prod.fst)
  head : ordinals.head? = (key.contents.map Prod.fst).head?

/-- The captured windows of a queue. -/
def SonicStore := (key : SonicWindowKey) → Option (SonicWindowCapture key)

/-- The most positions a Sonic window smooths. -/
def smoothWindowMax : ℕ := 256

/-- A queue's rows. -/
structure Layout where
  q : QueueRow
  segments : List Segment
  snapshots : List Snapshot
  removals : ℕ → List ℕ := fun _ => []
  spans : List OrderSpan := []
  sonic : SonicStore := fun _ => none
  nextId : ℕ

namespace Layout

variable (l : Layout)

/-- Move the current position. -/
def setCurrent (current : ℕ) : Layout := { l with q := { l.q with current } }

/-! ## Source positions -/

def sourceTotal : ℕ := (l.segments.map Segment.count).sum

/-- The number of play positions. -/
def total : ℤ :=
  if l.q.shuffle ∧ l.spans ≠ [] then (l.spans.map fun s => (s.count : ℤ)).sum
  else (l.segments.map Segment.live).sum

/-- The segment's positions: with shuffle on a removed entry keeps its source position. -/
def sourceSpan (g : Segment) : ℤ := if l.q.shuffle then g.count else g.live

/-- Step the ordinal past the tombstones before it. -/
def skipRemoved (g : Segment) (removals : List ℕ) (ordinal : ℕ) : ℕ :=
  removals.foldl
    (fun o r => if r < g.first ∨ g.first + g.count ≤ r then o else if r ≤ o then o + 1 else o)
    ordinal

/-- The loop of `sourceAt` over the segments from index `i` on. -/
def sourceAtFrom (i : ℕ) (p : ℤ) : List Segment → Option (ℕ × ℕ)
  | [] => none
  | g :: gs =>
    if p < l.sourceSpan g then
      let ordinal := g.first + p.toNat
      some (i, if l.q.shuffle then ordinal else skipRemoved g (l.removals g.snapshot) ordinal)
    else sourceAtFrom (i + 1) (p - l.sourceSpan g) gs

/-- `sourceAt` maps a source position to a segment index and an ordinal. -/
def sourceAt (p : ℤ) : Option (ℕ × ℕ) :=
  if p < 0 then none else l.sourceAtFrom 0 p l.segments

/-- The tombstones that move an unshuffled entry of the segment forward. -/
def removedBefore (g : Segment) (ordinal : ℕ) : ℕ :=
  if l.q.shuffle then 0
  else (l.removals g.snapshot).countP fun r => g.first ≤ r ∧ r < ordinal

/-- The loop of `sourceIndexOf` over the segments from index `i` on. -/
def sourceIndexFrom (e : Entry) (i : ℕ) (base : ℤ) : List Segment → Option (ℤ × ℕ)
  | [] => none
  | g :: gs =>
    if g.snapshot = e.snapshot ∧ g.Holds e.ordinal then
      if e.ordinal ∈ l.removals e.snapshot then none
      else some (base + e.ordinal - g.first - l.removedBefore g e.ordinal, i)
    else sourceIndexFrom e (i + 1) (base + l.sourceSpan g) gs

/-- `sourceIndexOf` maps an entry to its source position and its segment index. -/
def sourceIndexOf (e : Entry) : Option (ℤ × ℕ) := l.sourceIndexFrom e 0 0 l.segments

/-- The entry at a source position. -/
def sourceEntry (source : ℤ) : Option Entry := do
  let (i, ordinal) ← l.sourceAt source
  let g ← l.segments[i]?
  return ⟨g.snapshot, ordinal⟩

/-! ## The shuffled order -/

/-- The permutation of a shuffled queue's domain. -/
def shuffle : Option Shuffle :=
  if l.q.shuffle ∧ 1 ≤ l.q.domain then Shuffle.new l.q.domain l.q.seed l.q.lap else none

/-- Conversion to an unsigned 64-bit integer. -/
def u64 (x : ℤ) : ℕ := (x % 2 ^ 64).toNat

/-- Play order → source position over the shuffle domain: the first entry, then the permutation
without it. -/
def ordinaryOrderToSource (p : ℤ) : ℤ :=
  match l.shuffle with
  | none => p
  | some sh =>
    if l.q.domain ≤ p then p
    else if p = 0 then l.q.first
    else
      let c := (sh.indexOf l.q.first).getD 0
      let k := if u64 (p - 1) < c then u64 (p - 1) else u64 p
      (sh.atIndex k).getD 0

def ordinarySourceToOrder (src : ℤ) : ℤ :=
  match l.shuffle with
  | none => src
  | some sh =>
    if l.q.domain ≤ src then src
    else if src = l.q.first then 0
    else
      let c := (sh.indexOf l.q.first).getD 0
      let k := (sh.indexOf (u64 src)).getD 0
      if k < c then k + 1 else k

/-- The snapshot row of an id. -/
def snapshot? (id : ℕ) : Option Snapshot := l.snapshots.find? (·.id = id)

/-- The segments of snapshots still building. -/
def building : List Segment :=
  l.segments.filter fun g => (l.snapshot? g.snapshot).any (·.state = .building)

/-- A start waits for a building snapshot: there is no current entry yet. -/
def waiting : Bool :=
  l.building.any fun g => (l.snapshot? g.snapshot).any (·.start.isSome)

/-- The source positions of a window of the shuffle domain, and the entries there. -/
def sonicWindowSource (window : ℕ) : Option (List (ℤ × Entry)) :=
  let start := window * smoothWindowMax
  (List.range (min smoothWindowMax (l.q.domain - start))).mapM fun index => do
    let source := l.ordinaryOrderToSource (start + index : ℕ)
    let e ← l.sourceEntry source
    return (source, e)

/-- The captured order of a window, if there is one. A queue that isn't shuffled or still waits for
its start has none. -/
def sonicWindow (window : ℕ) : Option (List ℤ) :=
  if l.q.shuffle ∧ ¬ l.waiting then do
    let contents ← l.sonicWindowSource window
    let captured ← l.sonic ⟨l.q.seed, l.q.lap, window, contents⟩
    return captured.ordinals
  else none

/-- `baseOrderToSource` with the windows the request has read. -/
def baseOrderToSourceIn (windows : ℕ → Option (List ℤ)) (position : ℤ) : ℤ :=
  if 0 ≤ position ∧ position < l.q.domain ∧ l.q.shuffle then
    match windows (position.toNat / smoothWindowMax) with
    | some ordinals =>
      ordinals.getD (position.toNat % smoothWindowMax) (l.ordinaryOrderToSource position)
    | none => l.ordinaryOrderToSource position
  else l.ordinaryOrderToSource position

/-- `baseSourceToOrder` with the windows the request has read. -/
def baseSourceToOrderIn (windows : ℕ → Option (List ℤ)) (source : ℤ) : ℤ :=
  let position := l.ordinarySourceToOrder source
  if 0 ≤ position ∧ position < l.q.domain ∧ l.q.shuffle then
    match windows (position.toNat / smoothWindowMax) with
    | some ordinals =>
      match ordinals.findIdx? (· = source) with
      | some index => (position.toNat / smoothWindowMax * smoothWindowMax + index : ℕ)
      | none => position
    | none => position
  else position

/-- The play order of the shuffle domain: captured windows replace their part of it. -/
def baseOrderToSource (position : ℤ) : ℤ := l.baseOrderToSourceIn l.sonicWindow position

def baseSourceToOrder (source : ℤ) : ℤ := l.baseSourceToOrderIn l.sonicWindow source

/-- The loop of `orderToSource` over the placement spans. -/
def spansToSource (windows : ℕ → Option (List ℤ)) : List OrderSpan → ℤ → ℤ
  | [], _ => -1
  | s :: ss, p =>
    if p < s.count then
      if s.source then s.start + p else l.baseOrderToSourceIn windows (s.start + p)
    else spansToSource windows ss (p - s.count)

/-- `orderToSource` with the windows the request has read. -/
def orderToSourceIn (windows : ℕ → Option (List ℤ)) (p : ℤ) : ℤ :=
  if l.q.shuffle ∧ l.spans ≠ [] then l.spansToSource windows l.spans p
  else l.baseOrderToSourceIn windows p

/-- Play order → source position. -/
def orderToSource (p : ℤ) : ℤ := l.orderToSourceIn l.sonicWindow p

/-- The loop of `sourceToOrder` over the placement spans, from play position `pos` on. -/
def sourceToSpans (src base : ℤ) (pos : ℤ) : List OrderSpan → ℤ
  | [] => -1
  | s :: ss =>
    let place := if s.source then src else base
    if s.start ≤ place ∧ place < s.start + s.count then pos + place - s.start
    else sourceToSpans src base (pos + s.count) ss

/-- Source position → play order. -/
def sourceToOrder (src : ℤ) : ℤ :=
  if l.q.shuffle ∧ l.spans ≠ [] then sourceToSpans src (l.baseSourceToOrder src) 0 l.spans
  else l.baseSourceToOrder src

/-! ## Entries -/

/-- What reading an entry's key answers. -/
inductive KeyRead where
  | key (item : ℕ)
  /-- the entry has its id and its place, but its key isn't built yet -/
  | building
  | notFound
deriving DecidableEq

/-- An entry's item key: the one resolved ahead or a chunk's. -/
def key (e : Entry) : KeyRead :=
  match l.snapshot? e.snapshot with
  | none => .notFound
  | some s =>
    if s.state = .building ∧ s.built ≤ e.ordinal then
      match s.hint with
      | some (ordinal, item) => if ordinal = e.ordinal then .key item else .building
      | none => .building
    else
      match s.keys[e.ordinal]? with
      | some item => .key item
      | none => .notFound

/-- `entryAtErr` with the windows the request has read: the entry at a play position, with what
reading its key answers. -/
def entryAtErrIn (windows : ℕ → Option (List ℤ)) (p : ℤ) : Option (Entry × KeyRead) :=
  match l.sourceEntry (l.orderToSourceIn windows p) with
  | none => none
  | some e => if l.key e = .notFound then none else some (e, l.key e)

def entryAtErr (p : ℤ) : Option (Entry × KeyRead) := l.entryAtErrIn l.sonicWindow p

/-- The entry at a play position, pending or not. -/
def entryAt (p : ℤ) : Option Entry := (l.entryAtErr p).map Prod.fst

/-- `positionOf`: the play position of an entry, and whether it has one. -/
def positionOf (e : Entry) : ℤ × Bool :=
  match l.sourceIndexOf e with
  | none => (0, false)
  | some (src, _) => (l.sourceToOrder src, 0 ≤ l.sourceToOrder src)

/-- The current entry, unless a start waits. -/
def currentEntry : Option Entry := if l.waiting then none else l.entryAt l.q.current

/-- The entries of all segments in source order, removed ones included. -/
def entries : List Entry := l.segments.flatMap Segment.entries

/-- The entry has no tombstone. -/
def Live (e : Entry) : Prop := e.ordinal ∉ l.removals e.snapshot

instance (e : Entry) : Decidable (l.Live e) := inferInstanceAs (Decidable (¬ _))

/-- The live entries in source order. -/
def liveEntries : List Entry := l.entries.filter fun e => l.Live e

/-- What each play position shows, in play order. -/
def playOrder : List (Option Entry) := (List.range l.total.toNat).map fun p : ℕ => l.entryAt p

end Layout

end Portico
