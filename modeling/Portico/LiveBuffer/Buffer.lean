import Portico.Lib.Machine
import Portico.Lib.Shelf

/-!
# The live buffer

A live buffer keeps the newest segments of a channel within a byte cap and a retention time. Each
segment is a file; a fragmented producer's segments share that producer's init file. Files that leave
the window are removed once nobody reads them, and the buffer's directory goes after `Close`.

Publishers append segments and register inits, players open files and give them back, and the owner
closes the buffer. A removal decided under the mutex may be made at any later time.

## Main definitions

* `Segment`, `InitFile`, `Buffer`: the state under the buffer's mutex
* `Buffer.append`, `Buffer.evict`: a segment enters, and the oldest leave
* `Buffer.playlistFrom`: the playlist of the window
* `Buffer.openFile`, `Buffer.release`, `Buffer.close`: readers and the end
* `System`: the buffer, the files made so far, the open readers and the removals to be made
* `Event`, `System.step`: the calls, in any order
* `System.Reachable`: the states any interleaving leads to
-/

namespace Portico.LiveBuffer

/-- The errors of the buffer. -/
inductive Fault
  | expired
  | closed
  | media
  | missing
  | retired
deriving DecidableEq, Repr

/-- The name `CreateTemp` gave a file; every call gives a new one. -/
abbrev File := ℕ

/-- The largest segment a publisher accepts. -/
def maxSegmentBytes : ℤ := 64 * 2 ^ 20

/-- The options `New` accepts. Durations are in nanoseconds. -/
structure Options where
  liveDelay : ℤ
  originMS : ℤ
  maxBytes : ℤ
  retention : ℤ
  scheduled : Bool
  originMS_pos : 0 < originMS
  maxSegmentBytes_le : maxSegmentBytes ≤ maxBytes
  maxBytes_le : maxBytes ≤ 16 * 2 ^ 30
  le_retention : 12 * 1000000000 ≤ retention
  retention_le : retention ≤ 24 * 3600 * 1000000000

/-- A duration in whole microseconds. -/
def microseconds (d : ℤ) : ℤ := d.tdiv 1000

/-- A retained segment. Times are in microseconds. -/
structure Segment where
  sequence : ℤ
  producer : ℤ
  fragmented : Bool
  path : File
  startUS : ℤ
  endUS : ℤ
  bytes : ℤ
  discontinuity : Bool
  discontinuitiesBefore : ℤ
deriving DecidableEq, Repr

/-- A fragmented producer's init segment, and how many retained fragments need it. -/
structure InitFile where
  path : File
  bytes : ℤ
  producer : ℤ
  uses : ℤ
deriving DecidableEq, Repr

/-- What the buffer's mutex guards. The reader counts and the expired marks of segments and inits
are kept by their files; `directoryRemovals` counts the removals of the directory. -/
structure Buffer where
  options : Options
  segments : List Segment
  byID : ℤ → Option Segment
  inits : List InitFile
  next : ℤ
  bytes : ℤ
  discontinuities : ℤ
  readers : ℤ
  closed : Bool
  files : Shelf File
  directoryRemovals : ℕ

/-- The address of a segment or of an init. -/
inductive Uri
  | segment (id : ℤ) (fragmented : Bool)
  | init (producer : ℤ)
deriving DecidableEq, Repr

/-- One segment of a playlist: its discontinuity tag, the init that is mapped before it, its date,
its duration and its address. -/
structure Entry where
  discontinuity : Bool
  map : Option ℤ
  dateUS : ℤ
  durationUS : ℤ
  uri : Uri
deriving DecidableEq, Repr

/-- A playlist: its header and its segments. -/
structure Playlist where
  version : ℤ
  targetDuration : ℤ
  mediaSequence : ℤ
  discontinuitySequence : ℤ
  startOffsetUS : Option ℤ
  entries : List Entry
deriving DecidableEq, Repr

/-- The addresses a playlist lists: the inits it maps and its segments. -/
def Playlist.uris (p : Playlist) : List Uri :=
  p.entries.flatMap fun e => (e.map.map Uri.init).toList ++ [e.uri]

/-- An open file: a segment's or an init's. -/
structure Reader where
  path : File
  producer : ℤ
  size : ℤ
  contentType : String
deriving DecidableEq, Repr

/-- A removal a goroutine makes after it let go of the mutex. -/
inductive Removal
  | file (path : File)
  | directory
deriving DecidableEq, Repr

namespace Buffer

/-- A new buffer. -/
def new (o : Options) : Buffer where
  options := o
  segments := []
  byID := fun _ => none
  inits := []
  next := 1
  bytes := 0
  discontinuities := 0
  readers := 0
  closed := false
  files := Shelf.fresh
  directoryRemovals := 0

/-- A producer's init. -/
def init? (producer : ℤ) (b : Buffer) : Option InitFile :=
  b.inits.find? fun i => i.producer = producer

/-! ## Appending -/

/-- A producer's init is forgotten; a reader that still holds it keeps the file. -/
def retireInitLocked (producer : ℤ) (b : Buffer) : Buffer :=
  match b.init? producer with
  | none => b
  | some i =>
    { b with
      inits := b.inits.filter fun i => i.producer ≠ producer
      files := b.files.retire i.path }

/-- A producer's init is used by `n` fragments more. -/
def useInit (producer n : ℤ) (b : Buffer) : Buffer :=
  { b with
    inits := b.inits.map fun i => if i.producer = producer then { i with uses := i.uses + n } else i }

/-- A fragment that left no longer uses its producer's init. -/
def unuse (old : Segment) (b : Buffer) : Buffer :=
  if old.fragmented then
    match b.init? old.producer with
    | none => b
    | some i =>
      if i.uses - 1 ≤ 0 then (b.useInit old.producer (-1)).retireInitLocked old.producer
      else b.useInit old.producer (-1)
  else b

/-- The oldest segment leaves the window. -/
def evictOne (old : Segment) (rest : List Segment) (b : Buffer) : Buffer :=
  unuse old
    { b with
      segments := rest
      byID := Function.update b.byID old.sequence none
      bytes := b.bytes - old.bytes
      files := b.files.retire old.path }

/-- The oldest segments leave while the window is too large or starts before the threshold; the
newest stays. The list is the window. -/
def evict (threshold : ℤ) : List Segment → Buffer → Buffer
  | old :: next :: rest, b =>
    if b.options.maxBytes < b.bytes ∨ old.endUS < threshold then
      evict threshold (next :: rest) (b.evictOne old (next :: rest))
    else b
  | _, b => b

/-- A segment may not start well before the newest one ends. -/
def overlaps (s : Segment) (b : Buffer) : Bool :=
  b.segments.getLast?.any fun last => s.startUS < last.endUS - 250000

/-- A segment of another producer, or after a gap, breaks the clock. -/
def breaks (s : Segment) (b : Buffer) : Bool :=
  s.discontinuity ||
    b.segments.getLast?.any fun last => s.producer ≠ last.producer ∨ last.endUS + 50000 < s.startUS

/-- Whether a fragment's init is there. -/
def initialized (s : Segment) (b : Buffer) : Bool :=
  !s.fragmented || (b.init? s.producer).any fun i => !b.files.expired i.path

/-- The segment as the window keeps it. -/
def numbered (s : Segment) (b : Buffer) : Segment :=
  { s with
    sequence := b.next
    discontinuity := b.breaks s
    discontinuitiesBefore := b.discontinuities }

/-- A fragment that enters uses its producer's init. -/
def counted (s : Segment) (b : Buffer) : Buffer :=
  if s.fragmented then b.useInit s.producer 1 else b

/-- The window with a new segment, before anything leaves it. -/
def push (s : Segment) (b : Buffer) : Buffer :=
  { b with
    segments := b.segments ++ [s]
    byID := Function.update b.byID s.sequence (some s)
    next := b.next + 1
    bytes := b.bytes + s.bytes
    discontinuities := if s.discontinuity then b.discontinuities + 1 else b.discontinuities }

/-- A segment enters the window and the oldest leave. -/
def append (s : Segment) (b : Buffer) : Except Fault Buffer :=
  if b.closed then .error .closed
  else if b.overlaps s then .error .media
  else if !b.initialized s then .error .media
  else
    let t := b.numbered s
    let b₁ := (b.counted s).push t
    .ok (evict (t.endUS - microseconds b.options.retention) b₁.segments b₁)

/-- A publisher registers its producer's init. -/
def storeInit (path : File) (bytes producer : ℤ) (b : Buffer) : Except Fault Buffer :=
  if b.closed ∨ b.init? producer ≠ none then .error .media
  else .ok { b with inits := ⟨path, bytes, producer, 0⟩ :: b.inits }

/-! ## The playlist -/

/-- The window's start, end and live edge, from the origin. -/
def windowLocked (now : ℤ) (b : Buffer) : ℤ × ℤ × ℤ :=
  let origin := b.options.originMS * 1000
  match b.segments.head?, b.segments.getLast? with
  | some first, some last =>
    let start := first.startUS - origin
    let stop :=
      if b.options.scheduled ∧ now - origin < last.endUS - origin then now - origin
      else last.endUS - origin
    (start, stop, max start (stop - microseconds b.options.liveDelay))
  | _, _ => (0, 0, 0)

/-- The segments a playlist shows: those from the segment holding a position on, or all. -/
def shown (position : Option ℤ) (b : Buffer) : List Segment :=
  match position with
  | none => b.segments
  | some p =>
    let at_ := b.options.originMS * 1000 + p
    b.segments.drop ((b.segments.findIdx? fun s => at_ < s.endUS).getD (b.segments.length - 1))

/-- Whole seconds, rounded up. -/
def seconds (us : ℤ) : ℤ := -(-us / 1000000)

/-- The segments' lines; `mapped` is the producer whose init was mapped last. -/
def entries (mapped : ℤ) : List Segment → List Entry
  | [] => []
  | s :: rest =>
    { discontinuity := s.discontinuity
      map := if s.fragmented ∧ s.producer ≠ mapped then some s.producer else none
      dateUS := s.startUS
      durationUS := s.endUS - s.startUS
      uri := .segment s.sequence s.fragmented } ::
    entries (if s.fragmented then s.producer else mapped) rest

/-- The playlist from a position on; `none` is the error that nothing is retained. -/
def playlistFrom (position : Option ℤ) (now : ℤ) (b : Buffer) : Option Playlist :=
  if b.closed then none
  else
    (b.shown position).head?.map fun first =>
      let (start, stop, live) := b.windowLocked now
      { version := if first.fragmented then 7 else 3
        targetDuration := (b.shown position).foldl (fun n s => max n (seconds (s.endUS - s.startUS))) 1
        mediaSequence := first.sequence
        discontinuitySequence := first.discontinuitiesBefore
        startOffsetUS :=
          if 0 < b.options.liveDelay ∧ position = none then
            some (max start (live - 2000000) - stop)
          else none
        entries := entries 0 (b.shown position) }

/-! ## Readers -/

/-- Whether a file is still in the directory. -/
def onDisk (path : File) (b : Buffer) : Bool :=
  b.files.removals path = 0 && b.directoryRemovals = 0

/-- A reader holds a file. -/
def lend (path : File) (b : Buffer) : Buffer :=
  { b with files := b.files.take path, readers := b.readers + 1 }

/-- The init of a producer is opened. -/
def openInit (producer : ℤ) (b : Buffer) : Except Fault (Reader × Buffer) :=
  if b.closed then .error .closed
  else
    match b.init? producer with
    | none => .error .expired
    | some i =>
      if b.files.expired i.path then .error .expired
      else if !b.onDisk i.path then .error .missing
      else .ok (⟨i.path, producer, i.bytes, "video/mp4"⟩, b.lend i.path)

/-- A segment or an init is opened by its address. -/
def openFile (uri : Uri) (b : Buffer) : Except Fault (Reader × Buffer) :=
  match uri with
  | .init producer => b.openInit producer
  | .segment id m4s =>
    if b.closed then .error .closed
    else
      match b.byID id with
      | none => .error .expired
      | some s =>
        if b.files.expired s.path ∨ s.fragmented ≠ m4s then .error .expired
        else if !b.onDisk s.path then .error .missing
        else
          .ok (⟨s.path, s.producer, s.bytes, if s.fragmented then "video/iso.segment"
            else "video/mp2t"⟩, b.lend s.path)

/-- A reader gives its file back. The file goes if it was the last reader of an expired one, and the
directory if it was the last reader of a closed buffer. -/
def release (path : File) (b : Buffer) : List Removal × Buffer :=
  let b' := { b with files := b.files.give path, readers := b.readers - 1 }
  ((if b'.files.done path then [.file path] else []) ++
    (if b'.closed ∧ b'.readers = 0 then [.directory] else []), b')

/-- Every retained segment expires and every init is forgotten. -/
def close (b : Buffer) : List Removal × Buffer :=
  if b.closed then ([], b)
  else
    let b₁ :=
      { b with
        closed := true
        files := b.segments.foldl (fun files s => files.retire s.path) b.files
        byID := fun _ => none
        segments := [] }
    let b₂ := b.inits.foldl (fun (b : Buffer) i => b.retireInitLocked i.producer) b₁
    (if b₂.readers = 0 then [.directory] else [], b₂)

/-- A removal is made. -/
def act (a : Removal) (b : Buffer) : Buffer :=
  match a with
  | .file path => { b with files := b.files.remove path }
  | .directory => { b with directoryRemovals := b.directoryRemovals + 1 }

end Buffer

end Portico.LiveBuffer

/-! # The buffer with its readers -/

namespace Portico.LiveBuffer

open Machine

/-- A buffer in use. -/
structure System where
  buffer : Buffer
  created : ℕ
  lent : List Reader
  todo : List Removal

/-- The calls on a buffer, and the removals that follow them. -/
inductive Event
  | append (producer : ℤ) (fragmented : Bool) (startUS endUS bytes : ℤ) (discontinuity : Bool)
  | storeInit (bytes producer : ℤ)
  | openFile (uri : Uri)
  | release (reader : Reader)
  | act (removal : Removal)
  | close
deriving DecidableEq, Repr

namespace System

/-- A new buffer without readers. -/
def init (o : Options) : System where
  buffer := Buffer.new o
  created := 0
  lent := []
  todo := []

/-- One call, or one removal. A publisher's file is new, of an accepted size, and its producer's
number is positive; a call that fails leaves the buffer alone. -/
def step (s : System) : Event → Option System
  | .append producer fragmented startUS endUS bytes discontinuity =>
    if 1 ≤ producer ∧ 0 < bytes ∧ bytes ≤ maxSegmentBytes then
      let t : Segment :=
        ⟨0, producer, fragmented, s.created, startUS, endUS, bytes, discontinuity, 0⟩
      match s.buffer.append t with
      | .error _ => some { s with created := s.created + 1 }
      | .ok b => some { s with buffer := b, created := s.created + 1 }
    else none
  | .storeInit bytes producer =>
    if 1 ≤ producer then
      match s.buffer.storeInit s.created bytes producer with
      | .error _ => some { s with created := s.created + 1 }
      | .ok b => some { s with buffer := b, created := s.created + 1 }
    else none
  | .openFile uri =>
    match s.buffer.openFile uri with
    | .error _ => some s
    | .ok (r, b) => some { s with buffer := b, lent := r :: s.lent }
  | .release r =>
    if r ∈ s.lent then
      let (removals, b) := s.buffer.release r.path
      some { s with buffer := b, lent := s.lent.erase r, todo := removals ++ s.todo }
    else none
  | .act a =>
    if a ∈ s.todo then some { s with buffer := s.buffer.act a, todo := s.todo.erase a } else none
  | .close =>
    let (removals, b) := s.buffer.close
    some { s with buffer := b, todo := removals ++ s.todo }

/-- The states some order of calls leads to. -/
def Reachable (s : System) : Prop := ∃ o, Reaches step (init o) s

end System

end Portico.LiveBuffer
