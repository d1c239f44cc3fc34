import Portico.Lib.OrderedMap
import Portico.Guide.Time

/-!
# The guide: the windowed store

The guide is tiles of channel pages by blocks of time. The screen reports its viewport; the store keeps
that and a margin, fetches what is missing and evicts the pages and tiles that were used longest ago. A
request, and what it is for, is known by a number, so that a late answer is told from an awaited one.

## Main definitions

* `Store`: the pages, the tiles, the queue, the requests and the timers
* `Store.plan`: what the store wants for its viewport, after which it evicts and fetches
* `Store.step`: one event: a call, an answer, a timer
-/

namespace Portico.Guide

inductive Status
  | loading
  | ready
  | error
deriving DecidableEq, Repr

inductive Task
  | page (p : ℕ)
  | tile (p : ℕ) (b : ℤ)
deriving DecidableEq, Repr

structure Options where
  channelPageSize : ℕ
  blockMs : ℤ
  maxChannelPages : ℕ
  maxTiles : ℕ
  maxInFlight : ℕ
  marginPages : ℕ
  marginBlocks : ℕ
  retryMs : List ℕ
deriving Repr

structure Viewport where
  firstRow : ℤ
  lastRow : ℤ
  start : ℤ
  stop : ℤ
deriving DecidableEq, Repr

structure Page (χ : Type*) where
  uid : ℕ
  status : Status
  items : List χ
  attempts : ℕ
  timer : Option ℕ

structure Tile (δ : Type*) where
  uid : ℕ
  status : Status
  stale : Bool
  data : Option δ
  attempts : ℕ
  timer : Option ℕ
  generation : ℕ

/-- A request that was started and has not settled. -/
structure Request where
  uid : ℕ
  task : Task
  generation : ℕ
  aborted : Bool
  answered : Bool
deriving DecidableEq, Repr

/-- A timer of an entry: after a rate limit, or after another failure. -/
structure Timer where
  id : ℕ
  uid : ℕ
  task : Task
  limited : Bool
  due : ℕ
deriving DecidableEq, Repr

/-- Why a request failed. -/
inductive Failure
  | refreshRequired
  | rateLimited (delay : ℕ)
  | other
deriving DecidableEq, Repr

/-- The store. When an entry was used is kept apart from it; `fence` is the number of the first request
after the last invalidation. -/
structure Store (χ δ : Type*) where
  o : Options
  now : ℕ := 0
  next : ℕ := 0
  nextTimer : ℕ := 0
  fence : ℕ := 0
  pages : OrderedMap ℕ (Page χ) := {}
  tiles : OrderedMap (ℕ × ℤ) (Tile δ) := {}
  total : Option ℕ := none
  channelsError : Bool := false
  viewport : Option Viewport := none
  interestPages : List ℕ := []
  interestTiles : List (ℕ × ℤ) := []
  queue : List Task := []
  inFlightCount : ℕ := 0
  clock : ℕ := 0
  pageUsed : ℕ → ℕ := fun _ => 0
  tileUsed : ℕ × ℤ → ℕ := fun _ => 0
  generation : ℕ := 0
  rateLimitPages : OrderedMap ℕ ℕ := {}
  requests : List Request := []
  timers : List Timer := []
  disposed : Bool := false

/-- The most rate limits of a page or tile in a row, with the first try. -/
def rateLimitAttempts : ℕ := 3

/-- The starts of the blocks from one on, as long as they are before the end. -/
def blocksFrom (stop blockMs : ℤ) : ℕ → ℤ → List ℤ
  | 0, _ => []
  | fuel + 1, t => if t < stop then t :: blocksFrom stop blockMs fuel (t + blockMs) else []

/-- The starts of the blocks that intersect a span. There is none of length zero. -/
def blocksCovering (start stop blockMs : ℤ) : List ℤ :=
  if start < stop ∧ blockMs ≠ 0 then
    blocksFrom stop blockMs (stop - floorTo start blockMs).toNat (floorTo start blockMs)
  else []

namespace Store

variable {χ δ : Type*} (s : Store χ δ)

/-- A store before its first event. -/
def start₀ (o : Options) : Store χ δ := { o := o }

/-! ## What is wanted -/

def pageOf (row : ℤ) : ℤ := row / s.o.channelPageSize

/-- Whether a page is not past the last one, as far as the total is known. -/
def within (p : ℕ) : Bool :=
  match s.total with
  | none => true
  | some total => p ≤ (total + s.o.channelPageSize - 1) / s.o.channelPageSize - 1

def visiblePages (v : Viewport) : List ℕ :=
  (List.range (s.pageOf (max v.firstRow v.lastRow) + 1).toNat).filter fun p =>
    s.pageOf (max 0 v.firstRow) ≤ p && s.within p

/-- The pages of the viewport and its margin. -/
def wantedPages (v : Viewport) : List ℕ :=
  let visible := s.visiblePages v
  (List.range (visible.getLast?.getD 0 + s.o.marginPages + 1)).filter fun p =>
    visible.head?.getD 0 ≤ p + s.o.marginPages && s.within p

def visibleBlocks (v : Viewport) : List ℤ := blocksCovering v.start v.stop s.o.blockMs

def wantedBlocks (v : Viewport) : List ℤ :=
  blocksCovering (v.start - s.o.marginBlocks * s.o.blockMs) (v.stop + s.o.marginBlocks * s.o.blockMs)
    s.o.blockMs

def inInterest : Task → Bool
  | .page p => p ∈ s.interestPages
  | .tile p b => (p, b) ∈ s.interestTiles

/-- The tile of a ready page that is to be fetched: there is none, or it is stale. -/
def wantsTile (p : ℕ) (b : ℤ) : Bool :=
  match s.tiles.get (p, b) with
  | none => true
  | some tile => tile.stale && tile.status != .loading

/-- What of a page is to be fetched: itself, or tiles of it. -/
def missing (blocks : List ℤ) (p : ℕ) : List Task :=
  match s.pages.get p with
  | none => [.page p]
  | some page =>
    if page.status = .ready then (blocks.filter (s.wantsTile p)).map (Task.tile p) else []

/-- The entries of a page that planning uses. -/
def planned (blocks : List ℤ) (p : ℕ) : List Task :=
  match s.pages.get p with
  | none => []
  | some page =>
    .page p :: if page.status = .ready then
      (blocks.filter fun b => (s.tiles.get (p, b)).isSome).map (Task.tile p) else []

def visible (v : Viewport) : Task → Bool
  | .page p => p ∈ s.visiblePages v
  | .tile p b => p ∈ s.visiblePages v && b ∈ s.visibleBlocks v

/-- What is visible comes first, and in each half the pages. -/
def rank (v : Viewport) : Task → ℕ
  | .page p => if s.visible v (.page p) then 0 else 2
  | .tile p b => if s.visible v (.tile p b) then 1 else 3

/-! ## Requests, timers and uses -/

/-- The requests of some entries are aborted. -/
def abort (gone : List (Task × ℕ)) : Store χ δ :=
  { s with
    requests := s.requests.map fun r =>
      if (r.task, r.uid) ∈ gone then { r with aborted := true } else r }

def clearTimers (gone : List (Task × ℕ)) : Store χ δ :=
  { s with timers := s.timers.filter fun t => (t.task, t.id) ∉ gone }

/-- An entry is used now. -/
def use (s : Store χ δ) : Task → Store χ δ
  | .page p => { s with clock := s.clock + 1, pageUsed := Function.update s.pageUsed p (s.clock + 1) }
  | .tile p b =>
    { s with clock := s.clock + 1, tileUsed := Function.update s.tileUsed (p, b) (s.clock + 1) }

/-- The entries that go when there are more than a cap: of those outside the interest, the ones used
longest ago. -/
def leastUsed {κ α : Type*} [DecidableEq κ] (m : OrderedMap κ α) (keep : List κ) (used : κ → ℕ)
    (cap : ℕ) : List (κ × α) :=
  ((m.entries.filter fun e => e.1 ∉ keep).insertionSort fun a b => used a.1 ≤ used b.1).take
    (m.entries.length - cap)

def pageTask (e : ℕ × Page χ) : Task × ℕ := (.page e.1, e.2.uid)
def pageTimer (e : ℕ × Page χ) : Option (Task × ℕ) := e.2.timer.map (.page e.1, ·)
def tileTask (e : (ℕ × ℤ) × Tile δ) : Task × ℕ := (.tile e.1.1 e.1.2, e.2.uid)
def tileTimer (e : (ℕ × ℤ) × Tile δ) : Option (Task × ℕ) := e.2.timer.map (.tile e.1.1 e.1.2, ·)

/-- Pages go, and their requests are aborted. -/
def dropPages (gone : List (ℕ × Page χ)) : Store χ δ :=
  { s with pages := s.pages.keep fun p _ => p ∉ gone.map Prod.fst }.abort (gone.map pageTask)

def dropTiles (gone : List ((ℕ × ℤ) × Tile δ)) : Store χ δ :=
  { s with tiles := s.tiles.keep fun k _ => k ∉ gone.map Prod.fst }.abort (gone.map tileTask)

/-- Pages go with their timers too. -/
def evictPages (gone : List (ℕ × Page χ)) : Store χ δ :=
  (s.dropPages gone).clearTimers (gone.filterMap pageTimer)

def evictTiles (gone : List ((ℕ × ℤ) × Tile δ)) : Store χ δ :=
  (s.dropTiles gone).clearTimers (gone.filterMap tileTimer)

def evict : Store χ δ :=
  let s := s.evictPages (leastUsed s.pages s.interestPages s.pageUsed s.o.maxChannelPages)
  -- tiles of evicted pages are meaningless
  let s := s.evictTiles (s.tiles.entries.filter fun e => (s.pages.get e.1.1).isNone)
  s.evictTiles (leastUsed s.tiles s.interestTiles s.tileUsed s.o.maxTiles)

/-! ## Fetching -/

/-- A request is started for an entry that was just set. -/
def start (task : Task) : Store χ δ :=
  { s with
    next := s.next + 1
    inFlightCount := s.inFlightCount + 1
    requests := s.requests ++ [⟨s.next, task, s.generation, false, false⟩] }

def fetchPage (p : ℕ) : Store χ δ :=
  let existing := s.pages.get p
  if existing.any fun page => page.status = .loading || page.status = .ready then s
  else
    let page : Page χ := ⟨s.next, .loading, [], (existing.map Page.attempts).getD 0, none⟩
    ({ s with pages := s.pages.set p page }.use (.page p) |>.start (.page p)).evict

def fetchTile (p : ℕ) (b : ℤ) : Store χ δ :=
  let existing := s.tiles.get (p, b)
  let awaited := existing.any fun tile =>
    tile.status = .loading || (tile.status = .ready && !tile.stale)
  if ((s.pages.get p).any fun page => page.status = .ready) && !awaited then
    let tile : Tile δ := ⟨s.next, .loading, existing.any Tile.stale, existing.bind Tile.data,
      (existing.map Tile.attempts).getD 0, none, s.generation⟩
    ({ s with tiles := s.tiles.set (p, b) tile }.use (.tile p b) |>.start (.tile p b)).evict
  else s

def fetch : Task → Store χ δ
  | .page p => s.fetchPage p
  | .tile p b => s.fetchTile p b

/-- Tasks are taken off the queue as long as a request may be started. -/
def pumpFrom (s : Store χ δ) : List Task → Store χ δ
  | [] => { s with queue := [] }
  | task :: queue =>
    if s.disposed = false ∧ s.inFlightCount < s.o.maxInFlight then (s.fetch task).pumpFrom queue
    else { s with queue := task :: queue }

def pump : Store χ δ := s.pumpFrom s.queue

/-- Work that left the interest is aborted and dropped. -/
def leave : Store χ δ :=
  let s := { s with queue := s.queue.filter s.inInterest }
  let s := s.dropPages
    (s.pages.entries.filter fun e => e.1 ∉ s.interestPages && e.2.status = .loading)
  s.dropTiles (s.tiles.entries.filter fun e => e.1 ∉ s.interestTiles && e.2.status = .loading)

/-- What is missing is queued, what is visible first. -/
def enqueue (v : Viewport) : Store χ δ :=
  let blocks := s.wantedBlocks v
  let wanted := (s.interestPages.flatMap (s.missing blocks)).filter (· ∉ s.queue)
  let s := (s.interestPages.flatMap (s.planned blocks)).foldl use s
  let wanted := wanted.insertionSort fun a b => s.rank v a ≤ s.rank v b
  { s with queue := (wanted ++ s.queue).insertionSort fun a b => s.rank v a ≤ s.rank v b }

/-- The interest of a viewport. -/
def aim (v : Viewport) : Store χ δ :=
  let pages := s.wantedPages v
  { s with
    interestPages := pages
    interestTiles := pages.flatMap fun p => (s.wantedBlocks v).map (p, ·) }

def plan : Store χ δ :=
  match s.viewport with
  | none => s
  | some v => if s.disposed then s else ((s.aim v).leave.enqueue v).evict.pump

/-! ## Calls -/

def setViewport (v : Viewport) : Store χ δ :=
  if s.disposed then s else { s with viewport := some v }.plan

/-- A failed tile that is to be tried again. -/
def renew (tile : Tile δ) : Tile δ :=
  if tile.status = .error then { tile with attempts := 0, stale := true } else tile

/-- Failed pages are forgotten, and failed tiles are to be tried again. -/
def renewed : Store χ δ :=
  let failed := s.pages.entries.filter fun e => e.2.status = .error
  let failedTiles := s.tiles.entries.filter fun e => e.2.status = .error
  { s with
    pages := s.pages.keep fun _ page => page.status ≠ Status.error
    tiles := s.tiles.map renew }.clearTimers
      (failed.filterMap pageTimer ++ failedTiles.filterMap tileTimer)

def retry : Store χ δ := s.renewed.plan

/-- A tile when there is a new guide. -/
def outdate (tile : Tile δ) : Tile δ :=
  { tile with
    stale := true
    status :=
      if tile.status = .loading then (if tile.data.isSome then .ready else .error)
      else tile.status }

/-- All tiles are stale, and those without data are forgotten. -/
def outdated : Store χ δ :=
  let loading := s.tiles.entries.filter fun e => e.2.status = .loading
  { s with
    generation := s.generation + 1
    fence := s.next
    tiles := (s.tiles.map outdate).keep fun _ tile => tile.data.isSome }.abort (loading.map tileTask)

def invalidate : Store χ δ := s.outdated.plan

/-- Everything is forgotten. -/
def clear : Store χ δ :=
  ({ s with
    pages := {}
    tiles := {}
    queue := []
    rateLimitPages := {}
    total := none
    channelsError := false
    generation := s.generation + 1
    fence := s.next }.abort (s.pages.entries.map pageTask ++ s.tiles.entries.map tileTask)).clearTimers
      (s.pages.entries.filterMap pageTimer ++ s.tiles.entries.filterMap tileTimer)

def reset : Store χ δ := s.clear.plan

def dispose : Store χ δ := { s with disposed := true }.reset

/-! ## Answers and timers -/

def setTimer (uid : ℕ) (task : Task) (limited : Bool) (delay : ℕ) : Store χ δ :=
  { s with
    nextTimer := s.nextTimer + 1
    timers := s.timers ++ [⟨s.nextTimer, uid, task, limited, s.now + delay⟩] }

/-- The timer of the next try, unless there were too many. -/
def retryLater (uid attempts : ℕ) (task : Task) : Store χ δ :=
  if attempts > s.o.retryMs.length then s
  else s.setTimer uid task false
    (s.o.retryMs.getD (min (attempts - 1) (s.o.retryMs.length - 1)) 0)

/-- The number of the timer that `retryLater` sets. -/
def retryTimer (attempts : ℕ) : Option ℕ :=
  if attempts > s.o.retryMs.length then none else some s.nextTimer

/-- A page could not be loaded. -/
def pageFailed (p : ℕ) (page : Page χ) : Store χ δ :=
  let attempts := page.attempts + 1
  { s with
    rateLimitPages := s.rateLimitPages.erase p
    channelsError := true
    pages := s.pages.set p
      { page with status := .error, attempts := attempts, timer := s.retryTimer attempts }
    }.retryLater page.uid attempts (.page p)

def pageAnswered (p generation : ℕ) (page : Page χ) : Except Failure (List χ × ℕ) → Store χ δ
  | .ok (items, total) =>
    { s with
      pages := s.pages.set p { page with status := .ready, items := items, attempts := 0 }
      rateLimitPages := s.rateLimitPages.erase p
      total := some total
      channelsError := false }.plan
  | .error .refreshRequired => s.reset
  | .error (.rateLimited delay) =>
    let seen := (s.rateLimitPages.get p).getD 0
    if seen < rateLimitAttempts - 1 ∧ generation = s.generation then
      { s with
        rateLimitPages := s.rateLimitPages.set p (seen + 1)
        pages := s.pages.set p { page with timer := some s.nextTimer }
        }.setTimer page.uid (.page p) true delay
    else s.pageFailed p page
  | .error .other => s.pageFailed p page

/-- A tile could not be loaded. -/
def tileFailed (p : ℕ) (b : ℤ) (tile : Tile δ) : Store χ δ :=
  let attempts := tile.attempts + 1
  { s with
    tiles := s.tiles.set (p, b)
      { tile with status := .error, attempts := attempts, timer := s.retryTimer attempts }
    }.retryLater tile.uid attempts (.tile p b)

def tileAnswered (p : ℕ) (b : ℤ) (tile : Tile δ) : Except Failure δ → Store χ δ
  | .ok data =>
    { s with
      tiles := s.tiles.set (p, b)
        { tile with
          status := .ready
          stale := tile.generation != s.generation
          data := some data
          attempts := 0 } }
  | .error (.rateLimited delay) =>
    if tile.attempts < rateLimitAttempts - 1 then
      { s with
        tiles := s.tiles.set (p, b)
          { tile with attempts := tile.attempts + 1, timer := some s.nextTimer }
        }.setTimer tile.uid (.tile p b) true delay
    else s.tileFailed p b tile
  | .error _ => s.tileFailed p b tile

/-- The answer of a request for a page, when it is still awaited. -/
def answerPage (r : Request) (p : ℕ) (answer : Except Failure (List χ × ℕ)) : Store χ δ :=
  match s.pages.get p with
  | some page =>
    if r.aborted = false ∧ page.uid = r.uid then s.pageAnswered p r.generation page answer else s
  | none => s

def answerTile (r : Request) (p : ℕ) (b : ℤ) (answer : Except Failure δ) : Store χ δ :=
  match s.tiles.get (p, b) with
  | some tile =>
    if r.aborted = false ∧ tile.uid = r.uid then s.tileAnswered p b tile answer else s
  | none => s

/-- A timer runs out. -/
def fired (t : Timer) : Store χ δ :=
  match t.task with
  | .page p =>
    match s.pages.get p with
    | some page =>
      if s.disposed = false ∧ page.uid = t.uid then { s with pages := s.pages.erase p }.plan else s
    | none => s
  | .tile p b =>
    match s.tiles.get (p, b) with
    | some tile =>
      if s.disposed = false ∧ tile.uid = t.uid then
        { s with
          tiles := s.tiles.set (p, b)
            { tile with
              timer := none
              stale := true
              status := if t.limited then .ready else tile.status } }.plan
      else s
    | none => s

/-! ## Events -/

inductive Event (χ δ : Type*)
  | setViewport (v : Viewport)
  | retry
  | invalidate
  | reset
  | dispose
  /-- Entries that are there are read. -/
  | read (tasks : List Task)
  | pass (ms : ℕ)
  | answerPage (uid : ℕ) (answer : Except Failure (List χ × ℕ))
  | answerTile (uid : ℕ) (answer : Except Failure δ)
  | settle (uid : ℕ)
  | fire (id : ℕ)

/-- A request that has no answer yet. -/
def asked (uid : ℕ) : Option Request := s.requests.find? fun r => r.uid = uid && !r.answered

/-- A request that was answered and has not settled. -/
def settling (uid : ℕ) : Option Request := s.requests.find? fun r => r.uid = uid && r.answered

/-- A timer that may run out. -/
def due (id : ℕ) : Option Timer := s.timers.find? fun t => t.id = id && t.due ≤ s.now

def mark (r : Request) : Store χ δ :=
  { s with
    requests := s.requests.map fun x => if x = r then { x with answered := true } else x }

/-- **One event.** The answer of a request is taken first, and then, as a step of its own, the request
settles and makes room for another. -/
def step (s : Store χ δ) : Event χ δ → Option (Store χ δ)
  | .setViewport v => some (s.setViewport v)
  | .retry => some s.retry
  | .invalidate => some s.invalidate
  | .reset => some s.reset
  | .dispose => some s.dispose
  | .read tasks => some (tasks.foldl use s)
  | .pass ms => some { s with now := s.now + ms }
  | .answerPage uid answer =>
    (s.asked uid).bind fun r =>
      match r.task with
      | .page p => some ((s.mark r).answerPage r p answer)
      | .tile _ _ => none
  | .answerTile uid answer =>
    (s.asked uid).bind fun r =>
      match r.task with
      | .page _ => none
      | .tile p b => some ((s.mark r).answerTile r p b answer)
  | .settle uid =>
    (s.settling uid).map fun r =>
      { s with inFlightCount := s.inFlightCount - 1, requests := s.requests.erase r }.pump
  | .fire id => (s.due id).map fun t => { s with timers := s.timers.erase t }.fired t

end Store

end Portico.Guide
