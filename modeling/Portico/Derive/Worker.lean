import Portico.Derive.Catalog
import Portico.Lib.Machine

/-!
# The worker of derived data

A step of the worker is one transaction: it picks a domain, takes a batch from the domain's queue or
from the enumeration of its rebuild, runs the domain's drain on it, and acknowledges what the drain
finished. A step that fails leaves the tables as they were, and a second transaction then sets the
failing unit aside. Between the two, and between any two steps, writers touch ids, a rebuild may be
asked for, and the process may restart.

## Main definitions

* `Worker`: what the worker keeps in memory
* `Worker.prepare`, `rebuild`: the transactions that begin a rebuild
* `takeQueued`, `enumerate`, `finish`: the parts of a batch
* `drainDomain`: a batch
* `setAside`: the transaction after a failure
* `act`, `step`, `report`: the machine
-/

namespace Portico.Derive

/-- The unit a step failed at, whose set-aside is yet to run. -/
structure Failing where
  domain : ℕ
  id : ℤ
  backfilled : Bool
  retried : Bool
deriving DecidableEq, Repr

structure Worker where
  registry : ℕ → Option Derivation
  ready : Bool := false
  isolate : ℕ → Bool := fun _ => false
  poison : ℕ → List ℤ := fun _ => []
  retryAfter : ℕ → ℤ := fun _ => 0
  retryAt : ℕ := 0
  retryDelay : ℕ := 0
  backfillTurn : ℕ → Bool := fun _ => false
  assetSourceAfter : ℤ := 0
  failing : Option Failing := none

structure State where
  catalog : Catalog := {}
  worker : Worker

def retryFirst : ℕ := 5000
def retryMax : ℕ := 300000

/-- How many set-aside ids a start reads back. -/
def startupFailures : ℕ := 20000

/-! ## Where a rebuild begins -/

/-- The row of a registered domain, inserted or brought to a newer version. -/
def prepareRow (domain : ℕ) (d : Derivation) : Option Row → Row
  | none => { version := d.version }
  | some row =>
    if row.version < d.version then
      { row with
        version := d.version, rebuilding := true, firstBuild := false, rebuildCursor := 0,
        cleaning := domain = domainSearch }
    else row

def Catalog.prepare (c : Catalog) (w : Worker) : Catalog :=
  { c with
    derivations := fun domain =>
      match w.registry domain with
      | some d => some (prepareRow domain d (c.derivations domain))
      | none => c.derivations domain }

/-- Rows for the registered domains, and the ids set aside before this start. -/
def Worker.prepare (w : Worker) (c : Catalog) (now : ℕ) : Worker :=
  let aside := (c.failures.insertionSort fun a b => b.failedMs ≤ a.failedMs).take startupFailures
  { w with
    ready := true
    poison := fun domain =>
      w.poison domain ++ (aside.filter fun f => f.domain = domain).map Failure.id
    retryAt := if aside = [] then w.retryAt else now + retryFirst
    retryDelay := if aside = [] then w.retryDelay else retryFirst }

/-- `Rebuild`: start rebuilding a domain from facts. -/
def Catalog.rebuild (c : Catalog) (domain : ℕ) : Catalog :=
  c.setRow domain fun row =>
    { row with
      rebuilding := true, firstBuild := false, rebuildCursor := 0,
      cleaning := domain = domainSearch }

/-! ## A batch -/

/-- What a `Drain` did in its transaction: the ids it finished, the ids it queued, of any domain,
and the sources of other domains that it wrote. -/
structure Drain where
  done : List ℤ
  touched : List (ℕ × List ℤ) := []
  sources : List (ℕ × Sources) := []

/-- What other work of a transaction does to the queues and the sources. -/
structure Work where
  touched : List (ℕ × List ℤ) := []
  sources : List (ℕ × Sources) := []

def Catalog.write (c : Catalog) (work : Work) : Catalog :=
  let c := c.touchMany work.touched
  { c with
    sources := work.sources.foldl (fun sources s => Function.update sources s.1 s.2) c.sources }

def Worker.batch (w : Worker) (domain limit : ℕ) (retry : Bool) : ℕ :=
  if singleHeadDomain domain || w.isolate domain || retry then 1 else limit

/-- Whether this turn is for the queued ids: a rebuild takes every second one. -/
def Worker.queueTurn (w : Worker) (domain : ℕ) (rebuilding : Bool) : Bool :=
  !rebuilding || !w.backfillTurn domain

def Worker.turned (w : Worker) (domain : ℕ) (rebuilding : Bool) : Worker :=
  if rebuilding then
    { w with backfillTurn := Function.update w.backfillTurn domain (!w.backfillTurn domain) }
  else w

/-- The batch a turn takes from a domain's queue, and the places of the rotations after it. -/
def takeQueued (w : Worker) (rows : List (Revised ℤ)) (domain limit : ℕ)
    (rebuilding retry : Bool) : List (Revised ℤ) × Worker :=
  let untried := rows.filter fun row => row.id ∉ w.poison domain
  let turned := w.turned domain rebuilding
  if retry then
    let after := w.retryAfter domain
    let next := (rows.filter fun row => after < row.id).take 1
    let next :=
      if next = [] ∧ rebuilding = false ∧ after ≠ 0 then
        (rows.filter fun row => 0 < row.id).take 1
      else next
    (next, { turned with
      retryAfter := Function.update w.retryAfter domain ((next.map Revised.id).headD 0) })
  else if w.queueTurn domain rebuilding then
    if domain = domainAssetSources then
      let next := (untried.filter fun row => w.assetSourceAfter < row.id).take 1
      let next := if next = [] then untried.take 1 else next
      (next, { turned with
        assetSourceAfter := (next.map Revised.id).headD w.assetSourceAfter })
    else (untried.take (w.batch domain limit retry), turned)
  else ([], turned)

/-- A rebuild's next ids, queued, with the cursor at the last of them. None are left: the rebuild is
over. -/
inductive Enumeration
  | exhausted (c : Catalog)
  | next (c : Catalog) (keys : List (Revised ℤ))

def enumerate (c : Catalog) (d : Derivation) (domain : ℕ) (cursor : ℤ) (batch : ℕ) : Enumeration :=
  match (d.backfill (c.sources domain) cursor batch).insertionSort (· ≤ ·) with
  | [] =>
    .exhausted (c.setRow domain fun row =>
      { row with
        rebuilding := false, rebuildCursor := 0, firstBuild := false,
        activeSlot :=
          if domain = domainSearch ∧ row.firstBuild = false then 1 - row.activeSlot
          else row.activeSlot })
  | id :: ids =>
    let last := ids.getLastD id
    let moved := c.setRow domain fun row => { row with rebuildCursor := last }
    let c := moved.touch domain (id :: ids)
    .next c ((c.dirty domain).rows.filter fun row => row.id ∈ id :: ids)

/-- The next source ids, as far as the batch holds them. -/
def covered (c : Catalog) (d : Derivation) (domain : ℕ) (cursor : ℤ) (batch : ℕ)
    (keys : List (Revised ℤ)) : List ℤ :=
  ((d.backfill (c.sources domain) cursor batch).insertionSort (· ≤ ·)).takeWhile fun id =>
    id ∈ keys.map Revised.id

/-- The last id of the covered prefix that the drain finished, from its start. -/
def through (prefixIDs done : List ℤ) : ℤ :=
  (prefixIDs.takeWhile fun id => id ∈ done).getLastD 0

/-- The batch a drain ran on: its domain, the queue it started with, and what it finished by the
queue it left for the acknowledgements. -/
structure Report where
  domain : ℕ
  keys : List (Revised ℤ)
  started : RevisionQueue ℤ
  done : List ℤ
  ended : RevisionQueue ℤ

/-- A transaction that committed, or one that failed and was rolled back. -/
inductive Turned
  | committed (c : Catalog) (w : Worker) (units : ℕ) (single : ℤ) (report : Option Report)
  | failed (w : Worker) (single : ℤ) (backfilled : Bool)

def cursorOf (c : Catalog) (domain : ℕ) : ℤ := ((c.derivations domain).map Row.rebuildCursor).getD 0

/-- The id of a batch of one. -/
def single : List (Revised ℤ) → ℤ
  | [key] => key.id
  | _ => 0

/-- Run the drain on a batch, move the cursor over the source prefix that it finished, and
acknowledge the rest. -/
def finish (c : Catalog) (w : Worker) (domain : ℕ) (keys : List (Revised ℤ)) (prefixIDs : List ℤ)
    (backfilled : Bool) : Option Drain → Turned
  | none => .failed w (single keys) backfilled
  | some drain =>
    let worked := c.write { touched := drain.touched, sources := drain.sources }
    let moved :=
      if 0 < through prefixIDs drain.done then
        worked.setRow domain fun row => { row with rebuildCursor := through prefixIDs drain.done }
      else worked
    .committed (moved.acknowledgeDone domain keys drain.done) w keys.length (single keys)
      (some
        { domain, keys, started := c.dirty domain, done := drain.done,
          ended := worked.dirty domain })

/-- The documents of the search slot that is not served go first, at most `limit` of them a turn. -/
def cleans (c : Catalog) (domain : ℕ) (rebuilding : Bool) : Bool :=
  domain = domainSearch && rebuilding && ((c.derivations domain).map Row.cleaning).getD false

/-- A batch of a domain whose derivation, if any, has nothing to clean. -/
def drainBatch (c : Catalog) (w : Worker) (domain limit : ℕ) (rebuilding retry : Bool)
    (drain : Option Drain) : Turned :=
  match w.registry domain with
  | none =>
    .committed ((c.setQueue domain {}).setRow domain fun row => { row with rebuilding := false })
      w 1 0 none
  | some d =>
    let batch := w.batch domain limit retry
    let covers := rebuilding && w.queueTurn domain rebuilding && !retry
    match takeQueued w (c.dirty domain).rows domain limit rebuilding retry with
    | ([], w) =>
      if rebuilding then
        match enumerate c d domain (cursorOf c domain) batch with
        | .exhausted c => .committed c w 1 0 none
        | .next c keys =>
          finish c w domain keys
            (if covers then covered c d domain (cursorOf c domain) batch keys else []) true drain
      else .committed c w 0 0 none
    | (key :: keys, w) =>
      finish c w domain (key :: keys)
        (if covers then covered c d domain (cursorOf c domain) batch (key :: keys) else []) false
        drain

/-- `drainDomain`. `stale` counts the documents left in the search slot that is not served. -/
def drainDomain (c : Catalog) (w : Worker) (domain limit : ℕ) (rebuilding retry : Bool) (stale : ℕ)
    (drain : Option Drain) : Turned :=
  if cleans c domain rebuilding then
    if 0 < stale then .committed c w (min stale limit) 0 none
    else
      drainBatch (c.setRow domain fun row => { row with cleaning := false }) w domain limit
        rebuilding retry drain
  else drainBatch c w domain limit rebuilding retry drain

/-! ## A step -/

/-- What a step of the worker meets: whether the fan-out of sources or the step workers found work
first, the domains in the order of their turns and of their retries, and what the drain it comes to
does. -/
structure Turn where
  limit : ℕ
  now : ℕ
  steps : Option Work := none
  candidates : List ℕ := []
  retries : List ℕ := []
  stale : ℕ := 0
  drain : Option Drain := none

/-- A domain that is rebuilt, or has something queued. -/
def hasWork (c : Catalog) (domain : ℕ) : Bool :=
  match c.derivations domain with
  | some row => row.rebuilding || !(c.dirty domain).rows.isEmpty
  | none => false

def rebuilding (c : Catalog) (domain : ℕ) : Bool :=
  ((c.derivations domain).map Row.rebuilding).getD false

/-- The next domain with work that isn't set aside. -/
def workable (c : Catalog) (w : Worker) (candidates : List ℕ) : Option ℕ :=
  (candidates.filter (hasWork c ·)).find? fun domain =>
    rebuilding c domain || (c.queued domain).any fun id => id ∉ w.poison domain

/-- What is set aside may be tried again. -/
def retryDue (w : Worker) (now : ℕ) : Bool := w.retryAt ≤ now

/-- A batch that went through ends its domain's isolation, and its id is no longer set aside. -/
def Worker.succeeded (w : Worker) (domain : ℕ) (id : ℤ) (retried : Bool) : Worker :=
  { w with
    isolate := Function.update w.isolate domain false
    poison := Function.update w.poison domain ((w.poison domain).filter (· ≠ id))
    retryAt := if retried then 0 else w.retryAt
    retryDelay := if retried then 0 else w.retryDelay }

def settleTurn (s : State) (domain : ℕ) (retried : Bool) : Turned → State × Option Report
  | .committed c w _ id report =>
    ({ catalog := c, worker := w.succeeded domain id retried }, report)
  | .failed w id backfilled =>
    ({ s with worker := { w with failing := some { domain, id, backfilled, retried } } }, none)

/-- The transaction of a `Step`, with the memory it leaves. -/
def stepTx (s : State) (t : Turn) : State × Option Report :=
  let drainOf (domain : ℕ) (retried : Bool) : State × Option Report :=
    settleTurn s domain retried
      (drainDomain s.catalog s.worker domain t.limit (rebuilding s.catalog domain) retried t.stale
        t.drain)
  match t.steps with
  | some work => ({ s with catalog := s.catalog.write work }, none)
  | none =>
    match workable s.catalog s.worker t.candidates with
    | some domain => drainOf domain false
    | none =>
      if retryDue s.worker t.now = false then (s, none)
      else
        match t.retries.find? (hasWork s.catalog ·) with
        | some domain => drainOf domain true
        | none =>
          ({ s with
              worker := { s.worker with poison := fun _ => [], retryAt := 0, retryDelay := 0 } },
            none)

/-! ## The transaction after a failure -/

/-- Whether the unit that failed is one id that fails by itself. -/
def Worker.alone (w : Worker) (f : Failing) : Bool :=
  f.id ≠ 0 && (w.isolate f.domain || f.id ∈ w.poison f.domain)

def Worker.setAside (w : Worker) (f : Failing) (now : ℕ) : Worker :=
  let retryDelay := min (max (2 * w.retryDelay) retryFirst) retryMax
  { w with
    failing := none
    poison :=
      if w.alone f then Function.update w.poison f.domain (w.poison f.domain ++ [f.id])
      else w.poison
    isolate := Function.update w.isolate f.domain true
    retryDelay := if f.retried then retryDelay else w.retryDelay
    retryAt := if f.retried then now + retryDelay else w.retryAt }

/-- Record an id that failed by itself, and let the enumeration of its rebuild pass over it. -/
def Catalog.setAside (c : Catalog) (w : Worker) (f : Failing) (now : ℕ) : Catalog :=
  if w.alone f then
    let c := c.fail f.domain f.id now
    if f.backfilled then
      (c.touch f.domain [f.id]).setRow f.domain fun row =>
        { row with rebuildCursor := max row.rebuildCursor f.id }
    else c
  else c

/-! ## The machine -/

inductive Event
  /-- The rows of the registered domains, before the first step of a start. -/
  | prepare (now : ℕ)
  | step (turn : Turn)
  /-- The set-aside after a step that failed; its transaction may fail in turn. -/
  | setAside (now : ℕ) (stored : Bool)
  | rebuild (domain : ℕ)
  /-- A transaction of a writer: its `TouchTx` calls, and the source ids it leaves. -/
  | write (work : Work)
  | restart (registry : ℕ → Option Derivation)

/-- An event, and the batch it ran a drain on. -/
def act (s : State) : Event → Option (State × Option Report)
  | .prepare now =>
    if s.worker.ready ∨ s.worker.failing ≠ none then none
    else
      some
        ({ catalog := s.catalog.prepare s.worker, worker := s.worker.prepare s.catalog now }, none)
  | .step t =>
    if s.worker.ready ∧ s.worker.failing = none ∧ 1 ≤ t.limit ∧ t.limit ≤ 500 then some (stepTx s t)
    else none
  | .setAside now stored =>
    match s.worker.failing with
    | none => none
    | some f =>
      some
        ({ catalog := if stored then s.catalog.setAside s.worker f now else s.catalog,
           worker := s.worker.setAside f now }, none)
  | .rebuild domain => some ({ s with catalog := s.catalog.rebuild domain }, none)
  | .write work => some ({ s with catalog := s.catalog.write work }, none)
  | .restart registry => some ({ s with worker := { registry } }, none)

def step (s : State) (e : Event) : Option State := (act s e).map Prod.fst

def report (s : State) (e : Event) : Option Report := (act s e).bind Prod.snd

theorem step_eq_some {s t : State} {e : Event} :
    step s e = some t ↔ ∃ r, act s e = some (t, r) := by
  rw [step, Option.map_eq_some_iff]
  constructor
  · rintro ⟨⟨u, r⟩, h, rfl⟩
    exact ⟨r, h⟩
  · rintro ⟨r, h⟩
    exact ⟨(t, r), h, rfl⟩

variable {s t : State} {r : Option Report}

theorem act_prepare {now : ℕ} (h : act s (.prepare now) = some (t, r)) :
    s.worker.failing = none ∧ t.catalog = s.catalog.prepare s.worker ∧
      t.worker = s.worker.prepare s.catalog now ∧ r = none := by
  simp only [act] at h
  split_ifs at h with hguard
  cases h
  exact ⟨not_not.mp (not_or.mp hguard).2, rfl, rfl, rfl⟩

theorem act_step {turn : Turn} (h : act s (.step turn) = some (t, r)) :
    s.worker.failing = none ∧ 1 ≤ turn.limit ∧ stepTx s turn = (t, r) := by
  simp only [act] at h
  split_ifs at h with hguard
  exact ⟨hguard.2.1, hguard.2.2.1, Option.some.inj h⟩

theorem act_setAside {now : ℕ} {stored : Bool} (h : act s (.setAside now stored) = some (t, r)) :
    ∃ f, s.worker.failing = some f ∧
      t.catalog = (if stored then s.catalog.setAside s.worker f now else s.catalog) ∧
      t.worker = s.worker.setAside f now ∧ r = none := by
  simp only [act] at h
  split at h
  · cases h
  · rename_i f hf
    cases h
    exact ⟨f, hf, rfl, rfl, rfl⟩

end Portico.Derive
