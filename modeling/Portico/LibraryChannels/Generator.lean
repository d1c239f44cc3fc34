import Portico.Lib.Machine
import Portico.Lib.Batches
import Portico.Lib.Table
import Portico.LibraryChannels.Slots

/-!
# Library channels: the generator

A schedule is generated in passes, each under a lease. A generation first copies what its base has up
to the boundary, then takes its candidates, and is then filled slot by slot, each slot planned on a
snapshot and committed on its own; at its end it is published as the channel's schedule. Saving,
regenerating, reordering and deleting channels go on at the same time, and so does the removal of old
generations.

## Main definitions

* `Channel`, `Pass`, `Store`: the tables, with the passes that are filling a schedule
* `enqueueTx`: a generation is queued, or one that was queued before goes on
* `copyEntries`, `copyUsed`, `snapshotCandidates`, `publishGeneration`: the other phases of a pass
* `runBatch`, `scheduleSlot`: a pass takes the lease, and commits a slot
* `Event`, `step`: everything that happens, in any order
-/

namespace Portico.LibraryChannels

def candidateBatch : ℕ := 128
def entryBatch : ℕ := 64

/-- Twenty seconds. -/
def leaseMS : ℤ := 20000

/-- Seven days. -/
def weekMS : ℤ := 7 * 86400000

/-! ## State -/

/-- A row of `lc_channels`. -/
structure Channel where
  id : String
  revision : ℕ
  config : Config
  enabled : Bool
  removed : Bool
  active : Option ℕ

/-- A pass that fills a schedule: its lease, its copy of the generation, the slot it has planned and
how many more it may. -/
structure Pass where
  token : ℕ
  g : Generation
  planned : Option SlotWrites
  left : ℕ

/-- The tables. Lease tokens are random numbers. -/
structure Store where
  now : ℤ
  channels : List Channel
  generations : List Generation
  nextNumber : ℕ
  tokens : List ℕ
  passes : List Pass

variable (s : Store)

def Store.generation (number : ℕ) : Option Generation := rowOf Generation.number number s.generations
def Store.channel (id : String) : Option Channel := rowOf Channel.id id s.channels
def Store.pass (token : ℕ) : Option Pass := rowOf Pass.token token s.passes

/-- A channel that hasn't been removed. -/
def Store.readChannel (id : String) : Except Fault Channel :=
  require .conflict ((s.channel id).filter fun c => !c.removed)

/-- One generation is written. -/
def Store.write (g : Generation) : Store :=
  { s with generations := updateWhere (fun h => h.number = g.number) (fun _ => g) s.generations }

/-- One pass ends. -/
def Store.endPass (token : ℕ) : Store :=
  { s with passes := s.passes.filter fun p => p.token ≠ token }

/-! ## Queueing -/

/-- Where a new schedule may begin to differ: after what is on air, and after what is being played. -/
def Store.replacementBoundary (active : Option ℕ) (refs : Option ℤ) : ℤ :=
  let entries := ((active.bind s.generation).map fun g => g.tables.entries).getD []
  let boundary := ((entries.reverse.find? fun e => e.startMS ≤ s.now && s.now < e.endMS).map
    Entry.endMS).getD s.now
  match refs with
  | some stop => if boundary < stop then stop else boundary
  | none => boundary

/-- The rows of a generation that was just inserted. -/
def Tables.empty : Tables :=
  { pool := fun _ => [], entries := [], ruleState := fun _ => none, used := [] }

def newGeneration (number : ℕ) (key : Key) (c : Channel) (start now : ℤ) : Generation :=
  { number, key, revision := c.revision, config := c.config, status := .pending
    phase := if key.base = none then .candidates else .copying
    startMS := start, endMS := key.stop, copyAfter := -1, scanRule := 0, scanAfter := ""
    usedAfter := none, cursor := key.boundary, count := 0, unresolved := 0, leaseToken := none
    leaseUntil := 0, createdMS := now, tables := .empty }

/-- The generation with a key is inserted, or goes on when it was superseded. -/
def Store.upsert (key : Key) (c : Channel) (start : ℤ) : Store :=
  if s.generations.any fun g => g.key = key then
    { s with
      generations := updateWhere (fun g => g.key = key && g.status = .superseded)
        (fun g => { g with status := .pending }) s.generations }
  else
    { s with
      generations := s.generations ++ [newGeneration s.nextNumber key c start s.now]
      nextNumber := s.nextNumber + 1 }

def hasLeastPlayed (c : Config) : Bool := c.rules.any Rule.leastPlayed

/-- A tail goes on where the published schedule ends. -/
def Store.boundaryOf (c : Channel) (boundary : ℤ) : Bool → Except Fault ℤ
  | true => (require .conflict ((c.active.bind s.generation).filter fun g =>
      g.status = .published)).map Generation.endMS
  | false => .ok boundary

/-- A generation is queued for a channel. -/
def Store.enqueueTx (cal : Calendar) (c : Channel) (boundary : ℤ) (tail : Bool) (fence : String)
    (historyFence : ℤ) : Except Fault Store := do
  let window ← require .invalid (cal.sevenDayWindow c.config.timezone s.now)
  let boundary ← s.boundaryOf c boundary tail
  let boundary := max boundary window.1
  return if window.2 ≤ boundary then s
    else s.upsert
      { channelID := c.id, revision := c.revision, fence, boundary, stop := window.2
        base := c.active, seed := c.config.seed
        historyFence := if hasLeastPlayed c.config then some historyFence else none } c window.1

/-- The pending generations of a channel are superseded. -/
def Store.supersede (channel : String) : Store :=
  { s with
    generations := updateWhere (fun g => g.key.channelID = channel && g.status = .pending)
      (fun g => { g with status := .superseded }) s.generations }

/-- A channel's row is written. -/
def Store.putChannel (c : Channel) : Store :=
  { s with channels := c :: s.channels.filter fun d => d.id ≠ c.id }

/-- A configuration is saved as the next revision, and a schedule for it queued. -/
def Store.save (cal : Calendar) (id : String) (config : Config) (enabled : Bool) (fence : String)
    (historyFence : ℤ) (refs : Option ℤ) : Except Fault Store :=
  let old := s.channel id
  if (old.map Channel.removed).getD false then .error .conflict
  else
    let active := old.bind Channel.active
    let c : Channel :=
      { id, config, enabled, active, removed := false
        revision := (old.map Channel.revision).getD 0 + 1 }
    let s := (s.putChannel c).supersede id
    if enabled then s.enqueueTx cal c (s.replacementBoundary active refs) false fence historyFence
    else .ok s

/-- A schedule is made again from its boundary on. -/
def Store.regenerate (cal : Calendar) (id : String) (fence : String) (historyFence : ℤ)
    (refs : Option ℤ) : Except Fault Store := do
  let c ← s.readChannel id
  if !c.enabled then .error .conflict
  else (s.supersede id).enqueueTx cal c (s.replacementBoundary c.active refs) false fence historyFence

/-- A channel's maintenance: its schedule is made again when it is stale, and extended when its end
comes near. -/
def Store.maintain (cal : Calendar) (id : String) (tail : Bool) (fence : String) (historyFence : ℤ)
    (refs : Option ℤ) : Except Fault Store := do
  let c ← s.readChannel id
  if !c.enabled || tail && c.active = none then .error .conflict
  else s.enqueueTx cal c (s.replacementBoundary c.active refs) tail fence historyFence

/-- A channel is removed. -/
def Store.delete (id : String) : Except Fault Store := do
  let c ← s.readChannel id
  return (s.putChannel { c with enabled := false, removed := true, revision := c.revision + 1 }).supersede
    id

/-- A channel gets a new position: its pending generation goes on under the next revision. -/
def Store.reorder (id : String) : Except Fault Store := do
  let c ← s.readChannel id
  let s := s.putChannel { c with revision := c.revision + 1 }
  return { s with
    generations := updateWhere (fun g => g.key.channelID = id && g.status = .pending)
      (fun g => { g with revision := c.revision + 1, config := c.config }) s.generations }

/-! ## The phases of a pass -/

/-- The entries of the base that a generation keeps: those from its start on, up to the boundary. -/
def Generation.keeps (g : Generation) (e : Entry) : Bool :=
  g.startMS < e.endMS && e.endMS ≤ g.key.boundary

/-- Only the cursors of unchanged rules are carried. -/
def carriedState (base g : Generation) (rule : String) : Option RuleCursor :=
  match g.tables.ruleState rule with
  | some c => some c
  | none =>
    if g.config.rules.any fun r => r.id = rule && base.config.rule rule = some r then
      base.tables.ruleState rule
    else none

/-- The gap between the copied entries and the boundary. -/
def gapEntry (g : Generation) (last : ℤ) (h : last < g.key.boundary) : Entry :=
  { id := .gap g.key.channelID last g.key.boundary, startMS := last, endMS := g.key.boundary
    item := 0, asset := "", library := "", sourceFence := "", title := unavailableTitle
    ruleID := "", blockID := "", slateReason := "schedule-unavailable", positive := h
    started := rfl }

/-- The end of the last entry. -/
def Tables.lastEnd (t : Tables) : Option ℤ := (t.entries.map Entry.endMS).max?

/-- The entries up to the boundary. -/
def fillGap (g : Generation) : Option ℤ → Except Fault (List Entry)
  | none => .ok g.tables.entries
  | some last =>
    if h : last < g.key.boundary then insertEntry g.tables.entries (gapEntry g last h)
    else .ok g.tables.entries

/-- After the last batch of entries: the rule cursors and the gap. -/
def finishCopy (base g : Generation) : Except Fault Generation := do
  let entries ← fillGap g g.tables.lastEnd
  return { g with
    phase := .copyUsed
    tables := { g.tables with entries, ruleState := carriedState base g } }

/-- A batch of the base's entries is copied. -/
def copyEntries (base g : Generation) : Except Fault Generation := do
  let rows := batch Entry.startMS candidateBatch g.copyAfter (base.tables.entries.filter g.keeps)
  let entries ← rows.foldlM insertEntry g.tables.entries
  let g := { g with
    copyAfter := batchEnd Entry.startMS g.copyAfter rows
    tables := { g.tables with entries } }
  if rows.length < candidateBatch then finishCopy base g else return g

/-- The order of the used rows. Rule ids aren't empty, and so no row comes before the first key. -/
def Use.place (u : Use) : String ×ₗ ℕ := toLex (u.rule, u.item)

/-- A used row is inserted, unless it is there. -/
def insertUse (used : List Use) (u : Use) : List Use :=
  if used.any fun v => v.rule = u.rule && v.item = u.item then used else used ++ [u]

/-- A batch of the base's used rows is copied. -/
def copyUsed (base : Tables) (g : Generation) : Generation :=
  let after := toLex (g.usedAfter.getD ("", 0))
  let rows := batch Use.place candidateBatch after
    ((base.used.filter g.keepsUse).insertionSort fun u v => u.place ≤ v.place)
  let g := { g with
    usedAfter := some (ofLex (batchEnd Use.place after rows))
    tables := { g.tables with used := rows.foldl insertUse g.tables.used } }
  if rows.length < candidateBatch then { g with phase := .candidates, usedAfter := none } else g

/-- A page of a rule's candidates: those that were resolved, where the next page goes on, and how
many rows were read and couldn't be resolved. -/
structure CandidatePage where
  page : List Candidate
  after : String
  scanned : ℕ
  unresolved : ℕ

/-- A candidate is appended to its rule's pool; an item that is there is refused. -/
def insertCandidate (rule : String) (pool : String → List Candidate) (c : Candidate) :
    Except Fault (String → List Candidate) :=
  if (pool rule).any fun d => d.item = c.item then .error .unavailable
  else .ok (Function.update pool rule (pool rule ++ [c]))

/-- A page of candidates is taken, or the next rule begun. -/
def snapshotCandidates (read : Rule → String → ℕ → CandidatePage) (g : Generation) :
    Except Fault Generation :=
  match g.config.rules[g.scanRule]? with
  | none => .ok { g with phase := .scheduling, scanAfter := "" }
  | some r =>
    let count := (g.tables.pool r.id).length
    let limit := if 0 < r.limit then min candidateBatch (r.limit - count) else candidateBatch
    if limit = 0 then .ok { g with scanRule := g.scanRule + 1, scanAfter := "" }
    else do
      let page := read r g.scanAfter limit
      let pool ← page.page.foldlM (insertCandidate r.id) g.tables.pool
      let g := { g with
        scanAfter := page.after
        unresolved := g.unresolved + page.unresolved
        count := g.count + page.page.length
        tables := { g.tables with pool } }
      return if page.scanned < limit || 0 < r.limit && r.limit ≤ count + page.page.length then
          { g with scanRule := g.scanRule + 1, scanAfter := "" }
        else g

/-- The starts and ends of the entries fit together. -/
def contiguous : List Entry → Bool
  | e :: f :: l => e.endMS = f.startMS && contiguous (f :: l)
  | _ => true

/-- A generation that is complete becomes its channel's schedule. -/
def Store.publishGeneration (g : Generation) : Except Fault Store := do
  let first ← require .unavailable (g.tables.entries.map Entry.startMS).min?
  let last ← require .unavailable g.tables.lastEnd
  if last < g.endMS || !contiguous g.tables.entries then .error .unavailable
  else do
    let c ← require .conflict ((s.channel g.key.channelID).filter fun c =>
      c.revision = g.revision && c.enabled && !c.removed)
    return (s.putChannel { c with active := some g.number }).write
      { g with status := .published, phase := .published, startMS := first, endMS := last
               leaseUntil := 0, leaseToken := none }

/-- The lease is handed back after a batch. -/
def Generation.release (g : Generation) : Generation := { g with leaseUntil := 0, leaseToken := none }

/-! ## Passes -/

/-- A pass does one batch of its generation's phase. In the scheduling phase it only has the lease. -/
def Store.runPhase (g : Generation) (token : ℕ) (read : Rule → String → ℕ → CandidatePage) :
    Except Fault Store :=
  let base := g.key.base.bind s.generation
  match g.phase with
  | .copying => do
    let base ← require .unavailable base
    let g ← copyEntries base g
    return s.write g.release
  | .copyUsed => .ok (s.write (copyUsed ((base.map Generation.tables).getD .empty) g).release)
  | .candidates => do
    let g ← snapshotCandidates read g
    return s.write g.release
  | .scheduling => .ok { s.write g with passes := ⟨token, g, none, entryBatch⟩ :: s.passes }
  | .validating => s.publishGeneration g
  | .published => .error .invalid

/-- **A pass** takes the lease of a pending generation. One whose configuration or catalogue has
changed is superseded. -/
def Store.runBatch (number token : ℕ) (fence : String) (read : Rule → String → ℕ → CandidatePage) :
    Except Fault Store := do
  let g ← require .unavailable ((s.generation number).filter fun g =>
    g.status = .pending && g.leaseUntil ≤ s.now)
  let c ← require .unavailable ((s.channel g.key.channelID).filter fun c => c.enabled && !c.removed)
  if token ∈ s.tokens then .error .unavailable
  else
    let s := { s with tokens := token :: s.tokens }
    let g := { g with leaseToken := some token, leaseUntil := s.now + leaseMS }
    if c.revision ≠ g.revision || fence ≠ g.key.fence then
      .ok (s.write { g with status := .superseded, leaseUntil := 0 })
    else s.runPhase g token read

/-- A pass plans its next slot on a snapshot of the rows. -/
def Store.planPass (cal : Calendar) (chance : Chance) (token : ℕ) : Except Fault Store := do
  let p ← require .unavailable ((s.pass token).filter fun p =>
    p.planned.isNone && 0 < p.left && p.g.phase = .scheduling)
  let tables := ((s.generation p.g.number).map Generation.tables).getD .empty
  let w ← planSlot { p.g with tables } cal chance
  return { s with
    passes := updateWhere (fun q => q.token = token) (fun q => { q with planned := some w })
      s.passes }

/-- The generation is where the plan of a pass found it, and the lease is still the pass's. -/
def Pass.holds (p : Pass) (g : Generation) : Bool :=
  g.status = .pending && g.phase = .scheduling && g.leaseToken = some p.token && g.cursor = p.g.cursor

/-- **A planned slot is committed**, in one transaction that first checks that the generation hasn't
moved. A pass whose generation has moved, or whose write fails, ends. -/
def Store.scheduleSlot (token : ℕ) : Except Fault Store := do
  let p ← require .unavailable (s.pass token)
  let w ← require .unavailable p.planned
  match (s.generation p.g.number).filter p.holds with
  | none => .ok (s.endPass token)
  | some g =>
    match applySlot g w with
    | .error _ => .ok (s.endPass token)
    | .ok g' =>
      let s := s.write g'
      .ok { s with
        passes := updateWhere (fun q => q.token = token) (fun q => { q with
          g := { q.g with cursor := w.cursor, phase := w.phase }
          planned := none
          left := q.left - 1 }) s.passes }

/-- A pass ends, and hands its lease back or, when it was cut off, doesn't. -/
def Store.finishPass (token : ℕ) (handsBack : Bool) : Except Fault Store := do
  let p ← require .unavailable (s.pass token)
  let s := s.endPass token
  return if handsBack then
      { s with
        generations := updateWhere (fun g => g.number = p.g.number && g.leaseToken = some token)
          Generation.release s.generations }
    else s

/-! ## Pruning -/

/-- An old generation that nothing refers to. -/
def Store.prunable (g : Generation) : Bool :=
  g.status ≠ .pending && g.createdMS < s.now - weekMS &&
    !(s.channels.any fun c => c.active = some g.number) &&
    !(s.generations.any fun child => child.status = .pending && child.key.base = some g.number)

/-- The rows that one batch of deletions leaves. -/
structure Kept where
  candidate : String → Candidate → Bool
  entry : Entry → Bool
  ruleState : String → Bool
  used : Use → Bool

def Kept.tables (keep : Kept) (t : Tables) : Tables :=
  { pool := fun rule => (t.pool rule).filter (keep.candidate rule)
    entries := t.entries.filter keep.entry
    ruleState := fun rule => if keep.ruleState rule then t.ruleState rule else none
    used := t.used.filter keep.used }

/-- A batch of a prunable generation's rows is deleted, or the generation itself. -/
def Store.prune (number : ℕ) (keep : Option Kept) : Except Fault Store := do
  let g ← require .unavailable ((s.generation number).filter s.prunable)
  match keep with
  | some keep => .ok (s.write { g with tables := keep.tables g.tables })
  | none => .ok { s with generations := s.generations.filter fun h => h.number ≠ g.number }

/-! ## Runs -/

/-- Everything that happens. A transaction that fails is no event. -/
inductive Event
  | tick (now : ℤ)
  | save (id : String) (config : Config) (enabled : Bool) (fence : String) (historyFence : ℤ)
      (refs : Option ℤ)
  | regenerate (id : String) (fence : String) (historyFence : ℤ) (refs : Option ℤ)
  | maintain (id : String) (tail : Bool) (fence : String) (historyFence : ℤ) (refs : Option ℤ)
  | delete (id : String)
  | reorder (id : String)
  | runBatch (number token : ℕ) (fence : String) (read : Rule → String → ℕ → CandidatePage)
  | plan (token : ℕ)
  | commit (token : ℕ)
  | finish (token : ℕ) (handsBack : Bool)
  | prune (number : ℕ) (keep : Option Kept)

/-- What an event does. -/
def apply (cal : Calendar) (chance : Chance) (s : Store) : Event → Except Fault Store
  | .tick now => if s.now ≤ now then .ok { s with now } else .error .invalid
  | .save id config enabled fence historyFence refs =>
    s.save cal id config enabled fence historyFence refs
  | .regenerate id fence historyFence refs => s.regenerate cal id fence historyFence refs
  | .maintain id tail fence historyFence refs => s.maintain cal id tail fence historyFence refs
  | .delete id => s.delete id
  | .reorder id => s.reorder id
  | .runBatch number token fence read => s.runBatch number token fence read
  | .plan token => s.planPass cal chance token
  | .commit token => s.scheduleSlot token
  | .finish token handsBack => s.finishPass token handsBack
  | .prune number keep => s.prune number keep

def step (cal : Calendar) (chance : Chance) (s : Store) (e : Event) : Option Store :=
  (apply cal chance s e).toOption

/-- Before the first channel. -/
def start (now : ℤ) : Store :=
  { now, channels := [], generations := [], nextNumber := 0, tokens := [], passes := [] }

end Portico.LibraryChannels
