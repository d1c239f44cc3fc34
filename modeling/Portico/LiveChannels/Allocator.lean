import Portico.Lib.Machine
import Portico.Lib.Table

/-!
# Tuner allocations

A source has so many tuners. A viewer or a recording acquires an allocation of a channel, renews its
lease and releases it. Allocations of one channel share a tuner. A recording that finds none free may
set the newest viewer a deadline, and protected recordings to come may set one from the start. An
expired allocation keeps its tuner until its decoder has been seen to be gone.

## Main definitions

* `Row`, `Store`: the table of allocations with the dependencies and events of its transactions
* `capacityTx`, `reservationsTx`, `protectedBoundary`: what an acquisition looks at
* `acquireTx`, `preemptChannelTx`, `renewAllocationTx`, `releaseAllocationTx`, `reconcileExpired`
* `Event`, `step`: the transactions, in any order
-/

namespace Portico.LiveChannels

/-! ## Rows -/

/-- Who an allocation belongs to. -/
structure Owner where
  authority : String
  accountID : String
  profileID : String
deriving DecidableEq, Repr

/-- The control characters. -/
def isControl (c : Char) : Bool := c.val ≤ 0x1f || (0x7f ≤ c.val && c.val ≤ 0x9f)

/-- A text of at most `max` bytes without control characters. -/
def validText (v : String) (max : ℕ) : Bool :=
  v ≠ "" && v.utf8ByteSize ≤ max && !v.toList.any isControl

def Owner.valid (o : Owner) : Bool :=
  o.authority = "local" && validText o.accountID 256 && validText o.profileID 256

/-- What an allocation is for. -/
inductive Kind
  | live
  | recording
deriving DecidableEq, Repr

inductive Status
  | active
  | preempting
  | released
deriving DecidableEq, Repr

/-- A row of `live_allocations`. Ids and tokens are random numbers, times are in milliseconds, and a
deadline of zero is none. -/
structure Row where
  id : ℕ
  sourceID : String
  channelID : String
  resourceID : String
  kind : Kind
  owner : Owner
  token : ℕ
  generation : ℤ
  state : Status
  leaseUntilMS : ℤ
  createdMS : ℤ
  preemptAtMS : ℤ
deriving DecidableEq, Repr

/-- What a resource is allocated under: at most one row has it. -/
def Row.resource (r : Row) : Kind × String := (r.kind, r.resourceID)

/-- A source with its settings: the physical tuners found and the owner's limit. -/
structure Source where
  id : String
  active : Bool
  tunerCount : ℤ
  settings : Option (ℤ × ℤ)
deriving DecidableEq, Repr

/-- A protected recording to come. -/
structure Reservation where
  id : String
  sourceID : String
  channelID : String
  startMS : ℤ
  endMS : ℤ
  enabled : Bool
deriving DecidableEq, Repr

/-- What the owner decided about a recording that needs a tuner someone watches. -/
inductive Policy
  | keepWatching
  | stopWatching
deriving DecidableEq, Repr

/-- The errors of a transaction. -/
inductive Fault
  | invalid
  | conflict
  | capacity
  | liveInUse
  | preemptPending
  | reservation
  | lease
deriving DecidableEq, Repr

/-- What the transactions write: the allocations, the sources they depend on, the deadlines told to
their owners, and the random numbers used up. -/
structure Store where
  allocations : List Row
  dependencies : List (String × ℕ)
  events : List (Owner × String × ℤ)
  nonces : List ℕ

/-! ## Capacity -/

/-- How many tuners a source has: unknown, or a number. -/
structure Capacity where
  known : Bool
  effective : ℤ
deriving DecidableEq, Repr

/-- The physical tuners within the owner's limit. -/
def effectiveCapacity (physical limit : ℤ) : ℤ :=
  if 0 < physical ∧ (limit = 0 ∨ physical < limit) then physical else limit

/-- A source's capacity; its settings take the place of its own count. -/
def capacityTx (sources : List Source) (sid : String) : Except Fault Capacity :=
  match sources.find? fun s => s.id = sid ∧ s.active with
  | none => .error .conflict
  | some s =>
    match s.settings with
    | none => .ok ⟨0 < s.tunerCount, if 0 < s.tunerCount then s.tunerCount else 0⟩
    | some (physical, limit) =>
      let count := effectiveCapacity physical limit
      .ok ⟨0 < count, count⟩

/-! ## Tuners -/

/-- What occupies a tuner: the readers of a channel, or one reader whose channel isn't known. -/
inductive Tuner
  | alone (id : ℕ)
  | channel (name : String)
deriving DecidableEq, Repr

def Row.tuner (r : Row) : Tuner := if r.channelID = "" then .alone r.id else .channel r.channelID

/-- The allocations of a source that aren't released. -/
def Store.unreleased (sid : String) (s : Store) : List Row :=
  s.allocations.filter fun r => r.sourceID = sid ∧ r.state ≠ .released

/-- The tuners a source's allocations use. -/
def Store.tuners (sid : String) (s : Store) : Finset Tuner :=
  ((s.unreleased sid).map Row.tuner).toFinset

/-- Whether an unreleased recording reads a channel of a source. -/
def Store.recorded (sid channel : String) (s : Store) : Bool :=
  (s.unreleased sid).any fun r => r.channelID = channel && r.kind = .recording

/-- The tuners only viewers use. -/
def Store.liveTuners (sid : String) (s : Store) : Finset Tuner :=
  (((s.unreleased sid).filter fun r => r.kind = .live && !s.recorded sid r.channelID).map
    Row.tuner).toFinset

/-! ## Reservations -/

/-- An acquisition plans this far ahead. -/
def horizonMS : ℤ := 7 * 24 * 3600 * 1000

/-- The reservations of a source that touch the time from `start` to `stop`. -/
def reservationsTx (guide : List Reservation) (sid : String) (start stop : ℤ) : List Reservation :=
  (guide.filter fun r => r.sourceID = sid && r.enabled && r.startMS < stop && start < r.endMS).insertionSort
    fun r t => r.startMS < t.startMS ∨ r.startMS = t.startMS ∧ r.id ≤ t.id

/-- A reservation begins or ends. -/
structure Edge where
  at_ : ℤ
  channel : String
  delta : ℤ
deriving DecidableEq, Repr

def Reservation.key (r : Reservation) : String := if r.channelID = "" then r.id else r.channelID

/-- How many reservations each channel has, and how many channels have one. -/
structure Demand where
  counts : String → ℤ
  demand : ℤ

def Demand.move (d : Demand) (e : Edge) : Demand :=
  let old := d.counts e.channel
  let new := old + e.delta
  { counts := Function.update d.counts e.channel new
    demand :=
      if old = 0 ∧ 0 < new then d.demand + 1 else if 0 < old ∧ new = 0 then d.demand - 1 else d.demand }

/-- The first time from which on more channels are needed than are available: the edges of one time
are taken together. -/
def sweep (available : ℤ) : List Edge → Demand → Option ℤ
  | [], _ => none
  | e :: rest, d =>
    let d := d.move e
    match rest with
    | [] => if available < d.demand then some e.at_ else none
    | e' :: _ => if e'.at_ ≠ e.at_ ∧ available < d.demand then some e.at_ else sweep available rest d

/-- When the reservations will need more tuners than are available, if they will. -/
def protectedBoundary (all : List Reservation) (now available : ℤ) : Option ℤ :=
  let ahead := all.filter fun r => now < r.endMS
  let running := ahead.filter fun r => r.startMS ≤ now
  let d : Demand :=
    { counts := fun c => running.countP fun r => r.key = c
      demand := (running.map Reservation.key).toFinset.card }
  let edges := ahead.flatMap fun r =>
    (if now < r.startMS then [⟨r.startMS, r.key, 1⟩] else []) ++ [⟨r.endMS, r.key, -1⟩]
  if available < d.demand then some now
  else sweep available (edges.insertionSort fun e f => e.at_ ≤ f.at_) d

/-! ## Acquiring -/

/-- How long a lease lasts, and how long an expired one is left alone. -/
def allocationTTL : ℤ := 20000

def retirementGrace : ℤ := 10000

/-- What is asked for. -/
structure Request where
  sourceID : String
  channelID : String
  resourceID : String
  kind : Kind
  owner : Owner
deriving DecidableEq, Repr

def Request.resource (want : Request) : Kind × String := (want.kind, want.resourceID)

def Request.valid (want : Request) : Bool := want.owner.valid && validText want.resourceID 256

/-- A holder's allocation. -/
structure Allocation where
  id : ℕ
  sourceID : String
  token : ℕ
  generation : ℤ
  expires : ℤ
  preemptAt : Option ℤ
deriving DecidableEq, Repr

namespace Store

variable (s : Store)

/-- Someone reads the channel with a lease that lasts. -/
def shared (want : Request) (now : ℤ) : Bool :=
  s.allocations.any fun r => r.sourceID = want.sourceID && r.channelID = want.channelID &&
    r.state = .active && now < r.leaseUntilMS

/-- The earliest deadline of those who read the channel; zero is none. -/
def joinedDeadline (want : Request) : ℤ :=
  let deadlines := (s.allocations.filter fun r => r.sourceID = want.sourceID &&
    r.channelID = want.channelID && r.state = .active && r.preemptAtMS ≠ 0).map Row.preemptAtMS
  deadlines.min?.getD 0

/-- The channel of the newest viewer that no recording shares its channel with. -/
def victim (sid : String) : Option String :=
  let viewers := s.allocations.filter fun r => r.sourceID = sid && r.kind = .live &&
    r.state = .active && !s.recorded sid r.channelID
  ((viewers.insertionSort fun r t =>
    t.createdMS < r.createdMS ∨ t.createdMS = r.createdMS ∧ t.id ≤ r.id).head?).map Row.channelID

/-- Whether a deadline reaches a row: a viewer of the channel without an earlier one. -/
def reaches (sid channel : String) (deadline : ℤ) (r : Row) : Bool :=
  r.sourceID = sid && r.channelID = channel && r.kind = .live && r.state = .active &&
    (r.preemptAtMS = 0 || deadline < r.preemptAtMS)

/-- The viewers of a channel are set a deadline, and told. -/
def preemptChannelTx (sid channel : String) (deadline : ℤ) : Store :=
  { s with
    allocations := updateWhere (reaches sid channel deadline)
      (fun r => { r with preemptAtMS := deadline }) s.allocations
    events := s.events ++ ((s.allocations.filter (reaches sid channel deadline)).map fun r =>
      (r.owner, r.resourceID, deadline)) }

/-- The row of an acquisition: a released one of its resource is used again. -/
def upsert (row : Row) : Store :=
  { s with
    allocations :=
      if s.allocations.any fun r => r.resource = row.resource then
        updateWhere (fun r => r.resource = row.resource) (fun r => { row with id := r.id })
          s.allocations
      else s.allocations ++ [row] }

/-- The row an allocation is written to. -/
def granted (want : Request) (preemptAt : Option ℤ) (now : ℤ) (id token : ℕ) : Row :=
  let existing := rowOf Row.resource want.resource s.allocations
  { id := (existing.map Row.id).getD id
    sourceID := want.sourceID
    channelID := want.channelID
    resourceID := want.resourceID
    kind := want.kind
    owner := want.owner
    token := token
    generation := (existing.map fun r => r.generation + 1).getD 1
    state := .active
    leaseUntilMS := min (now + allocationTTL) (preemptAt.getD (now + allocationTTL))
    createdMS := now
    preemptAtMS := preemptAt.getD 0 }

/-- The allocation is written: its row, its source's dependency and the deadline it starts with. -/
def grant (want : Request) (preemptAt : Option ℤ) (now : ℤ) (id token : ℕ) :
    Except Fault Allocation × Store :=
  let row := s.granted want preemptAt now id token
  (.ok ⟨row.id, row.sourceID, row.token, row.generation, row.leaseUntilMS, preemptAt⟩,
    { s.upsert row with
      dependencies :=
        if (row.sourceID, row.id) ∈ s.dependencies then s.dependencies
        else s.dependencies ++ [(row.sourceID, row.id)]
      events :=
        if 0 < row.preemptAtMS then s.events ++ [(row.owner, row.resourceID, row.preemptAtMS)]
        else s.events
      nonces := id :: token :: s.nonces })

/-- A recording that finds every tuner taken waits for the viewers, or sets one a deadline. -/
def contend (want : Request) (policy : Policy) (now : ℤ) : Except Fault Allocation × Store :=
  if want.kind = .recording then
    match s.victim want.sourceID with
    | none => (.error .capacity, s)
    | some channel =>
      if policy = .keepWatching then (.error .liveInUse, s)
      else (.error .preemptPending, s.preemptChannelTx want.sourceID channel (now + retirementGrace))
  else (.error .capacity, s)

/-- The reservations of channels nobody reads. -/
def others (guide : List Reservation) (want : Request) (now : ℤ) : List Reservation :=
  (reservationsTx guide want.sourceID now (now + horizonMS)).filter fun r =>
    !(r.channelID = want.channelID || (s.unreleased want.sourceID).any fun t => t.channelID = r.channelID)

/-- When protected recordings will need the tuner a viewer asks for. -/
def boundary (guide : List Reservation) (want : Request) (policy : Policy) (effective now : ℤ) :
    Option ℤ :=
  if want.kind = .live ∧ policy = .stopWatching then
    protectedBoundary (s.others guide want now) now
      (effective - (s.liveTuners want.sourceID).card - 1)
  else none

/-- An allocation is acquired, or refused. -/
def acquireTx (sources : List Source) (guide : List Reservation) (policy : Policy) (want : Request)
    (now : ℤ) (id token : ℕ) : Except Fault Allocation × Store :=
  if !want.valid then (.error .invalid, s)
  else
    match capacityTx sources want.sourceID with
    | .error f => (.error f, s)
    | .ok cap =>
      if (rowOf Row.resource want.resource s.allocations).any fun r => r.state ≠ .released then
        (.error .lease, s)
      else if s.shared want now then
        let deadline := s.joinedDeadline want
        s.grant want (if want.kind = .live ∧ 0 < deadline then some deadline else none) now id token
      else if !cap.known then s.grant want none now id token
      else if cap.effective ≤ (s.tuners want.sourceID).card then s.contend want policy now
      else
        match s.boundary guide want policy cap.effective now with
        | none => s.grant want none now id token
        | some at_ =>
          if at_ ≤ now + allocationTTL then (.error .reservation, s)
          else s.grant want (some at_) now id token

/-! ## Holders -/

/-- A holder has the row's id, token and generation. -/
def holds (a : Allocation) (r : Row) : Bool :=
  r.id = a.id && r.token = a.token && r.generation = a.generation

/-- A lease that lasts is renewed, up to the row's deadline. -/
def renewAllocationTx (a : Allocation) (now : ℤ) : Except Fault ℤ × Store :=
  match s.allocations.find? fun r => holds a r && r.state = .active && now < r.leaseUntilMS with
  | none => (.error .lease, s)
  | some row =>
    if 0 < row.preemptAtMS ∧ row.preemptAtMS ≤ now then (.error .lease, s)
    else
      let expiry :=
        if 0 < row.preemptAtMS then min (now + allocationTTL) row.preemptAtMS else now + allocationTTL
      (.ok expiry,
        { s with
          allocations := updateWhere
            (fun r => holds a r && r.state = .active && now < r.leaseUntilMS)
            (fun r => { r with leaseUntilMS := expiry }) s.allocations })

/-- A holder's allocation is released. -/
def releaseAllocationTx (a : Allocation) : Store :=
  { s with
    allocations := updateWhere (holds a) (fun r => { r with state := .released, leaseUntilMS := 0 })
      s.allocations
    dependencies :=
      if s.allocations.any (holds a) then s.dependencies.filter fun d => d ≠ (a.sourceID, a.id)
      else s.dependencies }

/-- An expired allocation is released once its grace is over; its decoder is known to be gone. -/
def reconcileExpired (row : Row) (now : ℤ) : Store :=
  let a : Allocation := ⟨row.id, row.sourceID, row.token, row.generation, 0, none⟩
  if s.allocations.any fun r => holds a r && r.state ≠ .released &&
      r.leaseUntilMS < now - retirementGrace then
    s.releaseAllocationTx a
  else s

/-- Old released rows are removed. -/
def retain (keep : Row → Bool) : Store :=
  { s with allocations := s.allocations.filter fun r => keep r || r.state ≠ .released }

end Store

/-! ## Any order -/

/-- The transactions. The guide and the policy may change between them. -/
inductive Event
  | acquire (want : Request) (guide : List Reservation) (policy : Policy) (now : ℤ) (id token : ℕ)
  | renew (a : Allocation) (now : ℤ)
  | release (a : Allocation)
  | reconcile (row : Row) (now : ℤ)
  | retain (keep : Row → Bool)

/-- No allocation yet. -/
def Store.empty : Store := ⟨[], [], [], []⟩

/-- One transaction. An acquisition brings two random numbers that were never used. -/
def step (sources : List Source) (s : Store) : Event → Option Store
  | .acquire want guide policy now id token =>
    if id ∉ s.nonces ∧ token ∉ s.nonces then
      some (s.acquireTx sources guide policy want now id token).2
    else none
  | .renew a now => some (s.renewAllocationTx a now).2
  | .release a => some (s.releaseAllocationTx a)
  | .reconcile row now => some (s.reconcileExpired row now)
  | .retain keep => some (s.retain keep)

end Portico.LiveChannels
