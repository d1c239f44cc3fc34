import Portico.Lib.Machine
import Portico.Operations.Jobs

/-!
# Operations: the scheduler

A control loop reads the jobs that are due, lane by lane, and advances one after the other on the value
that it read. Callbacks end in goroutines of their own, commands and admissions come in between, any
write may fail, and the process may end at any point and be started again.

## Main definitions

* `Scheduler`: the rows, the slots of the lanes, the callbacks and where the control loop is
* `Scheduler.due`: what the loop reads of a lane
* `Scheduler.advance`: the loop comes to a job
* `Event`, `step`: everything that happens, in any order
-/

namespace Portico.Operations

/-! ## State -/

/-- A callback works; it has given back its slot, or is also no longer registered and is about to
write its outcome. -/
inductive CallStage
  | working
  | released (succeeded : Bool)
  | closing (succeeded : Bool)
deriving DecidableEq, Repr

/-- A goroutine with the job value that it was started with. -/
structure Callback where
  job : Job
  asyncStep : Bool
  stage : CallStage
deriving DecidableEq, Repr

/-- Where the control loop is. While it waits for a worker or a write it keeps the job value that it
has read, and whether it has taken a slot to start the job. -/
inductive Stage
  | idle
  | reading (rest : List Lane)
  | looping
  | cancelling (j : Job)
  | quiescing (j : Job)
  | observing (j : Job)
  | stepping (j : Job) (starting : Bool)
  | maintaining (j : Job) (starting : Bool)
  | startingDomain (j : Job) (starting : Bool)
  | finishing (j : Job) (v : JobObservation) (starting stepped : Bool)
  | leaving (j : Job) (starting stepped : Bool)
deriving DecidableEq, Repr

/-- The rows, the holders of slots, the registered callbacks, the goroutines, and the control loop with
the jobs that it has yet to advance. `ended` isn't the scheduler's: it is the record of the jobs whose
domain worker was seen at its end. -/
structure Scheduler where
  store : Store
  holders : List (ℕ × Lane)
  running : List ℕ
  callbacks : List Callback
  stage : Stage
  todo : List Job
  ended : List ℕ
deriving DecidableEq, Repr

namespace Scheduler

variable (adapters : Adapters) (s : Scheduler)

/-! ## Lanes -/

def holds (job : ℕ) : Bool := s.holders.any fun h => h.1 = job

def inUse (lane : Lane) : ℕ := s.holders.countP fun h => h.2 = lane

/-- A slot of a lane, unless the job has one or the lane is full. -/
def tryAcquire (lane : Lane) (job : ℕ) : Option Scheduler :=
  if s.holds job then none
  else if laneCapacity lane ≤ s.inUse lane then none
  else some { s with holders := (job, lane) :: s.holders }

def release (job : ℕ) : Scheduler :=
  { s with holders := s.holders.filter fun h => h.1 ≠ job }

/-- The slot that a job has, or a new one. -/
def ensure (lane : Lane) (job : ℕ) : Option Scheduler :=
  if s.holds job then some s else s.tryAcquire lane job

/-! ## Reading -/

/-- What is to be cancelled comes first, then what runs. -/
def dueRank (j : Job) : ℕ :=
  match j.state with
  | .cancellationRequested => 0
  | .running | .reconciling => 1
  | _ => 2

def dueBefore (j k : Job) : Bool :=
  dueRank j < dueRank k || dueRank j = dueRank k && (j.nextMS < k.nextMS ||
    j.nextMS = k.nextMS && j.createdMS ≤ k.createdMS)

/-- A job that the loop looks at. -/
def isDue (lane : Lane) (j : Job) : Bool :=
  j.state.active && !(j.state = .paused && j.domainID.isNone) &&
    (adapters j.kind).any (fun a => a.resource = lane) && j.nextMS ≤ s.store.now

/-- The jobs of a lane that are read: its capacity, and a small allowance for work that runs. -/
def due (lane : Lane) : List Job :=
  ((s.store.jobs.filter (s.isDue adapters lane)).insertionSort fun j k => dueBefore j k = true).take
    (laneCapacity lane + 8)

def rank (j : Job) : ℕ :=
  if j.state = .cancellationRequested then 0
  else if j.state ≠ .queued then 1
  else 1 + ((adapters j.kind).map Adapter.priority).getD 0

def ranksBefore (j k : Job) : Bool :=
  rank adapters j < rank adapters k || rank adapters j = rank adapters k && (j.nextMS < k.nextMS ||
    j.nextMS = k.nextMS && (j.createdMS < k.createdMS || j.createdMS = k.createdMS && j.id ≤ k.id))

/-- A lane is read, or after the last one all that was read is put in order. A read that fails is
left out. -/
def read (ok : Bool) : Option Scheduler :=
  match s.stage with
  | .reading (lane :: rest) =>
    some { s with
      stage := .reading rest
      todo := s.todo ++ if ok then s.due adapters lane else [] }
  | .reading [] =>
    some { s with
      stage := .looping
      todo := s.todo.insertionSort fun j k => ranksBefore adapters j k = true }
  | _ => none

/-! ## Advancing -/

/-- An asynchronous step is started, unless it runs or finds no slot. -/
def startAsyncStep (a : Adapter) (j : Job) : Scheduler :=
  if j.id ∈ s.running then s
  else match s.ensure a.resource j.id with
    | none => s
    | some s =>
      { s with
        running := j.id :: s.running
        callbacks := ⟨j, true, .working⟩ :: s.callbacks }

/-- A cleanup callback is registered, unless it runs or finds no slot. -/
def registerMaintenance (a : Adapter) (j : Job) : Option Scheduler :=
  if j.id ∈ s.running then none
  else (s.ensure a.resource j.id).map fun s => { s with running := j.id :: s.running }

/-- Whether an adapter can ask a domain worker to end. -/
def hasCancel : Work → Bool
  | .domain cancel _ _ => cancel
  | _ => false

def hasObserve : Work → Bool
  | .domain _ _ _ => true
  | _ => false

/-- What the loop does for a job that has an adapter, and a slot when it is to be started. -/
def workOn (a : Adapter) (j : Job) (starting : Bool) : Scheduler :=
  if j.state = .cancellationRequested then
    { s.release j.id with
      stage := if j.domainID.isSome && hasCancel a.work then .cancelling j else .quiescing j }
  else if j.domainID.isSome && hasObserve a.work then { s with stage := .observing j }
  else match a.work with
    | .step true => { s.startAsyncStep a j with stage := .leaving j starting false }
    | .step false =>
      if starting then { s with stage := .stepping j starting }
      else match s.tryAcquire a.resource j.id with
        | none => { s with stage := .leaving j starting false }
        | some s => { s with stage := .stepping j starting }
    | .maintenance =>
      match s.registerMaintenance a j with
      | none => { s with stage := .leaving j starting false }
      | some s => { s with stage := .maintaining j starting }
    | .domain _ _ _ => { s with stage := .startingDomain j starting }

def unregistered : JobObservation :=
  { state := .failed, phase := "worker unavailable", processed := none, total := none
    errorCode := "worker-unregistered" }

/-- **The loop comes to a job**, with the value that it read. Only starting one takes a slot. -/
def advance (j : Job) : Scheduler :=
  match adapters j.kind with
  | none =>
    { s with
      stage := .finishing j { unregistered with processed := j.processed, total := j.total } false false }
  | some a =>
    if j.state = .queued && j.domainID.isNone then
      match s.tryAcquire a.resource j.id with
      | none => { s with stage := .leaving j false false }
      | some s => s.workOn a j true
    else s.workOn a j false

/-- The next job, or the end of the tick. -/
def next : Option Scheduler :=
  match s.stage, s.todo with
  | .looping, [] => some { s with stage := .idle }
  | .looping, j :: todo => some ({ s with todo }.advance adapters j)
  | _, _ => none

/-- What an observation adds to a job. -/
def news (j : Job) (v : JobObservation) : Bool :=
  v.state.state ≠ j.state || v.phase ≠ j.phase || v.errorCode ≠ j.errorCode ||
    v.processed ≠ j.processed || v.total ≠ j.total

/-- A domain worker is seen at its end. -/
def sawEnd (job : ℕ) : Scheduler := { s with ended := job :: s.ended }

/-- The domain's answer, of a worker that is to end or of one that runs. -/
def observed (o : Option JobObservation) : Option Scheduler :=
  match s.stage, o with
  | .cancelling j, some v =>
    some (if v.state.terminal then { s.sawEnd j.id with stage := .quiescing j }
      else { s with stage := .leaving j false false })
  | .cancelling j, none => some { s with stage := .leaving j false false }
  | .observing j, some v =>
    let s := if v.state.terminal then (s.release j.id).sawEnd j.id else s
    some { s with
      stage := if news j v then .finishing j v false false else .leaving j false false }
  | .observing j, none => some { s with stage := .leaving j false false }
  | _, _ => none

/-- A job without a callback is cancelled. -/
def quiesce (saved : Bool) : Option Scheduler :=
  match s.stage with
  | .quiescing j =>
    some { s with
      stage := .leaving j false false
      store := if j.id ∈ s.running || !saved then s.store
        else s.store.updateOperation
          (fun k => k.id = j.id && k.state = .cancellationRequested)
          fun k => { k with
            state := .cancelled, phase := "producer quiescent", revision := k.revision + 1 } }
  | _ => none

/-- A step that the loop has waited for. -/
def stepped (o : Option JobObservation) : Option Scheduler :=
  match s.stage, o with
  | .stepping j starting, some v => some { s with stage := .finishing j v starting true }
  | .stepping j starting, none => some { s with stage := .leaving j starting true }
  | _, _ => none

/-- A registered cleanup callback is started when its row can be moved. -/
def maintain (saved : Bool) : Option Scheduler :=
  match s.stage with
  | .maintaining j starting =>
    some (if saved && s.store.jobs.any fun k => k.id = j.id && k.revision = j.revision then
        { s with
          store := s.store.updateOperation (fun k => k.id = j.id && k.revision = j.revision)
            fun k => { k with
              state := .running, phase := "maintenance", attempt := k.attempt + 1
              revision := k.revision + 1 }
          callbacks := ⟨{ j with revision := j.revision + 1, attempt := j.attempt + 1 }, false,
            .working⟩ :: s.callbacks
          stage := .leaving j starting false }
      else
        { s.release j.id with
          running := s.running.erase j.id
          stage := .leaving j starting false })
  | _ => none

/-- What `StartTx` and its transaction come to. -/
inductive Start
  | lost
  | refused
  | started (domainID : String)
deriving DecidableEq, Repr

def admissionFailed : JobObservation :=
  { state := .failed, phase := "admission failed", processed := none, total := none
    errorCode := "domain-admission-failed" }

/-- Whether a domain worker may be started: the row is as it was read. -/
def startable (j : Job) : Bool :=
  s.store.jobs.any fun k => k.id = j.id && k.revision = j.revision && k.state ≠ .cancellationRequested

/-- **A domain worker is started**, in one transaction with its row. -/
def startDomain (o : Start) : Option Scheduler :=
  match s.stage with
  | .startingDomain j starting =>
    some (if s.startable j then
        match o with
        | .lost => { s with stage := .leaving j starting false }
        | .refused =>
          { s with
            stage := .finishing j { admissionFailed with
              processed := j.processed, total := j.total } starting false }
        | .started domain =>
          { s with
            store := s.store.updateOperation (fun k => k.id = j.id) fun k => { k with
              domainID := some domain, state := .running, phase := "domain worker"
              attempt := k.attempt + 1, revision := k.revision + 1 }
            stage := .leaving j starting false }
      else { s with stage := .leaving j starting false })
  | _ => none

def finish (saved : Bool) : Option Scheduler :=
  match s.stage with
  | .finishing j v starting stepped =>
    some { s with
      store := if saved then s.store.finish j v else s.store
      stage := .leaving j starting stepped }
  | _ => none

/-- Whether a start handed the job to its worker. -/
def startedDomain (job : ℕ) : Bool :=
  (s.store.job job).any fun j => job ∈ s.running || j.domainID.isSome &&
    (j.state = .running || j.state = .reconciling)

/-- One second. -/
def pollMS : ℤ := 1000

/-- The end of an advance: a slot that was taken for nothing is given back, and the job is looked at
again in a second. -/
def leave (readable saved : Bool) : Option Scheduler :=
  match s.stage with
  | .leaving j starting stepped =>
    some { s with
      holders := if stepped || starting && !(readable && s.startedDomain j.id) then
          (s.release j.id).holders
        else s.holders
      stage := .looping
      store := if saved then s.store.updateOperation (fun k => k.id = j.id) fun k =>
          { k with nextMS := s.store.now + pollMS }
        else s.store }
  | _ => none

/-! ## Callbacks -/

def callback (job : ℕ) (p : CallStage → Bool) : Option Callback :=
  s.callbacks.find? fun c => c.job.id = job && p c.stage

def isWorking : CallStage → Bool
  | .working => true
  | _ => false

def setStage (c : Callback) (stage : CallStage) : Scheduler :=
  { s with callbacks := { c with stage } :: s.callbacks.erase c }

/-- An asynchronous step ends: its outcome is written, and its slot given back. -/
def stepReturned (job : ℕ) (o : Option JobObservation) (saved : Bool) : Option Scheduler :=
  (s.callback job isWorking).bind fun c =>
    if c.asyncStep then
      let s := { s with
        store := match o with
          | some v => if saved then s.store.finish c.job v else s.store
          | none => s.store }
      some ((s.release job).setStage c (.released o.isSome))
    else none

/-- A cleanup callback ends, and gives back its slot. -/
def maintenanceReturned (job : ℕ) (succeeded : Bool) : Option Scheduler :=
  (s.callback job isWorking).bind fun c =>
    if c.asyncStep then none else some ((s.release job).setStage c (.released succeeded))

/-- A callback that has given back its slot is no longer registered. -/
def dropped (job : ℕ) : Option Scheduler :=
  (s.callback job fun stage => stage = .released true || stage = .released false).map fun c =>
    let s := { s with running := s.running.erase job }
    match c.asyncStep, c.stage with
    | false, .released succeeded => s.setStage c (.closing succeeded)
    | _, _ => { s with callbacks := s.callbacks.erase c }

/-- The outcome of a cleanup. It may count what it has changed in its row. -/
def maintenanceOutcome (j : Job) (processed : Option ℤ) (succeeded : Bool) : JobObservation :=
  if succeeded then
    { state := .succeeded, phase := "cleanup batch committed", processed, total := j.total
      errorCode := "" }
  else
    { state := .failed, phase := "maintenance failed", processed, total := j.total
      errorCode := "maintenance-failed" }

/-- A cleanup's outcome is written. -/
def closed (job : ℕ) (saved : Bool) : Option Scheduler :=
  (s.callback job fun stage => stage = .closing true || stage = .closing false).map fun c =>
    { s with
      callbacks := s.callbacks.erase c
      store := if saved then
          s.store.finish c.job (maintenanceOutcome c.job ((s.store.job job).bind Job.processed)
            (c.stage = .closing true))
        else s.store }

/-! ## Restarts -/

/-- The process ends, and another one begins. Jobs that ran are reconciled, if that can be written. -/
def restart (saved : Bool) : Scheduler :=
  { s with
    holders := [], running := [], callbacks := [], stage := .idle, todo := []
    store := if saved then s.store.updateOperation (fun k => k.state = .running) fun k => { k with
        state := .reconciling, phase := "restart reconciliation", revision := k.revision + 1 }
      else s.store }

end Scheduler

/-! ## Runs -/

/-- Everything that happens. A call that is refused is no event. -/
inductive Event
  | clock (now : ℤ)
  | enqueue (kind resource : String) (domainTrigger : Bool)
  | command (id : ℕ) (action : Action) (expected : ℕ)
  | tick
  | read (ok : Bool)
  | next
  | observed (o : Option JobObservation)
  | quiesce (saved : Bool)
  | stepped (o : Option JobObservation)
  | maintain (saved : Bool)
  | startDomain (o : Scheduler.Start)
  | finish (saved : Bool)
  | leave (readable saved : Bool)
  | stepReturned (job : ℕ) (o : Option JobObservation) (saved : Bool)
  | maintenanceReturned (job : ℕ) (succeeded : Bool)
  | dropped (job : ℕ)
  | closed (job : ℕ) (saved : Bool)
  | restart (saved : Bool)
deriving DecidableEq, Repr

def step (adapters : Adapters) (s : Scheduler) : Event → Option Scheduler
  | .clock now =>
    if s.store.now ≤ now then some { s with store := { s.store with now } } else none
  | .enqueue kind resource domainTrigger =>
    (s.store.enqueue adapters kind resource domainTrigger).toOption.map fun store => { s with store }
  | .command id action expected =>
    (s.store.command adapters id action expected).toOption.map fun store => { s with store }
  | .tick => if s.stage = .idle then some { s with stage := .reading lanes, todo := [] } else none
  | .read ok => s.read adapters ok
  | .next => s.next adapters
  | .observed o => s.observed o
  | .quiesce saved => s.quiesce saved
  | .stepped o => s.stepped o
  | .maintain saved => s.maintain saved
  | .startDomain o => s.startDomain o
  | .finish saved => s.finish saved
  | .leave readable saved => s.leave readable saved
  | .stepReturned job o saved => s.stepReturned job o saved
  | .maintenanceReturned job succeeded => s.maintenanceReturned job succeeded
  | .dropped job => s.dropped job
  | .closed job saved => s.closed job saved
  | .restart saved => some (s.restart saved)

/-- Before the first job. -/
def initial (now : ℤ) : Scheduler :=
  { store := ⟨now, [], 0⟩, holders := [], running := [], callbacks := [], stage := .idle, todo := []
    ended := [] }

end Portico.Operations
