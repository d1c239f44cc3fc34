import Portico.Lib.Outcome
import Portico.Lib.Table

/-!
# Operations: jobs

Rows of `console_operations` and what is done to them: admission, the owner's commands, and the
outcome of a worker. A job's adapter is one of three: steps that the scheduler makes itself, a cleanup
callback, or a worker of a domain that is started and then observed.

## Main definitions

* `Lane`, `laneCapacity`: the physical lanes
* `Adapter`: what does the work of a kind of job
* `Job`, `Store`: the rows
* `Store.enqueue`, `Store.command`, `Store.finish`
-/

namespace Portico.Operations

/-! ## Adapters -/

inductive Lane
  | writeHeavy
  | metadata
  | analysis
  | optimized
  | maintenance
  | background
deriving DecidableEq, Repr

/-- How many jobs of a lane may run at once. -/
def laneCapacity : Lane → ℕ
  | .optimized => 4
  | _ => 1

/-- The lanes, in a stable order. -/
def lanes : List Lane :=
  [.writeHeavy, .metadata, .analysis, .optimized, .background, .maintenance]

/-- The functions an adapter has. A domain worker may be cancelled, and may be fenced with
`ControlTx` (which also pauses it) or `CancelTx`. -/
inductive Work
  | step (asyncStep : Bool)
  | maintenance
  | domain (cancel controlTx cancelTx : Bool)
deriving DecidableEq, Repr

/-- An adapter, with the lane and the class of its jobs. -/
structure Adapter where
  work : Work
  resource : Lane
  maintenanceClass : Bool
deriving DecidableEq, Repr

/-- The rank of an adapter's class: `background-media` comes before `maintenance`. -/
def Adapter.priority (a : Adapter) : ℕ := if a.maintenanceClass then 8 else 7

/-- The adapters that were registered, by the kind of their jobs. -/
abbrev Adapters := String → Option Adapter

/-! ## Rows -/

inductive State
  | queued
  | running
  | cancellationRequested
  | reconciling
  | paused
  | succeeded
  | failed
  | cancelled
deriving DecidableEq, Repr

def State.active : State → Bool
  | .queued | .running | .cancellationRequested | .reconciling | .paused => true
  | .succeeded | .failed | .cancelled => false

def State.name : State → String
  | .queued => "queued"
  | .running => "running"
  | .cancellationRequested => "cancellation-requested"
  | .reconciling => "reconciling"
  | .paused => "paused"
  | .succeeded => "succeeded"
  | .failed => "failed"
  | .cancelled => "cancelled"

/-- A row of `console_operations`. Ids are random tokens, here in the order they were made. -/
structure Job where
  id : ℕ
  kind : String
  resource : String
  domainTrigger : Bool
  state : State
  phase : String
  revision : ℕ
  attempt : ℕ
  createdMS : ℤ
  nextMS : ℤ
  domainID : Option String
  errorCode : String
  processed : Option ℤ
  total : Option ℤ
deriving DecidableEq, Repr

/-- The states that a worker reports. -/
inductive Seen
  | queued
  | running
  | paused
  | succeeded
  | failed
  | cancelled
deriving DecidableEq, Repr

def Seen.state : Seen → State
  | .queued => .queued
  | .running => .running
  | .paused => .paused
  | .succeeded => .succeeded
  | .failed => .failed
  | .cancelled => .cancelled

/-- The worker is done. -/
def Seen.terminal : Seen → Bool
  | .succeeded | .failed | .cancelled => true
  | .queued | .running | .paused => false

structure JobObservation where
  state : Seen
  phase : String
  processed : Option ℤ
  total : Option ℤ
  errorCode : String
deriving DecidableEq, Repr

/-- The rows, and the clock. -/
structure Store where
  now : ℤ
  jobs : List Job
  nextID : ℕ
deriving DecidableEq, Repr

inductive Fault
  | invalid
  | missing
  | conflict
  | capacity
deriving DecidableEq, Repr

def Store.job (s : Store) (id : ℕ) : Option Job := rowOf Job.id id s.jobs

/-- The rows that meet a condition are updated. -/
def Store.updateOperation (s : Store) (p : Job → Bool) (f : Job → Job) : Store :=
  { s with jobs := updateWhere p f s.jobs }

/-! ## Admission -/

def maxActiveConsoleOperations : ℕ := 200
def maxActiveDomainOperations : ℕ := 10000

def admissionLimit (domainTrigger : Bool) : ℕ :=
  if domainTrigger then maxActiveDomainOperations else maxActiveConsoleOperations

def newJob (id : ℕ) (kind resource : String) (domainTrigger : Bool) (now : ℤ) : Job :=
  { id, kind, resource, domainTrigger, state := .queued, phase := "waiting", revision := 1
    attempt := 0, createdMS := now, nextMS := now, domainID := none, errorCode := ""
    processed := none, total := none }

/-- **Admission** of a job whose resource is valid. An active one of its kind and resource is kept. -/
def Store.enqueue (s : Store) (adapters : Adapters) (kind resource : String)
    (domainTrigger : Bool) : Except Fault Store :=
  if (adapters kind).isNone then .error .invalid
  else if s.jobs.any fun j => j.kind = kind && j.resource = resource && j.state.active then .ok s
  else if admissionLimit domainTrigger ≤
      s.jobs.countP fun j => j.state.active && j.domainTrigger = domainTrigger then .error .capacity
  else .ok
    { s with
      jobs := s.jobs ++ [newJob s.nextID kind resource domainTrigger s.now]
      nextID := s.nextID + 1 }

/-! ## Commands -/

inductive Action
  | cancel
  | pause
  | resume
  | retry
deriving DecidableEq, Repr

/-- Work that can be asked to end: a worker that has a `Cancel`, or a callback. -/
def Work.cancels : Work → Bool
  | .domain cancel _ _ => cancel
  | .maintenance => true
  | .step _ => false

/-- Work that has a `ControlTx`. -/
def Work.controls : Work → Bool
  | .domain _ controlTx _ => controlTx
  | _ => false

def Work.isStep : Work → Bool
  | .step _ => true
  | _ => false

/-- The commands that a job takes. Domain receipts own the state of jobs that are made of steps. -/
def Adapter.actions (a : Adapter) (j : Job) : List Action :=
  if a.work.isStep then []
  else
    (if (j.state = .queued || j.state = .running || j.state = .reconciling || j.state = .paused) &&
        (a.work.cancels || j.domainID.isNone) then [.cancel] else []) ++
    (if a.work.controls then
        if j.state = .paused then [.resume]
        else if j.state = .queued || j.state = .running || j.state = .reconciling then [.pause]
        else []
      else []) ++
    (if j.state = .failed || j.state = .cancelled then [.retry] else [])

/-- A job's next state is written. -/
def Store.move (s : Store) (id : ℕ) (state : State) : Store :=
  s.updateOperation (fun j => j.id = id) fun j =>
    { j with state, phase := state.name, revision := j.revision + 1 }

/-- The state that a command asks for. Work that no producer has begun on is cancelled at once. -/
def Job.commanded (j : Job) : Action → State
  | .pause => .paused
  | .resume => if j.domainID.isSome then .running else .queued
  | _ =>
    if (j.state = .queued || j.state = .paused) && j.domainID.isNone then .cancelled
    else .cancellationRequested

/-- **A command** of the owner, for the revision that they saw. -/
def Store.command (s : Store) (adapters : Adapters) (id : ℕ) (action : Action) (expected : ℕ) :
    Except Fault Store := do
  let j ← require .missing (s.job id)
  if j.revision ≠ expected then .error .conflict
  else if action ∉ ((adapters j.kind).map fun a => a.actions j).getD [] then .error .conflict
  else match action with
    | .retry => s.enqueue adapters j.kind j.resource false
    | action => .ok (s.move id (j.commanded action))

/-! ## Outcomes -/

/-- Counts that fit together. -/
def JobObservation.counted (v : JobObservation) : Bool :=
  match v.total, v.processed with
  | none, _ => true
  | some _, none => false
  | some total, some processed => processed ≤ total && 0 ≤ total

/-- **An outcome** is written for the revision that the worker began with, unless the job is to be
cancelled. -/
def Store.finish (s : Store) (j : Job) (v : JobObservation) : Store :=
  if v.counted then
    s.updateOperation
      (fun k => k.id = j.id && k.revision = j.revision && k.state ≠ .cancellationRequested)
      fun k => { k with
        state := v.state.state, phase := v.phase, errorCode := v.errorCode
        processed := v.processed, total := v.total, revision := k.revision + 1 }
  else s

end Portico.Operations
