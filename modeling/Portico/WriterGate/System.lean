import Portico.Lib.Machine
import Portico.WriterGate.Gate

/-!
# The writer gate and its callers

Callers acquire the write turn, wait for it, take it or give up, and release it; the checkpoint
owner holds and pauses the gate to reset the write-ahead log. Every section made under the gate's
mutex is one step, and steps of different callers interleave freely.

## Main definitions

* `System`: the gate, the ledgers, and who waits, sleeps and holds
* `Event`, `step`: the sections of the callers and of the checkpoint owner
* `Reachable`: the states any interleaving leads to
-/

namespace Portico.WriterGate

open Machine

/-- What a caller's context carries into an acquisition. -/
structure Context where
  owner : String
  operation : String
  wal : Option WALRequest
  probe : Bool

/-- A caller inside an acquisition: its ticket, and whether it is a read-only probe. -/
structure Caller where
  ticket : Ticket
  probe : Bool
deriving DecidableEq, Repr

/-- The gate with everything its steps read: the ledgers, the callers waiting in an acquisition, the
channel each sleeps on, the callers whose release hasn't run, and whether a ledger has been probed
without the wake that follows a probe. -/
structure System where
  gate : Gate
  ledgers : ℕ → WALLedger
  waiters : List Caller
  asleep : Ticket → Option ℕ
  holders : List Caller
  probed : Bool

/-- The sections made under the gate's mutex, with the clocks they read, and the changes of the
ledgers. -/
inductive Event
  | acquire (workClass : ℤ) (context : Context) (start : ℤ) (clock : Clock)
  | poll (caller : Caller) (done : Bool) (held : ℤ) (clock : Clock)
  | capacity (caller : Caller) (done : Bool) (held : ℤ) (clock : Clock)
  | stuck (caller : Caller) (done : Bool) (now held : ℤ) (clock : Clock)
  | release (caller : Caller) (clock : Clock)
  | enterPressureHold (clock : Clock)
  | enterBeginPause (epoch : ℕ)
  | endRecovery (epoch : ℕ) (clock : Clock)
  | acquireRecoveryTurn (epoch : ℕ) (start : ℤ)
  | wakeWALWaiters (clock : Clock)
  | probeLedger (ledger : ℕ) (physical free : Option ℤ) (spentAtProbe : ℤ)
  | measured (request : WALRequest) (attempted : ℤ) (known : Bool)
  | retained (request : WALRequest) (fileEnd : ℤ)
  | resetLedger (ledger : ℕ) (size : ℤ)

/-- The fairness key of an acquisition: a background one uses its supervised operation. -/
def Context.ticketOwner (ctx : Context) (c : Class) : String :=
  if c.background then
    if ctx.operation ≠ "" then "supervisor:" ++ ctx.operation else ""
  else ctx.owner

namespace System

/-- The tickets' readiness now. -/
def ready (s : System) (t : Ticket) : Bool := t.ready s.ledgers

/-- An arrival with room joins its queue: a background one waits before admission, a user one takes a
background ticket's place if it must. -/
def joined (t : Ticket) (clock : Clock) (g : Gate) : Gate :=
  Gate.admitBackgroundLocked clock.admission
    (Gate.enqueueLocked t
      (if t.workClass.background then
        { g with isDeferred := Function.update g.isDeferred t true }
      else g.makeBackgroundRoomLocked))

/-- An acquisition joins its queue, or is refused because the pool is full of user tickets. -/
def acquire (workClass : ℤ) (ctx : Context) (start : ℤ) (clock : Clock) (s : System) : System :=
  let c := (Class.ofInt? workClass).getD .interactive
  let g := { s.gate with nextID := s.gate.nextID + 1 }
  let t : Ticket := ⟨ctx.wal, g.nextID, c, ctx.ticketOwner c, start, false⟩
  let room :=
    if t.user ∧ (writerQueueCapacity : ℤ) ≤ g.userQueued then g.makeRoomLocked t else some g
  match room with
  | none => { s with gate := g.refuseLocked t }
  | some g₁ =>
    let g₂ := joined t clock g₁
    { s with
      gate := if g₂.active then g₂ else (g₂.regrant s.ready clock).signalLocked
      waiters := s.waiters ++ [⟨t, ctx.probe⟩]
      asleep := Function.update s.asleep t none }

/-- A caller takes the turn granted to it. -/
def takeTurn (w : Caller) (held : ℤ) (s : System) : System :=
  let t := w.ticket
  let g := s.gate.removeWaiterLocked t true
  { s with
    gate :=
      { g with
        grant := none
        holdSecurity :=
          if g.holdEpoch ≠ 0 ∧ t.workClass = .securityFence then g.holdSecurity + 1
          else g.holdSecurity
        active := true
        holderProbe := w.probe
        writeGeneration := if w.probe then g.writeGeneration else g.writeGeneration + 1
        holderClass := some t.workClass
        heldSince := held
        holderOwner := t.owner }
    ledgers :=
      match t.wal with
      | none => s.ledgers
      | some r => Function.update s.ledgers r.ledger (r.take (s.ledgers r.ledger))
    waiters := s.waiters.erase w
    holders := s.holders ++ [w] }

/-- A caller gives up: its context ended. -/
def abandon (w : Caller) (clock : Clock) (s : System) : System :=
  { s with
    gate := s.gate.abandonWaiterLocked s.ready clock w.ticket
    waiters := s.waiters.erase w }

/-- The top of a waiting caller's loop: refused, ended, granted, or asleep until the next wake. -/
def poll (w : Caller) (done : Bool) (held : ℤ) (clock : Clock) (s : System) : System :=
  if s.gate.isRefused w.ticket then { s with waiters := s.waiters.erase w }
  else if done then s.abandon w clock
  else if !s.gate.active ∧ s.gate.grant = some w.ticket then s.takeTurn w held
  else { s with asleep := Function.update s.asleep w.ticket (some s.gate.notify) }

/-- A waiter's capacity timer: its reservation still isn't ready, so it is refused. -/
def capacityTimeout (w : Caller) (clock : Clock) (s : System) : System :=
  let g := (s.gate.removeWaiterLocked w.ticket false).refuseLocked w.ticket
  { s with
    gate := ((g.admitBackgroundLocked clock.admission).regrant s.ready clock).signalLocked
    waiters := s.waiters.erase w }

/-- A turn ends and the next winner is granted. -/
def release (w : Caller) (clock : Clock) (s : System) : System :=
  let g :=
    { s.gate with
      active := false
      holderProbe := false
      holderClass := none
      heldSince := 0
      holderOwner := "" }
  { s with
    gate := (g.regrant s.ready clock).signalLocked
    holders := s.holders.erase w }

/-- A recovery attempt starts: a grant it excludes is withdrawn. -/
def enterPressureHold (clock : Clock) (s : System) : System :=
  if s.gate.recoveryEpoch ≠ 0 then s
  else
    let n := s.gate.nextID + 1
    let g : Gate :=
      { s.gate with
        nextID := n
        recoveryEpoch := n
        holdEpoch := n
        holdSecurity := 0
        grant := s.gate.grant.filter fun t => t.workClass = .securityFence }
    let g' :=
      if g.active = false ∧ g.grant = none then (g.regrant s.ready clock).signalLocked else g
    { s with gate := g' }

/-- The hold becomes the final pause. -/
def enterBeginPause (epoch : ℕ) (s : System) : System :=
  if epoch = 0 ∨ s.gate.recoveryEpoch ≠ epoch then s
  else
    { s with
      gate :=
        { s.gate with
          pauseEpoch := epoch
          grant := s.gate.grant.filter Ticket.recovery } }

/-- The hold, the pause and the reserved ticket are given up. -/
def clearRecovery (g : Gate) : Gate :=
  { g with
    recoveryEpoch := 0
    holdEpoch := 0
    pauseEpoch := 0
    holdSecurity := 0
    isRefused :=
      match g.recoveryTicket with
      | none => g.isRefused
      | some t => Function.update g.isRefused t true
    recoveryTicket := none }

/-- The hold and the pause of an epoch end. -/
def endRecovery (epoch : ℕ) (clock : Clock) (s : System) : System :=
  if epoch = 0 ∨ s.gate.recoveryEpoch ≠ epoch then s
  else { s with gate := ((clearRecovery s.gate).regrant s.ready clock).signalLocked }

/-- The one reserved turn of a pause is asked for. -/
def acquireRecoveryTurn (epoch : ℕ) (start : ℤ) (s : System) : System :=
  if epoch = 0 ∨ s.gate.pauseEpoch ≠ epoch ∨ s.gate.recoveryTicket ≠ none then s
  else
    let g := { s.gate with nextID := s.gate.nextID + 1 }
    let t : Ticket := ⟨none, g.nextID, .maintenance, "", start, true⟩
    let g₁ := { g with recoveryTicket := some t }
    let g₂ :=
      if g₁.active = false ∧ g₁.grant = none then Gate.signalLocked { g₁ with grant := some t }
      else g₁
    { s with
      gate := g₂
      waiters := s.waiters ++ [⟨t, false⟩]
      asleep := Function.update s.asleep t none }

/-- The wake that follows a probe of a ledger. -/
def wakeWALWaiters (clock : Clock) (s : System) : System :=
  { s with gate := (s.gate.regrant s.ready clock).signalLocked, probed := false }

/-- A ledger changes. -/
def setLedger (ledger : ℕ) (f : WALLedger → WALLedger) (s : System) : System :=
  { s with ledgers := Function.update s.ledgers ledger (f (s.ledgers ledger)) }

/-- One section under the gate's mutex. A caller acts only while its acquisition waits or its turn
lasts; a write is measured, and a log reset, only during a turn. -/
def step (s : System) : Event → Option System
  | .acquire c ctx start clock => some (s.acquire c ctx start clock)
  | .poll w done held clock => if w ∈ s.waiters then some (s.poll w done held clock) else none
  | .capacity w done held clock =>
    if w ∈ s.waiters ∧ w.ticket.wal.any WALRequest.qualified then
      if s.gate.isRefused w.ticket ∨ done ∨ s.ready w.ticket then some (s.poll w done held clock)
      else some (s.capacityTimeout w clock)
    else none
  | .stuck w done now held clock =>
    if w ∈ s.waiters then
      if !s.gate.isRefused w.ticket ∧ s.gate.active ∧ stuckWait ≤ now - s.gate.heldSince then
        some (s.abandon w clock)
      else some (s.poll w done held clock)
    else none
  | .release w clock => if w ∈ s.holders then some (s.release w clock) else none
  | .enterPressureHold clock => some (s.enterPressureHold clock)
  | .enterBeginPause epoch => some (s.enterBeginPause epoch)
  | .endRecovery epoch clock => some (s.endRecovery epoch clock)
  | .acquireRecoveryTurn epoch start => some (s.acquireRecoveryTurn epoch start)
  | .wakeWALWaiters clock => some (s.wakeWALWaiters clock)
  | .probeLedger l physical free spent =>
    some { s.setLedger l (WALLedger.probe physical free spent) with probed := true }
  | .measured r attempted known =>
    if s.holders = [] then none else some (s.setLedger r.ledger (r.measured attempted known))
  | .retained r fileEnd =>
    if s.holders = [] then none else some (s.setLedger r.ledger (WALRequest.retained fileEnd))
  | .resetLedger l size =>
    if s.holders = [] then none else some (s.setLedger l (WALLedger.reset size))

/-- A gate no caller has come to yet. -/
def init (ledgers : ℕ → WALLedger) : System where
  gate := Gate.new
  ledgers := ledgers
  waiters := []
  asleep := fun _ => none
  holders := []
  probed := false

/-- The states some interleaving of the callers leads to. -/
def Reachable (s : System) : Prop := ∃ ledgers, Reaches step (init ledgers) s

end System

end Portico.WriterGate
