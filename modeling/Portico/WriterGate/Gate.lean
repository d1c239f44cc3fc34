import Portico.Lib.Rotor
import Portico.WriterGate.Ticket

/-!
# The writer gate's state and its locked operations

The gate serialises writers. Its state is guarded by one mutex, and the operations of this file are
those made with the mutex held: queueing and removing a ticket, making room, admitting background
tickets, and choosing who is granted the write turn.

## Main definitions

* `Gate`: the state under the mutex
* `Gate.enqueueLocked`, `Gate.removeWaiterLocked`: a ticket joins and leaves its queue
* `Gate.makeRoomLocked`, `Gate.makeBackgroundRoomLocked`: room for a user ticket
* `Gate.admitBackgroundLocked`: deferred background tickets enter the pool
* `Gate.pickWinnerLocked`: the ticket granted next
-/

namespace Portico.WriterGate

/-- A class's queue: a rotation between owners, first in first out for one owner. -/
abbrev ClassQueue := Rotor String Ticket

/-- What the gate's mutex guards. A ticket's refused and deferred marks are kept here, and a channel
that is closed to wake the waiters is named by the number of channels closed before it. -/
structure Gate where
  active : Bool
  grant : Option Ticket
  nextID : ℕ
  queues : Class → ClassQueue
  deferred : Class → ClassQueue
  isDeferred : Ticket → Bool
  isRefused : Ticket → Bool
  holderOwner : String
  holderClass : Option Class
  heldSince : ℤ
  holderProbe : Bool
  userQueued : ℤ
  ownerQueued : String → ℤ
  notify : ℕ
  writeGeneration : ℕ
  recoveryEpoch : ℕ
  holdEpoch : ℕ
  pauseEpoch : ℕ
  holdSecurity : ℕ
  recoveryTicket : Option Ticket

/-- The clock readings of one locked section: those of the admissions it makes, those of the
admissions the choice of a winner makes, and the instant of that choice. -/
structure Clock where
  admission : ℕ → ℤ
  admitAgain : ℕ → ℤ
  pick : ℤ

namespace Gate

/-- A gate with no holder. -/
def new : Gate where
  active := false
  grant := none
  nextID := 0
  queues := fun _ => Rotor.empty
  deferred := fun _ => Rotor.empty
  isDeferred := fun _ => false
  isRefused := fun _ => false
  holderOwner := ""
  holderClass := none
  heldSince := 0
  holderProbe := false
  userQueued := 0
  ownerQueued := fun _ => 0
  notify := 0
  writeGeneration := 0
  recoveryEpoch := 0
  holdEpoch := 0
  pauseEpoch := 0
  holdSecurity := 0
  recoveryTicket := none

/-- Every waiter wakes. -/
def signalLocked (g : Gate) : Gate := { g with notify := g.notify + 1 }

def refuseLocked (t : Ticket) (g : Gate) : Gate :=
  { g with isRefused := Function.update g.isRefused t true }

/-- The queue a ticket waits in. -/
def queueOf (t : Ticket) (g : Gate) : ClassQueue :=
  if g.isDeferred t then g.deferred t.workClass else g.queues t.workClass

/-- The same gate with another queue for a ticket. -/
def setQueue (t : Ticket) (q : ClassQueue) (g : Gate) : Gate :=
  if g.isDeferred t then { g with deferred := Function.update g.deferred t.workClass q }
  else { g with queues := Function.update g.queues t.workClass q }

/-- The counters of user tickets move by `n` for a ticket that joins or leaves. -/
def countUser (t : Ticket) (n : ℤ) (g : Gate) : Gate :=
  if t.user then
    { g with
      userQueued := g.userQueued + n
      ownerQueued :=
        if t.owner = "" then g.ownerQueued
        else Function.update g.ownerQueued t.owner (g.ownerQueued t.owner + n) }
  else g

def enqueueLocked (t : Ticket) (g : Gate) : Gate :=
  countUser t 1 (g.setQueue t ((g.queueOf t).push Ticket.owner t))

/-- A ticket leaves its queue. A served owner moves to the back of its class's rotation. -/
def removeWaiterLocked (t : Ticket) (served : Bool) (g : Gate) : Gate :=
  if t.recovery then
    if g.recoveryTicket = some t then { g with recoveryTicket := none } else g
  else
    match (g.queueOf t).remove Ticket.owner t served with
    | none => g
    | some q => countUser t (-1) (g.setQueue t q)

/-- The queued background tickets. -/
def backgroundQueuedLocked (g : Gate) : ℤ :=
  (g.queues .backgroundMedia).count + (g.queues .maintenance).count

/-! ## Admission -/

/-- A supervisor's tickets in a background class: those queued, and the one holding the gate. -/
def outstanding (c : Class) (o : String) (g : Gate) : ℕ :=
  ((g.queues c).line o).length +
    if g.active ∧ g.holderClass = some c ∧ g.holderOwner = o then 1 else 0

/-- The deferred ticket of a class admitted next: the oldest of the first owner within its limit. -/
def candidate (c : Class) (g : Gate) : Option Ticket :=
  ((g.deferred c).rotation.find? fun o => g.outstanding c o < backgroundTicketLimit c).bind
    fun o => ((g.deferred c).line o).head?

/-- The deferred ticket admitted next. -/
def nextAdmission (now : ℤ) (g : Gate) : Option Ticket :=
  prefer now (prefer now none (g.candidate .backgroundMedia)) (g.candidate .maintenance)

/-- One admission moves a deferred ticket to the pool. -/
def admitOne (t : Ticket) (g : Gate) : Gate :=
  let g₁ := g.removeWaiterLocked t true
  enqueueLocked t { g₁ with isDeferred := Function.update g₁.isDeferred t false }

/-- The admissions of one locked section, at most `n`. -/
def admissions (clock : ℕ → ℤ) : ℕ → Gate → Gate
  | 0, g => g
  | n + 1, g =>
    if g.backgroundQueuedLocked < writerQueueCapacity then
      match g.nextAdmission (clock n) with
      | none => g
      | some t => admissions clock n (g.admitOne t)
    else g

/-- Deferred background tickets are admitted while no user ticket is queued. Each admission takes
one of the pool's places, so no section makes more than the pool has. -/
def admitBackgroundLocked (clock : ℕ → ℤ) (g : Gate) : Gate :=
  if g.userQueued ≠ 0 ∨ g.holdEpoch ≠ 0 ∨ g.pauseEpoch ≠ 0 then g
  else admissions clock writerQueueCapacity g

/-! ## Making room -/

/-- The newer of a choice so far and a ticket, by the order of arrival. -/
def newer (chosen : Option Ticket) (t : Ticket) : Option Ticket :=
  match chosen with
  | none => some t
  | some s => if s.id < t.id then some t else some s

/-- The newest ticket of a list among those a test admits. -/
def newest (p : Ticket → Bool) (chosen : Option Ticket) (ts : List Ticket) : Option Ticket :=
  (ts.filter p).foldl newer chosen

/-- The newest ticket, in a class no more important than the arrival's, of an owner over its
share. -/
def overShare (arrival : Ticket) (g : Gate) : Option Ticket :=
  if arrival.owner = "" ∨ g.ownerQueued arrival.owner < ownerQueueShare then
    (classes.filter fun c => !(c.background || c.priority < arrival.workClass.priority)).foldl
      (fun victim c =>
        newest (fun t => g.grant ≠ some t ∧ t.owner ≠ "" ∧ ownerQueueShare < g.ownerQueued t.owner)
          victim (g.queues c).items)
      none
  else none

/-- The newest ticket of the least important user class below the arrival's that has one. -/
def lowerClass (arrival : Ticket) (g : Gate) : Option Ticket :=
  (classes.reverse.filter fun c => !(c.background || c.priority ≤ arrival.workClass.priority)).foldl
    (fun victim c =>
      match victim with
      | some v => some v
      | none => newest (fun t => g.grant ≠ some t) none (g.queues c).items)
    none

/-- The ticket that gives its place to an arrival when the pool is full of user tickets. -/
def victim (arrival : Ticket) (g : Gate) : Option Ticket :=
  match g.overShare arrival with
  | some v => some v
  | none => g.lowerClass arrival

/-- One user ticket gives its place to an arrival; `none` when the arrival must be refused. -/
def makeRoomLocked (arrival : Ticket) (g : Gate) : Option Gate :=
  (g.victim arrival).map fun v => signalLocked (refuseLocked v (g.removeWaiterLocked v false))

/-- The newest admitted background ticket returns to the front of its supervisor's deferred work
when the pool is full. -/
def makeBackgroundRoomLocked (g : Gate) : Gate :=
  if g.userQueued + g.backgroundQueuedLocked < writerQueueCapacity then g
  else
    match newest (fun _ => true) (newest (fun _ => true) none (g.queues .backgroundMedia).items)
        (g.queues .maintenance).items with
    | none => g
    | some t =>
      let g₁ := g.removeWaiterLocked t false
      let g₂ :=
        { g₁ with
          grant := if g₁.grant = some t then none else g₁.grant
          isDeferred := Function.update g₁.isDeferred t true }
      let g₃ := enqueueLocked t g₂
      { g₃ with
        deferred :=
          Function.update g₃.deferred t.workClass
            ((g₃.deferred t.workClass).requeue Ticket.owner t) }

/-! ## The winner -/

/-- A class's front when its reservation is ready. -/
def readyFront (ready : Ticket → Bool) (c : Class) (g : Gate) : Option Ticket :=
  (g.queues c).front.filter ready

/-- The ticket granted next, and the gate after the admissions its choice makes. -/
def pickWinnerLocked (ready : Ticket → Bool) (clock : Clock) (g : Gate) : Option Ticket × Gate :=
  if g.pauseEpoch ≠ 0 then (g.recoveryTicket, g)
  else if g.holdEpoch ≠ 0 then
    if g.holdSecurity < recoverySecurityReserve then (g.readyFront ready .securityFence, g)
    else (none, g)
  else if 0 < g.userQueued then
    ((classes.filter fun c => !c.background).findSome? fun c => g.readyFront ready c, g)
  else
    let g' := g.admitBackgroundLocked clock.admitAgain
    ((classes.filter Class.background).foldl
      (fun selected c => prefer clock.pick selected (g'.readyFront ready c)) none, g')

/-- The grant is chosen anew unless a turn is active. -/
def regrant (ready : Ticket → Bool) (clock : Clock) (g : Gate) : Gate :=
  if g.active then g
  else
    let (winner, g') := g.pickWinnerLocked ready clock
    { g' with grant := winner }

/-- A waiter gives up its place and any grant reserved for it. -/
def abandonWaiterLocked (ready : Ticket → Bool) (clock : Clock) (t : Ticket) (g : Gate) : Gate :=
  signalLocked
    (regrant ready clock (admitBackgroundLocked clock.admission (g.removeWaiterLocked t false)))

end Gate

end Portico.WriterGate
