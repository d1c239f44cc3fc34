import Mathlib

/-!
# Writer classes, log reservations and tickets

A write acquisition waits in the gate as a ticket. The ticket carries its class, the key of the
owner it is fair to, and the write-ahead-log reservation it needs; the ledger of that log says
whether the reservation is ready.

## Main definitions

* `Class`: the priority ladder
* `WALRequest.ready`, `WALRequest.take`: a reservation's test and its debit
* `WALLedger.probe`, `WALRequest.measured`, `WALRequest.retained`, `WALLedger.reset`: what else
  changes a ledger
* `Ticket`, `promotedPriority`: a queued acquisition and its rung
-/

namespace Portico.WriterGate

/-! ## The ladder -/

/-- The priority ladder, most important first. -/
inductive Class
  | securityFence
  | protectedCapture
  | establishedPlayback
  | playbackStart
  | interactive
  | foregroundTransfer
  | backgroundMedia
  | maintenance
deriving DecidableEq, Repr

/-- The numeric rank; lower wins. -/
def Class.priority : Class → ℤ
  | .securityFence => 1
  | .protectedCapture => 2
  | .establishedPlayback => 3
  | .playbackStart => 4
  | .interactive => 5
  | .foregroundTransfer => 6
  | .backgroundMedia => 7
  | .maintenance => 8

/-- Bulk work, which yields to foreground traffic. -/
def Class.background (c : Class) : Bool :=
  decide (Class.backgroundMedia.priority ≤ c.priority)

/-- The ladder in strict priority order. -/
def classes : List Class :=
  [.securityFence, .protectedCapture, .establishedPlayback, .playbackStart, .interactive,
    .foregroundTransfer, .backgroundMedia, .maintenance]

/-- The class a number names; `none` is the test `Valid` failing. -/
def Class.ofInt? (n : ℤ) : Option Class := classes.find? fun c => c.priority = n

theorem mem_classes (c : Class) : c ∈ classes := by cases c <;> decide

theorem nodup_classes : classes.Nodup := by decide

/-! ## The write-ahead log's ledger -/

def walSoftBytes : ℤ := 128 * 2 ^ 20

def walHardBytes : ℤ := 192 * 2 ^ 20

def walRecoveryBytes : ℤ := 32 * 2 ^ 20

def walEnvelopeBytes : ℤ := 256 * 2 ^ 20

def walEmergencyBytes : ℤ := 32 * 2 ^ 20

/-- A reservation: its ledger, its plan and the bytes the plan needs. -/
structure WALRequest where
  ledger : ℕ
  name : String
  bytes : ℤ
  growth : ℤ
  qualified : Bool
  requestClass : Class
deriving DecidableEq, Repr

/-- What a ledger knows about its log and its disk. -/
structure WALLedger where
  free : ℤ
  spent : ℤ
  probedSpent : ℤ
  probeOK : Bool
  admissionBytes : ℤ
  blocked : String → Bool

/-- Whether a reservation may be taken now. -/
def WALRequest.ready (r : WALRequest) (l : WALLedger) : Bool :=
  if l.blocked r.name && r.requestClass.background then false
  else if !r.qualified || l.blocked r.name then true
  else if !l.probeOK ||
      l.free - (l.spent - l.probedSpent) <
        r.bytes + r.growth + walEmergencyBytes + max 0 (walEnvelopeBytes - l.admissionBytes) then
    false
  else
    let limit :=
      if r.requestClass.background then walSoftBytes
      else if r.requestClass = .securityFence then walHardBytes + walRecoveryBytes
      else walHardBytes
    decide (l.admissionBytes + r.bytes ≤ limit)

/-- The debit of a granted reservation. -/
def WALRequest.take (r : WALRequest) (l : WALLedger) : WALLedger :=
  { l with
    spent := l.spent + (r.bytes + r.growth)
    admissionBytes :=
      if r.qualified && !l.blocked r.name then l.admissionBytes + r.bytes else l.admissionBytes }

/-- What a finished write was seen to append; an overrun blocks a qualified plan. -/
def WALRequest.measured (r : WALRequest) (attempted : ℤ) (known : Bool) (l : WALLedger) :
    WALLedger :=
  if !known then l
  else if r.bytes < attempted then
    let extra := attempted - r.bytes
    if r.qualified then
      { l with
        spent := l.spent + extra
        admissionBytes := l.admissionBytes + extra
        blocked := Function.update l.blocked r.name true }
    else { l with spent := l.spent + extra }
  else l

/-- The log's extent after a write. -/
def WALRequest.retained (fileEnd : ℤ) (l : WALLedger) : WALLedger :=
  if fileEnd < 0 then l else { l with admissionBytes := max l.admissionBytes fileEnd }

/-- The checkpoint owner's look at the log file and the disk; `none` is a failed look. The debits
made before it are those the free space already shows. -/
def WALLedger.probe (physical free : Option ℤ) (spentAtProbe : ℤ) (l : WALLedger) : WALLedger :=
  let l₁ := { l with probeOK := physical.isSome && free.isSome }
  let l₂ :=
    match physical with
    | some p => { l₁ with admissionBytes := max l₁.admissionBytes p }
    | none => l₁
  match free with
  | some f => { l₂ with free := f, probedSpent := spentAtProbe }
  | none => l₂

/-- A verified reset of the log; nothing changes while the file isn't empty. -/
def WALLedger.reset (size : ℤ) (l : WALLedger) : WALLedger :=
  if size = 0 then { l with admissionBytes := size } else l

/-! ## Tickets -/

/-- One queued acquisition. Its refused and deferred marks change, so the gate keeps them. -/
structure Ticket where
  wal : Option WALRequest
  id : ℕ
  workClass : Class
  owner : String
  since : ℤ
  recovery : Bool
deriving DecidableEq, Repr

/-- A ticket is ready unless its reservation isn't. -/
def Ticket.ready (ledgers : ℕ → WALLedger) (t : Ticket) : Bool :=
  match t.wal with
  | none => true
  | some r => r.ready (ledgers r.ledger)

/-- The queued writer tickets the gate holds at most. -/
def writerQueueCapacity : ℕ := 99

/-- The queued tickets an owner keeps when the pool is full. -/
def ownerQueueShare : ℕ := 2

/-- The wait that earns one rung, in nanoseconds. -/
def gateAgePromotionInterval : ℤ := 1000000000

/-- The hold a waiter takes for a leak, in nanoseconds. -/
def stuckWait : ℤ := 20 * 1000000000

/-- The security-fence turns a pressure hold still grants. -/
def recoverySecurityReserve : ℕ := 128

/-- The queued tickets and the holder of one supervisor in a background class. -/
def backgroundTicketLimit (c : Class) : ℕ := if c = .maintenance then 1 else 2

/-- The rung of a ticket: a waiting background ticket climbs, up to the media rung. -/
def promotedPriority (c : Class) (since now : ℤ) : ℤ :=
  if c.background then
    max Class.backgroundMedia.priority
      (c.priority - (now - since).tdiv gateAgePromotionInterval)
  else c.priority

/-- A background ticket wins by its promoted rung, then by its arrival. -/
def outranks (now : ℤ) (t s : Ticket) : Bool :=
  promotedPriority t.workClass t.since now < promotedPriority s.workClass s.since now ||
    (promotedPriority t.workClass t.since now = promotedPriority s.workClass s.since now &&
      t.since < s.since)

/-- The better of the selection so far and the next candidate. -/
def prefer (now : ℤ) (selected candidate : Option Ticket) : Option Ticket :=
  match selected, candidate with
  | none, c => c
  | some s, none => some s
  | some s, some t => if outranks now t s then some t else some s

/-- A user ticket is one of a class above bulk work. -/
def Ticket.user (t : Ticket) : Bool := !t.workClass.background

end Portico.WriterGate
