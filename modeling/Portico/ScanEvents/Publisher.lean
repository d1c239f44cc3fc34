import Portico.Lib.OrderedMap

/-!
# Scan events: the publisher

A tick looks at every library that is scanned or was, and writes the events that are due in one
transaction. What the publisher keeps of a library changes only when that is written.

## Main definitions

* `Entry`, `Publisher`: what is kept of a library, and the events that were written
* `evaluate`: what a library's status asks for
* `Publisher.tick`: a tick, and when the next one is due
-/

namespace Portico.ScanEvents

/-! ## Statuses -/

/-- A source of a library, as its inventory status has it. -/
structure Source where
  id : String
  status : String
  phase : String
  discovered : ℤ
  analyzed : ℤ
deriving DecidableEq, Repr

/-- The status of a library: it is gone, it can't be read, or it has sources. -/
inductive Status
  | missing
  | failed
  | sources (l : List Source)
deriving DecidableEq, Repr

/-- A source is scanned, or is to be. -/
def Source.scanning (s : Source) : Bool := s.status = "queued" || s.status = "running"

def Status.scanning : Status → Bool
  | .sources l => l.any Source.scanning
  | _ => false

def Source.signature (s : Source) : String :=
  s.id ++ ":" ++ s.status ++ ":" ++ s.phase ++ ":" ++ toString s.discovered ++ ":" ++
    toString s.analyzed ++ ";"

def Status.signature : Status → String
  | .sources l => l.foldl (fun text s => text ++ s.signature) ""
  | _ => ""

def Status.found : Status → ℤ
  | .sources l => (l.map Source.discovered).sum
  | _ => 0

/-! ## Entries and events -/

/-- Times in nanoseconds, and their milliseconds. -/
def unixMilli (t : ℤ) : ℤ := t / 1000000

def progressInterval : ℤ := 1000000000

/-- What is kept of a library that is scanned. -/
structure Entry where
  signature : String
  found : ℤ
  sentAt : ℤ
  revision : ℤ
deriving DecidableEq, Repr

inductive Kind
  | started
  | progress
  | finished
deriving DecidableEq, Repr

/-- An event that was written, with the clock's reading. -/
structure ScanEvent where
  library : String
  state : Kind
  found : ℤ
  revision : ℤ
  sentAt : ℤ
deriving DecidableEq, Repr

/-- What is due for a library: nothing, something later, or an event and what is kept after it. -/
inductive Verdict
  | nothing
  | later (due : ℤ)
  | send (state : Kind) (found revision : ℤ) (next : Option Entry)
deriving DecidableEq, Repr

/-- The revision after one that was sent. -/
def nextRevision (prev now : ℤ) : ℤ :=
  if unixMilli now > prev + 1 then unixMilli now else prev + 1

def firstRevision (now : ℤ) : ℤ := if unixMilli now < 1 then 1 else unixMilli now

/-- **What a library's status asks for.** -/
def evaluate (prev : Option Entry) (now : ℤ) (status : Status) : Verdict :=
  match status, prev with
  | .failed, _ => .nothing
  | status, none =>
    if status.scanning then
      .send .started status.found (firstRevision now)
        (some ⟨status.signature, status.found, now, firstRevision now⟩)
    else .nothing
  | status, some prev =>
    if status.scanning then
      if status.signature = prev.signature then .nothing
      else if prev.sentAt + progressInterval ≤ now then
        .send .progress status.found (nextRevision prev.revision now)
          (some ⟨status.signature, status.found, now, nextRevision prev.revision now⟩)
      else .later (prev.sentAt + progressInterval)
    else
      .send .finished (if status = .missing then prev.found else status.found)
        (nextRevision prev.revision now) none

/-! ## Ticks -/

/-- What is kept of the libraries, and the events that were written. -/
structure Publisher where
  tracked : OrderedMap String Entry
  written : List ScanEvent

/-- What a tick reads: the clock, the due time of the task hints when those could be told, the libraries
that are scanned, their statuses, and whether its events can be written. -/
structure Reading where
  now : ℤ
  task : Option (Option ℤ)
  active : Option (List String)
  status : String → Status
  saved : Bool

namespace Publisher

variable (p : Publisher) (i : Reading)

/-- The libraries that are looked at, in order. -/
def libraries (active : List String) : List String :=
  ((active ++ p.tracked.entries.map Prod.fst).dedup).insertionSort (· ≤ ·)

def verdicts (active : List String) : List (String × Verdict) :=
  (p.libraries active).map fun l => (l, evaluate (p.tracked.get l) i.now (i.status l))

/-- The event that is due for a library. -/
def offer (now : ℤ) : String × Verdict → Option ScanEvent
  | (library, .send state found revision _) => some ⟨library, state, found, revision, now⟩
  | _ => none

/-- What is kept of a library after its event. -/
def apply (tracked : OrderedMap String Entry) : String × Verdict → OrderedMap String Entry
  | (library, .send _ _ _ (some next)) => tracked.set library next
  | (library, .send _ _ _ none) => tracked.erase library
  | _ => tracked

/-- The earlier of two due times. -/
def earlier : Option ℤ → Option ℤ → Option ℤ
  | none, due => due
  | due, none => due
  | some a, some b => some (if b < a then b else a)

def dueOf : String × Verdict → Option ℤ
  | (_, .later due) => some due
  | _ => none

/-- The events that a tick wants to write. -/
def offers : List ScanEvent :=
  match i.task, i.active with
  | some _, some active => (p.verdicts i active).filterMap (offer i.now)
  | _, _ => []

/-- **A tick**, and when the next one is due. -/
def tick : Publisher × Option ℤ :=
  let retry := some (i.now + progressInterval)
  match i.task, i.active with
  | some taskDue, some active =>
    let verdicts := p.verdicts i active
    let events := verdicts.filterMap (offer i.now)
    let due := verdicts.foldl (fun due v => earlier due (dueOf v)) taskDue
    if events = [] then (p, due)
    else if i.saved then
      ({ tracked := verdicts.foldl apply p.tracked, written := p.written ++ events }, due)
    else (p, earlier due retry)
  | _, _ => (p, retry)

end Publisher

def step (p : Publisher) (i : Reading) : Option Publisher := some (p.tick i).1

def new : Publisher := { tracked := {}, written := [] }

end Portico.ScanEvents
