import Portico.WatchTogether.Room

/-!
# The room's commands

The requests that are answered once: transport, settings and queue. Each is fenced by a revision of
the group and leaves a receipt, from which a retry is answered.

## Main definitions

* `Env`: what the room asks of the rest of the server
* `Room.applyTransport`: one transport command on the group's timeline
* `Room.editQueue`: one change of the shared queue
* `Room.command`: receipt lookup, sweep, command, receipt
* `transport`, `updateSettings`, `mutateQueue`: the requests
-/

namespace Portico.WatchTogether

/-- What the room asks of the rest of the server: the request's rate limit, and which items a viewer
may see. -/
structure Env where
  limited : Bool
  visible : Viewer → ItemID → Bool

/-! ## Validation -/

/-- The characters a text may not have: control characters and the marks of direction. -/
def hiddenChar (c : Char) : Bool :=
  c.toNat < 0x20 || 0x7f ≤ c.toNat && c.toNat ≤ 0x9f || c.toNat = 0x061c || c.toNat = 0x200e ||
    c.toNat = 0x200f || 0x202a ≤ c.toNat && c.toNat ≤ 0x202e ||
    0x2066 ≤ c.toNat && c.toNat ≤ 0x2069

def text (v : String) (max : ℕ) : Bool :=
  0 < v.toList.length && v.toList.length ≤ max && v.toList.all fun c => !hiddenChar c

/-- A number a request may carry. -/
def parseCounter (n : ℤ) : Bool := 0 ≤ n && n < 2 ^ 63

namespace TransportRequest

def valid (req : TransportRequest) : Bool :=
  text req.idempotencyKey 120 && parseCounter req.expectedRevision &&
    (match req.positionUS with
      | some v => parseCounter v && v ≤ maxPositionUS
      | none => true) &&
    (match req.command with
      | .play | .pause | .stop | .next | .previous => true
      | .seek => req.positionUS.isSome
      | .load => req.entryID.isSome
      | .setQueuePosition =>
        match req.queuePosition with
        | some position => 0 ≤ position && position < maxQueueEntries
        | none => false) &&
    (match req.rate with
      | some (num, den) =>
        parseCounter num && parseCounter den && num ≠ 0 && den ≠ 0 && num ≤ 4000000 &&
          den ≤ 1000000 && num ≤ 4 * den && den ≤ 2 * num
      | none => true)

end TransportRequest

def SettingsRequest.valid (req : SettingsRequest) : Bool :=
  text req.idempotencyKey 120 && parseCounter req.expectedRevision &&
    (req.shuffle.isSome || req.repeatMode.isSome)

def QueueRequest.valid (req : QueueRequest) : Bool :=
  text req.idempotencyKey 120 && parseCounter req.expectedRevision &&
    match req.operation with
    | .append | .replace => req.itemIDs ≠ [] && req.itemIDs.length ≤ maxQueueEntries
    | .remove => req.entryID.isSome
    | .move => req.entryID.isSome && req.destinationEntryID.isSome && req.placement.isSome

/-! ## Rows -/

/-- The host controls the group, or everyone does. -/
def Group.mayControl (g : Group) (m : Member) : Bool :=
  m.role = .host || g.hostAuthority = .anyone

/-- The queue's order is by position, and by key where positions agree. -/
def QueueRow.Precedes (a b : QueueRow) : Prop :=
  a.position < b.position ∨ a.position = b.position ∧ a.entryID ≤ b.entryID

instance : DecidableRel QueueRow.Precedes := fun _ _ => inferInstanceAs (Decidable (_ ∨ _))

namespace Room

/-- A viewer has one row in a group. -/
def loadMember (viewer : Viewer) (r : Room) : Option Member :=
  r.members.find? fun m => m.viewer = viewer

def loadJoinedMember (viewer : Viewer) (r : Room) : Option Member :=
  (r.loadMember viewer).filter fun m => m.state = .joined

def updateMember (id : MemberID) (f : Member → Member) (r : Room) : Room :=
  { r with members := r.members.map fun m => if m.id = id then f m else m }

/-- The group is saved, under a new revision if the change is one for its members. -/
def save (bump : Bool) (r : Room) : Room :=
  { r with
    group := { r.group with revision := if bump then r.group.revision + 1 else r.group.revision } }

/-- A member's request is activity of the member and of its group. -/
def seen (now : ℤ) (id : MemberID) (r : Room) : Room :=
  let r := r.updateMember id fun m => { m with seenMS := now }
  { r with group := { r.group with activitySeenMS := now } }

/-- The queue in the order of its positions. -/
def readQueue (r : Room) : List QueueRow :=
  r.queue.insertionSort QueueRow.Precedes

def entryAt (position : ℤ) (r : Room) : Option QueueRow :=
  r.queue.find? fun row => row.position = position

/-- The members that are there. -/
def joinedParticipants (now : ℤ) (r : Room) : List Member :=
  r.members.filter fun m =>
    m.state = .joined && now - memberStaleSeconds * 1000 < m.lastSeen

end Room

/-! ## Projections -/

/-- A member may claim a host that is past the pause boundary. -/
def hostClaimGovernanceAllowed (now : ℤ) (g : Group) (m : Member) : Bool :=
  m.role ≠ .host && m.state = .joined && g.state ≠ .ended &&
    (Group.isReconnecting g.state || g.hostAuthority = .anyone) &&
    g.pauseAfter * 1000 ≤ now - g.hostSeenMS

/-- The claim also needs the member connected and ready. -/
def hostClaimAllowed (now : ℤ) (g : Group) (m : Member) : Bool :=
  hostClaimGovernanceAllowed now g m && m.readiness = .ready &&
    now - m.lastSeen ≤ hostGraceSeconds * 1000 &&
    now - m.readinessMS ≤ readinessStaleSeconds * 1000 &&
    (g.itemID = none || m.readinessRevision = g.playbackRevision)

namespace Group

def project (env : Env) (now : ℤ) (viewer : Viewer) (m : Member) (g : Group) : Projection :=
  { state := g.state, hostAuthority := g.hostAuthority, hostMemberID := g.hostMemberID
    revision := g.revision, playbackRevision := g.playbackRevision
    settingsRevision := g.settingsRevision, governanceRevision := g.governanceRevision
    queueRevision := g.queueRevision, reconnect := g.reconnect
    lastCommand := g.lastCommand, lastCommandID := g.lastCommandID, endedReason := g.endedReason
    isHost := m.role = .host, canControl := g.mayControl m, canManageQueue := g.mayControl m
    canClaimHost := hostClaimAllowed now g m
    timeline :=
      { itemID := g.itemID.filter fun item => env.visible viewer item
        currentEntryID := g.currentEntryID, state := timelineState g.state
        anchorPositionUS := g.positionUS, anchorAt := g.positionUpdatedMS
        rateNum := g.rateNum, rateDen := g.rateDen, queuePosition := g.queuePosition
        waitUntil := g.waitUntilMS }
    shuffle := g.shuffle, repeatMode := g.repeatMode, viewerMemberID := m.id }

end Group

namespace Room

/-- A member's view of the queue: what it may not see is hidden. The host is told through the list of
the members that are there, so a host that isn't one of them sees everything. -/
def projectQueue (env : Env) (now : ℤ) (viewer : Viewer) (m : Member) (r : Room) : QueueView :=
  let people := if m.role ≠ .host then [viewer] else (r.joinedParticipants now).map Member.viewer
  { revision := r.group.queueRevision
    position := r.group.queuePosition
    entries :=
      r.readQueue.map fun row =>
        if people.contains viewer && !env.visible viewer row.itemID then
          { entryID := row.entryID, position := row.position, itemID := none, unavailable := true
            addedBy := none }
        else
          { entryID := row.entryID, position := row.position, itemID := some row.itemID
            unavailable := false, addedBy := some row.addedBy } }

/-! ## Transport -/

end Room

def Group.rated (rate : Option (ℤ × ℤ)) (g : Group) : Group :=
  match rate with
  | some (num, den) => { g with rateNum := num, rateDen := den }
  | none => g

namespace Room

/-- An entry that a member who is there can't see is refused, unless the host overrides it. -/
def gateEntry (env : Env) (now : ℤ) (entryID : Option EntryID) (allow : Bool) (r : Room) :
    Except Fault (Option (List MemberID)) :=
  match entryID.bind fun id => r.queue.find? fun row => row.entryID = id with
  | none => .ok none
  | some row =>
    let blocked :=
      ((r.joinedParticipants now).filter fun m => !env.visible m.viewer row.itemID).map Member.id
    if blocked = [] then .ok none
    else if !allow then .error .mediaNoLongerAccessible
    else .ok (some blocked)

/-- The queue position a command selects. -/
def selectPosition (req : TransportRequest) (r : Room) : Except Fault ℤ :=
  let g := r.group
  match req.command with
  | .next =>
    if g.queuePosition + 1 < r.queue.length then .ok (g.queuePosition + 1)
    else if g.repeatMode ≠ .all then .error .targetUnavailable
    else .ok 0
  | .previous =>
    if 0 ≤ g.queuePosition - 1 then .ok (g.queuePosition - 1)
    else if g.repeatMode ≠ .all then .error .targetUnavailable
    else .ok (r.queue.length - 1)
  | .setQueuePosition => .ok (req.queuePosition.getD 0)
  | .load =>
    match r.readQueue.find? fun row => some row.entryID = req.entryID with
    | some row => .ok row.position
    | none => .error .targetUnavailable
  | _ => .ok g.queuePosition

/-- The commands that select an entry of the queue: it starts, and the group waits for its members. -/
def selectEntry (env : Env) (now : ℤ) (req : TransportRequest) (r : Room) :
    Except Fault (Option (List MemberID) × Group) := do
  if r.queue = [] then
    throw .targetUnavailable
  let target ← r.selectPosition req
  match r.entryAt target with
  | none => throw .targetUnavailable
  | some entry =>
    let notes ← r.gateEntry env now (some entry.entryID) req.allowUnavailable
    let g :=
      { r.group with
        queuePosition := target, currentEntryID := some entry.entryID, itemID := some entry.itemID
        positionUS := if req.command = TransportCommand.load then req.positionUS.getD 0 else 0
        positionUpdatedMS := now }
    let g :=
      if g.state = .lobby ∨ g.state = .ready ∨ g.state = .preparing then
        { g with state := .preparing, resumeState := .paused }
      else g
    return (notes, g.beginWait now)

/-- One command on the group's timeline: each re-anchors the clock or refuses. -/
def applyTransport (env : Env) (now : ℤ) (req : TransportRequest) (r : Room) :
    Except Fault (Option (List MemberID) × Group) :=
  let position := r.group.extrapolate now
  let g := r.group.rated req.rate
  match req.command with
  | .pause =>
    .ok (none,
      { g with
        waitUntilMS := 0, positionUS := position, positionUpdatedMS := now
        state := if g.itemID = none then .lobby else .paused
        resumeState := .paused })
  | .stop =>
    .ok (none,
      { g with
        waitUntilMS := 0, positionUS := 0, positionUpdatedMS := now
        state := if g.itemID = none then .lobby else .ready
        resumeState := .paused })
  | .seek =>
    if g.itemID = none then .error .targetUnavailable
    else
      .ok (none,
        { g with positionUS := req.positionUS.getD 0, positionUpdatedMS := now }.beginWait now)
  | .play =>
    if g.itemID = none then .error .targetUnavailable
    else do
      let notes ← r.gateEntry env now g.currentEntryID req.allowUnavailable
      return (notes,
        { g with
          positionUS := req.positionUS.getD position, positionUpdatedMS := now
          waitUntilMS := 0, state := .playing, resumeState := .playing })
  | .next | .previous | .setQueuePosition | .load => { r with group := g }.selectEntry env now req

end Room

/-! ## The shared queue -/

/-- Each entry of an order gets its place in it. -/
def renumber : ℤ → List EntryID → List QueueRow → List QueueRow
  | _, [], rows => rows
  | position, id :: order, rows =>
    renumber (position + 1) order
      (rows.map fun row => if row.entryID = id then { row with position := position } else row)

/-- The order after a move. -/
def queueOrderAfterMove (rows : List QueueRow) (entryID destination : EntryID)
    (placement : Placement) : Except Fault (List EntryID) :=
  if entryID = destination then .error .invalidRequest
  else
    let order := (rows.map QueueRow.entryID).filter fun id => id ≠ entryID
    if order.length = rows.length then .error .entryNotFound
    else if destination ∉ order then .error .entryNotFound
    else
      .ok (order.flatMap fun id =>
        if id = destination then
          match placement with
          | .before => [entryID, id]
          | .after => [id, entryID]
        else [id])

namespace Room

/-- Items enter the queue one by one: the member who adds one must be able to see it. -/
def appendItems (env : Env) (viewer : Viewer) (addedBy : MemberID) :
    ℤ → List ItemID → Room → Except Fault Room
  | _, [], r => .ok r
  | next, item :: items, r =>
    if !env.visible viewer item then .error .mediaNoLongerAccessible
    else
      appendItems env viewer addedBy (next + 1) items
        { r with queue := r.queue ++ [⟨r.nextID, next, item, addedBy⟩], nextID := r.nextID + 1 }

/-- The queue's rows after an operation, numbered. -/
def editQueue (env : Env) (viewer : Viewer) (m : Member) (req : QueueRequest) (r : Room) :
    Except Fault Room :=
  let numbered : Room → Room := fun r =>
    { r with queue := renumber 0 (r.readQueue.map QueueRow.entryID) r.queue }
  let appended : Room → Except Fault Room := fun r =>
    if maxQueueEntries < r.queue.length + req.itemIDs.length then .error .queueFull
    else (r.appendItems env viewer m.id r.queue.length req.itemIDs).map numbered
  match req.operation with
  | .append => appended r
  | .replace => appended { r with queue := [] }
  | .remove =>
    if (r.queue.any fun row => some row.entryID = req.entryID) then
      .ok (numbered { r with queue := r.queue.filter fun row => some row.entryID ≠ req.entryID })
    else .error .entryNotFound
  | .move =>
    match req.entryID, req.destinationEntryID, req.placement with
    | some entryID, some destination, some placement =>
      (queueOrderAfterMove r.readQueue entryID destination placement).map fun order =>
        { r with queue := renumber 0 order r.queue }
    | _, _, _ => .error .invalidRequest

/-- The stored position follows the current entry, while the queue has it. -/
def refreshPosition (r : Room) : Room :=
  match r.group.currentEntryID.bind fun id => r.queue.find? fun row => row.entryID = id with
  | some row => { r with group := { r.group with queuePosition := row.position } }
  | none => r

/-! ## Commands -/

def receive (receipt : Receipt) (r : Room) : Room :=
  { r with receipts := r.receipts ++ [receipt] }

/-- The receipt window is bounded per group: the oldest keys fall out first. -/
def trimReceipts (r : Room) : Room :=
  { r with
    receipts :=
      (r.receipts.insertionSort fun a b => a.createdMS ≤ b.createdMS).drop
        (r.receipts.length - maxReceipts) }

end Room

/-- A replayed answer is told as such. -/
def Answer.duplicate : Answer → Answer
  | .transport receipt => .transport { receipt with disposition := .duplicate }
  | answer => answer

namespace Room

/-- One command: a retry is answered from its receipt, anything else runs on the swept room and
leaves a receipt. A refusal leaves the room as it was, except that a group which time has ended
stays ended. -/
def command (env : Env) (now : ℤ) (viewer : Viewer) (key : String) (body : Body)
    (apply : Member → Room → Except Fault (Answer × Room)) (r : Room) : Except Fault Answer × Room :=
  match r.loadJoinedMember viewer with
  | none => (.error .membershipRevoked, r)
  | some m =>
    match r.receipts.find? fun e => e.member = m.id ∧ e.key = key with
    | some e => (if e.body = body then .ok e.answer.duplicate else .error .idempotencyKeyReused, r)
    | none =>
      let (swept, s) := r.sweepGroup now
      if s.group.isOver then (.error .groupEnded, if swept then s.save true else r)
      else if env.limited then (.error .rateLimited, r)
      else
        let s := s.seen now m.id
        match s.loadJoinedMember viewer with
        | none => (.error .membershipRevoked, r)
        | some m =>
          match apply m s with
          | .error fault => (.error fault, r)
          | .ok (answer, s) =>
            (.ok answer, ((s.save true).receive ⟨m.id, key, body, answer, now⟩).trimReceipts)

end Room

/-- A transport command on the swept room. -/
def applyCommand (env : Env) (now : ℤ) (req : TransportRequest) (m : Member) (r : Room) :
    Except Fault (Answer × Room) :=
  if !r.group.mayControl m then .error .hostRequired
  else if req.expectedRevision ≠ r.group.playbackRevision then
    .error (.revisionConflict r.group.playbackRevision)
  else if req.allowUnavailable ∧ m.role ≠ .host then .error .hostRequired
  else
    let r := if m.role = .host then { r with group := r.group.hostReturned now } else r
    (r.applyTransport env now req).map fun (notes, g) =>
      let g :=
        { g with
          playbackRevision := g.playbackRevision + 1
          lastCommand := some req.command, lastCommandID := req.idempotencyKey }
      (.transport
        { idempotencyKey := req.idempotencyKey, disposition := .accepted
          command := req.command, groupState := g.state, revision := g.revision + 1
          playbackRevision := g.playbackRevision, queueRevision := g.queueRevision
          recordedAt := now
          timeline :=
            { itemID := g.itemID, currentEntryID := g.currentEntryID
              state := timelineState g.state
              anchorPositionUS := g.positionUS, anchorAt := g.positionUpdatedMS
              rateNum := g.rateNum, rateDen := g.rateDen, queuePosition := g.queuePosition
              waitUntil := g.waitUntilMS }
          shuffle := g.shuffle, repeatMode := g.repeatMode, override := notes },
        { r with group := g })

/-- A change of settings on the swept room. -/
def applySettings (env : Env) (now : ℤ) (viewer : Viewer) (req : SettingsRequest) (m : Member)
    (r : Room) : Except Fault (Answer × Room) :=
  if !r.group.mayControl m then .error .hostRequired
  else if req.expectedRevision ≠ r.group.settingsRevision then
    .error (.revisionConflict r.group.settingsRevision)
  else
    let g :=
      { r.group with
        settingsRevision := r.group.settingsRevision + 1
        shuffle := req.shuffle.getD r.group.shuffle
        repeatMode := req.repeatMode.getD r.group.repeatMode }
    .ok (.group ({ g with revision := g.revision + 1 }.project env now viewer m),
      { r with group := g })

/-- A change of the queue on the swept room. -/
def applyQueue (env : Env) (now : ℤ) (viewer : Viewer) (req : QueueRequest) (m : Member) (r : Room) :
    Except Fault (Answer × Room) :=
  if !r.group.mayControl m then .error .hostRequired
  else if req.expectedRevision ≠ r.group.queueRevision then
    .error (.revisionConflict r.group.queueRevision)
  else
    (r.editQueue env viewer m req).map fun r =>
      let r :=
        { r with group := { r.group with queueRevision := r.group.queueRevision + 1 } }.refreshPosition
      (.queue (r.projectQueue env now viewer m), r)

/-- The item of an answered command, as far as the viewer may see it. -/
def Answer.itemFor (env : Env) (viewer : Viewer) : Answer → Answer
  | .transport receipt =>
    .transport
      { receipt with
        timeline :=
          { receipt.timeline with
            itemID := receipt.timeline.itemID.filter fun item => env.visible viewer item } }
  | answer => answer

/-- `Transport`. -/
def transport (env : Env) (now : ℤ) (viewer : Viewer) (req : TransportRequest) (r : Room) :
    Except Fault Answer × Room :=
  if !req.valid then (.error .invalidRequest, r)
  else
    let (response, r) :=
      r.command env now viewer req.idempotencyKey (.transport req) (applyCommand env now req)
    (response.map fun answer => answer.itemFor env viewer, r)

/-- `UpdateSettings`. -/
def updateSettings (env : Env) (now : ℤ) (viewer : Viewer) (req : SettingsRequest) (r : Room) :
    Except Fault Answer × Room :=
  if !req.valid then (.error .invalidRequest, r)
  else r.command env now viewer req.idempotencyKey (.settings req) (applySettings env now viewer req)

/-- `MutateQueue`. -/
def mutateQueue (env : Env) (now : ℤ) (viewer : Viewer) (req : QueueRequest) (r : Room) :
    Except Fault Answer × Room :=
  if !req.valid then (.error .invalidRequest, r)
  else r.command env now viewer req.idempotencyKey (.queue req) (applyQueue env now viewer req)

end Portico.WatchTogether
