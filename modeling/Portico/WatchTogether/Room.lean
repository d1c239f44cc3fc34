import Portico.WatchTogether.Record

/-!
# The room's time

What a room does as time passes: silent members leave, a wait ends, and a silent host is reported,
pauses the group and ends it. A reader computes it and a writer applies it.

## Main definitions

* `Room`: the rows of one group; `createGroup` is a new one
* `Room.sweepGroup`: what a writer applies
* `Group.settled`, `Group.due`: what a reader computes
-/

namespace Portico.WatchTogether

/-! ## Requests that are answered once -/

/-- A transport command. -/
structure TransportRequest where
  idempotencyKey : String
  expectedRevision : ℤ
  command : TransportCommand
  positionUS : Option ℤ
  queuePosition : Option ℤ
  entryID : Option EntryID
  rate : Option (ℤ × ℤ)
  allowUnavailable : Bool
deriving DecidableEq, Repr

/-- A change of shuffle or repeat. -/
structure SettingsRequest where
  idempotencyKey : String
  expectedRevision : ℤ
  shuffle : Option Bool
  repeatMode : Option Repeat
deriving DecidableEq, Repr

inductive QueueOperation
  | append
  | replace
  | remove
  | move
deriving DecidableEq, Repr

inductive Placement
  | before
  | after
deriving DecidableEq, Repr

/-- A change of the shared queue. -/
structure QueueRequest where
  idempotencyKey : String
  expectedRevision : ℤ
  operation : QueueOperation
  itemIDs : List ItemID
  entryID : Option EntryID
  destinationEntryID : Option EntryID
  placement : Option Placement
deriving DecidableEq, Repr

/-- The body of a request, by which a retry is recognised. -/
inductive Body
  | transport (request : TransportRequest)
  | settings (request : SettingsRequest)
  | queue (request : QueueRequest)
deriving DecidableEq, Repr

/-- The group's timeline as a member sees it. -/
structure Timeline where
  itemID : Option ItemID
  currentEntryID : Option EntryID
  state : TimelineState
  anchorPositionUS : ℤ
  anchorAt : ℤ
  rateNum : ℤ
  rateDen : ℤ
  queuePosition : ℤ
  waitUntil : ℤ
deriving DecidableEq, Repr

inductive Disposition
  | accepted
  | duplicate
deriving DecidableEq, Repr

/-- The answer to a transport command. -/
structure TransportReceipt where
  idempotencyKey : String
  disposition : Disposition
  command : TransportCommand
  groupState : GroupState
  revision : ℤ
  playbackRevision : ℤ
  queueRevision : ℤ
  recordedAt : ℤ
  timeline : Timeline
  shuffle : Bool
  repeatMode : Repeat
  override : Option (List MemberID)
deriving DecidableEq, Repr

/-- A group as a member sees it. -/
structure Projection where
  state : GroupState
  hostAuthority : HostAuthority
  hostMemberID : MemberID
  revision : ℤ
  playbackRevision : ℤ
  settingsRevision : ℤ
  governanceRevision : ℤ
  queueRevision : ℤ
  reconnect : ℤ
  lastCommand : Option TransportCommand
  lastCommandID : String
  endedReason : EndedReason
  isHost : Bool
  canControl : Bool
  canManageQueue : Bool
  canClaimHost : Bool
  timeline : Timeline
  shuffle : Bool
  repeatMode : Repeat
  viewerMemberID : MemberID
deriving DecidableEq, Repr

/-- An entry of the queue as a member sees it: an entry the member may not see is a placeholder. -/
structure QueueEntry where
  entryID : EntryID
  position : ℤ
  itemID : Option ItemID
  unavailable : Bool
  addedBy : Option MemberID
deriving DecidableEq, Repr

/-- The queue as a member sees it. -/
structure QueueView where
  revision : ℤ
  position : ℤ
  entries : List QueueEntry
deriving DecidableEq, Repr

/-- What a request is answered. -/
inductive Answer
  | transport (receipt : TransportReceipt)
  | group (projection : Projection)
  | queue (view : QueueView)
  | readiness (state : GroupState) (revision playbackRevision : ℤ) (summary : ReadinessSummary)
  | invite (invite : Invite)
  | done
deriving DecidableEq, Repr

/-- The stored answer to a command. -/
structure Receipt where
  member : MemberID
  key : String
  body : Body
  answer : Answer
  createdMS : ℤ
deriving DecidableEq, Repr

/-- The rows of one group; `nextID` is the next unused identifier. -/
structure Room where
  group : Group
  members : List Member
  queue : List QueueRow
  invites : List Invite
  receipts : List Receipt
  nextID : ℕ

/-- A new group: its creator hosts it from the device the request came from. -/
def createGroup (now : ℤ) (viewer : Viewer) (device : DeviceID) (authority : HostAuthority) :
    Room where
  group :=
    { hostMemberID := 0, hostAuthority := authority, state := .lobby
      revision := 1, playbackRevision := 1, queueRevision := 1, governanceRevision := 1
      settingsRevision := 1, activitySeenMS := 0
      waitUntilMS := 0, waitResumeState := .paused, reconnect := 1
      hostDevice := some device, itemID := none, currentEntryID := none
      positionUS := 0, positionUpdatedMS := now, rateNum := 1, rateDen := 1
      queuePosition := 0, shuffle := false, repeatMode := .none
      lastCommand := none, lastCommandID := "", resumeState := .paused
      hostSeenMS := now, pauseAfter := hostPauseSeconds, endAfter := hostEndSeconds
      endedReason := .none, readinessSummary := none }
  members :=
    [{ id := 0, viewer := viewer, role := .host, state := .joined, readiness := .ready
       positionUS := 0, readinessMS := now, joinedMS := now, seenMS := now
       readinessRevision := 0 }]
  queue := []
  invites := []
  receipts := []
  nextID := 1

/-! ## Sweeping -/

/-- Whether a member has been silent for so long that it leaves. -/
def Member.leaves (now : ℤ) (m : Member) : Bool :=
  m.state = .joined && m.role = .member && m.lastSeen < now - memberLeaveSeconds * 1000

/-- Whether a member holds a wait: it is there, and it isn't ready at the group's position. -/
def Member.holds (now : ℤ) (g : Group) (m : Member) : Bool :=
  m.state = .joined && now - memberStaleSeconds * 1000 < m.lastSeen &&
    (m.readiness ≠ .ready || m.readinessRevision ≠ g.playbackRevision ||
      750000 < |m.positionUS - g.positionUS|)

namespace Room

/-- Silent members leave. -/
def sweepMembers (now : ℤ) (r : Room) : Bool × Room :=
  (r.members.any fun m => m.leaves now,
    { r with members := r.members.map fun m => if m.leaves now then { m with state := .left } else m })

/-- A wait ends when nobody holds it, or at its deadline. -/
def releaseWait (now : ℤ) (r : Room) : Bool × Room :=
  let g := r.group
  if g.state ≠ .waiting then (false, r)
  else if (r.members.any fun m => m.holds now g) ∧ now < g.waitUntilMS then (false, r)
  else
    (true,
      { r with
        group :=
          { g with
            state := g.waitResumeState
            resumeState := g.waitResumeState
            positionUpdatedMS := min now g.waitUntilMS
            waitUntilMS := 0 } })

/-- The group ends, and its invitations with it. -/
def endGroup (reason : EndedReason) (r : Room) : Room :=
  { r with
    group :=
      { r.group with
        state := .ended
        endedReason := reason
        waitUntilMS := 0
        governanceRevision := r.group.governanceRevision + 1
        playbackRevision := r.group.playbackRevision + 1 }
    invites := r.invites.map fun i => { i with revoked := true } }

end Room

namespace Group

/-- The pause boundary: the group stops at the position it has reached. -/
def pauseAbsent (now : ℤ) (g : Group) : Group :=
  { g with
    positionUS := g.extrapolate now
    positionUpdatedMS := now
    state := .reconnectingPaused
    resumeState := .paused }

/-- The host is reported as reconnecting. -/
def reportAbsent (g : Group) : Group :=
  if g.state = .playing then { g with resumeState := .playing, state := .reconnectingPlaying }
  else { g with resumeState := g.state, state := .reconnectingPaused }

end Group

namespace Room

/-- The host timeline of a group whose wait was looked at. -/
def hostTimeline (now : ℤ) (changed : Bool) (r : Room) : Bool × Room :=
  let g := r.group
  if g.endAfter ≤ g.silence now then (true, r.endGroup .hostUnavailable)
  else if g.pauseAfter ≤ g.silence now then
    if g.state = .reconnectingPaused then (changed, r)
    else
      (true,
        { r with group := { g.pauseAbsent now with playbackRevision := g.playbackRevision + 1 } })
  else if hostGraceSeconds ≤ g.silence now then
    if Group.isReconnecting g.state then (changed, r)
    else (true, { r with group := g.reportAbsent })
  else (changed, r)

/-- What time has changed is applied: whether anything changed, and the room after. -/
def sweepGroup (now : ℤ) (r : Room) : Bool × Room :=
  if r.group.isOver then (false, r)
  else
    let (left, r) := r.sweepMembers now
    let (released, r) := r.releaseWait now
    r.hostTimeline now (left || released)

end Room

namespace Group

/-- The state a group has reached because time passed, without a write. -/
def settled (now : ℤ) (g : Group) : Group :=
  if g.isOver then g
  else
    let g :=
      if g.state = .waiting ∧ g.waitUntilMS ≤ now then
        { g with
          state := g.waitResumeState, positionUpdatedMS := g.waitUntilMS, waitUntilMS := 0 }
      else g
    if g.endAfter ≤ g.silence now then { g with state := .ended, endedReason := .hostUnavailable }
    else if g.pauseAfter ≤ g.silence now then
      if g.state = .reconnectingPaused then g else g.pauseAbsent now
    else if hostGraceSeconds ≤ g.silence now then
      if isReconnecting g.state then g else g.reportAbsent
    else g

/-- Whether the sweep has to write this group. -/
def due (now : ℤ) (g : Group) : Bool :=
  if g.isOver then false
  else
    (g.settled now).state ≠ g.state || (g.settled now).resumeState ≠ g.resumeState

end Group

end Portico.WatchTogether
