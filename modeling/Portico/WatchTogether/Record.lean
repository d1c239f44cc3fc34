import Mathlib

/-!
# A watch-together room

The stored rows of one group: the group itself, its members, its shared queue, its invitations and
the receipts of its commands, with the functions that move its clock. Times are in milliseconds and
positions in microseconds.

## Main definitions

* `Group`, `Member`, `QueueRow`, `Invite`, `Room`: the rows
* `Group.extrapolate`: the position the group's clock has reached
* `Group.beginWait`, `Group.hostReturned`, `Room.endGroup`: the steps several requests share
-/

namespace Portico.WatchTogether

/-- The states of a group. -/
inductive GroupState
  | creating
  | lobby
  | preparing
  | ready
  | waiting
  | playing
  | paused
  | reconnectingPlaying
  | reconnectingPaused
  | degraded
  | ending
  | ended
  | failed
deriving DecidableEq, Repr

inductive HostAuthority
  | hostOnly
  | anyone
deriving DecidableEq, Repr

inductive Repeat
  | none
  | one
  | all
deriving DecidableEq, Repr

inductive EndedReason
  | none
  | hostEnded
  | hostLeft
  | empty
  | hostUnavailable
deriving DecidableEq, Repr

inductive Role
  | host
  | member
deriving DecidableEq, Repr

inductive MemberState
  | invited
  | joined
  | left
  | removed
deriving DecidableEq, Repr

inductive Readiness
  | buffering
  | ready
  | lagging
deriving DecidableEq, Repr

/-- The commands of a group's transport. -/
inductive TransportCommand
  | play
  | pause
  | stop
  | next
  | previous
  | seek
  | load
  | setQueuePosition
deriving DecidableEq, Repr

abbrev MemberID := ℕ
abbrev ItemID := ℕ
abbrev EntryID := ℕ
abbrev DeviceID := ℕ

/-- Who a request comes from. -/
structure Viewer where
  authority : ℕ
  account : ℕ
  profile : ℕ
deriving DecidableEq, Repr

/-! ## Bounds -/

def maxMembers : ℕ := 32

def maxQueueEntries : ℕ := 256

def maxReceipts : ℕ := 128

def maxPositionUS : ℤ := 2 ^ 40 * 1000

def hostGraceSeconds : ℤ := 30

def hostPauseSeconds : ℤ := 120

def hostEndSeconds : ℤ := 600

def memberStaleSeconds : ℤ := 120

def memberLeaveSeconds : ℤ := 600

def readinessStaleSeconds : ℤ := 30

def groupWaitSeconds : ℤ := 5

def inviteTTLSeconds : ℤ := 900

def inviteMaxTTLSeconds : ℤ := 3600

def inviteDefaultUses : ℤ := 8

def inviteMaxUses : ℤ := 32

/-! ## The group -/

inductive Aggregate
  | ready
  | buffering
  | lagging
deriving DecidableEq, Repr

/-- How many of the members that are there are ready. -/
structure ReadinessSummary where
  aggregate : Aggregate
  memberCount : ℕ
  stale : ℕ
  ready : ℕ
  lagging : ℕ
  buffering : ℕ
deriving DecidableEq, Repr

/-- A group's row. An absent identifier is `none`. -/
structure Group where
  hostMemberID : MemberID
  hostAuthority : HostAuthority
  state : GroupState
  revision : ℤ
  playbackRevision : ℤ
  queueRevision : ℤ
  governanceRevision : ℤ
  settingsRevision : ℤ
  activitySeenMS : ℤ
  waitUntilMS : ℤ
  waitResumeState : GroupState
  reconnect : ℤ
  hostDevice : Option DeviceID
  itemID : Option ItemID
  currentEntryID : Option EntryID
  positionUS : ℤ
  positionUpdatedMS : ℤ
  rateNum : ℤ
  rateDen : ℤ
  queuePosition : ℤ
  shuffle : Bool
  repeatMode : Repeat
  lastCommand : Option TransportCommand
  lastCommandID : String
  resumeState : GroupState
  hostSeenMS : ℤ
  pauseAfter : ℤ
  endAfter : ℤ
  endedReason : EndedReason
  readinessSummary : Option ReadinessSummary

namespace Group

/-- What the table's checks say of a stored row. -/
structure Stored (g : Group) : Prop where
  resume : g.resumeState ∈
    [GroupState.playing, .paused, .lobby, .preparing, .ready, .waiting]
  waitResume : g.waitResumeState ∈ [GroupState.playing, .paused, .ready]

instance (g : Group) : Decidable g.Stored :=
  decidable_of_iff (_ ∧ _) ⟨fun h => ⟨h.1, h.2⟩, fun h => ⟨h.resume, h.waitResume⟩⟩

/-- Whether the group is over. -/
def isOver (g : Group) : Bool := g.state = .ended || g.state = .failed

def isReconnecting : GroupState → Bool
  | .reconnectingPlaying | .reconnectingPaused => true
  | _ => false

/-- The state a reconnecting group returns to. An empty group returns to the lobby. -/
def resumed (g : Group) : GroupState :=
  if g.resumeState ≠ .playing ∧ g.itemID = none then .lobby else g.resumeState

/-- The position the group's clock has reached. -/
def extrapolate (now : ℤ) (g : Group) : ℤ :=
  if g.itemID = none then 0
  else if ¬ (g.state = .playing ∨ g.state = .reconnectingPlaying) ∨ g.positionUpdatedMS ≤ 0 ∨
      g.rateDen = 0 then g.positionUS
  else
    let elapsed := now - g.positionUpdatedMS
    if elapsed ≤ 0 then g.positionUS
    else min maxPositionUS (g.positionUS + (elapsed * 1000 * g.rateNum).tdiv g.rateDen)

/-- The group waits for its members, for a bounded time. -/
def beginWait (now : ℤ) (g : Group) : Group :=
  { g with
    state := .waiting
    waitResumeState :=
      match g.state with
      | .playing | .reconnectingPlaying => .playing
      | .lobby | .preparing | .ready => .ready
      | .waiting => g.waitResumeState
      | _ => .paused
    waitUntilMS := now + groupWaitSeconds * 1000 }

/-- The host is back: a group that waits for it returns to the state before. -/
def hostReturned (now : ℤ) (g : Group) : Group :=
  let g := { g with hostSeenMS := now }
  if !isReconnecting g.state then g
  else
    let g := { g with state := g.resumed, reconnect := g.reconnect + 1 }
    if g.state = .playing then g
    else { g with positionUS := g.extrapolate now, positionUpdatedMS := now }

/-- The seconds nobody who keeps the group alive was seen. -/
def silence (now : ℤ) (g : Group) : ℤ :=
  if g.hostAuthority = .anyone then (now - max g.hostSeenMS g.activitySeenMS).tdiv 1000
  else (now - g.hostSeenMS).tdiv 1000

end Group

/-! ## Members, queue, invitations and receipts -/

/-- A member's row. It stays when the member leaves. -/
structure Member where
  id : MemberID
  viewer : Viewer
  role : Role
  state : MemberState
  readiness : Readiness
  positionUS : ℤ
  readinessMS : ℤ
  joinedMS : ℤ
  seenMS : ℤ
  readinessRevision : ℤ
deriving DecidableEq, Repr

/-- When a member was last seen. -/
def Member.lastSeen (m : Member) : ℤ := max m.seenMS m.joinedMS

/-- An entry of the shared queue. -/
structure QueueRow where
  entryID : EntryID
  position : ℤ
  itemID : ItemID
  addedBy : MemberID
deriving DecidableEq, Repr

/-- An invitation. -/
structure Invite where
  id : ℕ
  code : ℕ
  recipient : Option ℕ
  maxUses : ℤ
  uses : ℤ
  revoked : Bool
  expiresMS : ℤ
deriving DecidableEq, Repr

/-- The refusals of a request. -/
inductive Fault
  | invalidRequest
  | notFound
  | revisionConflict (current : ℤ)
  | hostRequired
  | groupEnded
  | groupFull
  | membershipRevoked
  | memberNotFound
  | participantIncompatible
  | targetUnavailable
  | mediaNoLongerAccessible
  | rateLimited
  | idempotencyKeyReused
  | queueFull
  | entryNotFound
  | inviteNotFound
  | inviteWrongRecipient
  | inviteRevoked
  | inviteExpired
  | inviteConsumed
deriving DecidableEq, Repr

/-- The authoritative timeline a receipt or a projection shows. -/
inductive TimelineState
  | playing
  | idle
  | stopped
  | paused
deriving DecidableEq, Repr

def timelineState : GroupState → TimelineState
  | .playing | .reconnectingPlaying => .playing
  | .lobby | .creating => .idle
  | .ended | .failed => .stopped
  | _ => .paused

end Portico.WatchTogether
