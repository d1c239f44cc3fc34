import Portico.WatchTogether.Commands

/-!
# The room's other requests

Presence, readiness, the host's authority, invitations and joining. They share one write path: load,
sweep, run, save.

## Main definitions

* `Room.mutateGroup`: the shared write path
* `heartbeat`, `reportReadiness`, `endGroup`, `leave`, `transferHost`: the requests on it
* `createInvite`, `revokeInvite`, `join`: invitations
* `readGroup`: a read, which writes nothing
* `Action`, `serve`, `act`, `step`: one request of a run, and the same at a clock that never runs
  back
-/

namespace Portico.WatchTogether

namespace Room

/-- The write path of a request: what time has changed is applied first, and a group that is over
then is saved as such before the request is refused. Telemetry raises the revision only when the
group's state or the host's presence changed. -/
def mutateGroup (env : Env) (now : ℤ) (viewer : Viewer) (semantic : Bool)
    (apply : Member → Room → Except Fault Room) (answer : Member → Room → Answer) (r : Room) :
    Except Fault Answer × Room :=
  if (r.loadMember viewer).isNone then (.error .membershipRevoked, r)
  else
    let (swept, s) := r.sweepGroup now
    if s.group.isOver then (.error .groupEnded, if swept then s.save true else r)
    else
      match s.loadJoinedMember viewer with
      | none => (.error .membershipRevoked, r)
      | some m =>
        if env.limited then (.error .rateLimited, r)
        else
          match apply m (s.seen now m.id) with
          | .error fault => (.error fault, r)
          | .ok s =>
            let s := s.save (semantic || s.group.state ≠ r.group.state ||
              s.group.reconnect ≠ r.group.reconnect)
            match s.loadMember viewer with
            | none => (.error .membershipRevoked, r)
            | some m => (.ok (answer m s), s)

end Room

/-- The group as the member sees it after its request. -/
def projected (env : Env) (now : ℤ) (viewer : Viewer) (m : Member) (r : Room) : Answer :=
  .group (r.group.project env now viewer m)

/-! ## Presence and readiness -/

/-- The host's heartbeat binds its device, and is the proof of life the host timeline is measured
from. A member's is only activity. -/
def applyHeartbeat (now : ℤ) (device : Option DeviceID) (m : Member) (r : Room) :
    Except Fault Room :=
  if m.role ≠ .host then .ok r
  else
    let g := { r.group with hostDevice := device.or r.group.hostDevice }
    .ok { r with group := g.hostReturned now }

/-- `Heartbeat`. -/
def heartbeat (env : Env) (now : ℤ) (viewer : Viewer) (device : Option DeviceID) (r : Room) :
    Except Fault Answer × Room :=
  r.mutateGroup env now viewer false (applyHeartbeat now device) (projected env now viewer)

/-- A member's report of its own readiness. -/
structure ReadinessRequest where
  readiness : Readiness
  playbackRevision : ℤ
  ended : Bool
  positionUS : Option ℤ
deriving DecidableEq, Repr

def ReadinessRequest.valid (req : ReadinessRequest) : Bool :=
  match req.positionUS with
  | some v => parseCounter v && v ≤ maxPositionUS
  | none => true

/-- Whether a report is too old to count. -/
def Member.stale (now : ℤ) (m : Member) : Bool :=
  m.readinessMS ≤ 0 || readinessStaleSeconds * 1000 < now - m.readinessMS

namespace Room

/-- The counts over the members that are there, and what they come to. -/
def summary (now : ℤ) (r : Room) : ReadinessSummary :=
  let there := r.members.filter fun m =>
    m.state = .joined && now - m.lastSeen ≤ memberStaleSeconds * 1000
  let stale := there.countP fun m => m.stale now
  let ready := there.countP fun m => !m.stale now && m.readiness = .ready
  let lagging := there.countP fun m => !m.stale now && m.readiness = .lagging
  let buffering := there.length - stale - ready - lagging
  { aggregate :=
      if 0 < lagging ∨ 0 < stale then .lagging
      else if 0 < buffering ∨ there.length = 0 then .buffering
      else .ready
    memberCount := there.length, stale := stale, ready := ready, lagging := lagging
    buffering := buffering }

end Room

/-- The title has ended for the host: the group stops at its end. -/
def Group.ended (now position : ℤ) (g : Group) : Group :=
  { g with
    positionUS := position, positionUpdatedMS := now, state := .paused, resumeState := .paused
    playbackRevision := g.playbackRevision + 1 }

/-- A report that matches the group's playback is recorded. It may release the wait, and makes a
group that prepares ready; the host's proves its presence, and tells the end of the title. -/
def applyReadiness (now : ℤ) (req : ReadinessRequest) (m : Member) (r : Room) :
    Except Fault Room :=
  if !parseCounter req.playbackRevision then .error .invalidRequest
  else if req.playbackRevision ≠ r.group.playbackRevision then .ok r
  else
    let position := req.positionUS.getD 0
    let r := r.updateMember m.id fun m =>
      { m with
        readiness := req.readiness, positionUS := position, readinessMS := now
        readinessRevision := r.group.playbackRevision }
    let r := if m.role = .host then { r with group := r.group.hostReturned now } else r
    if req.ended ∧ m.role = .host ∧ timelineState r.group.state = .playing then
      .ok { r with group := r.group.ended now position }
    else
      let (_, r) := r.releaseWait now
      let summary := r.summary now
      let g :=
        if r.group.state = .preparing ∧ summary.aggregate = .ready then
          { r.group with state := .ready }
        else r.group
      -- a report that changes nothing anyone is shown isn't broadcast
      let fresh := 0 < m.readinessMS ∧ now - m.readinessMS ≤ readinessStaleSeconds * 1000
      if m.readiness = req.readiness ∧ m.readinessRevision = g.playbackRevision ∧ fresh ∧
          g.readinessSummary = some summary then
        .ok { r with group := g }
      else .ok { r with group := { g with readinessSummary := some summary } }

/-- `ReportReadiness`: the answer carries the room's counts, not its members. -/
def reportReadiness (env : Env) (now : ℤ) (viewer : Viewer) (req : ReadinessRequest) (r : Room) :
    Except Fault Answer × Room :=
  if !req.valid then (.error .invalidRequest, r)
  else
    r.mutateGroup env now viewer false (applyReadiness now req) fun _ r =>
      .readiness r.group.state r.group.revision r.group.playbackRevision
        (r.group.readinessSummary.getD (r.summary now))

/-! ## The host's authority -/

def applyEnd (expectedRevision : ℤ) (m : Member) (r : Room) : Except Fault Room :=
  if m.role ≠ .host then .error .hostRequired
  else if !parseCounter expectedRevision then .error .invalidRequest
  else if expectedRevision ≠ r.group.governanceRevision then
    .error (.revisionConflict r.group.governanceRevision)
  else .ok (r.endGroup .hostEnded)

/-- `EndGroup`. -/
def endGroup (env : Env) (now : ℤ) (viewer : Viewer) (expectedRevision : ℤ) (r : Room) :
    Except Fault Answer × Room :=
  r.mutateGroup env now viewer true (applyEnd expectedRevision) (projected env now viewer)

/-- A member leaving is routine; the host leaving ends the group. -/
def applyLeave (m : Member) (r : Room) : Except Fault Room :=
  let r := r.updateMember m.id fun m => { m with state := .left }
  if m.role = .host then .ok (r.endGroup .hostLeft)
  else if (r.members.countP fun m => m.state = .joined) = 0 then .ok (r.endGroup .empty)
  else .ok r

/-- `Leave`. -/
def leave (env : Env) (now : ℤ) (viewer : Viewer) (r : Room) : Except Fault Answer × Room :=
  r.mutateGroup env now viewer true applyLeave (projected env now viewer)

structure TransferRequest where
  memberID : MemberID
  expectedRevision : ℤ
deriving DecidableEq, Repr

/-- The group under a new host. -/
def Group.hostedBy (now : ℤ) (host : MemberID) (device : Option DeviceID) (g : Group) : Group :=
  let g :=
    { g with
      hostDevice := device
      playbackRevision := g.playbackRevision + 1
      governanceRevision := g.governanceRevision + 1
      hostMemberID := host
      hostSeenMS := now
      reconnect := g.reconnect + 1 }
  if Group.isReconnecting g.state then
    let g := { g with state := g.resumed }
    if g.state ≠ .playing then { g with positionUS := g.extrapolate now, positionUpdatedMS := now }
    else g
  else g

/-- The sitting host hands the group over, or a member claims one whose host has been gone. -/
def applyTransfer (now : ℤ) (viewer : Viewer) (device : Option DeviceID) (req : TransferRequest)
    (m : Member) (r : Room) : Except Fault Room :=
  if !parseCounter req.expectedRevision then .error .invalidRequest
  else if req.expectedRevision ≠ r.group.governanceRevision then
    .error (.revisionConflict r.group.governanceRevision)
  else if m.role ≠ .host ∧ req.memberID ≠ m.id then .error .hostRequired
  else if m.role ≠ .host ∧ !hostClaimGovernanceAllowed now r.group m then .error .hostRequired
  else
    match r.members.find? fun t => t.id = req.memberID with
    | none => .error .memberNotFound
    | some t =>
      if t.readiness ≠ .ready ∨ hostGraceSeconds * 1000 < now - t.lastSeen ∨
          readinessStaleSeconds * 1000 < now - t.readinessMS ∨
          r.group.itemID ≠ none ∧ t.readinessRevision ≠ r.group.playbackRevision then
        .error .participantIncompatible
      else if t.state ≠ .joined then .error .participantIncompatible
      else if m.role ≠ .host ∧ ¬ (req.memberID = m.id ∧ hostClaimAllowed now r.group t) then
        .error .hostRequired
      else
        .ok
          { r with
            members := r.members.map fun n =>
              if n.id = req.memberID then { n with role := .host }
              else { n with role := .member }
            group :=
              r.group.hostedBy now req.memberID (if t.viewer = viewer then device else none) }

/-- `TransferHost`. -/
def transferHost (env : Env) (now : ℤ) (viewer : Viewer) (device : Option DeviceID)
    (req : TransferRequest) (r : Room) : Except Fault Answer × Room :=
  r.mutateGroup env now viewer true (applyTransfer now viewer device req) (projected env now viewer)

/-! ## Invitations -/

structure InviteRequest where
  expiresInMs : ℤ
  maxUses : ℤ
  recipient : Option ℕ
deriving DecidableEq, Repr

/-- `CreateInvite`: only the host issues a code. The code is drawn at random, and new. -/
def createInvite (env : Env) (now : ℤ) (viewer : Viewer) (code : ℕ) (req : InviteRequest)
    (r : Room) : Except Fault Answer × Room :=
  let expiresIn := if req.expiresInMs = 0 then inviteTTLSeconds * 1000 else req.expiresInMs
  let maxUses := if req.maxUses = 0 then inviteDefaultUses else req.maxUses
  if expiresIn < 60000 ∨ inviteMaxTTLSeconds * 1000 < expiresIn ∨ maxUses < 1 ∨
      inviteMaxUses < maxUses then
    (.error .invalidRequest, r)
  else if r.group.isOver then (.error .groupEnded, r)
  else
    match r.loadMember viewer with
    | none => (.error .membershipRevoked, r)
    | some m =>
      if m.role ≠ .host ∨ m.state ≠ .joined then (.error .hostRequired, r)
      else if env.limited then (.error .rateLimited, r)
      else
        let i : Invite :=
          { id := r.nextID, code := code, recipient := req.recipient, maxUses := maxUses, uses := 0
            revoked := false, expiresMS := now + expiresIn }
        (.ok (.invite i), { r with invites := r.invites ++ [i], nextID := r.nextID + 1 })

/-- `RevokeInvite`. -/
def revokeInvite (viewer : Viewer) (id : ℕ) (r : Room) : Except Fault Answer × Room :=
  match r.loadJoinedMember viewer with
  | none => (.error .membershipRevoked, r)
  | some m =>
    if m.role ≠ .host then (.error .hostRequired, r)
    else if !(r.invites.any fun i => i.id = id) then (.error .inviteNotFound, r)
    else
      (.ok .done,
        { r with
          invites := r.invites.map fun i => if i.id = id then { i with revoked := true } else i })

namespace Room

/-- A viewer without a row becomes a member, while there is room; one with a row is back. -/
def enter (now : ℤ) (viewer : Viewer) (r : Room) : Except Fault (Member × Room) :=
  match r.loadMember viewer with
  | none =>
    if maxMembers ≤ r.members.countP fun m => m.state = .joined then .error .groupFull
    else
      let m : Member :=
        { id := r.nextID, viewer := viewer, role := .member, state := .joined
          readiness := .buffering, positionUS := 0, readinessMS := now, joinedMS := now
          seenMS := now, readinessRevision := 0 }
      .ok (m, { r with members := r.members ++ [m], nextID := r.nextID + 1 })
  | some m =>
    .ok ({ m with state := .joined, readiness := .buffering },
      r.updateMember m.id fun m =>
        { m with
          state := .joined, readiness := .buffering, readinessMS := now, seenMS := now
          readinessRevision := 0 })

def useInvite (id : ℕ) (r : Room) : Room :=
  { r with invites := r.invites.map fun i => if i.id = id then { i with uses := i.uses + 1 } else i }

end Room

/-- `Join`: a code is redeemed by the profile it is bound to, while it is good and the group lasts.
The group isn't swept. -/
def join (env : Env) (now : ℤ) (viewer : Viewer) (code : ℕ) (r : Room) :
    Except Fault Answer × Room :=
  if env.limited then (.error .rateLimited, r)
  else
    match r.invites.find? fun i => i.code = code with
    | none => (.error .inviteNotFound, r)
    | some i =>
      if i.recipient ≠ none ∧ i.recipient ≠ some viewer.profile then
        (.error .inviteWrongRecipient, r)
      else if i.revoked then (.error .inviteRevoked, r)
      else if i.expiresMS ≤ now then (.error .inviteExpired, r)
      else if i.maxUses ≤ i.uses then (.error .inviteConsumed, r)
      else if r.group.isOver then (.error .groupEnded, r)
      else
        match r.enter now viewer with
        | .error fault => (.error fault, r)
        | .ok (m, s) =>
          let s := (s.useInvite i.id).save true
          (.ok (.group (s.group.project env now viewer m)), s)

/-! ## Reads and the sweep -/

/-- `ReadGroup`: what a member sees, computed and not written. -/
def readGroup (env : Env) (now : ℤ) (viewer : Viewer) (r : Room) : Except Fault Projection :=
  match r.loadJoinedMember viewer with
  | none => .error .membershipRevoked
  | some m => .ok ((r.group.settled now).project env now viewer m)

/-- What `Sweep` does to a group it looks at. Which groups it looks at was decided on an earlier
read. -/
def sweep (now : ℤ) (r : Room) : Room :=
  let (changed, s) := r.sweepGroup now
  if changed then s.save true else r

/-! ## Runs -/

/-- A request, or a tick of the sweeper. -/
inductive Action
  | transport (viewer : Viewer) (req : TransportRequest)
  | settings (viewer : Viewer) (req : SettingsRequest)
  | queue (viewer : Viewer) (req : QueueRequest)
  | heartbeat (viewer : Viewer) (device : Option DeviceID)
  | readiness (viewer : Viewer) (req : ReadinessRequest)
  | endGroup (viewer : Viewer) (expectedRevision : ℤ)
  | leave (viewer : Viewer)
  | transfer (viewer : Viewer) (device : Option DeviceID) (req : TransferRequest)
  | createInvite (viewer : Viewer) (code : ℕ) (req : InviteRequest)
  | revokeInvite (viewer : Viewer) (id : ℕ)
  | join (viewer : Viewer) (code : ℕ)
  | sweep

/-- What an action is answered, and the room after. -/
def serve (env : Env) (now : ℤ) (r : Room) : Action → Except Fault Answer × Room
  | .transport viewer req => WatchTogether.transport env now viewer req r
  | .settings viewer req => updateSettings env now viewer req r
  | .queue viewer req => mutateQueue env now viewer req r
  | .heartbeat viewer device => WatchTogether.heartbeat env now viewer device r
  | .readiness viewer req => reportReadiness env now viewer req r
  | .endGroup viewer expectedRevision => WatchTogether.endGroup env now viewer expectedRevision r
  | .leave viewer => WatchTogether.leave env now viewer r
  | .transfer viewer device req => transferHost env now viewer device req r
  | .createInvite viewer code req => WatchTogether.createInvite env now viewer code req r
  | .revokeInvite viewer id => WatchTogether.revokeInvite viewer id r
  | .join viewer code => WatchTogether.join env now viewer code r
  | .sweep => (.ok .done, WatchTogether.sweep now r)

/-- An action at a time, with what the rest of the server says of it. -/
structure Event where
  env : Env
  now : ℤ
  action : Action

/-- A request is served. A code is new when it is issued. -/
def act (r : Room) (e : Event) : Option Room :=
  match e.action with
  | .createInvite _ code _ =>
    if (r.invites.any fun i => i.code = code) then none else some (serve e.env e.now r e.action).2
  | _ => some (serve e.env e.now r e.action).2

/-- A room and the time of its last event. -/
structure Clocked where
  clock : ℤ
  room : Room

/-- A request is served at a clock that doesn't run back. -/
def step (s : Clocked) (e : Event) : Option Clocked :=
  if e.now < s.clock then none else (act s.room e).map fun r => ⟨e.now, r⟩

end Portico.WatchTogether
