import Portico.Lib.Outcome
import Portico.Receivers.Record

/-!
# The requests of remote playback

What each request reads, refuses and writes. A refused request leaves the store as it was, apart from
a commit that finds its source gone, which records the failure first.

## Main definitions

* `registerReceiver`, `retireReceiver`: the receiver
* `requestGrant`, `decideGrant`: the controller asks, and the receiver decides
* `prepareHandoff`, `reportHandoffReadiness`, `commitHandoff`, `rollbackHandoff`: a handoff
* `Action`, `serve`: a request, and what is answered and stored
-/

namespace Portico.Receivers

open WatchTogether (Viewer DeviceID ItemID)

/-- What a request answers. -/
inductive Answer
  | receiver (r : Receiver)
  | grant (g : Grant)
  | handoff (h : Handoff)
  | done
deriving DecidableEq, Repr

/-- A request that wasn't refused: its answer, and what it stored. `failed` is a refusal that was
stored first. -/
inductive Result
  | ok (answer : Answer) (s : Store)
  | failed (fault : Fault) (s : Store)

/-! ## Receivers -/

structure ReceiverRequest where
  deviceID : DeviceID
  keyFingerprint : Fingerprint
  supportedCommands : List String
  grantPolicy : Option Policy

/-- The open grants of a receiver are revoked. -/
def Store.revokeGrants (now : ℤ) (id : ReceiverID) (s : Store) : Store :=
  { s with
    grants := updateWhere (fun g => g.receiverID = id && (g.state = .pending || g.state = .accepted))
      (fun g => { g with state := .revoked, decidedMS := some now }) s.grants }

/-- A handoff that failed. -/
def Handoff.fail (now : ℤ) (reason : Reason) (h : Handoff) : Handoff :=
  { h with
    state := .failed, outcome := .rejected, reason := reason, revision := h.revision + 1
    settledMS := some now }

/-- The open handoffs that meet a condition fail. -/
def Store.failHandoffs (now : ℤ) (p : Handoff → Bool) (reason : Reason) (s : Store) : Store :=
  { s with handoffs := updateWhere (fun h => p h && h.isOpen) (Handoff.fail now reason) s.handoffs }

/-- A receiver with the registered facts. -/
def ReceiverRequest.apply (req : ReceiverRequest) (commands : List Command) (revision : ℤ)
    (r : Receiver) : Receiver :=
  { r with
    keyFingerprint := req.keyFingerprint, supportedCommands := commands
    grantPolicy := req.grantPolicy.getD .perDevice, authorizationRevision := revision
    active := true }

/-- Another key than the one that is registered revokes what was granted against that one. -/
def Store.rotate (now : ℤ) (id : ReceiverID) (s : Store) : Store :=
  (s.revokeGrants now id).failHandoffs now (fun h => h.receiverID = id) .receiverKeyRotated

/-- The receiver of the viewer's device. -/
def Store.receiverOf (viewer : Viewer) (device : DeviceID) (s : Store) : Option Receiver :=
  s.receivers.find? fun r => r.viewer = viewer && r.deviceID = device

def registerReceiver (env : Env) (now : ℤ) (viewer : Viewer) (req : ReceiverRequest) (s : Store) :
    Except Fault Result := do
  let commands ← (normalizeCommands (if req.supportedCommands = [] then defaultCommands
    else req.supportedCommands)).elim (.error .invalidRequest) .ok
  if maxReceivers ≤ (s.receivers.countP fun r =>
      r.viewer = viewer && r.active && r.deviceID ≠ req.deviceID) then .error .capacityReached
  else match s.receiverOf viewer req.deviceID with
  | none =>
    if env.limited then .error .rateLimited
    else
      let r : Receiver := ⟨s.nextID, viewer, req.deviceID, req.keyFingerprint, commands,
        req.grantPolicy.getD .perDevice, 1, true⟩
      .ok (.ok (.receiver r) { s with receivers := s.receivers ++ [r], nextID := s.nextID + 1 })
  | some r =>
    let rotated := r.keyFingerprint ≠ req.keyFingerprint
    let revision := if rotated then r.authorizationRevision + 1 else r.authorizationRevision
    let s := if rotated then s.rotate now r.id else s
    .ok (.ok (.receiver (req.apply commands revision r))
      { s with
        receivers := updateWhere (fun r' => r'.id = r.id) (req.apply commands revision)
          s.receivers })

/-- Remove a receiver from the directory, and revoke its grants. -/
def retireReceiver (now : ℤ) (viewer : Viewer) (id : ReceiverID) (s : Store) :
    Except Fault Result := do
  let _ ← readReceiver viewer id s
  let s := s.revokeGrants now id
  .ok (.ok .done
    { s with
      receivers := updateWhere (fun r => r.id = id) (fun r => { r with active := false })
        s.receivers })

/-! ## Grants -/

structure GrantRequest where
  receiverID : ReceiverID
  controllerDeviceID : DeviceID
  requestedCommands : List String
  keyFingerprint : Option Fingerprint

def decisionStamp (state : GrantState) (now : ℤ) : Option ℤ :=
  if state = .pending then none else some now

/-- The grant of a controller. -/
def Store.grantOf (id : ReceiverID) (controller : DeviceID) (s : Store) : Option Grant :=
  s.grants.find? fun g => g.receiverID = id && g.controllerDeviceID = controller

/-- The state of a grant that is asked for again: a receiver that is open accepts, and one that
accepts once per device renews an accepted grant before its deadline. -/
def Grant.renewed (policy : Policy) (now : ℤ) (g : Grant) : GrantState :=
  match policy with
  | .everyone => .accepted
  | .perDevice => if g.state = .accepted ∧ now < g.expiresMS then .accepted else .pending
  | .alwaysAsk => .pending

/-- The grant with what was asked for now. -/
def Grant.reissue (now : ℤ) (r : Receiver) (allowed : List Command) (state : GrantState) (g : Grant) :
    Grant :=
  { g with
    keyFingerprint := r.keyFingerprint, allowedCommands := allowed
    authorizationRevision := r.authorizationRevision, state := state
    expiresMS := now + grantTTLSeconds * 1000, decidedMS := decisionStamp state now }

def requestGrant (now : ℤ) (viewer : Viewer) (req : GrantRequest) (s : Store) :
    Except Fault Result := do
  let requested ← (normalizeCommands (if req.requestedCommands = [] then defaultCommands
    else req.requestedCommands)).elim (.error .invalidRequest) .ok
  let r ← readReceiver viewer req.receiverID s
  if r.active = false then .error .targetUnavailable
  else if req.keyFingerprint.any (fun key => key ≠ r.keyFingerprint) then .error .receiverKeyMismatch
  else
    let allowed := intersectCommands requested r.supportedCommands
    if Command.load ∉ allowed then .error .participantIncompatible
    else match s.grantOf req.receiverID req.controllerDeviceID with
    | none =>
      let state : GrantState := if r.grantPolicy = .everyone then .accepted else .pending
      let g : Grant := ⟨s.nextID, req.receiverID, req.controllerDeviceID, viewer, r.keyFingerprint,
        allowed, r.authorizationRevision, state, now + grantTTLSeconds * 1000,
        decisionStamp state now⟩
      .ok (.ok (.grant (g.read now)) { s with grants := s.grants ++ [g], nextID := s.nextID + 1 })
    | some g =>
      let reissue := Grant.reissue now r allowed (g.renewed r.grantPolicy now)
      .ok (.ok (.grant ((reissue g).read now))
        { s with grants := updateWhere (fun g' => g'.id = g.id) reissue s.grants })

inductive Decision
  | accept
  | decline
  | revoke
deriving DecidableEq, Repr

def Decision.state : Decision → GrantState
  | .accept => .accepted
  | .decline => .declined
  | .revoke => .revoked

/-- The grant as it is decided. -/
def Decision.decided (now : ℤ) (decision : Decision) (g : Grant) : Grant :=
  { g with
    state := decision.state, decidedMS := some now, expiresMS := now + grantTTLSeconds * 1000 }

def decideGrant (now : ℤ) (p : Principal) (receiverID : ReceiverID) (grantID : GrantID)
    (decision : Decision) (s : Store) : Except Fault Result := do
  let r ← readReceiver p.viewer receiverID s
  if p.deviceID ≠ some r.deviceID then .error .receiverRequired
  else
    let g ← readGrant now p.viewer grantID s
    if g.receiverID ≠ receiverID then .error .notFound
    else if decision = .accept ∧ g.state ≠ .pending then .error .grantNotPending
    else
      let s := { s with
        grants := updateWhere (fun g => g.id = grantID) (decision.decided now) s.grants }
      .ok (.ok (.grant ((decision.decided now g).read now)) (if decision = .accept then s
        else s.failHandoffs now (fun h => h.grantID = grantID) .grantRevoked))

/-! ## Handoffs -/

/-- The write path's form of a read: it records the expiry that it finds, in the transaction that the
request is part of. -/
def loadHandoff (now : ℤ) (viewer : Viewer) (id : HandoffID) (s : Store) :
    Except Fault (Handoff × Store) := do
  let h ← scanOneHandoff viewer id s
  if (settledHandoff now h).state = h.state then .ok (h, s)
  else .ok (settledHandoff now h,
    { s with handoffs := updateWhere (fun h' => h'.id = id) (settledHandoff now) s.handoffs })

def handoffStateFault (h : Handoff) : Fault :=
  if h.state = .expired then .handoffExpired h.reason
  else .handoffStateConflict h.state h.outcome h.reason

/-- The open handoffs of a source, as they are stored. -/
def Store.openHandoffs (id : SessionID) (s : Store) : ℕ :=
  s.handoffs.countP fun h => h.sourcePlaybackID = id && h.isOpen

/-- Propose a transfer; the source isn't touched. -/
def prepareHandoff (env : Env) (now : ℤ) (viewer : Viewer) (req : HandoffRequest) (s : Store) :
    Except Fault Result := do
  if env.playback = false then .error .playbackAuthorityUnavailable
  else if env.limited then .error .rateLimited
  else match s.handoffs.find? fun h => h.viewer = viewer && h.request.requestID = req.requestID with
  | some h => if h.request ≠ req then .error .idempotencyKeyReused else .ok (.ok (.handoff h) s)
  | none =>
    let r ← readReceiver viewer req.receiverID s
    if r.active = false then .error .targetUnavailable
    else
      let g ← readGrant now viewer req.grantID s
      if g.receiverID ≠ req.receiverID then .error .notFound
      else if g.state ≠ .accepted then .error .grantNotAccepted
      else if g.keyFingerprint ≠ r.keyFingerprint then .error .receiverKeyMismatch
      else if Command.load ∉ g.allowedCommands then .error .participantIncompatible
      else match ← sessionTx env viewer req.sourcePlaybackID s with
      | none => .error .notFound
      | some source =>
        if source.live now = false then .error .handoffSourceConflict
        else if req.expectedRevision.any (fun revision => revision ≠ source.revision) then
          .error (.handoffSourceRevisionConflict source.revision)
        else if 0 < s.openHandoffs req.sourcePlaybackID then .error .handoffInProgress
        else
          let h : Handoff :=
            { id := s.nextID, viewer := viewer, request := req, receiverID := req.receiverID
              grantID := req.grantID, sourcePlaybackID := req.sourcePlaybackID
              itemID := source.itemID, receiverPlaybackID := none, state := .prepared
              outcome := .waiting, reason := .none
              requestedUS := req.startPositionUS.getD source.positionUS, readyUS := 0
              committedUS := 0, revision := 1, expiresMS := now + handoffTTLSeconds * 1000
              settledMS := none }
          .ok (.ok (.handoff h) { s with handoffs := s.handoffs ++ [h], nextID := s.nextID + 1 })

/-- Readiness describes the live session on the receiving device. -/
def checkReceiverPlayback (env : Env) (now : ℤ) (viewer : Viewer) (h : Handoff)
    (id : Option SessionID) (s : Store) : Except Fault Unit := do
  if env.playback = false then .error .playbackAuthorityUnavailable
  else
    let r ← readReceiver viewer h.receiverID s
    match ← (id.elim (.ok none) fun id => sessionTx env viewer id s) with
    | none => .error .handoffNotReady
    | some x =>
      if x.live now = false ∨ x.deviceID ≠ r.deviceID ∨ x.itemID ≠ h.itemID ∨ x.state ≠ .playing then
        .error .handoffNotReady
      else .ok ()

structure HandoffReadiness where
  receiverPlaybackID : SessionID
  positionUS : ℤ
  expectedRevision : Option ℤ

/-- The handoff whose receiver plays. -/
def HandoffReadiness.ready (req : HandoffReadiness) (h : Handoff) : Handoff :=
  { h with
    receiverPlaybackID := some req.receiverPlaybackID, readyUS := req.positionUS
    outcome := .pending, revision := h.revision + 1 }

/-- The store with one handoff changed. -/
def Store.updateHandoff (id : HandoffID) (f : Handoff → Handoff) (s : Store) : Store :=
  { s with handoffs := updateWhere (fun h => h.id = id) f s.handoffs }

/-- The receiver proves that it plays. -/
def reportHandoffReadiness (env : Env) (now : ℤ) (p : Principal) (id : HandoffID)
    (req : HandoffReadiness) (s : Store) : Except Fault Result := do
  let (h, s) ← loadHandoff now p.viewer id s
  if h.state ≠ .prepared then .error (handoffStateFault h)
  else if req.expectedRevision.any (fun revision => revision ≠ h.revision) then
    .error (.revisionConflict h.revision)
  else
    let g ← readGrant now p.viewer h.grantID s
    if g.state ≠ .accepted then .error .grantNotAccepted
    else
      let r ← readReceiver p.viewer h.receiverID s
      if p.deviceID ≠ some r.deviceID then .error .receiverRequired
      else
        let _ ← checkReceiverPlayback env now p.viewer h (some req.receiverPlaybackID) s
        .ok (.ok (.handoff (req.ready h)) (s.updateHandoff id req.ready))

/-- Record a definitive failure before the commit. -/
def failHandoff (now : ℤ) (h : Handoff) (reason : Reason) (s : Store) : Result :=
  .failed (.handoffSourceFailed h.id reason) (s.updateHandoff h.id (Handoff.fail now reason))

/-- The session is over. -/
def Store.endSession (id : SessionID) (s : Store) : Store :=
  { s with
    sessions := updateWhere (fun x => x.id = id && !x.ended)
      (fun x => { x with ended := true, revision := x.revision + 1 }) s.sessions }

/-- The handoff with its source retired. -/
def Handoff.commit (now : ℤ) (h : Handoff) : Handoff :=
  { h with
    state := .committed, outcome := .accepted, committedUS := h.readyUS
    revision := h.revision + 1, settledMS := some now }

/-- The only step that retires the source. -/
def commitHandoff (env : Env) (now : ℤ) (viewer : Viewer) (id : HandoffID) (expected : ℤ) (s : Store) :
    Except Fault Result := do
  if env.playback = false then .error .playbackAuthorityUnavailable
  else
    let (h, s) ← loadHandoff now viewer id s
    if h.state = .committed then .ok (.ok (.handoff h) s)
    else if h.state ≠ .prepared then .error (handoffStateFault h)
    else if h.outcome ≠ .pending then .error .handoffNotReady
    else if expected ≠ h.revision then .error (.revisionConflict h.revision)
    else
      let g ← readGrant now viewer h.grantID s
      if g.state ≠ .accepted then .error .grantNotAccepted
      else
        let _ ← checkReceiverPlayback env now viewer h h.receiverPlaybackID s
        match ← sessionTx env viewer h.sourcePlaybackID s with
        | none => .ok (failHandoff now h .sourceMissing s)
        | some source =>
          if source.itemID ≠ h.itemID then .ok (failHandoff now h .sourceChanged s)
          else if source.live now = false then .ok (failHandoff now h .sourceTerminal s)
          else
            .ok (.ok (.handoff (h.commit now))
              ((s.endSession h.sourcePlaybackID).updateHandoff id (Handoff.commit now)))

/-- The handoff with its target discarded. -/
def Handoff.rollBack (now : ℤ) (reason : String) (h : Handoff) : Handoff :=
  { h with
    state := .rolledBack, outcome := .rejected
    reason := .said (if reason = "" then "controller-cancelled" else reason)
    revision := h.revision + 1, settledMS := some now }

/-- Discard a prepared target. -/
def rollbackHandoff (now : ℤ) (viewer : Viewer) (id : HandoffID) (expected : Option ℤ)
    (reason : String) (s : Store) : Except Fault Result := do
  let (h, s) ← loadHandoff now viewer id s
  if h.state = .rolledBack then .ok (.ok (.handoff h) s)
  else if h.state ≠ .prepared then .error (handoffStateFault h)
  else if expected.any (fun revision => revision ≠ h.revision) then
    .error (.revisionConflict h.revision)
  else
    .ok (.ok (.handoff (h.rollBack now reason)) (s.updateHandoff id (Handoff.rollBack now reason)))

/-! ## Runs -/

inductive Action
  | register (req : ReceiverRequest)
  | retire (id : ReceiverID)
  | requestGrant (req : GrantRequest)
  | decide (receiverID : ReceiverID) (grantID : GrantID) (decision : Decision)
  | prepare (req : HandoffRequest)
  | report (id : HandoffID) (req : HandoffReadiness)
  | commit (id : HandoffID) (expected : ℤ)
  | rollback (id : HandoffID) (expected : Option ℤ) (reason : String)

def Action.run (env : Env) (now : ℤ) (p : Principal) (s : Store) : Action → Except Fault Result
  | .register req => registerReceiver env now p.viewer req s
  | .retire id => retireReceiver now p.viewer id s
  | .requestGrant req => Receivers.requestGrant now p.viewer req s
  | .decide receiverID grantID decision => decideGrant now p receiverID grantID decision s
  | .prepare req => prepareHandoff env now p.viewer req s
  | .report id req => reportHandoffReadiness env now p id req s
  | .commit id expected => commitHandoff env now p.viewer id expected s
  | .rollback id expected reason => rollbackHandoff now p.viewer id expected reason s

/-- What is answered and stored: a refused request is rolled back. -/
def serve (env : Env) (now : ℤ) (p : Principal) (a : Action) (s : Store) :
    Except Fault Answer × Store :=
  match a.run env now p s with
  | .error fault => (.error fault, s)
  | .ok (.ok answer s') => (.ok answer, s')
  | .ok (.failed fault s') => (.error fault, s')

end Portico.Receivers
