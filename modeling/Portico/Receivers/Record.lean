import Portico.Lib.Table
import Portico.WatchTogether.Record

/-!
# Receivers, grants and handoffs

The stored rows of remote playback: a receiver that registers its key and what it can do, the grants
by which it lets a controller use it, and the handoffs that move a session to it. Sessions are those
of playback, which ends one for a handoff. Times are in milliseconds and positions in microseconds.

## Main definitions

* `Receiver`, `Grant`, `Handoff`, `Session`, `Store`: the rows
* `readReceiver`, `readGrant`, `scanOneHandoff`, `sessionTx`: rows as a viewer reads them
* `settledHandoff`: the expiry of a handoff
-/

namespace Portico.Receivers

open WatchTogether (Viewer DeviceID ItemID)

abbrev ReceiverID := ℕ
abbrev GrantID := ℕ
abbrev HandoffID := ℕ
abbrev SessionID := ℕ
abbrev RequestID := ℕ
abbrev Fingerprint := ℕ

/-! ## Bounds -/

def grantTTLSeconds : ℤ := 900
def handoffTTLSeconds : ℤ := 120
def maxReceivers : ℕ := 16

/-! ## Commands -/

/-- The receiver command set, in the order of its names. -/
inductive Command
  | load
  | pause
  | play
  | seek
  | stop
deriving DecidableEq, Repr

def commandVocabulary : List (String × Command) :=
  [("load", .load), ("pause", .pause), ("play", .play), ("seek", .seek), ("stop", .stop)]

/-- The commands named by a request, in order and without repetition; `load` is one of them. -/
def normalizeCommands (names : List String) : Option (List Command) :=
  if names.all (fun name => (commandVocabulary.lookup name).isSome) && names.contains "load" then
    some ((commandVocabulary.filter fun c => names.contains c.1).map Prod.snd)
  else none

/-- The commands of a request that names none. -/
def defaultCommands : List String := ["load", "play", "pause", "seek", "stop"]

def intersectCommands (a b : List Command) : List Command := a.filter fun c => c ∈ b

/-! ## Rows -/

inductive Policy
  | perDevice
  | alwaysAsk
  | everyone
deriving DecidableEq, Repr

/-- A viewer's request, and the device it comes from. -/
structure Principal where
  viewer : Viewer
  deviceID : Option DeviceID
deriving DecidableEq, Repr

structure Receiver where
  id : ReceiverID
  viewer : Viewer
  deviceID : DeviceID
  keyFingerprint : Fingerprint
  supportedCommands : List Command
  grantPolicy : Policy
  authorizationRevision : ℤ
  active : Bool
deriving DecidableEq, Repr

inductive GrantState
  | pending
  | accepted
  | declined
  | revoked
  | expired
deriving DecidableEq, Repr

structure Grant where
  id : GrantID
  receiverID : ReceiverID
  controllerDeviceID : DeviceID
  viewer : Viewer
  keyFingerprint : Fingerprint
  allowedCommands : List Command
  authorizationRevision : ℤ
  state : GrantState
  expiresMS : ℤ
  decidedMS : Option ℤ
deriving DecidableEq, Repr

inductive HandoffState
  | prepared
  | committing
  | committed
  | rolledBack
  | expired
  | failed
deriving DecidableEq, Repr

inductive Outcome
  | waiting
  | pending
  | accepted
  | rejected
deriving DecidableEq, Repr

/-- Why a handoff was settled: `said` is what the controller gave. -/
inductive Reason
  | none
  | handoffTimeout
  | receiverKeyRotated
  | grantRevoked
  | sourceMissing
  | sourceChanged
  | sourceTerminal
  | said (text : String)
deriving DecidableEq, Repr

structure HandoffRequest where
  requestID : RequestID
  receiverID : ReceiverID
  grantID : GrantID
  sourcePlaybackID : SessionID
  startPositionUS : Option ℤ
  expectedRevision : Option ℤ
deriving DecidableEq, Repr

/-- A handoff, with the request that its digest stands for. -/
structure Handoff where
  id : HandoffID
  viewer : Viewer
  request : HandoffRequest
  receiverID : ReceiverID
  grantID : GrantID
  sourcePlaybackID : SessionID
  itemID : ItemID
  receiverPlaybackID : Option SessionID
  state : HandoffState
  outcome : Outcome
  reason : Reason
  requestedUS : ℤ
  readyUS : ℤ
  committedUS : ℤ
  revision : ℤ
  expiresMS : ℤ
  settledMS : Option ℤ
deriving DecidableEq, Repr

inductive PlaybackState
  | preparing
  | ready
  | playing
  | paused
deriving DecidableEq, Repr

/-- What remote playback reads of a session: `ended` is for good. -/
structure Session where
  id : SessionID
  viewer : Viewer
  itemID : ItemID
  deviceID : DeviceID
  state : PlaybackState
  ended : Bool
  leaseMS : ℤ
  revision : ℤ
  positionUS : ℤ
deriving DecidableEq, Repr

structure Store where
  receivers : List Receiver := []
  grants : List Grant := []
  handoffs : List Handoff := []
  sessions : List Session := []
  nextID : ℕ := 0
deriving DecidableEq, Repr

/-- What a request finds around it: playback is there, its viewer is over a limit, and the items that
the viewer's restrictions let it see. -/
structure Env where
  playback : Bool
  limited : Bool
  visible : ItemID → Bool

/-! ## Refusals -/

inductive Fault
  | invalidRequest
  | notFound
  | capacityReached
  | rateLimited
  | targetUnavailable
  | receiverKeyMismatch
  | participantIncompatible
  | receiverRequired
  | grantNotPending
  | grantNotAccepted
  | playbackAuthorityUnavailable
  | restricted
  | idempotencyKeyReused
  | handoffSourceConflict
  | handoffSourceRevisionConflict (current : ℤ)
  | handoffInProgress
  | handoffExpired (reason : Reason)
  | handoffStateConflict (state : HandoffState) (outcome : Outcome) (reason : Reason)
  | handoffNotReady
  | handoffSourceFailed (id : HandoffID) (reason : Reason)
  | revisionConflict (current : ℤ)
deriving DecidableEq, Repr

/-! ## Reading rows -/

variable {s : Store} {now : ℤ}

/-- A receiver of the viewer. -/
def readReceiver (viewer : Viewer) (id : ReceiverID) (s : Store) : Except Fault Receiver :=
  match rowOf Receiver.id id s.receivers with
  | none => .error .notFound
  | some r => if r.viewer ≠ viewer then .error .notFound else .ok r

/-- An accepted grant past its deadline reads as expired. -/
def Grant.read (now : ℤ) (g : Grant) : Grant :=
  if g.state = .accepted ∧ g.expiresMS ≤ now then { g with state := .expired } else g

/-- A grant of the viewer. -/
def readGrant (now : ℤ) (viewer : Viewer) (id : GrantID) (s : Store) : Except Fault Grant :=
  match rowOf Grant.id id s.grants with
  | none => .error .notFound
  | some g => if g.viewer ≠ viewer then .error .notFound else .ok (g.read now)

/-- A handoff that isn't settled. -/
def Handoff.isOpen (h : Handoff) : Bool := h.state = .prepared || h.state = .committing

/-- The expiry decision without the write: an open handoff past its deadline is expired. -/
def settledHandoff (now : ℤ) (h : Handoff) : Handoff :=
  if h.isOpen ∧ h.expiresMS ≤ now then
    { h with
      state := .expired, outcome := .rejected, reason := .handoffTimeout
      revision := h.revision + 1, settledMS := some now }
  else h

/-- A handoff of the viewer, without deciding anything about it. -/
def scanOneHandoff (viewer : Viewer) (id : HandoffID) (s : Store) : Except Fault Handoff :=
  match rowOf Handoff.id id s.handoffs with
  | none => .error .notFound
  | some h => if h.viewer ≠ viewer then .error .notFound else .ok h

/-- The status poll. -/
def readHandoff (now : ℤ) (viewer : Viewer) (id : HandoffID) (s : Store) : Except Fault Handoff :=
  (scanOneHandoff viewer id s).map (settledHandoff now)

/-- A session is live until it ends or its lease does. -/
def Session.live (now : ℤ) (x : Session) : Bool := !x.ended && decide (now < x.leaseMS)

/-- A session of the viewer: none, or one that a restriction of the viewer hides. -/
def sessionTx (env : Env) (viewer : Viewer) (id : SessionID) (s : Store) :
    Except Fault (Option Session) :=
  match rowOf Session.id id s.sessions with
  | none => .ok none
  | some x =>
    if x.viewer ≠ viewer then .ok none
    else if env.visible x.itemID = false then .error .restricted
    else .ok (some x)

@[simp] theorem id_read (g : Grant) : (g.read now).id = g.id := by
  unfold Grant.read
  split_ifs <;> rfl

theorem read_eq (g : Grant) : g.read now = { g with state := (g.read now).state } := by
  unfold Grant.read
  split_ifs <;> rfl

/-- A grant reads as accepted while it is accepted and not past its deadline. -/
theorem read_accepted {g : Grant} :
    (g.read now).state = .accepted ↔ g.state = .accepted ∧ now < g.expiresMS := by
  unfold Grant.read
  split_ifs with h
  · simp only [false_iff, not_and, not_lt]
    exact fun _ => h.2
  · constructor
    · intro hstate
      exact ⟨hstate, not_le.mp fun hle => h ⟨hstate, hle⟩⟩
    · exact fun hstate => hstate.1

theorem read_pending {g : Grant} : (g.read now).state = .pending ↔ g.state = .pending := by
  unfold Grant.read
  split_ifs with h
  · simp [h.1]
  · rfl

theorem readReceiver_ok {viewer : Viewer} {id : ReceiverID} {r : Receiver} :
    readReceiver viewer id s = .ok r ↔ rowOf Receiver.id id s.receivers = some r ∧ r.viewer = viewer := by
  unfold readReceiver
  cases rowOf Receiver.id id s.receivers with
  | none => simp
  | some r' =>
    dsimp only
    split_ifs with h
    · simp only [Option.some.injEq, false_iff, not_and]
      rintro rfl
      exact h
    · simp only [Except.ok.injEq, Option.some.injEq]
      constructor
      · rintro rfl
        exact ⟨rfl, not_not.mp h⟩
      · exact fun hr => hr.1

theorem readGrant_ok {viewer : Viewer} {id : GrantID} {g : Grant} :
    readGrant now viewer id s = .ok g ↔
      ∃ g', rowOf Grant.id id s.grants = some g' ∧ g'.viewer = viewer ∧ g = g'.read now := by
  unfold readGrant
  cases rowOf Grant.id id s.grants with
  | none => simp
  | some g' =>
    dsimp only
    split_ifs with h
    · simp [h]
    · simp only [Except.ok.injEq, Option.some.injEq]
      constructor
      · rintro rfl
        exact ⟨g', rfl, not_not.mp h, rfl⟩
      · rintro ⟨_, rfl, -, rfl⟩
        rfl

theorem scanOneHandoff_ok {viewer : Viewer} {id : HandoffID} {h : Handoff} :
    scanOneHandoff viewer id s = .ok h ↔
      rowOf Handoff.id id s.handoffs = some h ∧ h.viewer = viewer := by
  unfold scanOneHandoff
  cases rowOf Handoff.id id s.handoffs with
  | none => simp
  | some h' =>
    dsimp only
    split_ifs with hv
    · simp only [Option.some.injEq, false_iff, not_and]
      rintro rfl
      exact hv
    · simp only [Except.ok.injEq, Option.some.injEq]
      constructor
      · rintro rfl
        exact ⟨rfl, not_not.mp hv⟩
      · exact fun hr => hr.1

theorem sessionTx_ok {env : Env} {viewer : Viewer} {id : SessionID} {x : Session} :
    sessionTx env viewer id s = .ok (some x) ↔
      rowOf Session.id id s.sessions = some x ∧ x.viewer = viewer ∧ env.visible x.itemID = true := by
  unfold sessionTx
  cases rowOf Session.id id s.sessions with
  | none => simp
  | some x' =>
    dsimp only
    split_ifs with hviewer hvisible
    · simp only [Except.ok.injEq, reduceCtorEq, Option.some.injEq, false_iff, not_and]
      rintro rfl h
      exact absurd h hviewer
    · simp only [Option.some.injEq, false_iff, not_and]
      rintro rfl -
      simp [hvisible]
    · simp only [Except.ok.injEq, Option.some.injEq]
      constructor
      · rintro rfl
        exact ⟨rfl, not_not.mp hviewer, by simpa using hvisible⟩
      · exact fun h => h.1

end Portico.Receivers
