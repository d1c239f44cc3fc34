import Portico.Lib.Table
import Portico.Lib.Machine

/-!
# Cast: paired receivers and their tokens

A paired screen holds a token that reconnects it. Every reconnect issues another token and another
session; the token that was used stays good for a while, for a screen that never got the answer. Tokens
are numbers, and so are their digests.

## Main definitions

* `issueCast`: a token and a session for a device, by pairing or by reconnecting
* `castReconnect`: what a presented token is answered
* `revokeCastDevice`: a pairing is undone
* `step`: the requests of anyone, one after the other

## Main results

* `issueCast_eq`: what an issue leaves
-/

namespace Portico.Cast

structure Viewer where
  authority : String
  account : String
  profile : String
deriving DecidableEq, Repr

inductive DeviceState
  | pending
  | active
  | stopped
  | expired
  | revoked
deriving DecidableEq, Repr

/-- A token that was issued, and the one that was used for it, if it wasn't a pairing. -/
structure Issue where
  token : ℕ
  issuedAt : ℤ
  used : Option ℕ
deriving DecidableEq, Repr

/-- A row of paired devices. Every token that it was given is remembered, the newest first; no statement
reads them. -/
structure CastDevice where
  id : ℕ
  token : ℕ
  previousToken : Option ℕ
  previousValidUntil : ℤ
  viewer : Viewer
  deviceID : String
  generation : ℕ
  state : DeviceState
  expiresAt : ℤ
  sessionFamily : Option ℕ
  issued : List Issue
deriving DecidableEq, Repr

/-- A session family, and the device that it was issued for. -/
structure Family where
  id : ℕ
  device : ℕ
  revoked : Bool
deriving DecidableEq, Repr

structure Store where
  devices : List CastDevice := []
  families : List Family := []
  nextID : ℕ := 0
deriving DecidableEq, Repr

def castSessionTTLSeconds : ℤ := 86400
def castRecoveryWindow : ℤ := 120000

/-- What the identity service says: whether a family may be renewed from, and whether a session is
issued. -/
structure Env where
  parent : ℕ → Bool
  issues : Bool

inductive Fault
  | unauthorized
  | accessEnded
  | notFound
  | revoked
  | expired
  | invalid
  | conflict
deriving DecidableEq, Repr

/-- What a row is issued with. -/
structure Rotation where
  previous : Option ℕ
  previousUntil : ℤ

inductive Semantics
  /-- A pairing, derived from the family that asked for the code. -/
  | initial (pairingFamily : Option ℕ)
  | rotation
deriving DecidableEq, Repr

def CastDevice.key (d : CastDevice) : Viewer × String := (d.viewer, d.deviceID)

/-- End a family; none is no family. -/
def retireFamily (family : Option ℕ) (l : List Family) : List Family :=
  updateWhere (fun f => some f.id == family) (fun f => { f with revoked := true }) l

/-- A row that is issued another token. -/
def CastDevice.reissue (now : ℤ) (value : ℕ) (r : Rotation) (family : ℕ) (d : CastDevice) :
    CastDevice :=
  { d with
    token := value
    previousToken := r.previous
    previousValidUntil := r.previousUntil
    generation := d.generation + 1
    state := .active
    expiresAt := now + castSessionTTLSeconds * 1000
    sessionFamily := some family
    issued := ⟨value, now, r.previous⟩ :: d.issued }

/-- **Issue** a token and a session, and retire the session that the device held before. -/
def issueCast (env : Env) (now : ℤ) (viewer : Viewer) (deviceID : String) (r : Rotation)
    (semantics : Semantics) (s : Store) : Except Fault (ℕ × Store) :=
  let value := s.nextID
  let family := s.nextID + 1
  let row := rowOf CastDevice.key (viewer, deviceID) s.devices
  let priorFamily := row.bind CastDevice.sessionFamily
  let rotates : Except Fault Unit :=
    if semantics = .rotation then
      match priorFamily with
      | none => .error .unauthorized
      | some prior => if env.parent prior then .ok () else .error .accessEnded
    else .ok ()
  let derivedFrom := match semantics with
    | .initial pairingFamily => pairingFamily
    | .rotation => priorFamily
  match rotates with
  | .error f => .error f
  | .ok () =>
    if derivedFrom = none then .error .unauthorized
    else if !env.issues then .error .accessEnded
    else match row with
      | none =>
        let device : CastDevice :=
          { id := s.nextID + 2, token := value, previousToken := none, previousValidUntil := 0
            viewer := viewer, deviceID := deviceID, generation := 1, state := .active
            expiresAt := now + castSessionTTLSeconds * 1000, sessionFamily := some family
            issued := [⟨value, now, none⟩] }
        .ok (value, { s with
          devices := s.devices ++ [device]
          families := s.families ++ [⟨family, device.id, false⟩]
          nextID := s.nextID + 3 })
      | some d =>
        .ok (value, { s with
          devices := updateWhere (fun x => x.id == d.id) (CastDevice.reissue now value r family) s.devices
          families := retireFamily priorFamily (s.families ++ [⟨family, d.id, false⟩])
          nextID := s.nextID + 3 })

/-- The row of a presented token, and whether it is the token that a reconnect replaced. -/
def lookup (now : ℤ) (token : ℕ) (deviceID : Option String) (s : Store) :
    Option (CastDevice × Bool) :=
  match rowOf CastDevice.token token s.devices with
  | some d => some (d, false)
  | none => deviceID.bind fun deviceID =>
    (s.devices.find? fun d => d.previousToken == some token && decide (now < d.previousValidUntil) &&
      d.deviceID == deviceID).map (·, true)

/-- The row that a presented token reconnects, or why it doesn't. -/
def accepted (now : ℤ) (token : ℕ) (deviceID : Option String) (s : Store) :
    Except Fault (CastDevice × Bool) :=
  match lookup now token deviceID s with
  | none => .error .notFound
  | some (d, recovering) =>
    if d.state = .revoked || d.state = .stopped then .error .revoked
    else if d.state ≠ .active || d.expiresAt ≤ now then .error .expired
    else .ok (d, recovering)

/-- **Reconnect.** The deadline of a token that was replaced is not moved. -/
def castReconnect (env : Env) (now : ℤ) (token : ℕ) (deviceID : Option String) (s : Store) :
    Except Fault (ℕ × Store) :=
  match accepted now token deviceID s with
  | .error f => .error f
  | .ok (d, recovering) =>
    let until' := if recovering then d.previousValidUntil else now + castRecoveryWindow
    issueCast env now d.viewer d.deviceID ⟨some token, until'⟩ .rotation s

/-- A caller: the profile it acts for, and the family of a paired screen. -/
structure Principal where
  viewer : Viewer
  castTarget : Option ℕ

/-- **Revoke** a pairing. A screen may undo its own and no other, at the generation that it names. -/
def revokeCastDevice (p : Principal) (id : ℕ) (expectedGeneration : Option ℕ) (s : Store) :
    Except Fault Store :=
  match s.devices.find? fun d => d.id == id && d.viewer == p.viewer with
  | none => .error .notFound
  | some d =>
    if p.castTarget ≠ none && p.castTarget ≠ d.sessionFamily then .error .notFound
    else if p.castTarget ≠ none && expectedGeneration = none then .error .invalid
    else if expectedGeneration.any (· ≠ d.generation) then .error .conflict
    else .ok { s with
      devices := updateWhere (fun x => x.id == id) (fun x => { x with
        state := .revoked, previousToken := none, previousValidUntil := 0, sessionFamily := none })
        s.devices
      families := retireFamily d.sessionFamily s.families }

/-- A refused device that is expired is marked so. -/
def markExpired (id : ℕ) (s : Store) : Store :=
  let active := fun x : CastDevice => x.id == id && x.state == .active
  { s with devices := updateWhere active (fun x => { x with state := .expired }) s.devices }

/-- After a restore every pairing is revoked. -/
def restored (s : Store) : Store :=
  let paired := fun x : CastDevice => x.state == .pending || x.state == .active
  { s with devices := updateWhere paired (fun x => { x with state := .revoked }) s.devices }

/-! ## Runs -/

structure System where
  store : Store := {}
  clock : ℤ := 0
deriving DecidableEq, Repr

/-- What may happen: an offer that stands is redeemed, a token is presented, a pairing is revoked, a
refusal marks a device, a backup is restored, or a family ends for another reason. -/
inductive Event
  | redeem (env : Env) (viewer : Viewer) (deviceID : String) (pairingFamily : Option ℕ)
  | reconnect (env : Env) (token : ℕ) (deviceID : Option String)
  | revoke (p : Principal) (id : ℕ) (expectedGeneration : Option ℕ)
  | mark (id : ℕ)
  | restore
  | signOut (family : ℕ)

def Event.apply (now : ℤ) (s : Store) : Event → Option Store
  | .redeem env viewer deviceID pairingFamily =>
    (issueCast env now viewer deviceID ⟨none, 0⟩ (.initial pairingFamily) s).toOption.map Prod.snd
  | .reconnect env token deviceID => (castReconnect env now token deviceID s).toOption.map Prod.snd
  | .revoke p id expectedGeneration => (revokeCastDevice p id expectedGeneration s).toOption
  | .mark id => some (markExpired id s)
  | .restore => some (restored s)
  | .signOut family => some { s with families := retireFamily (some family) s.families }

/-- An event at its time; the clock doesn't go back. A refused request is no event. -/
def step (s : System) (e : ℤ × Event) : Option System :=
  if e.1 < s.clock then none else (e.2.apply e.1 s.store).map (⟨·, e.1⟩)

variable {env : Env} {now : ℤ} {viewer : Viewer} {deviceID : String} {r : Rotation}
  {semantics : Semantics} {s s' : Store} {token value : ℕ} {d : CastDevice}

/-- **What an issue leaves**: a new row, or the row with the new token. -/
theorem issueCast_eq (h : issueCast env now viewer deviceID r semantics s = .ok (value, s')) :
    value = s.nextID ∧ s'.nextID = s.nextID + 3 ∧
      ((rowOf CastDevice.key (viewer, deviceID) s.devices = none ∧ semantics ≠ .rotation ∧
          ∃ device : CastDevice, device.id = s.nextID + 2 ∧ device.token = s.nextID ∧
            device.previousToken = none ∧ device.key = (viewer, deviceID) ∧
            device.previousValidUntil = 0 ∧
            device.sessionFamily = some (s.nextID + 1) ∧ device.issued = [⟨s.nextID, now, none⟩] ∧
            s'.devices = s.devices ++ [device] ∧
            s'.families = s.families ++ [⟨s.nextID + 1, s.nextID + 2, false⟩]) ∨
        ∃ d, rowOf CastDevice.key (viewer, deviceID) s.devices = some d ∧
          s'.devices = updateWhere (fun x => x.id == d.id)
            (CastDevice.reissue now s.nextID r (s.nextID + 1)) s.devices ∧
          s'.families = retireFamily d.sessionFamily (s.families ++ [⟨s.nextID + 1, d.id, false⟩])) := by
  unfold issueCast at h
  simp only at h
  split at h
  · cases h
  · rename_i hrotates
    split_ifs at h with hderived hissues
    cases hrow : rowOf CastDevice.key (viewer, deviceID) s.devices with
    | none =>
      rw [hrow] at h hrotates
      obtain ⟨rfl, rfl⟩ := Prod.mk.inj (Except.ok.inj h)
      refine ⟨rfl, rfl, .inl ⟨rfl, ?_, _, rfl, rfl, rfl, rfl, rfl, rfl, rfl, rfl, rfl⟩⟩
      rintro rfl
      simp at hrotates
    | some d =>
      rw [hrow] at h
      obtain ⟨rfl, rfl⟩ := Prod.mk.inj (Except.ok.inj h)
      exact ⟨rfl, rfl, .inr ⟨d, rfl, rfl, rfl⟩⟩

end Portico.Cast
