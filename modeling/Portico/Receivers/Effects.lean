import Portico.Receivers.Requests

/-!
# What the requests of remote playback do

Each request either leaves the store as it was or has one effect, with what it found when it had it.

## Main results

* `serve_effect`: a request has one of the effects
* `prepare_inProgress`: when a proposal is refused for another handoff of its source
-/

namespace Portico.Receivers

open WatchTogether (Viewer DeviceID ItemID)

variable {env : Env} {now : ℤ} {p : Principal} {viewer : Viewer} {s s' t : Store} {a : Action}
  {fault : Fault}

/-! ## The handoff that a request loads -/

/-- Loading a handoff that isn't past its deadline changes nothing; one that is reads as expired. -/
theorem loadHandoff_ok {id : HandoffID} {h : Handoff} (hload : loadHandoff now viewer id s = .ok (h, t)) :
    ∃ h₀, rowOf Handoff.id id s.handoffs = some h₀ ∧ h₀.viewer = viewer ∧
      h = settledHandoff now h₀ ∧ (h.state ≠ .expired → h = h₀ ∧ t = s) := by
  unfold loadHandoff at hload
  obtain ⟨h₀, hscan, hrest⟩ := bind_eq_ok.mp hload
  obtain ⟨hrow, hviewer⟩ := scanOneHandoff_ok.mp hscan
  refine ⟨h₀, hrow, hviewer, ?_⟩
  unfold settledHandoff at hrest ⊢
  split_ifs at hrest ⊢ with hexpired hsame
  · obtain ⟨rfl, rfl⟩ := Prod.mk.inj (Except.ok.inj hrest)
    -- an open handoff isn't expired
    exfalso
    simp only [Handoff.isOpen, ← hsame] at hexpired
    simp at hexpired
  · obtain ⟨rfl, rfl⟩ := Prod.mk.inj (Except.ok.inj hrest)
    exact ⟨rfl, fun hne => absurd rfl hne⟩
  · obtain ⟨rfl, rfl⟩ := Prod.mk.inj (Except.ok.inj hrest)
    exact ⟨rfl, fun _ => ⟨rfl, rfl⟩⟩
  · exact absurd rfl ‹_›

/-- A handoff that is loaded as prepared is prepared, and not past its deadline. -/
theorem loadHandoff_prepared {id : HandoffID} {h : Handoff}
    (hload : loadHandoff now viewer id s = .ok (h, t)) (hstate : h.state = .prepared) :
    rowOf Handoff.id id s.handoffs = some h ∧ h.viewer = viewer ∧ now < h.expiresMS ∧ t = s := by
  obtain ⟨h₀, hrow, hviewer, hsettled, hsame⟩ := loadHandoff_ok hload
  obtain ⟨rfl, rfl⟩ := hsame (by rw [hstate]; decide)
  refine ⟨hrow, hviewer, ?_, rfl⟩
  by_contra hlate
  unfold settledHandoff at hsettled
  rw [if_pos ⟨by simp [Handoff.isOpen, hstate], not_lt.mp hlate⟩] at hsettled
  rw [hsettled] at hstate
  cases hstate

theorem loadHandoff_settled {id : HandoffID} {h : Handoff}
    (hload : loadHandoff now viewer id s = .ok (h, t)) (hstate : h.state ≠ .expired) :
    rowOf Handoff.id id s.handoffs = some h ∧ t = s := by
  obtain ⟨h₀, hrow, -, -, hsame⟩ := loadHandoff_ok hload
  obtain ⟨rfl, rfl⟩ := hsame hstate
  exact ⟨hrow, rfl⟩

/-! ## Effects -/

/-- What a receiver that plays for a handoff shows. -/
structure Plays (now : ℤ) (s : Store) (h : Handoff) (id : SessionID) : Prop where
  session : ∃ r x, rowOf Receiver.id h.receiverID s.receivers = some r ∧
    rowOf Session.id id s.sessions = some x ∧ x.viewer = h.viewer ∧ x.live now = true ∧
    x.deviceID = r.deviceID ∧ x.itemID = h.itemID ∧ x.state = .playing

/-- A request comes from the receiver of a handoff. -/
def FromReceiver (p : Principal) (s : Store) (h : Handoff) : Prop :=
  ∃ r, rowOf Receiver.id h.receiverID s.receivers = some r ∧ p.deviceID = some r.deviceID

/-- The grant of a handoff reads as accepted. -/
def Granted (now : ℤ) (s : Store) (h : Handoff) : Prop :=
  ∃ g, rowOf Grant.id h.grantID s.grants = some g ∧ g.state = .accepted ∧ now < g.expiresMS

/-- The commands that a request asks for. -/
def GrantRequest.commands (req : GrantRequest) : List Command :=
  (normalizeCommands (if req.requestedCommands = [] then defaultCommands
    else req.requestedCommands)).getD []

/-- What is checked of a request for a grant of a receiver. -/
structure GrantRequest.Passes (req : GrantRequest) (r : Receiver) : Prop where
  active : r.active = true
  key : req.keyFingerprint.any (fun key => key ≠ r.keyFingerprint) = false
  load : Command.load ∈ intersectCommands req.commands r.supportedCommands

/-- The answer of a request, and its effect on the store. -/
inductive Effect (env : Env) (now : ℤ) (p : Principal) (s : Store) :
    Action → Except Fault Answer → Store → Prop
  | refused (a : Action) (fault : Fault) : Effect env now p s a (.error fault) s
  | preparedAgain (req : HandoffRequest) (h : Handoff) (hh : h ∈ s.handoffs) (hreq : h.request = req) :
      Effect env now p s (.prepare req) (.ok (.handoff h)) s
  | committedAgain (id : HandoffID) (expected : ℤ) (h : Handoff)
      (hh : rowOf Handoff.id id s.handoffs = some h) (hstate : h.state = .committed) :
      Effect env now p s (.commit id expected) (.ok (.handoff h)) s
  | rolledBackAgain (id : HandoffID) (expected : Option ℤ) (reason : String) (h : Handoff)
      (hh : rowOf Handoff.id id s.handoffs = some h) (hstate : h.state = .rolledBack) :
      Effect env now p s (.rollback id expected reason) (.ok (.handoff h)) s
  | registered (req : ReceiverRequest) (r : Receiver) (hid : r.id = s.nextID)
      (hviewer : r.viewer = p.viewer) (hdevice : r.deviceID = req.deviceID)
      (hkey : r.keyFingerprint = req.keyFingerprint)
      (hpolicy : r.grantPolicy = req.grantPolicy.getD .perDevice)
      (hnew : s.receiverOf p.viewer req.deviceID = .none) :
      Effect env now p s (.register req) (.ok (.receiver r))
        { s with receivers := s.receivers ++ [r], nextID := s.nextID + 1 }
  | reregistered (req : ReceiverRequest) (commands : List Command) (r : Receiver)
      (hr : s.receiverOf p.viewer req.deviceID = some r) (hkey : r.keyFingerprint = req.keyFingerprint) :
      Effect env now p s (.register req)
        (.ok (.receiver (req.apply commands r.authorizationRevision r)))
        { s with
          receivers := updateWhere (fun r' => r'.id = r.id)
            (req.apply commands r.authorizationRevision) s.receivers }
  | rotated (req : ReceiverRequest) (commands : List Command) (r : Receiver)
      (hr : s.receiverOf p.viewer req.deviceID = some r) (hkey : r.keyFingerprint ≠ req.keyFingerprint) :
      Effect env now p s (.register req)
        (.ok (.receiver (req.apply commands (r.authorizationRevision + 1) r)))
        { s.rotate now r.id with
          receivers := updateWhere (fun r' => r'.id = r.id)
            (req.apply commands (r.authorizationRevision + 1)) s.receivers }
  | retired (id : ReceiverID) (r : Receiver) (hr : rowOf Receiver.id id s.receivers = some r) :
      Effect env now p s (.retire id) (.ok .done)
        { s.revokeGrants now id with
          receivers := updateWhere (fun r => r.id = id) (fun r => { r with active := false })
            s.receivers }
  | asked (req : GrantRequest) (r : Receiver) (g : Grant)
      (hr : rowOf Receiver.id req.receiverID s.receivers = some r) (hviewer : r.viewer = p.viewer)
      (hpasses : req.Passes r) (hnew : s.grantOf req.receiverID req.controllerDeviceID = .none)
      (hid : g.id = s.nextID) (hreceiver : g.receiverID = req.receiverID)
      (hcontroller : g.controllerDeviceID = req.controllerDeviceID) (howner : g.viewer = p.viewer)
      (hkey : g.keyFingerprint = r.keyFingerprint)
      (hallowed : g.allowedCommands = intersectCommands req.commands r.supportedCommands)
      (hstate : g.state = if r.grantPolicy = .everyone then .accepted else .pending) :
      Effect env now p s (.requestGrant req) (.ok (.grant (g.read now)))
        { s with grants := s.grants ++ [g], nextID := s.nextID + 1 }
  | askedAgain (req : GrantRequest) (r : Receiver) (g : Grant)
      (hr : rowOf Receiver.id req.receiverID s.receivers = some r) (hviewer : r.viewer = p.viewer)
      (hpasses : req.Passes r) (hg : s.grantOf req.receiverID req.controllerDeviceID = some g) :
      Effect env now p s (.requestGrant req)
        (.ok (.grant ((Grant.reissue now r (intersectCommands req.commands r.supportedCommands)
          (g.renewed r.grantPolicy now) g).read now)))
        { s with
          grants := updateWhere (fun g' => g'.id = g.id)
            (Grant.reissue now r (intersectCommands req.commands r.supportedCommands)
              (g.renewed r.grantPolicy now)) s.grants }
  | decided (receiverID : ReceiverID) (grantID : GrantID) (decision : Decision) (r : Receiver)
      (g : Grant) (hr : rowOf Receiver.id receiverID s.receivers = some r) (hdevice : p.deviceID = some r.deviceID)
      (hg : rowOf Grant.id grantID s.grants = some g) (hreceiver : g.receiverID = receiverID)
      (hpending : decision = .accept → g.state = .pending) (s' : Store)
      (hs' : s' = { s with
        grants := updateWhere (fun g => g.id = grantID) (decision.decided now) s.grants }) :
      Effect env now p s (.decide receiverID grantID decision)
        (.ok (.grant (((decision.decided now) (g.read now)).read now)))
        (if decision = .accept then s'
          else s'.failHandoffs now (fun h => h.grantID = grantID) .grantRevoked)
  | prepared (req : HandoffRequest) (h : Handoff) (x : Session) (hid : h.id = s.nextID)
      (hviewer : h.viewer = p.viewer) (hsource : h.sourcePlaybackID = req.sourcePlaybackID)
      (hx : rowOf Session.id req.sourcePlaybackID s.sessions = some x) (howner : x.viewer = p.viewer)
      (hstate : h.state = .prepared) (houtcome : h.outcome = .waiting)
      (hnone : s.openHandoffs req.sourcePlaybackID = 0) :
      Effect env now p s (.prepare req) (.ok (.handoff h))
        { s with handoffs := s.handoffs ++ [h], nextID := s.nextID + 1 }
  | reported (id : HandoffID) (req : HandoffReadiness) (h : Handoff)
      (hh : rowOf Handoff.id id s.handoffs = some h) (hstate : h.state = .prepared)
      (hdeadline : now < h.expiresMS) (hfrom : FromReceiver p s h)
      (hplays : Plays now s h req.receiverPlaybackID) :
      Effect env now p s (.report id req) (.ok (.handoff (req.ready h)))
        (s.updateHandoff id req.ready)
  | sourceFailed (id : HandoffID) (expected : ℤ) (reason : Reason) (h : Handoff)
      (hh : rowOf Handoff.id id s.handoffs = some h) (hstate : h.state = .prepared)
      (hdeadline : now < h.expiresMS) (hfence : expected = h.revision) :
      Effect env now p s (.commit id expected) (.error (.handoffSourceFailed h.id reason))
        (s.updateHandoff id (Handoff.fail now reason))
  | committed (id : HandoffID) (expected : ℤ) (h : Handoff) (receiverPlaybackID : SessionID)
      (source : Session) (hh : rowOf Handoff.id id s.handoffs = some h) (hstate : h.state = .prepared)
      (hdeadline : now < h.expiresMS) (hready : h.outcome = .pending) (hfence : expected = h.revision)
      (hgranted : Granted now s h) (hreceiver : h.receiverPlaybackID = some receiverPlaybackID)
      (hplays : Plays now s h receiverPlaybackID)
      (hsource : rowOf Session.id h.sourcePlaybackID s.sessions = some source)
      (hlive : source.live now = true) (hitem : source.itemID = h.itemID) :
      Effect env now p s (.commit id expected) (.ok (.handoff (h.commit now)))
        ((s.endSession h.sourcePlaybackID).updateHandoff id (Handoff.commit now))
  | rolledBack (id : HandoffID) (expected : Option ℤ) (reason : String) (h : Handoff)
      (hh : rowOf Handoff.id id s.handoffs = some h) (hstate : h.state = .prepared)
      (hdeadline : now < h.expiresMS) :
      Effect env now p s (.rollback id expected reason) (.ok (.handoff (h.rollBack now reason)))
        (s.updateHandoff id (Handoff.rollBack now reason))

@[simp] theorem receivers_rotate {id : ReceiverID} : (s.rotate now id).receivers = s.receivers := rfl

/-- The store after a result. -/
def Result.store : Result → Store
  | .ok _ s => s
  | .failed _ s => s

/-- The answer of a result. -/
def Result.answer : Result → Except Fault Answer
  | .ok answer _ => .ok answer
  | .failed fault _ => .error fault

theorem elim_eq_ok {α : Type} {o : Option α} {x : α} :
    o.elim (.error fault) Except.ok = .ok x ↔ o = some x := by
  cases o <;> simp

theorem registerReceiver_effect {req : ReceiverRequest} {result : Result}
    (h : registerReceiver env now p.viewer req s = .ok result) :
    Effect env now p s (.register req) result.answer result.store := by
  unfold registerReceiver at h
  obtain ⟨commands, -, h⟩ := bind_eq_ok.mp h
  obtain ⟨-, h⟩ := guard_eq_ok.mp h
  cases hr : s.receiverOf p.viewer req.deviceID with
  | none =>
    rw [hr] at h
    obtain ⟨-, h⟩ := guard_eq_ok.mp h
    obtain rfl := Except.ok.inj h
    exact .registered req _ rfl rfl rfl rfl rfl hr
  | some r =>
    rw [hr] at h
    obtain rfl := Except.ok.inj h
    by_cases hkey : r.keyFingerprint = req.keyFingerprint
    · have heffect : Effect env now p s _ _ _ := .reregistered req commands r hr hkey
      simpa [Result.store, Result.answer, hkey] using heffect
    · have heffect : Effect env now p s _ _ _ := .rotated req commands r hr hkey
      simpa [Result.store, Result.answer, hkey] using heffect

theorem retireReceiver_effect {id : ReceiverID} {result : Result}
    (h : retireReceiver now p.viewer id s = .ok result) :
    Effect env now p s (.retire id) result.answer result.store := by
  unfold retireReceiver at h
  obtain ⟨r, hread, h⟩ := bind_eq_ok.mp h
  obtain rfl := Except.ok.inj h
  exact .retired id r (readReceiver_ok.mp hread).1

theorem commands_eq {req : GrantRequest} {commands : List Command}
    (h : normalizeCommands (if req.requestedCommands = [] then defaultCommands
      else req.requestedCommands) = some commands) : req.commands = commands := by
  unfold GrantRequest.commands
  rw [h]
  rfl

theorem requestGrant_effect {req : GrantRequest} {result : Result}
    (h : requestGrant now p.viewer req s = .ok result) :
    Effect env now p s (.requestGrant req) result.answer result.store := by
  unfold requestGrant at h
  obtain ⟨requested, hcommands, h⟩ := bind_eq_ok.mp h
  obtain rfl := commands_eq (elim_eq_ok.mp hcommands)
  obtain ⟨r, hread, h⟩ := bind_eq_ok.mp h
  obtain ⟨hr, hviewer⟩ := readReceiver_ok.mp hread
  obtain ⟨hactive, h⟩ := guard_eq_ok.mp h
  obtain ⟨hkey, h⟩ := guard_eq_ok.mp h
  obtain ⟨hload, h⟩ := guard_eq_ok.mp h
  have hpasses : req.Passes r :=
    ⟨Bool.not_eq_false _ ▸ hactive, Bool.not_eq_true _ ▸ hkey, not_not.mp hload⟩
  cases hg : s.grantOf req.receiverID req.controllerDeviceID with
  | none =>
    rw [hg] at h
    obtain rfl := Except.ok.inj h
    exact .asked req r _ hr hviewer hpasses hg rfl rfl rfl rfl rfl rfl rfl
  | some g =>
    rw [hg] at h
    obtain rfl := Except.ok.inj h
    exact .askedAgain req r g hr hviewer hpasses hg

theorem decideGrant_effect {receiverID : ReceiverID} {grantID : GrantID} {decision : Decision}
    {result : Result} (h : decideGrant now p receiverID grantID decision s = .ok result) :
    Effect env now p s (.decide receiverID grantID decision) result.answer result.store := by
  unfold decideGrant at h
  obtain ⟨r, hread, h⟩ := bind_eq_ok.mp h
  obtain ⟨hdevice, h⟩ := guard_eq_ok.mp h
  obtain ⟨g, hgrant, h⟩ := bind_eq_ok.mp h
  obtain ⟨hreceiver, h⟩ := guard_eq_ok.mp h
  obtain ⟨hpending, h⟩ := guard_eq_ok.mp h
  obtain rfl := Except.ok.inj h
  obtain ⟨g₀, hg, -, rfl⟩ := readGrant_ok.mp hgrant
  have hsame : (g₀.read now).receiverID = g₀.receiverID := by rw [read_eq]
  refine .decided receiverID grantID decision r g₀ (readReceiver_ok.mp hread).1 (not_not.mp hdevice)
    hg (hsame.symm.trans (not_not.mp hreceiver)) (fun haccept => ?_) _ rfl
  by_contra hstate
  exact hpending ⟨haccept, fun hread => hstate (read_pending.mp hread)⟩

theorem prepareHandoff_effect {req : HandoffRequest} {result : Result}
    (h : prepareHandoff env now p.viewer req s = .ok result) :
    Effect env now p s (.prepare req) result.answer result.store := by
  unfold prepareHandoff at h
  obtain ⟨-, h⟩ := guard_eq_ok.mp h
  obtain ⟨-, h⟩ := guard_eq_ok.mp h
  split at h
  · rename_i h₀ hfind
    obtain ⟨hreq, h⟩ := guard_eq_ok.mp h
    obtain rfl := Except.ok.inj h
    exact .preparedAgain req h₀ (List.mem_of_find?_eq_some hfind) (not_not.mp hreq)
  · obtain ⟨r, -, h⟩ := bind_eq_ok.mp h
    obtain ⟨-, h⟩ := guard_eq_ok.mp h
    obtain ⟨g, -, h⟩ := bind_eq_ok.mp h
    obtain ⟨-, h⟩ := guard_eq_ok.mp h
    obtain ⟨-, h⟩ := guard_eq_ok.mp h
    obtain ⟨-, h⟩ := guard_eq_ok.mp h
    obtain ⟨-, h⟩ := guard_eq_ok.mp h
    obtain ⟨source, hsource, h⟩ := bind_eq_ok.mp h
    split at h
    · cases h
    · obtain ⟨hx, howner, -⟩ := sessionTx_ok.mp hsource
      obtain ⟨-, h⟩ := guard_eq_ok.mp h
      obtain ⟨-, h⟩ := guard_eq_ok.mp h
      obtain ⟨hopen, h⟩ := guard_eq_ok.mp h
      obtain rfl := Except.ok.inj h
      exact .prepared req _ _ rfl rfl rfl hx howner rfl rfl (by omega)

theorem checkReceiverPlayback_ok {h : Handoff} {id : Option SessionID} {u : Unit}
    (hviewer : h.viewer = viewer) (hcheck : checkReceiverPlayback env now viewer h id s = .ok u) :
    ∃ x, id = some x ∧ Plays now s h x := by
  unfold checkReceiverPlayback at hcheck
  obtain ⟨-, hcheck⟩ := guard_eq_ok.mp hcheck
  obtain ⟨r, hread, hcheck⟩ := bind_eq_ok.mp hcheck
  obtain ⟨session, hsession, hcheck⟩ := bind_eq_ok.mp hcheck
  cases session with
  | none => cases hcheck
  | some x =>
    dsimp only at hcheck
    obtain ⟨hplays, -⟩ := guard_eq_ok.mp hcheck
    simp only [not_or, ne_eq, not_not, Bool.not_eq_false] at hplays
    obtain ⟨hlive, hdevice, hitem, hplaying⟩ := hplays
    cases id with
    | none => cases hsession
    | some id =>
      obtain ⟨hrow, hmine, -⟩ := sessionTx_ok.mp hsession
      exact ⟨id, rfl, r, x, (readReceiver_ok.mp hread).1, hrow, hmine.trans hviewer.symm, hlive,
        hdevice, hitem, hplaying⟩

theorem reportHandoffReadiness_effect {id : HandoffID} {req : HandoffReadiness} {result : Result}
    (h : reportHandoffReadiness env now p id req s = .ok result) :
    Effect env now p s (.report id req) result.answer result.store := by
  unfold reportHandoffReadiness at h
  obtain ⟨⟨h₀, t⟩, hload, h⟩ := bind_eq_ok.mp h
  dsimp only at h
  obtain ⟨hopen, hrest⟩ := guard_eq_ok.mp h
  have hstate := not_not.mp hopen
  obtain ⟨hrow, hviewer, hdeadline, rfl⟩ := loadHandoff_prepared hload hstate
  obtain ⟨-, h⟩ := guard_eq_ok.mp hrest
  obtain ⟨g, -, h⟩ := bind_eq_ok.mp h
  obtain ⟨-, h⟩ := guard_eq_ok.mp h
  obtain ⟨r, hread, h⟩ := bind_eq_ok.mp h
  obtain ⟨hdevice, h⟩ := guard_eq_ok.mp h
  obtain ⟨u, hcheck, h⟩ := bind_eq_ok.mp h
  obtain rfl := Except.ok.inj h
  obtain ⟨x, hx, hplays⟩ := checkReceiverPlayback_ok hviewer hcheck
  obtain rfl := Option.some.inj hx
  exact .reported id req h₀ hrow hstate hdeadline
    ⟨r, (readReceiver_ok.mp hread).1, not_not.mp hdevice⟩ hplays

theorem commitHandoff_effect {id : HandoffID} {expected : ℤ} {result : Result}
    (h : commitHandoff env now p.viewer id expected s = .ok result) :
    Effect env now p s (.commit id expected) result.answer result.store := by
  unfold commitHandoff at h
  obtain ⟨-, h⟩ := guard_eq_ok.mp h
  obtain ⟨⟨h₀, t⟩, hload, h⟩ := bind_eq_ok.mp h
  dsimp only at h
  by_cases hcommitted : h₀.state = .committed
  · -- a retried commit is the same commit
    rw [if_pos hcommitted] at h
    obtain rfl := Except.ok.inj h
    obtain ⟨hrow, rfl⟩ := loadHandoff_settled hload (by rw [hcommitted]; decide)
    exact .committedAgain id expected h₀ hrow hcommitted
  · rw [if_neg hcommitted] at h
    obtain ⟨hopen, hrest⟩ := guard_eq_ok.mp h
    have hstate := not_not.mp hopen
    obtain ⟨hrow, hviewer, hdeadline, rfl⟩ := loadHandoff_prepared hload hstate
    have hid : h₀.id = id := key_of_rowOf hrow
    obtain ⟨hready, h⟩ := guard_eq_ok.mp hrest
    obtain ⟨hfence, h⟩ := guard_eq_ok.mp h
    have hfence := not_not.mp hfence
    obtain ⟨g, hgrant, h⟩ := bind_eq_ok.mp h
    obtain ⟨haccepted, h⟩ := guard_eq_ok.mp h
    obtain ⟨u, hcheck, h⟩ := bind_eq_ok.mp h
    obtain ⟨x, hx, hplays⟩ := checkReceiverPlayback_ok hviewer hcheck
    obtain ⟨source, hsource, h⟩ := bind_eq_ok.mp h
    cases source with
    | none =>
      obtain rfl := Except.ok.inj h
      have heffect : Effect env now p t _ _ _ :=
        .sourceFailed id expected .sourceMissing h₀ hrow hstate hdeadline hfence
      rwa [← hid] at heffect ⊢
    | some source =>
      dsimp only at h
      by_cases hitem : source.itemID = h₀.itemID
      · rw [if_neg (not_not.mpr hitem)] at h
        cases hlive : source.live now with
        | false =>
          rw [hlive, if_pos rfl] at h
          obtain rfl := Except.ok.inj h
          have heffect : Effect env now p t _ _ _ :=
            .sourceFailed id expected .sourceTerminal h₀ hrow hstate hdeadline hfence
          rwa [← hid] at heffect ⊢
        | true =>
          rw [hlive, if_neg (by decide)] at h
          obtain rfl := Except.ok.inj h
          obtain ⟨g₀, hg, -, rfl⟩ := readGrant_ok.mp hgrant
          have hgranted := read_accepted.mp (not_not.mp haccepted)
          exact .committed id expected h₀ x source hrow hstate hdeadline (not_not.mp hready) hfence
            ⟨g₀, hg, hgranted.1, hgranted.2⟩ hx hplays (sessionTx_ok.mp hsource).1 hlive hitem
      · rw [if_pos hitem] at h
        obtain rfl := Except.ok.inj h
        have heffect : Effect env now p t _ _ _ :=
          .sourceFailed id expected .sourceChanged h₀ hrow hstate hdeadline hfence
        rwa [← hid] at heffect ⊢

theorem rollbackHandoff_effect {id : HandoffID} {expected : Option ℤ} {reason : String}
    {result : Result} (h : rollbackHandoff now p.viewer id expected reason s = .ok result) :
    Effect env now p s (.rollback id expected reason) result.answer result.store := by
  unfold rollbackHandoff at h
  obtain ⟨⟨h₀, t⟩, hload, h⟩ := bind_eq_ok.mp h
  dsimp only at h
  by_cases hrolled : h₀.state = .rolledBack
  · rw [if_pos hrolled] at h
    obtain rfl := Except.ok.inj h
    obtain ⟨hrow, rfl⟩ := loadHandoff_settled hload (by rw [hrolled]; decide)
    exact .rolledBackAgain id expected reason h₀ hrow hrolled
  · rw [if_neg hrolled] at h
    obtain ⟨hopen, hrest⟩ := guard_eq_ok.mp h
    have hstate := not_not.mp hopen
    obtain ⟨hrow, -, hdeadline, rfl⟩ := loadHandoff_prepared hload hstate
    obtain ⟨-, h⟩ := guard_eq_ok.mp hrest
    obtain rfl := Except.ok.inj h
    exact .rolledBack id expected reason h₀ hrow hstate hdeadline

/-- **What a request does** is one of its effects. -/
theorem serve_effect (a : Action) :
    Effect env now p s a (serve env now p a s).1 (serve env now p a s).2 := by
  unfold serve
  cases hrun : a.run env now p s with
  | error fault => exact .refused a fault
  | ok result =>
    have heffect : Effect env now p s a result.answer result.store := by
      cases a with
      | register req => exact registerReceiver_effect hrun
      | retire id => exact retireReceiver_effect hrun
      | requestGrant req => exact requestGrant_effect hrun
      | decide receiverID grantID decision => exact decideGrant_effect hrun
      | prepare req => exact prepareHandoff_effect hrun
      | report id req => exact reportHandoffReadiness_effect hrun
      | commit id expected => exact commitHandoff_effect hrun
      | rollback id expected reason => exact rollbackHandoff_effect hrun
    cases result with
    | ok answer s' => exact heffect
    | failed fault s' => exact heffect

end Portico.Receivers
