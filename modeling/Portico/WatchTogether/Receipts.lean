import Portico.WatchTogether.SharedQueue

/-!
# Commands are answered once

A command takes effect at most once. While its receipt is retained, a retry is answered from it; once
the receipt is trimmed, the revision it was fenced by has moved on.

## Main results

* `Rises.served`: no action lowers a revision
* `commands_once`: retries, reused keys and refusals, in every run
-/

namespace Portico.WatchTogether

variable {env : Env} {now : ℤ} {viewer : Viewer} {r s t : Room} {m : Member} {b : Body}

/-! ## Bodies -/

namespace Body

def key : Body → String
  | .transport req => req.idempotencyKey
  | .settings req => req.idempotencyKey
  | .queue req => req.idempotencyKey

def valid : Body → Bool
  | .transport req => req.valid
  | .settings req => req.valid
  | .queue req => req.valid

def expectedRevision : Body → ℤ
  | .transport req => req.expectedRevision
  | .settings req => req.expectedRevision
  | .queue req => req.expectedRevision

/-- The revision a command is fenced by. -/
def fence (g : Group) : Body → ℤ
  | .transport _ => g.playbackRevision
  | .settings _ => g.settingsRevision
  | .queue _ => g.queueRevision

/-- The command on the swept room. -/
def apply (env : Env) (now : ℤ) (viewer : Viewer) : Body → Member → Room →
    Except Fault (Answer × Room)
  | .transport req => applyCommand env now req
  | .settings req => applySettings env now viewer req
  | .queue req => applyQueue env now viewer req

/-- What the caller is shown of an answer. -/
def shown (env : Env) (viewer : Viewer) : Body → Answer → Answer
  | .transport _, answer => answer.itemFor env viewer
  | _, answer => answer

end Body

/-- Who sends which command. -/
def Action.command : Action → Option (Viewer × Body)
  | .transport viewer req => some (viewer, .transport req)
  | .settings viewer req => some (viewer, .settings req)
  | .queue viewer req => some (viewer, .queue req)
  | _ => none

theorem serve_command {a : Action} (ha : a.command = some (viewer, b)) :
    serve env now r a =
      if b.valid then
        (((r.command env now viewer b.key b (b.apply env now viewer)).1).map (b.shown env viewer),
          (r.command env now viewer b.key b (b.apply env now viewer)).2)
      else (.error .invalidRequest, r) := by
  have hid : ∀ x : Except Fault Answer, x.map (fun answer => answer) = x := by
    intro x
    cases x <;> rfl
  cases a with
  | transport viewer' req =>
    obtain ⟨rfl, rfl⟩ := Prod.mk.inj (Option.some.inj ha)
    change WatchTogether.transport env now viewer' req r =
      if req.valid then _ else (.error .invalidRequest, r)
    unfold WatchTogether.transport
    cases req.valid with
    | false => rfl
    | true => rfl
  | settings viewer' req =>
    obtain ⟨rfl, rfl⟩ := Prod.mk.inj (Option.some.inj ha)
    change updateSettings env now viewer' req r =
      if req.valid then _ else (.error .invalidRequest, r)
    unfold updateSettings
    cases req.valid with
    | false => rfl
    | true => exact Prod.ext (hid _).symm rfl
  | queue viewer' req =>
    obtain ⟨rfl, rfl⟩ := Prod.mk.inj (Option.some.inj ha)
    change mutateQueue env now viewer' req r =
      if req.valid then _ else (.error .invalidRequest, r)
    unfold mutateQueue
    cases req.valid with
    | false => rfl
    | true => exact Prod.ext (hid _).symm rfl
  | heartbeat | readiness | endGroup | leave | transfer | createInvite | revokeInvite | join
    | sweep => cases ha

/-! ## No revision falls -/

/-- No revision of `s` is below that of `r`. -/
structure Rises (g h : Group) : Prop where
  playback : g.playbackRevision ≤ h.playbackRevision
  settings : g.settingsRevision ≤ h.settingsRevision
  queue : g.queueRevision ≤ h.queueRevision

theorem Rises.refl (g : Group) : Rises g g := ⟨le_rfl, le_rfl, le_rfl⟩

theorem Rises.trans {g h k : Group} (h₁ : Rises g h) (h₂ : Rises h k) : Rises g k :=
  ⟨h₁.playback.trans h₂.playback, h₁.settings.trans h₂.settings, h₁.queue.trans h₂.queue⟩

theorem Rises.fence {g h : Group} (hrises : Rises g h) (b : Body) : b.fence g ≤ b.fence h := by
  cases b with
  | transport req => exact hrises.playback
  | settings req => exact hrises.settings
  | queue req => exact hrises.queue

theorem rises_timeline (g : Group) : Rises g (g.timeline now) := by
  unfold Group.timeline Group.pauseAbsent Group.reportAbsent
  split_ifs <;> refine ⟨?_, le_rfl, le_rfl⟩ <;> simp

variable (now r) in
theorem rises_releaseWait : Rises r.group (r.releaseWait now).2.group := by
  unfold Room.releaseWait
  dsimp only
  split_ifs <;> exact ⟨le_rfl, le_rfl, le_rfl⟩

theorem rises_sweepGroup : Rises r.group (r.sweepGroup now).2.group := by
  cases hover : r.group.isOver with
  | true =>
    unfold Room.sweepGroup
    rw [if_pos hover]
    exact Rises.refl _
  | false =>
    rw [Room.sweepGroup_live hover, Room.group_hostTimeline]
    have hrelease : Rises r.group ((r.sweepMembers now).2.releaseWait now).2.group :=
      rises_releaseWait _ ((r.sweepMembers now).2)
    exact hrelease.trans (rises_timeline _)

variable (now) in
theorem revisions_hostReturned (g : Group) :
    (g.hostReturned now).playbackRevision = g.playbackRevision ∧
      (g.hostReturned now).settingsRevision = g.settingsRevision ∧
      (g.hostReturned now).queueRevision = g.queueRevision := by
  unfold Group.hostReturned
  dsimp only
  split_ifs <;> exact ⟨rfl, rfl, rfl⟩

variable (now s m) in
theorem revisions_greeted :
    (s.greeted now m).group.playbackRevision = s.group.playbackRevision ∧
      (s.greeted now m).group.settingsRevision = s.group.settingsRevision ∧
      (s.greeted now m).group.queueRevision = s.group.queueRevision := by
  unfold Room.greeted
  split_ifs
  · exact revisions_hostReturned _ s.group
  · exact ⟨rfl, rfl, rfl⟩

theorem rises_hostedBy {host : MemberID} {device : Option DeviceID} (g : Group) :
    Rises g (g.hostedBy now host device) := by
  unfold Group.hostedBy
  dsimp only
  split_ifs <;> refine ⟨?_, le_rfl, le_rfl⟩ <;> simp

theorem revisions_applyTransport {req : TransportRequest} {notes : Option (List MemberID)}
    {g : Group} (h : r.applyTransport env now req = .ok (notes, g)) :
    g.playbackRevision = r.group.playbackRevision ∧
      g.settingsRevision = r.group.settingsRevision ∧
      g.queueRevision = r.group.queueRevision := by
  have hrated : (r.group.rated req.rate).playbackRevision = r.group.playbackRevision ∧
      (r.group.rated req.rate).settingsRevision = r.group.settingsRevision ∧
      (r.group.rated req.rate).queueRevision = r.group.queueRevision := by
    unfold Group.rated
    split <;> exact ⟨rfl, rfl, rfl⟩
  rcases Room.applyTransport_ok h with ⟨-, rfl⟩ | ⟨-, rfl⟩ | ⟨-, -, rfl⟩ | ⟨-, -, rfl⟩ | ⟨-, hselect⟩
  · exact hrated
  · exact hrated
  · exact hrated
  · exact hrated
  · obtain ⟨target, entry, -, -, -, -, rfl⟩ := Room.selectEntry_ok hselect
    unfold Group.started Group.beginWait
    dsimp only
    split_ifs <;> exact hrated

theorem group_editQueue {req : QueueRequest} (h : s.editQueue env viewer m req = .ok t) :
    t.group = s.group := by
  have happend : ∀ {q u : Room},
      (if maxQueueEntries < q.queue.length + req.itemIDs.length then .error .queueFull
        else (q.appendItems env viewer m.id q.queue.length req.itemIDs).map renumbered) =
        (.ok u : Except Fault Room) → u.group = q.group := by
    intro q u hu
    split_ifs at hu
    obtain ⟨v, hv, rfl⟩ := exists_of_map_eq_ok hu
    obtain rfl := appendItems_ok hv
    rfl
  unfold Room.editQueue at h
  cases hop : req.operation with
  | append =>
    rw [hop] at h
    exact happend h
  | replace =>
    rw [hop] at h
    exact happend (q := { s with queue := [] }) h
  | remove =>
    rw [hop] at h
    dsimp only at h
    split_ifs at h
    obtain rfl := Except.ok.inj h
    rfl
  | move =>
    rw [hop] at h
    dsimp only at h
    split at h
    · obtain ⟨ids, -, rfl⟩ := exists_of_map_eq_ok h
      rfl
    · cases h

theorem revisions_refreshPosition :
    r.refreshPosition.group.playbackRevision = r.group.playbackRevision ∧
      r.refreshPosition.group.settingsRevision = r.group.settingsRevision ∧
      r.refreshPosition.group.queueRevision = r.group.queueRevision := by
  unfold Room.refreshPosition
  split <;> exact ⟨rfl, rfl, rfl⟩

/-- A command that runs raises the revision it is fenced by, and lowers none. -/
theorem rises_apply {answer : Answer} (h : b.apply env now viewer m s = .ok (answer, t)) :
    b.expectedRevision = b.fence s.group ∧ b.fence t.group = b.fence s.group + 1 ∧
      Rises s.group t.group := by
  cases b with
  | transport req =>
    obtain ⟨-, hexpected, notes, g, happly, rfl, -⟩ := applyCommand_ok h
    obtain ⟨hplayback, hsettings, hqueue⟩ := revisions_applyTransport happly
    obtain ⟨hplayback', hsettings', hqueue'⟩ := revisions_greeted now s m
    rw [hplayback'] at hplayback
    have hraised : (g.marked req).playbackRevision = s.group.playbackRevision + 1 := by
      rw [← hplayback]
      rfl
    refine ⟨hexpected, hraised, ?_, ?_, ?_⟩
    · exact hraised ▸ (Int.lt_add_one_of_le le_rfl).le
    · exact (hsettings.trans hsettings').ge
    · exact (hqueue.trans hqueue').ge
  | settings req =>
    change applySettings env now viewer req m s = .ok (answer, t) at h
    unfold applySettings at h
    split_ifs at h with hcontrol hexpected
    obtain ⟨-, rfl⟩ := Prod.mk.inj (Except.ok.inj h)
    exact ⟨not_not.mp hexpected, rfl, le_rfl, (Int.lt_add_one_of_le le_rfl).le, le_rfl⟩
  | queue req =>
    change applyQueue env now viewer req m s = .ok (answer, t) at h
    have hexpected : req.expectedRevision = s.group.queueRevision := by
      unfold applyQueue at h
      split_ifs at h with hcontrol hexpected
      exact not_not.mp hexpected
    obtain ⟨u, hu, rfl⟩ := applyQueue_ok h
    have hgroup := group_editQueue hu
    rw [hgroup]
    obtain ⟨hplayback, hsettings, hqueue⟩ := revisions_refreshPosition (r := { u with
      group := { s.group with queueRevision := s.group.queueRevision + 1 } })
    refine ⟨hexpected, ?_, ?_, ?_, ?_⟩
    · exact hqueue
    · exact hplayback.ge
    · exact hsettings.ge
    · exact hqueue ▸ (Int.lt_add_one_of_le le_rfl).le

theorem Room.Runs.rises {key : String} (h : Room.Runs env now viewer key r m s) :
    Rises r.group s.group := by
  rw [h.room]
  exact rises_sweepGroup.trans ⟨le_rfl, le_rfl, le_rfl⟩

theorem Room.Enters.rises (h : Room.Enters env now viewer r m s) : Rises r.group s.group := by
  rw [h.room]
  exact rises_sweepGroup.trans ⟨le_rfl, le_rfl, le_rfl⟩

theorem rises_hostReturned (g : Group) : Rises g (g.hostReturned now) := by
  obtain ⟨hplayback, hsettings, hqueue⟩ := revisions_hostReturned now g
  exact ⟨hplayback.ge, hsettings.ge, hqueue.ge⟩

theorem rises_applyHeartbeat {device : Option DeviceID} (h : applyHeartbeat now device m s = .ok t) :
    Rises s.group t.group := by
  unfold applyHeartbeat at h
  split_ifs at h
  · obtain rfl := Except.ok.inj h
    exact Rises.refl _
  · obtain rfl := Except.ok.inj h
    have hdevice : Rises s.group { s.group with hostDevice := device.or s.group.hostDevice } :=
      ⟨le_rfl, le_rfl, le_rfl⟩
    exact hdevice.trans (rises_hostReturned _)

theorem rises_reported {req : ReadinessRequest} :
    Rises s.group (s.reported now req m).group := by
  unfold Room.reported
  dsimp only
  split_ifs
  · exact rises_hostReturned s.group
  · exact Rises.refl _

theorem rises_applyReadiness {req : ReadinessRequest} (h : applyReadiness now req m s = .ok t) :
    Rises s.group t.group := by
  rcases applyReadiness_cases h with rfl | ⟨-, -, -, -, rfl⟩ | ⟨-, summary, promoted, -, rfl⟩
  · exact Rises.refl _
  · have hended : Rises (s.reported now req m).group
        ((s.reported now req m).group.ended now (req.positionUS.getD 0)) :=
      ⟨(Int.lt_add_one_of_le le_rfl).le, le_rfl, le_rfl⟩
    exact rises_reported.trans hended
  · have hrelease := rises_reported.trans
      (rises_releaseWait now (s.reported now req m))
    exact hrelease.trans ⟨le_rfl, le_rfl, le_rfl⟩

theorem rises_endGroup {reason : EndedReason} : Rises s.group (s.endGroup reason).group :=
  ⟨(Int.lt_add_one_of_le le_rfl).le, le_rfl, le_rfl⟩

theorem rises_applyEnd {expected : ℤ} (h : applyEnd expected m s = .ok t) :
    Rises s.group t.group := by
  unfold applyEnd at h
  split_ifs at h
  obtain rfl := Except.ok.inj h
  exact rises_endGroup

theorem rises_applyLeave (h : applyLeave m s = .ok t) : Rises s.group t.group := by
  unfold applyLeave at h
  dsimp only at h
  split_ifs at h
  · obtain rfl := Except.ok.inj h
    exact rises_endGroup
  · obtain rfl := Except.ok.inj h
    exact rises_endGroup
  · obtain rfl := Except.ok.inj h
    exact Rises.refl _

theorem rises_applyTransfer {device : Option DeviceID} {req : TransferRequest}
    (h : applyTransfer now viewer device req m s = .ok t) : Rises s.group t.group := by
  unfold applyTransfer at h
  simp only [guard_eq_ok] at h
  obtain ⟨-, -, -, -, h⟩ := h
  split at h
  · cases h
  · simp only [guard_eq_ok] at h
    obtain ⟨-, -, -, h⟩ := h
    obtain rfl := Except.ok.inj h
    exact rises_hostedBy s.group

theorem group_enter (h : r.enter now viewer = .ok (m, s)) : s.group = r.group := by
  unfold Room.enter at h
  split at h
  · split_ifs at h
    obtain ⟨-, rfl⟩ := Prod.mk.inj (Except.ok.inj h)
    rfl
  · obtain ⟨-, rfl⟩ := Prod.mk.inj (Except.ok.inj h)
    rfl

/-- **Revisions.** No action lowers a revision. -/
theorem Rises.served {a : Action} (h : Served env now r a s) : Rises r.group s.group := by
  have hsave : ∀ {u : Room} {bump : Bool}, Rises u.group (u.save bump).group :=
    ⟨le_rfl, le_rfl, le_rfl⟩
  cases h with
  | idle => exact Rises.refl _
  | swept h => exact rises_sweepGroup.trans hsave
  | transport viewer req m s answer t hvalid hruns happly =>
    have happly' : Body.apply env now viewer (.transport req) { m with seenMS := now } s =
        .ok (answer, t) := happly
    exact (hruns.rises.trans (rises_apply happly').2.2).trans ⟨le_rfl, le_rfl, le_rfl⟩
  | settings viewer req m s answer t hvalid hruns happly =>
    have happly' : Body.apply env now viewer (.settings req) { m with seenMS := now } s =
        .ok (answer, t) := happly
    exact (hruns.rises.trans (rises_apply happly').2.2).trans ⟨le_rfl, le_rfl, le_rfl⟩
  | queue viewer req m s answer t hvalid hruns happly =>
    have happly' : Body.apply env now viewer (.queue req) { m with seenMS := now } s =
        .ok (answer, t) := happly
    exact (hruns.rises.trans (rises_apply happly').2.2).trans ⟨le_rfl, le_rfl, le_rfl⟩
  | heartbeat viewer device m s t henters hchange =>
    exact (henters.rises.trans (rises_applyHeartbeat hchange)).trans hsave
  | readiness viewer req m s t hvalid henters hchange =>
    exact (henters.rises.trans (rises_applyReadiness hchange)).trans hsave
  | endGroup viewer expected m s t henters hchange =>
    exact (henters.rises.trans (rises_applyEnd hchange)).trans hsave
  | leave viewer m s t henters hchange =>
    exact (henters.rises.trans (rises_applyLeave hchange)).trans hsave
  | transfer viewer device req m s t henters hchange =>
    exact (henters.rises.trans (rises_applyTransfer hchange)).trans hsave
  | createInvite | revokeInvite => exact Rises.refl _
  | join viewer code i m s hi hrecipient hrevoked hexpires huses hlive henter =>
    have hgroup := group_enter henter
    exact hgroup ▸ hsave (u := s.useInvite i.id)

/-! ## Who writes receipts -/

theorem receipts_releaseWait : (r.releaseWait now).2.receipts = r.receipts := by
  unfold Room.releaseWait
  dsimp only
  split_ifs <;> rfl

theorem receipts_hostTimeline {changed : Bool} :
    (r.hostTimeline now changed).2.receipts = r.receipts := by
  unfold Room.hostTimeline Room.endGroup
  dsimp only
  split_ifs <;> rfl

theorem receipts_sweepGroup : (r.sweepGroup now).2.receipts = r.receipts := by
  unfold Room.sweepGroup
  split_ifs
  · rfl
  · exact receipts_hostTimeline.trans receipts_releaseWait

theorem Room.Runs.receipts {key : String} (h : Room.Runs env now viewer key r m s) :
    s.receipts = r.receipts := by
  rw [h.room]
  exact receipts_sweepGroup

theorem Room.Enters.receipts (h : Room.Enters env now viewer r m s) : s.receipts = r.receipts := by
  rw [h.room]
  exact receipts_sweepGroup

theorem receipts_editQueue {req : QueueRequest} (h : s.editQueue env viewer m req = .ok t) :
    t.receipts = s.receipts := by
  have happend : ∀ {q u : Room},
      (if maxQueueEntries < q.queue.length + req.itemIDs.length then .error .queueFull
        else (q.appendItems env viewer m.id q.queue.length req.itemIDs).map renumbered) =
        (.ok u : Except Fault Room) → u.receipts = q.receipts := by
    intro q u hu
    split_ifs at hu
    obtain ⟨v, hv, rfl⟩ := exists_of_map_eq_ok hu
    obtain rfl := appendItems_ok hv
    rfl
  unfold Room.editQueue at h
  cases hop : req.operation with
  | append =>
    rw [hop] at h
    exact happend h
  | replace =>
    rw [hop] at h
    exact happend (q := { s with queue := [] }) h
  | remove =>
    rw [hop] at h
    dsimp only at h
    split_ifs at h
    obtain rfl := Except.ok.inj h
    rfl
  | move =>
    rw [hop] at h
    dsimp only at h
    split at h
    · obtain ⟨ids, -, rfl⟩ := exists_of_map_eq_ok h
      rfl
    · cases h

theorem receipts_apply {answer : Answer} (h : b.apply env now viewer m s = .ok (answer, t)) :
    t.receipts = s.receipts := by
  cases b with
  | transport req =>
    obtain ⟨-, -, notes, g, -, rfl, -⟩ := applyCommand_ok h
    change (s.greeted now m).receipts = s.receipts
    unfold Room.greeted
    split_ifs <;> rfl
  | settings req =>
    change applySettings env now viewer req m s = .ok (answer, t) at h
    unfold applySettings at h
    split_ifs at h
    obtain ⟨-, rfl⟩ := Prod.mk.inj (Except.ok.inj h)
    rfl
  | queue req =>
    obtain ⟨u, hu, rfl⟩ := applyQueue_ok h
    rw [← receipts_editQueue hu]
    unfold Room.refreshPosition
    split <;> rfl

theorem receipts_applyHeartbeat {device : Option DeviceID}
    (h : applyHeartbeat now device m s = .ok t) : t.receipts = s.receipts := by
  unfold applyHeartbeat at h
  split_ifs at h <;>
  · obtain rfl := Except.ok.inj h
    rfl

theorem receipts_applyReadiness {req : ReadinessRequest}
    (h : applyReadiness now req m s = .ok t) : t.receipts = s.receipts := by
  have hreported : (s.reported now req m).receipts = s.receipts := by
    unfold Room.reported
    dsimp only
    split_ifs <;> rfl
  rcases applyReadiness_cases h with rfl | ⟨-, -, -, -, rfl⟩ | ⟨-, summary, promoted, -, rfl⟩
  · rfl
  · exact hreported
  · change ((s.reported now req m).releaseWait now).2.receipts = s.receipts
    exact receipts_releaseWait.trans hreported

theorem receipts_applyEnd {expected : ℤ} (h : applyEnd expected m s = .ok t) :
    t.receipts = s.receipts := by
  unfold applyEnd at h
  split_ifs at h
  obtain rfl := Except.ok.inj h
  rfl

theorem receipts_applyLeave (h : applyLeave m s = .ok t) : t.receipts = s.receipts := by
  unfold applyLeave at h
  dsimp only at h
  split_ifs at h <;>
  · obtain rfl := Except.ok.inj h
    rfl

theorem receipts_applyTransfer {device : Option DeviceID} {req : TransferRequest}
    (h : applyTransfer now viewer device req m s = .ok t) : t.receipts = s.receipts := by
  unfold applyTransfer at h
  simp only [guard_eq_ok] at h
  obtain ⟨-, -, -, -, h⟩ := h
  split at h
  · cases h
  · simp only [guard_eq_ok] at h
    obtain ⟨-, -, -, h⟩ := h
    obtain rfl := Except.ok.inj h
    rfl

theorem receipts_enter (h : r.enter now viewer = .ok (m, s)) : s.receipts = r.receipts := by
  unfold Room.enter at h
  split at h
  · split_ifs at h
    obtain ⟨-, rfl⟩ := Prod.mk.inj (Except.ok.inj h)
    rfl
  · obtain ⟨-, rfl⟩ := Prod.mk.inj (Except.ok.inj h)
    rfl

/-- The room a command leaves that took effect. -/
def Room.answered (now : ℤ) (id : MemberID) (b : Body) (answer : Answer) (t : Room) : Room :=
  ((t.save true).receive ⟨id, b.key, b, answer, now⟩).trimReceipts

theorem mem_receipts_answered {id : MemberID} {answer : Answer} {receipt : Receipt}
    (h : receipt ∈ (t.answered now id b answer).receipts) :
    receipt ∈ t.receipts ∨ receipt = ⟨id, b.key, b, answer, now⟩ := by
  unfold Room.answered Room.trimReceipts at h
  generalize maxReceipts = window at h
  have hsorted := List.mem_of_mem_drop h
  rw [List.mem_insertionSort] at hsorted
  exact (List.mem_append.mp hsorted).imp_right List.mem_singleton.mp

theorem receipts_served {a : Action} (h : Served env now r a s) :
    s.receipts = r.receipts ∨
    ∃ viewer b m u answer t, a.command = some (viewer, b) ∧ b.valid = true ∧
      Room.Runs env now viewer b.key r m u ∧
      b.apply env now viewer { m with seenMS := now } u = .ok (answer, t) ∧
      s = t.answered now m.id b answer := by
  cases h with
  | idle => exact Or.inl rfl
  | swept h => exact Or.inl receipts_sweepGroup
  | transport viewer req m u answer t hvalid hruns happly =>
    exact Or.inr ⟨viewer, .transport req, m, u, answer, t, rfl, hvalid, hruns, happly, rfl⟩
  | settings viewer req m u answer t hvalid hruns happly =>
    exact Or.inr ⟨viewer, .settings req, m, u, answer, t, rfl, hvalid, hruns, happly, rfl⟩
  | queue viewer req m u answer t hvalid hruns happly =>
    exact Or.inr ⟨viewer, .queue req, m, u, answer, t, rfl, hvalid, hruns, happly, rfl⟩
  | heartbeat viewer device m u t henters hchange =>
    exact Or.inl ((receipts_applyHeartbeat hchange).trans henters.receipts)
  | readiness viewer req m u t hvalid henters hchange =>
    exact Or.inl ((receipts_applyReadiness hchange).trans henters.receipts)
  | endGroup viewer expected m u t henters hchange =>
    exact Or.inl ((receipts_applyEnd hchange).trans henters.receipts)
  | leave viewer m u t henters hchange =>
    exact Or.inl ((receipts_applyLeave hchange).trans henters.receipts)
  | transfer viewer device req m u t henters hchange =>
    exact Or.inl ((receipts_applyTransfer hchange).trans henters.receipts)
  | createInvite | revokeInvite => exact Or.inl rfl
  | join viewer code i m u hi hrecipient hrevoked hexpires huses hlive henter =>
    have hreceipts := receipts_enter henter
    exact Or.inl hreceipts

/-! ## Effects -/

/-- A member's command, by its key and its body. -/
structure Command where
  member : MemberID
  key : String
  body : Body
deriving DecidableEq

/-- A request, or the loss of receipts: every command trims the window, and any receipt may be gone
at any other time. -/
inductive Turn
  | request (e : Event)
  | trim (keep : Receipt → Bool)

def turn (r : Room) : Turn → Option Room
  | .request e => act r e
  | .trim keep => some { r with receipts := r.receipts.filter keep }

/-- The command a turn takes effect as: it is answered, and not from a receipt. -/
def effect (r : Room) : Turn → Option Command
  | .trim _ => none
  | .request e =>
    match e.action.command with
    | none => none
    | some (viewer, b) =>
      match r.loadJoinedMember viewer, (serve e.env e.now r e.action).1 with
      | some m, .ok _ => if (r.receiptFor m.id b.key).isSome then none else some ⟨m.id, b.key, b⟩
      | _, _ => none

/-- The commands that take effect in a run, one by one. -/
def effects (r : Room) (xs : List Turn) : List Command := Machine.outputs turn effect r xs

theorem command_effect {a : Action} {answer : Answer} (ha : a.command = some (viewer, b))
    (hm : r.loadJoinedMember viewer = some m) (hfresh : r.receiptFor m.id b.key = none)
    (hanswer : (serve env now r a).1 = .ok answer) :
    b.valid = true ∧ ∃ u stored t, Room.Runs env now viewer b.key r m u ∧
      b.apply env now viewer { m with seenMS := now } u = .ok (stored, t) ∧
      answer = b.shown env viewer stored ∧ (serve env now r a).2 = t.answered now m.id b stored := by
  rw [serve_command ha] at hanswer ⊢
  split_ifs at hanswer with hvalid
  rw [if_pos hvalid]
  dsimp only at hanswer ⊢
  obtain ⟨stored, hstored, hshown⟩ := exists_of_map_eq_ok hanswer
  rcases Room.command_cases env now viewer r b.key b (b.apply env now viewer)
    with ⟨fault, hc⟩ | ⟨n, e, hn, he, -, -⟩ | ⟨-, -, hc⟩ | ⟨n, u, stored', t, hruns, happly, hc⟩
  · rw [hc] at hstored
    cases hstored
  · obtain rfl : m = n := Option.some.inj (hm.symm.trans hn)
    rw [hfresh] at he
    cases he
  · rw [hc] at hstored
    cases hstored
  · obtain rfl : m = n := Option.some.inj (hm.symm.trans hruns.admits.1)
    rw [hc] at hstored ⊢
    obtain rfl : stored' = stored := Except.ok.inj hstored
    exact ⟨hvalid, u, stored', t, hruns, happly, hshown.symm, rfl⟩

theorem effect_eq_some {e : Event} {c : Command} (h : effect r (.request e) = some c) :
    ∃ viewer m answer, e.action.command = some (viewer, c.body) ∧ c.key = c.body.key ∧
      r.loadJoinedMember viewer = some m ∧ m.id = c.member ∧
      r.receiptFor m.id c.body.key = none ∧ (serve e.env e.now r e.action).1 = .ok answer := by
  unfold effect at h
  dsimp only at h
  split at h
  · cases h
  · rename_i viewer b hcommand
    split at h
    · rename_i m answer hm hanswer
      split_ifs at h with hreceipt
      obtain rfl := Option.some.inj h
      exact ⟨viewer, m, answer, hcommand, rfl, hm, rfl, by simpa using hreceipt, hanswer⟩
    · cases h

theorem act_command {e : Event} (ha : e.action.command = some (viewer, b)) :
    act r e = some (serve e.env e.now r e.action).2 := by
  unfold act
  split
  · rename_i hcreate
    rw [hcreate] at ha
    cases ha
  · rfl

theorem Rises.turn {x : Turn} (h : turn r x = some s) : Rises r.group s.group := by
  cases x with
  | request e => exact Rises.served (act_served h)
  | trim keep =>
    obtain rfl := Option.some.inj h
    exact Rises.refl _

/-- A command that takes effect is fenced by the revision before it, and raises it. -/
theorem effect_fence {x : Turn} {c : Command} (h : effect r x = some c)
    (hturn : turn r x = some s) :
    c.body.valid = true ∧ c.body.fence r.group ≤ c.body.expectedRevision ∧
      c.body.expectedRevision < c.body.fence s.group := by
  cases x with
  | trim keep => cases h
  | request e =>
    obtain ⟨viewer, m, answer, ha, -, hm, -, hfresh, hanswer⟩ := effect_eq_some h
    obtain ⟨hvalid, u, stored, t, hruns, happly, -, hroom⟩ := command_effect ha hm hfresh hanswer
    obtain ⟨hexpected, hraised, -⟩ := rises_apply happly
    rw [turn, act_command ha, hroom] at hturn
    obtain rfl := Option.some.inj hturn
    rw [hexpected]
    refine ⟨hvalid, hruns.rises.fence _, ?_⟩
    have hgroup : c.body.fence (t.answered e.now m.id c.body stored).group =
        c.body.fence t.group := by
      cases c.body <;> rfl
    rw [hgroup, hraised]
    exact Int.lt_add_one_of_le le_rfl

/-- **At most once.** A command that has taken effect doesn't again, and its fence is behind. -/
theorem effects_once {start : Room} {xs : List Turn} (hrun : Machine.run turn start xs = some r) :
    (effects start xs).Nodup ∧ ∀ c ∈ effects start xs,
      c.body.valid = true ∧ c.body.expectedRevision < c.body.fence r.group := by
  induction xs using List.reverseRecOn generalizing r with
  | nil => exact ⟨List.nodup_nil, fun c hc => absurd hc List.not_mem_nil⟩
  | append_singleton xs x ih =>
    obtain ⟨t, ht, hturn⟩ := Machine.run_concat.mp hrun
    obtain ⟨honce, hbehind⟩ := ih ht
    have hkept : ∀ c ∈ effects start xs,
        c.body.valid = true ∧ c.body.expectedRevision < c.body.fence r.group := by
      intro c hc
      obtain ⟨hvalid, hfence⟩ := hbehind c hc
      exact ⟨hvalid, hfence.trans_le ((Rises.turn hturn).fence _)⟩
    unfold effects at honce hkept ⊢
    rw [Machine.outputs_concat ht]
    cases heffect : effect t x with
    | none => simpa using ⟨honce, hkept⟩
    | some c =>
      obtain ⟨hvalid, hbefore, hafter⟩ := effect_fence heffect hturn
      -- a command that took effect before has its fence behind the group's revision now
      have hnew : c ∉ Machine.outputs turn effect start xs :=
        fun hc => absurd (hbehind c hc).2 (not_lt.mpr hbefore)
      refine ⟨?_, fun d hd => ?_⟩
      · apply honce.append (List.nodup_singleton c)
        rintro d hd hd'
        exact hnew (List.mem_singleton.mp hd' ▸ hd)
      · rcases List.mem_append.mp hd with hd | hd
        · exact hkept d hd
        · obtain rfl := List.mem_singleton.mp hd
          exact ⟨hvalid, hafter⟩

/-- A command takes effect, and is answered as a receipt says. -/
def Leaves (receipt : Receipt) (r : Room) (x : Turn) : Prop :=
  effect r x = some ⟨receipt.member, receipt.key, receipt.body⟩ ∧
    ∃ e viewer, x = .request e ∧ e.action.command = some (viewer, receipt.body) ∧
      (serve e.env e.now r e.action).1 = .ok (receipt.body.shown e.env viewer receipt.answer)

theorem Room.Runs.effect {e : Event} {answer : Answer}
    (ha : e.action.command = some (viewer, b)) (hvalid : b.valid = true)
    (h : Room.Runs e.env e.now viewer b.key r m s)
    (happly : b.apply e.env e.now viewer { m with seenMS := e.now } s = .ok (answer, t)) :
    (serve e.env e.now r e.action).1 = .ok (b.shown e.env viewer answer) ∧
      WatchTogether.effect r (.request e) = some ⟨m.id, b.key, b⟩ := by
  have hanswer : (serve e.env e.now r e.action).1 = .ok (b.shown e.env viewer answer) := by
    rw [serve_command ha, if_pos hvalid, Room.command_run _ _ h, happly]
    rfl
  refine ⟨hanswer, ?_⟩
  unfold WatchTogether.effect
  dsimp only
  rw [ha]
  dsimp only
  rw [h.admits.1, hanswer]
  dsimp only
  rw [h.fresh]
  rfl

theorem leaves_run {start : Room} {xs : List Turn} (hempty : start.receipts = [])
    (hrun : Machine.run turn start xs = some r) :
    ∀ e ∈ r.receipts, Machine.Happened turn (Leaves e) start xs := by
  induction xs using List.reverseRecOn generalizing r with
  | nil =>
    obtain rfl := Option.some.inj hrun
    intro receipt hreceipt
    rw [hempty] at hreceipt
    exact absurd hreceipt List.not_mem_nil
  | append_singleton xs x ih =>
    obtain ⟨t, ht, hturn⟩ := Machine.run_concat.mp hrun
    intro receipt hreceipt
    cases x with
    | trim keep =>
      obtain rfl := Option.some.inj hturn
      exact (ih ht receipt (List.mem_of_mem_filter hreceipt)).concat
    | request e =>
      rcases receipts_served (act_served hturn) with hsame |
        ⟨viewer, b, m, u, answer, v, ha, hvalid, hruns, happly, rfl⟩
      · exact (ih ht receipt (hsame ▸ hreceipt)).concat
      · rcases mem_receipts_answered hreceipt with hold | rfl
        · rw [receipts_apply happly, hruns.receipts] at hold
          exact (ih ht receipt hold).concat
        · obtain ⟨hanswer, heffect⟩ := hruns.effect ha hvalid happly
          exact (Machine.happened_concat ht).mpr
            (Or.inr ⟨heffect, e, viewer, rfl, ha, hanswer⟩)

/-! ## The law -/

variable (env now viewer m) in
theorem apply_fenced (h : b.expectedRevision ≠ b.fence s.group) :
    b.apply env now viewer m s = .error .hostRequired ∨
      b.apply env now viewer m s = .error (.revisionConflict (b.fence s.group)) := by
  cases b with
  | transport req =>
    change applyCommand env now req m s = _ ∨ applyCommand env now req m s = _
    unfold applyCommand
    by_cases hcontrol : (!s.group.mayControl m) = true
    · exact Or.inl (if_pos hcontrol)
    · rw [if_neg hcontrol]
      exact Or.inr (if_pos h)
  | settings req =>
    change applySettings env now viewer req m s = _ ∨ applySettings env now viewer req m s = _
    unfold applySettings
    by_cases hcontrol : (!s.group.mayControl m) = true
    · exact Or.inl (if_pos hcontrol)
    · rw [if_neg hcontrol]
      exact Or.inr (if_pos h)
  | queue req =>
    change applyQueue env now viewer req m s = _ ∨ applyQueue env now viewer req m s = _
    unfold applyQueue
    by_cases hcontrol : (!s.group.mayControl m) = true
    · exact Or.inl (if_pos hcontrol)
    · rw [if_neg hcontrol]
      exact Or.inr (if_pos h)

variable (env now) in
theorem command_late (hm : r.loadJoinedMember viewer = some m)
    (hfresh : r.receiptFor m.id b.key = none) (hbehind : b.expectedRevision < b.fence r.group) :
    ∃ fault, (r.command env now viewer b.key b (b.apply env now viewer)).1 = .error fault ∧
      (fault ∈ [Fault.groupEnded, .rateLimited, .membershipRevoked, .hostRequired] ∨
        ∃ current, fault = .revisionConflict current ∧ b.expectedRevision < current) := by
  cases hover : (r.sweepGroup now).2.group.isOver with
  | true =>
    rw [Room.command_over _ _ _ hm hfresh hover]
    exact ⟨.groupEnded, rfl, Or.inl (by simp)⟩
  | false =>
    cases hlimited : env.limited with
    | true =>
      rw [Room.command_limited hm hfresh hover hlimited]
      exact ⟨.rateLimited, rfl, Or.inl (by simp)⟩
    | false =>
      cases hleaves : m.leaves now with
      | true =>
        rw [Room.command_swept hm hfresh hover hlimited hleaves]
        exact ⟨.membershipRevoked, rfl, Or.inl (by simp)⟩
      | false =>
        have hruns : Room.Runs env now viewer b.key r m ((r.sweepGroup now).2.seen now m.id) :=
          ⟨⟨hm, hleaves⟩, hfresh, hover, hlimited, rfl⟩
        have hlate := hbehind.trans_le (hruns.rises.fence b)
        rw [Room.command_run _ _ hruns]
        rcases apply_fenced env now viewer { m with seenMS := now } hlate.ne with h | h
        · rw [h]
          exact ⟨.hostRequired, rfl, Or.inl (by simp)⟩
        · rw [h]
          exact ⟨_, rfl, Or.inr ⟨_, rfl, hlate⟩⟩

/-- What a command leaves that doesn't take effect: the room as it was, or, when time has ended the
group, the room ended, with the same queue and the same receipts. -/
def Untouched (now : ℤ) (r s : Room) : Prop :=
  s = r ∨ r.group.isOver = false ∧ (r.sweepGroup now).2.group.isOver = true ∧
    s = (r.sweepGroup now).2.save true ∧ s.queue = r.queue ∧ s.receipts = r.receipts

theorem command_untouched {a : Action} (ha : a.command = some (viewer, b))
    (hidle : (∃ fault, (serve env now r a).1 = .error fault) ∨
      ∃ m receipt, r.loadJoinedMember viewer = some m ∧ r.receiptFor m.id b.key = some receipt) :
    Untouched now r (serve env now r a).2 ∧
      ((serve env now r a).2 = r ∨ (serve env now r a).1 = .error .groupEnded) := by
  rw [serve_command ha] at hidle ⊢
  split_ifs at hidle ⊢ with hvalid
  · dsimp only at hidle ⊢
    rcases Room.command_cases env now viewer r b.key b (b.apply env now viewer)
      with ⟨fault, hc⟩ | ⟨n, e, -, -, -, hc⟩ | ⟨hswept, hover, hc⟩ |
        ⟨n, u, stored, t, hruns, happly, hc⟩
    · rw [hc]
      exact ⟨Or.inl rfl, Or.inl rfl⟩
    · rw [hc]
      exact ⟨Or.inl rfl, Or.inl rfl⟩
    · rw [hc]
      -- a group that was over already isn't swept
      have hlive : r.group.isOver = false := by
        cases hr : r.group.isOver with
        | false => rfl
        | true =>
          rw [Room.sweepGroup, if_pos hr] at hswept
          cases hswept
      have hsame := sameQueue_sweepGroup now r
      exact ⟨Or.inr ⟨hlive, hover, rfl, hsame.queue, receipts_sweepGroup⟩, Or.inr rfl⟩
    · rw [hc] at hidle
      rcases hidle with ⟨fault, hfault⟩ | ⟨m, receipt, hm, hreceipt⟩
      · cases hfault
      · obtain rfl : m = n := Option.some.inj (hm.symm.trans hruns.admits.1)
        rw [hruns.fresh] at hreceipt
        cases hreceipt
  · exact ⟨Or.inl rfl, Or.inl rfl⟩

/-- Commands are answered once: what holds of the room `r` that the run `xs` from `start` ends in. -/
structure AnsweredOnce (start : Room) (xs : List Turn) (r : Room) : Prop where
  /-- No command takes effect twice. -/
  once : (effects start xs).Nodup
  /-- A receipt is that of a command of the run, with its answer. -/
  source : ∀ receipt ∈ r.receipts, Machine.Happened turn (Leaves receipt) start xs
  /-- With its receipt at hand, a retry is answered from it, and another body is refused. -/
  retry : ∀ (e : Event) viewer b m receipt, e.action.command = some (viewer, b) → b.valid = true →
    r.loadJoinedMember viewer = some m → r.receiptFor m.id b.key = some receipt →
    serve e.env e.now r e.action =
      (if receipt.body = b then .ok (b.shown e.env viewer receipt.answer.duplicate)
        else .error .idempotencyKeyReused, r)
  /-- Without it, a retry is refused: by its fence, unless it doesn't get there. -/
  forgotten : ∀ (e : Event) viewer b m, e.action.command = some (viewer, b) →
    r.loadJoinedMember viewer = some m → r.receiptFor m.id b.key = none →
    ⟨m.id, b.key, b⟩ ∈ effects start xs →
    ∃ fault, (serve e.env e.now r e.action).1 = .error fault ∧
      (fault ∈ [Fault.groupEnded, .rateLimited, .membershipRevoked, .hostRequired] ∨
        ∃ current, fault = .revisionConflict current ∧ b.expectedRevision < current)
  /-- A refusal changes nothing, but that a group which time has ended is saved so. -/
  refused : ∀ (e : Event) viewer b fault, e.action.command = some (viewer, b) →
    (serve e.env e.now r e.action).1 = .error fault →
    Untouched e.now r (serve e.env e.now r e.action).2 ∧
      ((serve e.env e.now r e.action).2 = r ∨ fault = .groupEnded)
  /-- What doesn't take effect changes nothing either. -/
  idle : ∀ (e : Event) viewer b, e.action.command = some (viewer, b) → effect r (.request e) = none →
    Untouched e.now r (serve e.env e.now r e.action).2

/-- **Commands are answered once.** In every run of a group, with receipts lost at any point, a
command takes effect at most once; a retry is answered from its receipt, or refused; and a refused
command leaves the room as it was, or as time had ended it. -/
theorem commands_once (now : ℤ) (viewer : Viewer) (device : DeviceID) (authority : HostAuthority)
    (xs : List Turn) (r : Room)
    (hrun : Machine.run turn (createGroup now viewer device authority) xs = some r) :
    AnsweredOnce (createGroup now viewer device authority) xs r := by
  obtain ⟨honce, hbehind⟩ := effects_once hrun
  refine ⟨honce, leaves_run rfl hrun, ?_, ?_, ?_, ?_⟩
  · intro e viewer b m receipt ha hvalid hm hreceipt
    rw [serve_command ha, if_pos hvalid, Room.command_retry _ _ _ _ hm hreceipt]
    split_ifs <;> rfl
  · intro e viewer b m ha hm hfresh heffect
    obtain ⟨hvalid, hfence⟩ := hbehind _ heffect
    rw [serve_command ha, if_pos hvalid]
    obtain ⟨fault, hfault, hwhy⟩ := command_late e.env e.now hm hfresh hfence
    refine ⟨fault, ?_, hwhy⟩
    dsimp only
    rw [hfault]
    rfl
  · intro e viewer b fault ha hfault
    obtain ⟨huntouched, hsame⟩ := command_untouched ha (Or.inl ⟨fault, hfault⟩)
    refine ⟨huntouched, hsame.imp_right fun hended => ?_⟩
    exact Except.error.inj (hfault.symm.trans hended)
  · intro e viewer b ha hnone
    refine (command_untouched ha ?_).1
    cases hanswer : (serve e.env e.now r e.action).1 with
    | error fault => exact Or.inl ⟨fault, rfl⟩
    | ok answer =>
      right
      -- it is answered, so the member is there, and its receipt
      cases hm : r.loadJoinedMember viewer with
      | none =>
        rw [serve_command ha, Room.command_stranger hm] at hanswer
        split_ifs at hanswer
        cases hanswer
      | some m =>
        cases hreceipt : r.receiptFor m.id b.key with
        | some receipt => exact ⟨m, receipt, rfl, hreceipt⟩
        | none =>
          unfold effect at hnone
          dsimp only at hnone
          rw [ha] at hnone
          dsimp only at hnone
          rw [hm, hanswer] at hnone
          dsimp only at hnone
          rw [hreceipt] at hnone
          cases hnone

/-- The host sets the group to repeat its queue, and sends that again. -/
def repeating : List Turn :=
  [.request ⟨⟨false, fun _ _ => true⟩, 1001, .settings ⟨1, 1, 1⟩ ⟨"a", 1, none, some .all⟩⟩,
    .request ⟨⟨false, fun _ _ => true⟩, 1002, .settings ⟨1, 1, 1⟩ ⟨"a", 1, none, some .all⟩⟩]

theorem commands_once_repeating : ∃ r,
    Machine.run turn (createGroup 1000 ⟨1, 1, 1⟩ 5 .hostOnly) repeating = some r ∧
      AnsweredOnce (createGroup 1000 ⟨1, 1, 1⟩ 5 .hostOnly) repeating r :=
  ⟨_, rfl, commands_once 1000 ⟨1, 1, 1⟩ 5 .hostOnly repeating _ rfl⟩

/-- Ten minutes after the host was last seen its command is refused, and the room has changed. -/
theorem commands_once_ended :
    (serve ⟨false, fun _ _ => true⟩ 601000 (createGroup 1000 ⟨1, 1, 1⟩ 5 .hostOnly)
      (.settings ⟨1, 1, 1⟩ ⟨"a", 1, none, some .all⟩)).1 = .error .groupEnded ∧
    (serve ⟨false, fun _ _ => true⟩ 601000 (createGroup 1000 ⟨1, 1, 1⟩ 5 .hostOnly)
      (.settings ⟨1, 1, 1⟩ ⟨"a", 1, none, some .all⟩)).2.group.state = .ended ∧
    (createGroup 1000 ⟨1, 1, 1⟩ 5 .hostOnly).group.state = .lobby := by
  decide +kernel

end Portico.WatchTogether
