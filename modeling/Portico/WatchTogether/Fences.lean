import Portico.WatchTogether.Agreement
import Portico.WatchTogether.Timeline
import Portico.WatchTogether.WritePath

/-!
# The revisions a read publishes

A command carries the revision its caller read, and is compared with the swept group's. The sweep
raises the playback revision when it pauses a group, which a reader doesn't see coming.

## Main results

* `Room.playbackRevision_sweepGroup`, `Room.governanceRevision_sweepGroup`: what the sweep does to
  the revisions
* `fences_iff`: when a command with the revision just read is refused by its fence
-/

namespace Portico.WatchTogether

variable {env : Env} {now : ℤ} {viewer : Viewer} {r s : Room} {m : Member}

namespace Room

/-! ## What the sweep does to the revisions -/

/-- The sweep pauses the group: its host has been silent past the pause boundary. -/
def Pauses (now : ℤ) (r : Room) : Prop :=
  r.group.isOver = false ∧ r.group.silence now < r.group.endAfter ∧
    r.group.pauseAfter ≤ r.group.silence now ∧ r.group.state ≠ .reconnectingPaused

instance : Decidable (r.Pauses now) := inferInstanceAs (Decidable (_ ∧ _))

variable (now r) in
theorem group_releaseWait_cases :
    (r.releaseWait now).2.group = r.group ∨
      r.group.state = .waiting ∧ (r.releaseWait now).2.group =
        { r.group with
          state := r.group.waitResumeState, resumeState := r.group.waitResumeState
          positionUpdatedMS := min now r.group.waitUntilMS, waitUntilMS := 0 } := by
  unfold releaseWait
  dsimp only
  by_cases hwait : r.group.state = .waiting
  · rw [if_neg (not_not.mpr hwait)]
    by_cases hheld : (r.members.any fun m => m.holds now r.group) = true ∧ now < r.group.waitUntilMS
    · rw [if_pos hheld]
      exact Or.inl rfl
    · rw [if_neg hheld]
      exact Or.inr ⟨hwait, rfl⟩
  · rw [if_pos hwait]
    exact Or.inl rfl

variable (now) in
/-- What the host timeline reads is what it was before the wait was looked at. -/
theorem timeline_reads (h : r.group.Stored) :
    let s := ((r.sweepMembers now).2.releaseWait now).2
    s.group.silence now = r.group.silence now ∧ s.group.endAfter = r.group.endAfter ∧
      s.group.pauseAfter = r.group.pauseAfter ∧
      s.group.playbackRevision = r.group.playbackRevision ∧
      s.group.governanceRevision = r.group.governanceRevision ∧
      (s.group.state = .reconnectingPaused ↔ r.group.state = .reconnectingPaused) := by
  intro s
  rcases group_releaseWait_cases now ((r.sweepMembers now).2) with hsame | ⟨hwait, hs⟩
  · have hgroup : s.group = r.group := hsame
    rw [hgroup]
    exact ⟨rfl, rfl, rfl, rfl, rfl, Iff.rfl⟩
  · have hwait : r.group.state = .waiting := hwait
    have hgroup : s.group = _ := hs
    rw [hgroup]
    refine ⟨rfl, rfl, rfl, rfl, rfl, iff_of_false ?_ ?_⟩
    · change r.group.waitResumeState ≠ .reconnectingPaused
      rcases h.waitResume_cases with hresume | hresume | hresume <;> simp [hresume]
    · simp [hwait]

/-- What the host timeline does: the group ends, pauses, is left alone or reported absent. -/
theorem timeline_cases (now : ℤ) (g : Group) :
    (g.endAfter ≤ g.silence now ∧ (g.timeline now).isOver = true) ∨
    (g.silence now < g.endAfter ∧ g.pauseAfter ≤ g.silence now ∧ g.state ≠ .reconnectingPaused ∧
      g.timeline now = { g.pauseAbsent now with playbackRevision := g.playbackRevision + 1 }) ∨
    (g.silence now < g.endAfter ∧ (g.silence now < g.pauseAfter ∨ g.state = .reconnectingPaused) ∧
      g.timeline now = g) ∨
    (g.silence now < g.endAfter ∧ g.silence now < g.pauseAfter ∧ hostGraceSeconds ≤ g.silence now ∧
      Group.isReconnecting g.state = false ∧ g.timeline now = g.reportAbsent) := by
  unfold Group.timeline
  by_cases hend : g.endAfter ≤ g.silence now
  · rw [if_pos hend]
    exact Or.inl ⟨hend, rfl⟩
  · rw [if_neg hend]
    have hend := not_le.mp hend
    by_cases hpause : g.pauseAfter ≤ g.silence now
    · rw [if_pos hpause]
      by_cases hpaused : g.state = .reconnectingPaused
      · rw [if_pos hpaused]
        exact Or.inr (Or.inr (Or.inl ⟨hend, Or.inr hpaused, rfl⟩))
      · rw [if_neg hpaused]
        exact Or.inr (Or.inl ⟨hend, hpause, hpaused, rfl⟩)
    · rw [if_neg hpause]
      have hpause := not_le.mp hpause
      by_cases hgrace : hostGraceSeconds ≤ g.silence now
      · rw [if_pos hgrace]
        cases hreconnecting : Group.isReconnecting g.state with
        | true =>
          rw [if_pos rfl]
          exact Or.inr (Or.inr (Or.inl ⟨hend, Or.inl hpause, rfl⟩))
        | false =>
          rw [if_neg (by simp)]
          exact Or.inr (Or.inr (Or.inr ⟨hend, hpause, hgrace, rfl, rfl⟩))
      · rw [if_neg hgrace]
        exact Or.inr (Or.inr (Or.inl ⟨hend, Or.inl hpause, rfl⟩))

theorem revisions_reportAbsent (g : Group) :
    g.reportAbsent.playbackRevision = g.playbackRevision ∧
      g.reportAbsent.governanceRevision = g.governanceRevision := by
  unfold Group.reportAbsent
  split_ifs <;> exact ⟨rfl, rfl⟩

/-- A group ends in the sweep when its host has been silent for the longest time, and only then. -/
theorem live_sweepGroup (h : r.group.Stored) (hlive : r.group.isOver = false)
    (hearly : r.group.silence now < r.group.endAfter) :
    (r.sweepGroup now).2.group.isOver = false := by
  obtain ⟨hsilence, hend, -⟩ := timeline_reads now h
  have hrelease : ((r.sweepMembers now).2.releaseWait now).2.group.isOver = false := by
    rcases group_releaseWait_cases now ((r.sweepMembers now).2) with
      hsame | ⟨-, hreleased⟩
    · rw [hsame]
      exact hlive
    · rw [hreleased]
      change (decide (r.group.waitResumeState = .ended) ||
        decide (r.group.waitResumeState = .failed)) = false
      rcases h.waitResume_cases with hresume | hresume | hresume <;> simp [hresume]
  rw [sweepGroup_live hlive, group_hostTimeline]
  generalize ((r.sweepMembers now).2.releaseWait now).2.group = g at *
  rcases timeline_cases now g with ⟨hover, -⟩ | ⟨-, -, -, htimeline⟩ | ⟨-, -, htimeline⟩ |
    ⟨-, -, -, -, htimeline⟩
  · rw [hsilence, hend] at hover
    exact absurd hover (not_le.mpr hearly)
  · rw [htimeline]
    rfl
  · rwa [htimeline]
  · rw [htimeline]
    unfold Group.reportAbsent
    split_ifs <;> rfl

theorem playbackRevision_sweepGroup (h : r.group.Stored)
    (hlive : (r.sweepGroup now).2.group.isOver = false) :
    (r.sweepGroup now).2.group.playbackRevision =
      r.group.playbackRevision + if r.Pauses now then 1 else 0 := by
  have hbefore := live_of_sweepGroup hlive
  obtain ⟨hsilence, hend, hpause, hrevision, -, hpaused⟩ := timeline_reads now h
  rw [sweepGroup_live hbefore] at hlive ⊢
  rw [group_hostTimeline] at hlive ⊢
  generalize ((r.sweepMembers now).2.releaseWait now).2.group = g at *
  rcases timeline_cases now g with ⟨-, hover⟩ | ⟨hlate, habsent, hstate, htimeline⟩ |
    ⟨-, hcase, htimeline⟩ | ⟨-, hearly, -, -, htimeline⟩
  · rw [hover] at hlive
    cases hlive
  · have hpauses : r.Pauses now := by
      rw [hsilence] at hlate habsent
      exact ⟨hbefore, hend ▸ hlate, hpause ▸ habsent, fun hr => hstate (hpaused.mpr hr)⟩
    rw [htimeline, if_pos hpauses, ← hrevision]
  · have hpauses : ¬ r.Pauses now := by
      rintro ⟨-, -, habsent, hstate⟩
      rw [hsilence, hpause] at hcase
      exact hcase.elim (not_lt.mpr habsent) fun hr => hstate (hpaused.mp hr)
    rw [htimeline, if_neg hpauses, hrevision, add_zero]
  · have hpauses : ¬ r.Pauses now := by
      rintro ⟨-, -, habsent, -⟩
      rw [hsilence, hpause] at hearly
      exact not_lt.mpr habsent hearly
    rw [htimeline, if_neg hpauses, (revisions_reportAbsent g).1, hrevision, add_zero]

theorem governanceRevision_sweepGroup (h : r.group.Stored)
    (hlive : (r.sweepGroup now).2.group.isOver = false) :
    (r.sweepGroup now).2.group.governanceRevision = r.group.governanceRevision := by
  have hbefore := live_of_sweepGroup hlive
  obtain ⟨-, -, -, -, hrevision, -⟩ := timeline_reads now h
  rw [sweepGroup_live hbefore] at hlive ⊢
  rw [group_hostTimeline] at hlive ⊢
  generalize ((r.sweepMembers now).2.releaseWait now).2.group = g at *
  rcases timeline_cases now g with ⟨-, hover⟩ | ⟨-, -, -, htimeline⟩ | ⟨-, -, htimeline⟩ |
    ⟨-, -, -, -, htimeline⟩
  · rw [hover] at hlive
    cases hlive
  · rw [htimeline]
    exact hrevision
  · rw [htimeline]
    exact hrevision
  · rw [htimeline, (revisions_reportAbsent g).2]
    exact hrevision

end Room

/-! ## Where a conflict comes from -/

/-- A command is refused by its fence when its caller may control the group, and the revision isn't
the group's. -/
theorem applyCommand_conflict {req : TransportRequest} {c : ℤ} :
    applyCommand env now req m r = .error (.revisionConflict c) ↔
      r.group.mayControl m = true ∧ req.expectedRevision ≠ r.group.playbackRevision ∧
        c = r.group.playbackRevision := by
  unfold applyCommand
  cases hcontrol : r.group.mayControl m with
  | false => simp
  | true =>
    rw [if_neg (by simp)]
    by_cases hfence : req.expectedRevision ≠ r.group.playbackRevision
    · rw [if_pos hfence]
      simp [hfence, eq_comm]
    · rw [if_neg hfence]
      refine iff_of_false (fun h => ?_) fun h => hfence h.2.1
      by_cases hallow : req.allowUnavailable = true ∧ m.role ≠ .host
      · rw [if_pos hallow] at h
        cases h
      · rw [if_neg hallow] at h
        dsimp only at h
        -- past the fence, what is left is the timeline's own refusals
        generalize (if m.role = .host then { r with group := r.group.hostReturned now } else r) = s
          at h
        cases happly : s.applyTransport env now req with
        | error fault =>
          rw [happly] at h
          rcases Room.applyTransport_error happly with rfl | rfl <;> cases h
        | ok result =>
          rw [happly] at h
          cases h

theorem applyEnd_conflict {expected c : ℤ}
    (h : applyEnd expected m r = .error (.revisionConflict c)) :
    expected ≠ r.group.governanceRevision := by
  unfold applyEnd at h
  split_ifs at h with hhost hcounter hfence <;> first | exact hfence | cases h

theorem applyTransfer_conflict {device : Option DeviceID} {req : TransferRequest} {c : ℤ}
    (h : applyTransfer now viewer device req m r = .error (.revisionConflict c)) :
    req.expectedRevision ≠ r.group.governanceRevision := by
  unfold applyTransfer at h
  split_ifs at h with hcounter hfence
  · cases h
  · exact hfence
  · cases h
  · cases h
  · split at h
    · cases h
    · split_ifs at h <;> cases h

/-! ## The result -/

namespace Room

/-- The command gets as far as its fence: it is well formed, its caller is a member that stays one,
may control the group, hasn't used the key and isn't limited. -/
def Fenced (env : Env) (now : ℤ) (viewer : Viewer) (req : TransportRequest) (r : Room) : Prop :=
  req.valid = true ∧ env.limited = false ∧ ∃ m, r.Admits now viewer m ∧
    r.receiptFor m.id req.idempotencyKey = none ∧ r.group.mayControl m = true

/-- A command with the stored revision is refused by its fence when the sweep pauses the group. -/
theorem transport_conflict {req : TransportRequest} (h : r.group.Stored)
    (hreq : req.expectedRevision = r.group.playbackRevision) :
    (∃ c, (transport env now viewer req r).1 = .error (.revisionConflict c)) ↔
      r.Pauses now ∧ r.Fenced env now viewer req := by
  have hpath : ∀ c, (transport env now viewer req r).1 = .error (.revisionConflict c) ↔
      req.valid = true ∧ ∃ m s, Runs env now viewer req.idempotencyKey r m s ∧
        applyCommand env now req { m with seenMS := now } s = .error (.revisionConflict c) :=
    fun c => transport_error_iff (by simp) (by simp) (by simp) (by simp) (by simp)
  constructor
  · rintro ⟨c, hc⟩
    obtain ⟨hvalid, m, s, hruns, happly⟩ := (hpath c).mp hc
    obtain ⟨hcontrol, hne, -⟩ := applyCommand_conflict.mp happly
    have hauthority := (keeps_sweepGroup now r).hostAuthority
    rw [hruns.room] at hcontrol hne
    refine ⟨?_, hvalid, hruns.free, m, hruns.admits, hruns.fresh, ?_⟩
    · by_contra hpauses
      apply hne
      change req.expectedRevision = (r.sweepGroup now).2.group.playbackRevision
      rw [playbackRevision_sweepGroup h hruns.live, if_neg hpauses, add_zero]
      exact hreq
    · unfold Group.mayControl at hcontrol ⊢
      rw [← hauthority]
      exact hcontrol
  · rintro ⟨hpauses, hvalid, hfree, m, hadmits, hfresh, hcontrol⟩
    have hlive : (r.sweepGroup now).2.group.isOver = false := by
      apply live_sweepGroup h hpauses.1
      exact hpauses.2.1
    refine ⟨_, (hpath _).mpr ⟨hvalid, m, _, ⟨hadmits, hfresh, hlive, hfree, rfl⟩,
      applyCommand_conflict.mpr ⟨?_, ?_, rfl⟩⟩⟩
    · have hauthority := (keeps_sweepGroup now r).hostAuthority
      unfold Group.mayControl at hcontrol ⊢
      change (decide (m.role = .host) ||
        decide ((r.sweepGroup now).2.group.hostAuthority = .anyone)) = true
      rw [hauthority]
      exact hcontrol
    · change req.expectedRevision ≠ (r.sweepGroup now).2.group.playbackRevision
      rw [playbackRevision_sweepGroup h hlive, if_pos hpauses, hreq]
      omega

theorem transferHost_conflict {device : Option DeviceID} {req : TransferRequest} {c : ℤ}
    (h : r.group.Stored) (hreq : req.expectedRevision = r.group.governanceRevision) :
    (transferHost env now viewer device req r).1 ≠ .error (.revisionConflict c) := by
  intro hc
  obtain ⟨m, s, henters, happly⟩ :=
    mutateGroup_error (by simp) (by simp) (by simp) hc
  apply applyTransfer_conflict happly
  rw [henters.room, hreq]
  exact (governanceRevision_sweepGroup h henters.live).symm

theorem endGroup_conflict {expected c : ℤ} (h : r.group.Stored)
    (hreq : expected = r.group.governanceRevision) :
    (WatchTogether.endGroup env now viewer expected r).1 ≠ .error (.revisionConflict c) := by
  intro hc
  obtain ⟨m, s, henters, happly⟩ :=
    mutateGroup_error (by simp) (by simp) (by simp) hc
  apply applyEnd_conflict happly
  rw [henters.room, hreq]
  exact (governanceRevision_sweepGroup h henters.live).symm

end Room

/-- A read shows the stored revisions, whatever time has done to the group since. -/
theorem readGroup_revisions {p : Projection} (h : readGroup env now viewer r = .ok p) :
    p.playbackRevision = r.group.playbackRevision ∧
      p.governanceRevision = r.group.governanceRevision := by
  unfold readGroup at h
  split at h
  · cases h
  · obtain rfl := Except.ok.inj h
    unfold Group.project Group.settled Group.pauseAbsent Group.reportAbsent
    dsimp only
    split_ifs <;> exact ⟨rfl, rfl⟩

/-- **When the revisions just read are good.** A transport command, a transfer and an end request
with the revisions a read has published aren't refused for them, unless the sweep before the command
reaches the pause boundary. A transfer and an end request never are. -/
theorem fences_iff (env₀ env : Env) (t now : ℤ) (viewer : Viewer) (r : Room) (p : Projection)
    (req : TransportRequest) (device : Option DeviceID) (treq : TransferRequest)
    (h : r.group.Stored) (hread : readGroup env₀ t viewer r = .ok p)
    (hreq : req.expectedRevision = p.playbackRevision)
    (htreq : treq.expectedRevision = p.governanceRevision) :
    (∀ c, (transport env now viewer req r).1 ≠ .error (.revisionConflict c) ∧
      (transferHost env now viewer device treq r).1 ≠ .error (.revisionConflict c) ∧
      (endGroup env now viewer p.governanceRevision r).1 ≠ .error (.revisionConflict c)) ↔
      ¬ (r.Pauses now ∧ r.Fenced env now viewer req) := by
  obtain ⟨hplayback, hgovernance⟩ := readGroup_revisions hread
  rw [← Room.transport_conflict h (hreq.trans hplayback)]
  constructor
  · rintro hall ⟨c, hc⟩
    exact (hall c).1 hc
  · intro hnone c
    refine ⟨fun hc => hnone ⟨c, hc⟩, ?_, ?_⟩
    · apply Room.transferHost_conflict h
      exact htreq.trans hgovernance
    · apply Room.endGroup_conflict h
      exact hgovernance

/-- A room whose host pressed play at 2000, and was seen then. -/
def watching : Room :=
  { loaded with
    group :=
      { loaded.group with state := .playing, resumeState := .playing, waitUntilMS := 0 } }

/-- The host asks for a pause with the revision it has just read. -/
def pauseRequest : TransportRequest where
  idempotencyKey := "k"
  expectedRevision := 1
  command := .pause
  positionUS := none
  queuePosition := none
  entryID := none
  rate := none
  allowUnavailable := false

def permissive : Env := ⟨false, fun _ _ => true⟩

theorem fences_watching :
    (transport permissive 62000 ⟨1, 1, 1⟩ pauseRequest watching).1 ≠ .error (.revisionConflict 1) :=
  ((fences_iff permissive permissive 62000 62000 ⟨1, 1, 1⟩ watching
    ((watching.group.settled 62000).project permissive 62000 ⟨1, 1, 1⟩ (watching.members.getD 0
      ⟨0, ⟨1, 1, 1⟩, .host, .joined, .ready, 0, 2000, 2000, 2000, 0⟩))
    pauseRequest none ⟨0, 1⟩ (by decide) (by decide +kernel) (by decide) (by decide)).mpr
      (fun hpauses => absurd hpauses.1 (by decide +kernel)) 1).1

theorem fences_absent :
    readGroup permissive 127000 ⟨1, 1, 1⟩ watching = .ok
      ((watching.group.settled 127000).project permissive 127000 ⟨1, 1, 1⟩
        ⟨0, ⟨1, 1, 1⟩, .host, .joined, .ready, 0, 2000, 2000, 2000, 0⟩) ∧
    ((watching.group.settled 127000).project permissive 127000 ⟨1, 1, 1⟩
        ⟨0, ⟨1, 1, 1⟩, .host, .joined, .ready, 0, 2000, 2000, 2000, 0⟩).playbackRevision = 1 ∧
    (transport permissive 127000 ⟨1, 1, 1⟩ pauseRequest watching).1 =
      .error (.revisionConflict 2) := by
  refine ⟨by decide +kernel, by decide +kernel, ?_⟩
  decide +kernel

end Portico.WatchTogether
