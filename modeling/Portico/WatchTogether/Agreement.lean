import Portico.WatchTogether.Room

/-!
# Readers and the sweep

A reader computes what the sweep would write. The two are written twice, and differ in two
assignments: the reader forgets the resume state when a wait ends, and the wait when a group does.

## Main results

* `Room.sweepGroup_sweepGroup`: a second sweep changes nothing
* `settled_agrees_iff`: when a reader agrees with the sweep
-/

namespace Portico.WatchTogether

variable {now : ℤ} {g : Group} {r : Room} {changed : Bool}

/-! ## The group after a sweep -/

namespace Group

/-- The group after its wait ended at the deadline. -/
def released (now : ℤ) (g : Group) : Group :=
  if g.state = .waiting ∧ g.waitUntilMS ≤ now then
    { g with
      state := g.waitResumeState, resumeState := g.waitResumeState
      positionUpdatedMS := g.waitUntilMS, waitUntilMS := 0 }
  else g

/-- The group after the host timeline. -/
def timeline (now : ℤ) (g : Group) : Group :=
  if g.endAfter ≤ g.silence now then
    { g with
      state := .ended, endedReason := .hostUnavailable, waitUntilMS := 0
      governanceRevision := g.governanceRevision + 1
      playbackRevision := g.playbackRevision + 1 }
  else if g.pauseAfter ≤ g.silence now then
    if g.state = .reconnectingPaused then g
    else { g.pauseAbsent now with playbackRevision := g.playbackRevision + 1 }
  else if hostGraceSeconds ≤ g.silence now then
    if isReconnecting g.state then g else g.reportAbsent
  else g

theorem Stored.waitResume_cases (h : g.Stored) :
    g.waitResumeState = .playing ∨ g.waitResumeState = .paused ∨ g.waitResumeState = .ready := by
  simpa using h.waitResume

theorem state_released (h : g.Stored) (hwait : g.state = .waiting) (hpast : g.waitUntilMS ≤ now) :
    (g.released now).state = g.waitResumeState ∧ (g.released now).state ≠ .waiting := by
  rw [released, if_pos ⟨hwait, hpast⟩]
  refine ⟨rfl, ?_⟩
  rcases h.waitResume_cases with hresume | hresume | hresume <;> simp [hresume]

@[simp] theorem silence_released : (g.released now).silence now = g.silence now := by
  unfold released
  split_ifs <;> rfl

end Group

namespace Room

/-- No member's report ends the wait before its deadline. -/
def Quiet (now : ℤ) (r : Room) : Prop :=
  r.group.state ≠ .waiting ∨ (∃ m ∈ r.members, m.holds now r.group = true) ∨
    r.group.waitUntilMS ≤ now

theorem holds_not_leaves {m : Member} (h : m.holds now g = true) : m.leaves now = false := by
  simp only [Member.holds, Bool.and_eq_true, decide_eq_true_eq] at h
  have hseen := h.1.2
  unfold Member.leaves
  rw [Bool.and_eq_false_iff]
  right
  rw [decide_eq_false_iff_not]
  unfold memberStaleSeconds memberLeaveSeconds at *
  omega

theorem any_holds_sweepMembers :
    ((r.sweepMembers now).2.members.any fun m => m.holds now g) =
      r.members.any fun m => m.holds now g := by
  simp only [sweepMembers, List.any_map]
  apply List.any_congr rfl
  intro m
  simp only [Function.comp_apply]
  split_ifs with hleaves
  · have hholds : m.holds now g = false := by
      rw [← Bool.not_eq_true]
      intro hholds
      rw [holds_not_leaves hholds] at hleaves
      cases hleaves
    rw [hholds]
    simp [Member.holds]
  · rfl

theorem group_releaseWait (hquiet : r.Quiet now) :
    ((r.sweepMembers now).2.releaseWait now).2.group = r.group.released now := by
  have hgroup : (r.sweepMembers now).2.group = r.group := rfl
  unfold releaseWait Group.released
  dsimp only
  rw [hgroup]
  by_cases hwait : r.group.state = .waiting
  · rw [if_neg (not_not.mpr hwait)]
    by_cases hpast : r.group.waitUntilMS ≤ now
    · rw [if_neg (fun h => absurd h.2 (not_lt.mpr hpast)), if_pos ⟨hwait, hpast⟩, min_eq_right hpast]
    · -- before its deadline a wait is held by some member
      obtain ⟨m, hm, hholds⟩ := (hquiet.resolve_left (not_not.mpr hwait)).resolve_right hpast
      have hany : ((r.sweepMembers now).2.members.any fun m => m.holds now r.group) = true := by
        rw [any_holds_sweepMembers]
        exact List.any_eq_true.mpr ⟨m, hm, hholds⟩
      rw [if_pos ⟨hany, not_le.mp hpast⟩, if_neg (fun h => hpast h.2), hgroup]
  · rw [if_pos hwait, if_neg (fun h => hwait h.1), hgroup]

theorem group_hostTimeline : (r.hostTimeline now changed).2.group = r.group.timeline now := by
  unfold hostTimeline Group.timeline
  dsimp only
  split_ifs <;> rfl

theorem group_sweepGroup (hquiet : r.Quiet now) :
    (r.sweepGroup now).2.group =
      if r.group.isOver then r.group else (r.group.released now).timeline now := by
  unfold sweepGroup
  split_ifs with hover
  · rfl
  · rw [← group_releaseWait hquiet]
    exact group_hostTimeline

end Room

/-! ## What the sweep leaves alone -/

namespace Group

/-- The fields no sweep touches. -/
structure Keeps (g g' : Group) : Prop where
  hostMemberID : g'.hostMemberID = g.hostMemberID
  hostAuthority : g'.hostAuthority = g.hostAuthority
  revision : g'.revision = g.revision
  queueRevision : g'.queueRevision = g.queueRevision
  settingsRevision : g'.settingsRevision = g.settingsRevision
  activitySeenMS : g'.activitySeenMS = g.activitySeenMS
  waitResumeState : g'.waitResumeState = g.waitResumeState
  reconnect : g'.reconnect = g.reconnect
  hostDevice : g'.hostDevice = g.hostDevice
  itemID : g'.itemID = g.itemID
  currentEntryID : g'.currentEntryID = g.currentEntryID
  rateNum : g'.rateNum = g.rateNum
  rateDen : g'.rateDen = g.rateDen
  queuePosition : g'.queuePosition = g.queuePosition
  shuffle : g'.shuffle = g.shuffle
  repeatMode : g'.repeatMode = g.repeatMode
  lastCommand : g'.lastCommand = g.lastCommand
  lastCommandID : g'.lastCommandID = g.lastCommandID
  hostSeenMS : g'.hostSeenMS = g.hostSeenMS
  pauseAfter : g'.pauseAfter = g.pauseAfter
  endAfter : g'.endAfter = g.endAfter
  readinessSummary : g'.readinessSummary = g.readinessSummary

theorem Keeps.refl (g : Group) : g.Keeps g := by
  constructor <;> rfl

theorem Keeps.trans {g g' g'' : Group} (h : g.Keeps g') (h' : g'.Keeps g'') : g.Keeps g'' := by
  constructor
  · exact h'.hostMemberID.trans h.hostMemberID
  · exact h'.hostAuthority.trans h.hostAuthority
  · exact h'.revision.trans h.revision
  · exact h'.queueRevision.trans h.queueRevision
  · exact h'.settingsRevision.trans h.settingsRevision
  · exact h'.activitySeenMS.trans h.activitySeenMS
  · exact h'.waitResumeState.trans h.waitResumeState
  · exact h'.reconnect.trans h.reconnect
  · exact h'.hostDevice.trans h.hostDevice
  · exact h'.itemID.trans h.itemID
  · exact h'.currentEntryID.trans h.currentEntryID
  · exact h'.rateNum.trans h.rateNum
  · exact h'.rateDen.trans h.rateDen
  · exact h'.queuePosition.trans h.queuePosition
  · exact h'.shuffle.trans h.shuffle
  · exact h'.repeatMode.trans h.repeatMode
  · exact h'.lastCommand.trans h.lastCommand
  · exact h'.lastCommandID.trans h.lastCommandID
  · exact h'.hostSeenMS.trans h.hostSeenMS
  · exact h'.pauseAfter.trans h.pauseAfter
  · exact h'.endAfter.trans h.endAfter
  · exact h'.readinessSummary.trans h.readinessSummary

theorem keeps_timeline : g.Keeps (g.timeline now) := by
  unfold timeline pauseAbsent reportAbsent
  split_ifs <;> constructor <;> rfl

end Group

namespace Room

theorem keeps_releaseWait : r.group.Keeps (r.releaseWait now).2.group := by
  unfold releaseWait
  dsimp only
  split_ifs <;> constructor <;> rfl

variable (now r) in
theorem keeps_sweepGroup : r.group.Keeps (r.sweepGroup now).2.group := by
  unfold sweepGroup
  split_ifs with hover
  · exact Group.Keeps.refl _
  · dsimp only
    have hrelease : r.group.Keeps ((r.sweepMembers now).2.releaseWait now).2.group :=
      keeps_releaseWait (r := (r.sweepMembers now).2)
    rw [group_hostTimeline]
    exact hrelease.trans Group.keeps_timeline

end Room

/-! ## Where the reader differs -/

/-- The fields a reader's group shares with the swept one. -/
structure Agrees (s g : Group) : Prop where
  state : s.state = g.state
  resumeState : s.resumeState = g.resumeState
  endedReason : s.endedReason = g.endedReason
  itemID : s.itemID = g.itemID
  positionUS : s.positionUS = g.positionUS
  positionUpdatedMS : s.positionUpdatedMS = g.positionUpdatedMS
  waitUntilMS : s.waitUntilMS = g.waitUntilMS

namespace Group

/-- A wait is over, and nothing but its end gives the group a resume state. -/
def ForgetsResume (now : ℤ) (g : Group) : Prop :=
  (g.state = .waiting ∧ g.waitUntilMS ≤ now) ∧ g.resumeState ≠ g.waitResumeState ∧
    (g.endAfter ≤ g.silence now ∨ g.silence now < g.pauseAfter ∧ g.silence now < hostGraceSeconds)

/-- The group is over with the deadline of a wait that hasn't passed, or was left behind. -/
def ForgetsWait (now : ℤ) (g : Group) : Prop :=
  g.isOver = false ∧ g.endAfter ≤ g.silence now ∧ g.waitUntilMS ≠ 0 ∧
    ¬ (g.state = .waiting ∧ g.waitUntilMS ≤ now)

instance : Decidable (g.ForgetsResume now) := inferInstanceAs (Decidable (_ ∧ _))

instance : Decidable (g.ForgetsWait now) := inferInstanceAs (Decidable (_ ∧ _))

theorem isReconnecting_iff {s : GroupState} : isReconnecting s = true ↔
    s = .reconnectingPlaying ∨ s = .reconnectingPaused := by
  cases s <;> simp [isReconnecting]

/-- Without the end of a wait the reader and the sweep make the same assignments but one. -/
theorem agrees_timeline (hover : g.isOver = false)
    (hwait : ¬ (g.state = .waiting ∧ g.waitUntilMS ≤ now)) :
    Agrees (g.settled now) (g.timeline now) ↔ ¬ g.ForgetsWait now := by
  unfold settled timeline ForgetsWait
  rw [if_neg (by simp [hover]), if_neg hwait]
  by_cases hend : g.endAfter ≤ g.silence now
  · rw [if_pos hend, if_pos hend]
    constructor
    · rintro h ⟨-, -, hne, -⟩
      exact hne h.waitUntilMS
    · intro h
      have hzero : g.waitUntilMS = 0 := by
        by_contra hne
        exact h ⟨hover, hend, hne, hwait⟩
      exact ⟨rfl, rfl, rfl, rfl, rfl, rfl, hzero⟩
  · rw [if_neg hend, if_neg hend]
    refine iff_of_true ?_ fun h => hend h.2.1
    split_ifs <;> exact ⟨rfl, rfl, rfl, rfl, rfl, rfl, rfl⟩

/-- At the end of a wait the reader forgets the resume state, unless a transition gives it one. -/
theorem agrees_released (h : g.Stored) (hwait : g.state = .waiting ∧ g.waitUntilMS ≤ now) :
    Agrees (g.settled now) ((g.released now).timeline now) ↔ ¬ g.ForgetsResume now := by
  have hover : g.isOver = false := by simp [isOver, hwait.1]
  have hpaused : g.waitResumeState ≠ .reconnectingPaused := by
    rcases h.waitResume_cases with hresume | hresume | hresume <;> simp [hresume]
  have hreconnecting : isReconnecting g.waitResumeState = false := by
    rcases h.waitResume_cases with hresume | hresume | hresume <;> simp [hresume, isReconnecting]
  have hsilence : ∀ s r t w, Group.silence now
      { g with state := s, resumeState := r, positionUpdatedMS := t, waitUntilMS := w } =
        g.silence now := fun _ _ _ _ => rfl
  unfold settled timeline released ForgetsResume
  rw [if_neg (by simp [hover]), if_pos hwait, if_pos hwait]
  simp only [hsilence, hpaused, hreconnecting, if_false, Bool.false_eq_true]
  by_cases hend : g.endAfter ≤ g.silence now
  · rw [if_pos hend, if_pos hend]
    constructor
    · rintro hagrees ⟨-, hne, -⟩
      exact hne hagrees.resumeState
    · intro hforget
      have heq : g.resumeState = g.waitResumeState := by
        by_contra hne
        exact hforget ⟨hwait, hne, Or.inl hend⟩
      exact ⟨rfl, heq, rfl, rfl, rfl, rfl, rfl⟩
  · rw [if_neg hend, if_neg hend]
    by_cases hpause : g.pauseAfter ≤ g.silence now
    · rw [if_pos hpause, if_pos hpause]
      refine iff_of_true ⟨rfl, rfl, rfl, rfl, rfl, rfl, rfl⟩ ?_
      rintro ⟨-, -, hcase | hcase⟩ <;> omega
    · rw [if_neg hpause, if_neg hpause]
      by_cases hgrace : hostGraceSeconds ≤ g.silence now
      · rw [if_pos hgrace, if_pos hgrace]
        refine iff_of_true ?_ ?_
        · unfold reportAbsent
          dsimp only
          split_ifs <;> exact ⟨rfl, rfl, rfl, rfl, rfl, rfl, rfl⟩
        · rintro ⟨-, -, hcase | hcase⟩ <;> omega
      · rw [if_neg hgrace, if_neg hgrace]
        constructor
        · rintro hagrees ⟨-, hne, -⟩
          exact hne hagrees.resumeState
        · intro hforget
          have heq : g.resumeState = g.waitResumeState := by
            by_contra hne
            exact hforget ⟨hwait, hne, Or.inr ⟨not_le.mp hpause, not_le.mp hgrace⟩⟩
          exact ⟨rfl, heq, rfl, rfl, rfl, rfl, rfl⟩

end Group

namespace Room

theorem agrees_sweepGroup (h : r.group.Stored) (hquiet : r.Quiet now) :
    Agrees (r.group.settled now) (r.sweepGroup now).2.group ↔
      ¬ r.group.ForgetsResume now ∧ ¬ r.group.ForgetsWait now := by
  rw [group_sweepGroup hquiet]
  cases hover : r.group.isOver with
  | true =>
    rw [if_pos rfl, Group.settled, if_pos hover]
    refine iff_of_true ⟨rfl, rfl, rfl, rfl, rfl, rfl, rfl⟩ ⟨fun hf => ?_, fun hf => ?_⟩
    · rw [Group.isOver, hf.1.1] at hover
      cases hover
    · rw [hf.1] at hover
      cases hover
  | false =>
    rw [if_neg (by simp)]
    by_cases hwait : r.group.state = .waiting ∧ r.group.waitUntilMS ≤ now
    · rw [Group.agrees_released h hwait]
      exact (and_iff_left fun hf => hf.2.2.2 hwait).symm
    · rw [Group.released, if_neg hwait, Group.agrees_timeline hover hwait]
      exact (and_iff_right fun hf => hwait hf.1).symm

end Room

namespace Group

theorem state_timeline (hstate : g.state ≠ .waiting) :
    (g.timeline now).state ≠ .waiting := by
  unfold timeline pauseAbsent reportAbsent
  split_ifs <;> simp_all

theorem state_settled (h : g.Stored) (hwait : g.state = .waiting ∧ g.waitUntilMS ≤ now) :
    (g.settled now).state ≠ .waiting := by
  have hover : g.isOver = false := by simp [isOver, hwait.1]
  have hresume : g.waitResumeState ≠ .waiting := by
    rcases h.waitResume_cases with hresume | hresume | hresume <;> simp [hresume]
  unfold settled pauseAbsent reportAbsent
  rw [if_neg (by simp [hover]), if_pos hwait]
  dsimp only
  split_ifs <;> simp [hresume]

/-- Without the end of a wait, the timeline changes a group exactly when a reader sees another
state. -/
theorem due_timeline (hover : g.isOver = false)
    (hwait : ¬ (g.state = .waiting ∧ g.waitUntilMS ≤ now)) :
    g.due now = true ↔ g.timeline now ≠ g := by
  have hstate : g.state ≠ .ended := by
    intro hended
    simp [isOver, hended] at hover
  unfold due
  rw [if_neg (by simp [hover])]
  simp only [Bool.or_eq_true, decide_eq_true_eq]
  unfold settled timeline
  rw [if_neg (by simp [hover]), if_neg hwait]
  dsimp only
  by_cases hend : g.endAfter ≤ g.silence now
  · rw [if_pos hend, if_pos hend]
    refine iff_of_true (Or.inl (Ne.symm hstate)) fun heq => ?_
    exact hstate (congrArg state heq).symm
  · rw [if_neg hend, if_neg hend]
    by_cases hpause : g.pauseAfter ≤ g.silence now
    · rw [if_pos hpause, if_pos hpause]
      by_cases hpaused : g.state = .reconnectingPaused
      · rw [if_pos hpaused, if_pos hpaused]
        simp
      · rw [if_neg hpaused, if_neg hpaused]
        refine iff_of_true (Or.inl (Ne.symm hpaused)) fun heq => ?_
        exact hpaused (congrArg state heq).symm
    · rw [if_neg hpause, if_neg hpause]
      by_cases hgrace : hostGraceSeconds ≤ g.silence now
      · rw [if_pos hgrace]
        by_cases hreconnecting : isReconnecting g.state = true
        · rw [if_pos hreconnecting]
          simp
        · rw [if_neg hreconnecting]
          -- the group becomes a reconnecting one
          have hne : g.reportAbsent.state ≠ g.state := by
            intro heq
            apply hreconnecting
            rw [← heq]
            unfold reportAbsent
            split_ifs <;> rfl
          exact iff_of_true (Or.inl hne) fun heq => hne (congrArg state heq)
      · rw [if_neg hgrace]
        simp

end Group

namespace Room

theorem due_sweepGroup (h : r.group.Stored) (hquiet : r.Quiet now) :
    r.group.due now = true ↔ (r.sweepGroup now).2.group ≠ r.group := by
  rw [group_sweepGroup hquiet]
  cases hover : r.group.isOver with
  | true =>
    rw [if_pos rfl, Group.due, if_pos hover]
    simp
  | false =>
    rw [if_neg (by simp)]
    by_cases hwait : r.group.state = .waiting ∧ r.group.waitUntilMS ≤ now
    · have hreader := Group.state_settled h hwait
      have hwriter : ((r.group.released now).timeline now).state ≠ .waiting := by
        apply Group.state_timeline
        exact (Group.state_released h hwait.1 hwait.2).2
      refine iff_of_true ?_ fun heq => ?_
      · rw [Group.due, if_neg (by simp [hover]), Bool.or_eq_true, decide_eq_true_eq]
        left
        rwa [hwait.1]
      · rw [heq] at hwriter
        exact hwriter hwait.1
    · rw [Group.released, if_neg hwait]
      exact Group.due_timeline hover hwait

/-! ## A second sweep -/

theorem sweepMembers_of_none (h : ∀ m ∈ r.members, m.leaves now = false) :
    r.sweepMembers now = (false, r) := by
  have hany : (r.members.any fun m => m.leaves now) = false := by
    rw [List.any_eq_false]
    intro m hm
    rw [h m hm]
    simp
  have hmap : (r.members.map fun m => if m.leaves now then { m with state := .left } else m) =
      r.members := by
    conv_rhs => rw [← List.map_id r.members]
    refine List.map_congr_left fun m hm => ?_
    rw [h m hm]
    rfl
  rw [sweepMembers, hany, hmap]

theorem leaves_sweepMembers : ∀ m ∈ (r.sweepMembers now).2.members, m.leaves now = false := by
  intro m hm
  obtain ⟨n, -, rfl⟩ := List.mem_map.mp hm
  cases hleaves : n.leaves now with
  | true => simp [Member.leaves]
  | false => simpa using hleaves

theorem members_releaseWait : (r.releaseWait now).2.members = r.members := by
  unfold releaseWait
  dsimp only
  split_ifs <;> rfl

theorem members_hostTimeline : (r.hostTimeline now changed).2.members = r.members := by
  unfold hostTimeline endGroup
  dsimp only
  split_ifs <;> rfl

@[simp] theorem isOver_endGroup {reason : EndedReason} : (r.endGroup reason).group.isOver = true :=
  rfl

theorem hostTimeline_hostTimeline
    (hover : (r.hostTimeline now changed).2.group.isOver = false) :
    (r.hostTimeline now changed).2.hostTimeline now false =
      (false, (r.hostTimeline now changed).2) := by
  unfold hostTimeline at hover ⊢
  dsimp only at hover ⊢
  by_cases hend : r.group.endAfter ≤ r.group.silence now
  · rw [if_pos hend] at hover
    cases hover
  · simp only [if_neg hend] at hover ⊢
    by_cases hpause : r.group.pauseAfter ≤ r.group.silence now
    · simp only [if_pos hpause] at hover ⊢
      by_cases hpaused : r.group.state = .reconnectingPaused
      · simp only [if_pos hpaused, if_neg hend, if_pos hpause]
      · -- the pause keeps the silence, and leaves the group paused
        simp only [if_neg hpaused]
        exact (if_neg hend).trans ((if_pos hpause).trans (if_pos rfl))
    · simp only [if_neg hpause] at hover ⊢
      by_cases hgrace : hostGraceSeconds ≤ r.group.silence now
      · simp only [if_pos hgrace] at hover ⊢
        by_cases hreconnecting : Group.isReconnecting r.group.state = true
        · simp only [if_pos hreconnecting, if_neg hend, if_neg hpause, if_pos hgrace]
        · simp only [if_neg hreconnecting]
          have hafter : Group.isReconnecting r.group.reportAbsent.state = true := by
            unfold Group.reportAbsent
            split_ifs <;> rfl
          have hsilence : r.group.reportAbsent.silence now = r.group.silence now := by
            unfold Group.reportAbsent
            split_ifs <;> rfl
          have hbounds : r.group.reportAbsent.endAfter = r.group.endAfter ∧
              r.group.reportAbsent.pauseAfter = r.group.pauseAfter := by
            unfold Group.reportAbsent
            split_ifs <;> exact ⟨rfl, rfl⟩
          rw [hsilence, hbounds.1, hbounds.2, if_neg hend, if_neg hpause, if_pos hgrace,
            if_pos hafter]
      · simp only [if_neg hgrace, if_neg hend, if_neg hpause]

/-- A wait goes on: some member holds it, and its deadline hasn't passed. -/
def Held (now : ℤ) (r : Room) : Prop :=
  (r.members.any fun m => m.holds now r.group) = true ∧ now < r.group.waitUntilMS

theorem releaseWait_of_held (h : r.group.state ≠ .waiting ∨ r.Held now) :
    r.releaseWait now = (false, r) := by
  unfold releaseWait
  dsimp only
  rcases h with hstate | hheld
  · rw [if_pos hstate]
  · by_cases hstate : r.group.state ≠ .waiting
    · rw [if_pos hstate]
    · rw [if_neg hstate]
      exact if_pos hheld

theorem held_releaseWait (h : r.group.Stored) :
    (r.releaseWait now).2.group.state ≠ .waiting ∨ (r.releaseWait now).2.Held now := by
  by_cases hwait : r.group.state ≠ .waiting ∨ r.Held now
  · rw [releaseWait_of_held hwait]
    exact hwait
  · left
    rw [not_or] at hwait
    have hheld : ¬ ((r.members.any fun m => m.holds now r.group) = true ∧
        now < r.group.waitUntilMS) := hwait.2
    unfold releaseWait
    dsimp only
    rw [if_neg hwait.1, if_neg hheld]
    rcases h.waitResume_cases with hresume | hresume | hresume <;> simp [hresume]

theorem hostTimeline_waiting (h : (r.hostTimeline now changed).2.group.state = .waiting) :
    (r.hostTimeline now changed).2 = r := by
  unfold hostTimeline Group.reportAbsent Group.pauseAbsent at h ⊢
  dsimp only at h ⊢
  split_ifs at h ⊢ <;> first | rfl | (exfalso; revert h; simp [endGroup])

theorem sweepGroup_live (hlive : r.group.isOver = false) :
    r.sweepGroup now =
      ((r.sweepMembers now).2.releaseWait now).2.hostTimeline now
        ((r.sweepMembers now).1 || ((r.sweepMembers now).2.releaseWait now).1) := by
  unfold sweepGroup
  exact if_neg (by simp [hlive])

/-- **A second sweep at the same instant changes nothing.** -/
theorem sweepGroup_sweepGroup (h : r.group.Stored) :
    (r.sweepGroup now).2.sweepGroup now = (false, (r.sweepGroup now).2) := by
  cases hover : (r.sweepGroup now).2.group.isOver with
  | true => exact if_pos hover
  | false =>
    have hlive : r.group.isOver = false := by
      cases hr : r.group.isOver with
      | false => rfl
      | true =>
        rw [sweepGroup, if_pos hr, hr] at hover
        cases hover
    rw [sweepGroup_live hover, sweepGroup_live hlive]
    rw [sweepGroup_live hlive] at hover
    generalize hr₂ : ((r.sweepMembers now).2.releaseWait now).2 = r₂ at hover ⊢
    generalize ((r.sweepMembers now).1 || ((r.sweepMembers now).2.releaseWait now).1) = b
      at hover ⊢
    generalize hr₃ : (r₂.hostTimeline now b).2 = r₃ at hover ⊢
    -- nobody is left to leave
    have hmembers : r₃.members = (r.sweepMembers now).2.members := by
      rw [← hr₃, members_hostTimeline, ← hr₂, members_releaseWait]
    have hsweep : r₃.sweepMembers now = (false, r₃) := by
      apply sweepMembers_of_none
      rw [hmembers]
      exact leaves_sweepMembers
    -- a wait that was held is held still, and no other wait has begun
    have hheld : r₂.group.state ≠ .waiting ∨ r₂.Held now := by
      rw [← hr₂]
      apply held_releaseWait
      exact h
    have hrelease : r₃.releaseWait now = (false, r₃) := by
      apply releaseWait_of_held
      by_cases hwait : r₃.group.state = .waiting
      · rw [← hr₃, hostTimeline_waiting (by rwa [hr₃])]
        exact hheld
      · exact Or.inl hwait
    rw [hsweep]
    dsimp only
    rw [hrelease, ← hr₃]
    apply hostTimeline_hostTimeline
    rwa [hr₃]

end Room

/-! ## The result -/

/-- **When a reader agrees with the sweep.** Unless a member's report ends the wait early, a reader
sees the fields the sweep writes, a group is due when the sweep changes it, and a second sweep
changes nothing. The first holds exactly when no wait ended without the reader's resume state, and
no group ended with the deadline of a wait. -/
theorem settled_agrees_iff (r : Room) (now : ℤ) (h : r.group.Stored) (hquiet : r.Quiet now) :
    (Agrees (r.group.settled now) (r.sweepGroup now).2.group ∧
      (r.group.due now = true ↔ (r.sweepGroup now).2.group ≠ r.group) ∧
      (r.sweepGroup now).2.sweepGroup now = (false, (r.sweepGroup now).2)) ↔
      ¬ r.group.ForgetsResume now ∧ ¬ r.group.ForgetsWait now := by
  rw [Room.agrees_sweepGroup h hquiet]
  constructor
  · rintro ⟨hagrees, -, -⟩
    exact hagrees
  · intro hagrees
    exact ⟨hagrees, Room.due_sweepGroup h hquiet, Room.sweepGroup_sweepGroup h⟩

/-- A room with one entry loaded: it waits until 7000. -/
def loaded : Room :=
  let r := createGroup 2000 ⟨1, 1, 1⟩ 5 .hostOnly
  { r with
    group :=
      { r.group with
        itemID := some 7, currentEntryID := some 3, waitUntilMS := 7000
        state := .waiting, waitResumeState := .ready, resumeState := .paused }
    queue := [⟨3, 0, 7, 1⟩] }

theorem settled_agrees_early :
    loaded.group.Stored ∧ loaded.Quiet 8000 ∧ ¬ (Agrees (loaded.group.settled 8000)
      (loaded.sweepGroup 8000).2.group) := by
  refine ⟨by decide, Or.inr (Or.inr (by decide)), fun h => ?_⟩
  exact absurd h.resumeState (by decide +kernel)

theorem settled_agrees_playing :
    Agrees (({ loaded.group with resumeState := .ready }).settled 8000)
      (({ loaded with group := { loaded.group with resumeState := .ready } }).sweepGroup 8000).2.group :=
  ((settled_agrees_iff { loaded with group := { loaded.group with resumeState := .ready } } 8000
    (by decide) (Or.inr (Or.inr (by decide)))).mpr ⟨by decide, by decide⟩).1

end Portico.WatchTogether
