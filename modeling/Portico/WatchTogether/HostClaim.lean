import Portico.WatchTogether.Fences

/-!
# Claiming the host

A read publishes whether a member may claim the host, from the group it computes and the member's
stored facts. The claim itself is checked on the swept group, after it has refreshed the member's
presence. The two rules are one function, on facts that the write path has moved.

## Main results

* `canClaimHost_iff`, `transferHost_accepted`: both, on the stored facts
* `canClaimHost_agrees_iff`: when the permission published is the answer given
-/

namespace Portico.WatchTogether

variable {env : Env} {now : ℤ} {viewer : Viewer} {g : Group} {r s : Room} {m : Member}

namespace Group

/-- The host has been silent past the pause boundary. -/
def Absent (now : ℤ) (g : Group) : Prop := g.pauseAfter * 1000 ≤ now - g.hostSeenMS

instance : Decidable (g.Absent now) := inferInstanceAs (Decidable (_ ≤ _))

theorem keeps_settled : g.Keeps (g.settled now) := by
  unfold settled pauseAbsent reportAbsent
  dsimp only
  split_ifs <;> constructor <;> rfl

theorem Absent.silence (h : g.Absent now) (hhost : g.hostAuthority = .hostOnly) :
    g.pauseAfter ≤ g.silence now := by
  unfold Group.silence
  rw [if_neg (by simp [hhost])]
  apply Int.le_tdiv_of_mul_le (by decide)
  exact h

variable (now) in
/-- What a reader sees of a group that isn't over: its end, its pause, or a state it had before. -/
theorem settled_cases (h : g.Stored) (hlive : g.isOver = false) :
    (g.endAfter ≤ g.silence now ∧ (g.settled now).state = .ended) ∨
    (g.silence now < g.endAfter ∧ (g.settled now).isOver = false ∧
      (g.pauseAfter ≤ g.silence now → (g.settled now).state = .reconnectingPaused)) := by
  unfold settled
  rw [if_neg (by simp [hlive])]
  dsimp only
  generalize hg' : (if g.state = .waiting ∧ g.waitUntilMS ≤ now then
      { g with state := g.waitResumeState, positionUpdatedMS := g.waitUntilMS, waitUntilMS := 0 }
    else g) = g'
  have hreads : g'.silence now = g.silence now ∧ g'.endAfter = g.endAfter ∧
      g'.pauseAfter = g.pauseAfter := by
    rw [← hg']
    split_ifs <;> exact ⟨rfl, rfl, rfl⟩
  have hlive' : g'.isOver = false := by
    rw [← hg']
    split_ifs
    · change (decide (g.waitResumeState = .ended) || decide (g.waitResumeState = .failed)) = false
      rcases h.waitResume_cases with hresume | hresume | hresume <;> simp [hresume]
    · exact hlive
  rw [hreads.1, hreads.2.1, hreads.2.2]
  by_cases hend : g.endAfter ≤ g.silence now
  · rw [if_pos hend]
    exact Or.inl ⟨hend, rfl⟩
  · rw [if_neg hend]
    refine Or.inr ⟨not_le.mp hend, ?_⟩
    by_cases hpause : g.pauseAfter ≤ g.silence now
    · rw [if_pos hpause]
      by_cases hpaused : g'.state = .reconnectingPaused
      · rw [if_pos hpaused]
        exact ⟨hlive', fun _ => hpaused⟩
      · rw [if_neg hpaused]
        exact ⟨rfl, fun _ => rfl⟩
    · rw [if_neg hpause]
      refine ⟨?_, fun hp => absurd hp hpause⟩
      unfold reportAbsent
      split_ifs <;> first | exact hlive' | rfl

theorem ended_isOver (h : g.state = .ended) : g.isOver = true := by
  simp [isOver, h]

end Group

theorem governance_iff (hrole : m.role ≠ .host) (hjoined : m.state = .joined) :
    hostClaimGovernanceAllowed now g m = true ↔
      g.state ≠ .ended ∧ (Group.isReconnecting g.state = true ∨ g.hostAuthority = .anyone) ∧
        g.Absent now := by
  unfold hostClaimGovernanceAllowed Group.Absent
  simp only [Bool.and_eq_true, Bool.or_eq_true, decide_eq_true_eq, hrole, hjoined, ne_eq,
    not_false_eq_true, true_and]
  tauto

theorem claim_iff :
    hostClaimAllowed now g m = true ↔ hostClaimGovernanceAllowed now g m = true ∧
      m.readiness = .ready ∧ now - m.lastSeen ≤ hostGraceSeconds * 1000 ∧
      now - m.readinessMS ≤ readinessStaleSeconds * 1000 ∧
      (g.itemID = none ∨ m.readinessRevision = g.playbackRevision) := by
  unfold hostClaimAllowed
  simp only [Bool.and_eq_true, Bool.or_eq_true, decide_eq_true_eq]
  tauto

/-! ## What the read publishes -/

/-- The window of a member on the group a reader sees, in terms of the stored group. -/
theorem governance_settled (h : g.Stored) (hrole : m.role ≠ .host) (hjoined : m.state = .joined) :
    hostClaimGovernanceAllowed now (g.settled now) m = true ↔
      g.Absent now ∧ (g.state = .failed ∧ g.hostAuthority = .anyone ∨
        g.isOver = false ∧ g.silence now < g.endAfter) := by
  have hkeeps : g.Keeps (g.settled now) := Group.keeps_settled
  have habsent : (g.settled now).Absent now ↔ g.Absent now := by
    unfold Group.Absent
    rw [hkeeps.pauseAfter, hkeeps.hostSeenMS]
  rw [governance_iff hrole hjoined, habsent, hkeeps.hostAuthority]
  cases hover : g.isOver with
  | true =>
    -- a group that is over is shown as it is stored
    have hsame : g.settled now = g := if_pos hover
    rw [hsame]
    unfold Group.isOver at hover
    simp only [Bool.or_eq_true, decide_eq_true_eq] at hover
    rcases hover with hover | hover <;> simp [hover, Group.isReconnecting, and_comm]
  | false =>
    have hfailed : g.state ≠ .failed := by
      intro hfailed
      simp [Group.isOver, hfailed] at hover
    rcases Group.settled_cases now h hover with ⟨hend, hended⟩ | ⟨hend, hlive, hpaused⟩
    · refine iff_of_false (fun hall => hall.1 hended) ?_
      rintro ⟨-, hcase | hcase⟩
      · exact hfailed hcase.1
      · exact not_lt.mpr hend hcase.2
    · have hne : (g.settled now).state ≠ .ended := by
        intro hended
        rw [Group.ended_isOver hended] at hlive
        cases hlive
      constructor
      · rintro ⟨-, -, hlate⟩
        exact ⟨hlate, Or.inr ⟨rfl, hend⟩⟩
      · rintro ⟨hlate, -⟩
        refine ⟨hne, ?_, hlate⟩
        cases hauthority : g.hostAuthority with
        | anyone => exact Or.inr rfl
        | hostOnly =>
          left
          rw [hpaused (hlate.silence hauthority)]
          rfl

/-- The member's report is fresh, and says it is ready. -/
def Member.Ready (now : ℤ) (m : Member) : Prop :=
  m.readiness = .ready ∧ now - m.readinessMS ≤ readinessStaleSeconds * 1000

instance : Decidable (m.Ready now) := inferInstanceAs (Decidable (_ ∧ _))

/-- The member's report is about this playback revision, or nothing is loaded. -/
def Member.Fits (g : Group) (revision : ℤ) (m : Member) : Prop :=
  g.itemID = none ∨ m.readinessRevision = revision

instance {revision : ℤ} : Decidable (m.Fits g revision) := inferInstanceAs (Decidable (_ ∨ _))

/-- The group lasts, with its host past the pause boundary. -/
def Group.Open (now : ℤ) (g : Group) : Prop :=
  g.Absent now ∧ g.isOver = false ∧ g.silence now < g.endAfter

/-- The permission a read publishes, in terms of the stored facts. -/
def Claimable (now : ℤ) (g : Group) (m : Member) : Prop :=
  (g.Open now ∨ g.Absent now ∧ g.state = .failed ∧ g.hostAuthority = .anyone) ∧ m.Ready now ∧
    now - m.lastSeen ≤ hostGraceSeconds * 1000 ∧ m.Fits g g.playbackRevision

theorem revisions_settled :
    (g.settled now).playbackRevision = g.playbackRevision ∧
      (g.settled now).governanceRevision = g.governanceRevision := by
  unfold Group.settled Group.pauseAbsent Group.reportAbsent
  dsimp only
  split_ifs <;> exact ⟨rfl, rfl⟩

theorem canClaimHost_iff (h : g.Stored) (hrole : m.role ≠ .host) (hjoined : m.state = .joined) :
    ((g.settled now).project env now viewer m).canClaimHost = true ↔ Claimable now g m := by
  change hostClaimAllowed now (g.settled now) m = true ↔ _
  rw [claim_iff, governance_settled h hrole hjoined, (Group.keeps_settled).itemID,
    revisions_settled.1]
  unfold Claimable Group.Open Member.Ready Member.Fits
  tauto

/-! ## What the claim is answered -/

namespace Room

/-- The claim is accepted, in terms of the stored facts: the caller has been seen by the write path,
and the sweep may have raised the revision. -/
def Accepts (env : Env) (now : ℤ) (r : Room) (m : Member) : Prop :=
  env.limited = false ∧ parseCounter r.group.governanceRevision = true ∧ m.leaves now = false ∧
    r.group.Open now ∧ m.Ready now ∧
    m.Fits r.group (r.group.playbackRevision + if r.Pauses now then 1 else 0)

theorem members_seen : (r.seen now m.id).members =
    r.members.map fun n => if n.id = m.id then { n with seenMS := now } else n := rfl

theorem find_member {members : List Member} (hids : (members.map Member.id).Nodup)
    (hm : m ∈ members) : members.find? (fun t => decide (t.id = m.id)) = some m := by
  cases hfind : members.find? fun t => decide (t.id = m.id) with
  | none =>
    rw [List.find?_eq_none] at hfind
    exact absurd (hfind m hm) (by simp)
  | some t =>
    have hid : t.id = m.id := by simpa using List.find?_some hfind
    rw [List.inj_on_of_nodup_map hids (List.mem_of_find?_eq_some hfind) hm hid]

theorem find_claimant (hids : (r.members.map Member.id).Nodup) (hlive : r.group.isOver = false)
    (hadmits : r.Admits now viewer m) :
    ((r.sweepGroup now).2.seen now m.id).members.find? (fun t => decide (t.id = m.id)) =
      some { m with seenMS := now } := by
  obtain ⟨hmem, -, -⟩ := mem_of_loadJoinedMember hadmits.1
  rw [members_seen, members_sweepGroup hlive, List.map_map, List.find?_map]
  have hpred : ((fun t : Member => decide (t.id = m.id)) ∘
      ((fun n : Member => if n.id = m.id then { n with seenMS := now } else n) ∘
        fun n : Member => if n.leaves now then { n with state := .left } else n)) =
      fun t : Member => decide (t.id = m.id) := by
    funext t
    simp only [Function.comp_apply]
    split_ifs <;> rfl
  rw [hpred, find_member hids hmem]
  simp [hadmits.2]

theorem enters_iff (hadmits : r.loadJoinedMember viewer = some m) :
    (∃ n s, Enters env now viewer r n s) ↔
      m.leaves now = false ∧ env.limited = false ∧ (r.sweepGroup now).2.group.isOver = false := by
  constructor
  · rintro ⟨n, s, henters⟩
    obtain rfl : m = n := Option.some.inj (hadmits.symm.trans henters.admits.1)
    exact ⟨henters.admits.2, henters.free, henters.live⟩
  · rintro ⟨hstays, hfree, hlive⟩
    exact ⟨m, _, ⟨⟨hadmits, hstays⟩, hlive, hfree, rfl⟩⟩

theorem live_sweepGroup_iff (h : r.group.Stored) :
    (r.sweepGroup now).2.group.isOver = false ↔
      r.group.isOver = false ∧ r.group.silence now < r.group.endAfter := by
  constructor
  · intro hlive
    have hbefore := live_of_sweepGroup hlive
    refine ⟨hbefore, ?_⟩
    by_contra hlate
    obtain ⟨hsilence, hend, -⟩ := timeline_reads now h
    rw [sweepGroup_live hbefore, group_hostTimeline] at hlive
    rcases timeline_cases now ((r.sweepMembers now).2.releaseWait now).2.group with
      ⟨-, hover⟩ | ⟨hearly, -⟩ | ⟨hearly, -⟩ | ⟨hearly, -⟩
    · rw [hover] at hlive
      cases hlive
    all_goals
      rw [hsilence, hend] at hearly
      exact hlate hearly
  · rintro ⟨hlive, hearly⟩
    exact live_sweepGroup h hlive hearly

theorem state_sweepGroup_absent (h : r.group.Stored) (hlive : r.group.isOver = false)
    (hearly : r.group.silence now < r.group.endAfter)
    (habsent : r.group.pauseAfter ≤ r.group.silence now) :
    (r.sweepGroup now).2.group.state = .reconnectingPaused := by
  obtain ⟨hsilence, hend, hpause, -⟩ := timeline_reads now h
  rw [sweepGroup_live hlive, group_hostTimeline]
  generalize ((r.sweepMembers now).2.releaseWait now).2.group = g at *
  rcases timeline_cases now g with ⟨hover, -⟩ | ⟨-, -, -, htimeline⟩ | ⟨-, hcase, htimeline⟩ |
    ⟨-, hpresent, -⟩
  · rw [hsilence, hend] at hover
    exact absurd hover (not_le.mpr hearly)
  · rw [htimeline]
    rfl
  · rw [hsilence, hpause] at hcase
    rw [htimeline]
    exact hcase.resolve_left (not_lt.mpr habsent)
  · rw [hsilence, hpause] at hpresent
    exact absurd habsent (not_le.mpr hpresent)

theorem governance_sweepGroup (h : r.group.Stored) (hrole : m.role ≠ .host)
    (hjoined : m.state = .joined) (hlive : (r.sweepGroup now).2.group.isOver = false) :
    hostClaimGovernanceAllowed now ((r.sweepGroup now).2.seen now m.id).group m = true ↔
      r.group.Absent now := by
  have hkeeps := keeps_sweepGroup now r
  have hne : (r.sweepGroup now).2.group.state ≠ .ended := by
    intro hended
    rw [Group.ended_isOver hended] at hlive
    cases hlive
  obtain ⟨hbefore, hearly⟩ := (live_sweepGroup_iff h).mp hlive
  rw [governance_iff hrole hjoined]
  change _ ∧ (Group.isReconnecting (r.sweepGroup now).2.group.state = true ∨
    (r.sweepGroup now).2.group.hostAuthority = .anyone) ∧
    (r.sweepGroup now).2.group.pauseAfter * 1000 ≤ now - (r.sweepGroup now).2.group.hostSeenMS ↔ _
  rw [hkeeps.hostAuthority, hkeeps.pauseAfter, hkeeps.hostSeenMS]
  constructor
  · rintro ⟨-, -, hlate⟩
    exact hlate
  · intro hlate
    refine ⟨hne, ?_, hlate⟩
    cases hauthority : r.group.hostAuthority with
    | anyone => exact Or.inr rfl
    | hostOnly =>
      left
      rw [state_sweepGroup_absent h hbefore hearly (hlate.silence hauthority)]
      rfl

theorem applyTransfer_claim {device : Option DeviceID} {expected : ℤ} (hrole : m.role ≠ .host)
    (hjoined : m.state = .joined)
    (hfind : s.members.find? (fun t => decide (t.id = m.id)) = some { m with seenMS := now }) :
    (∃ t, applyTransfer now viewer device ⟨m.id, expected⟩ m s = .ok t) ↔
      parseCounter expected = true ∧ expected = s.group.governanceRevision ∧
        hostClaimGovernanceAllowed now s.group m = true ∧ m.Ready now ∧
        m.Fits s.group s.group.playbackRevision := by
  have hseen : now - ({ m with seenMS := now } : Member).lastSeen ≤ hostGraceSeconds * 1000 := by
    have hlast : now ≤ ({ m with seenMS := now } : Member).lastSeen := le_max_left _ _
    unfold hostGraceSeconds
    omega
  unfold applyTransfer
  dsimp only
  rw [hfind]
  dsimp only
  simp only [guard_eq_ok, exists_and_left, Except.ok.injEq, exists_eq', and_true]
  rw [claim_iff]
  unfold Member.Ready Member.Fits
  have hsame : hostClaimGovernanceAllowed now s.group { m with seenMS := now } =
      hostClaimGovernanceAllowed now s.group m := rfl
  rw [hsame]
  constructor
  · rintro ⟨hcounter, hfence, -, -, -, -, hclaim⟩
    have hclaim := not_not.mp (not_and.mp hclaim hrole)
    obtain ⟨-, hwindow, hready, -, hreport, hfits⟩ := hclaim
    exact ⟨by simpa using hcounter, not_not.mp hfence, hwindow, ⟨hready, hreport⟩, hfits⟩
  · rintro ⟨hcounter, hfence, hwindow, ⟨hready, hreport⟩, hfits⟩
    refine ⟨by simp [hcounter], not_not.mpr hfence, by simp, by simp [hwindow], ?_,
      not_not.mpr hjoined, ?_⟩
    · rintro (hnot | hnot | hnot | ⟨hitem, hnot⟩)
      · exact hnot hready
      · exact absurd hseen (not_le.mpr hnot)
      · exact absurd hreport (not_le.mpr hnot)
      · exact hnot (hfits.resolve_left hitem)
    · rintro ⟨-, hnot⟩
      exact hnot ⟨trivial, hwindow, hready, hseen, hreport, hfits⟩

theorem loadMember_applyTransfer {device : Option DeviceID} {req : TransferRequest} {t : Room}
    (h : applyTransfer now viewer device req m s = .ok t) :
    (t.loadMember viewer).isSome = (s.loadMember viewer).isSome := by
  unfold applyTransfer at h
  simp only [guard_eq_ok] at h
  obtain ⟨-, -, -, -, h⟩ := h
  split at h
  · cases h
  · simp only [guard_eq_ok] at h
    obtain ⟨-, -, -, h⟩ := h
    rw [← Except.ok.inj h]
    unfold loadMember
    dsimp only
    rw [loadMember_map (fun n => by split_ifs <;> rfl), Option.isSome_map]

theorem transferHost_accepted {device : Option DeviceID} (h : r.group.Stored)
    (hids : (r.members.map Member.id).Nodup) (hm : r.loadJoinedMember viewer = some m)
    (hrole : m.role ≠ .host) :
    (∃ a, (transferHost env now viewer device ⟨m.id, r.group.governanceRevision⟩ r).1 = .ok a) ↔
      r.Accepts env now m := by
  have hjoined := (mem_of_loadJoinedMember hm).2.2
  -- the claim runs, or is refused before its own checks
  have hpath : (∃ a, (transferHost env now viewer device
      ⟨m.id, r.group.governanceRevision⟩ r).1 = .ok a) ↔
      (m.leaves now = false ∧ env.limited = false ∧ (r.sweepGroup now).2.group.isOver = false) ∧
        ∃ t, applyTransfer now viewer device ⟨m.id, r.group.governanceRevision⟩ m
          ((r.sweepGroup now).2.seen now m.id) = .ok t := by
    constructor
    · rintro ⟨a, ha⟩
      rcases mutateGroup_cases env now viewer r true (applyTransfer now viewer device ⟨m.id, r.group.governanceRevision⟩) (projected env now viewer)
        with ⟨fault, hrefused⟩ | ⟨-, -, hover⟩ | ⟨n, s, t, n', henters, happly, -⟩
      · have ha' := ha
        unfold transferHost at ha'
        rw [hrefused] at ha'
        cases ha'
      · have ha' := ha
        unfold transferHost at ha'
        rw [hover] at ha'
        cases ha'
      · obtain rfl : m = n := Option.some.inj (hm.symm.trans henters.admits.1)
        refine ⟨(enters_iff hm).mp ⟨m, s, henters⟩, t, ?_⟩
        rw [← henters.room]
        exact happly
    · rintro ⟨hruns, t, ht⟩
      obtain ⟨n, s, henters⟩ := (enters_iff hm).mpr hruns
      obtain rfl : m = n := Option.some.inj (hm.symm.trans henters.admits.1)
      rw [← henters.room] at ht
      have hrow : (t.loadMember viewer).isSome = true := by
        rw [loadMember_applyTransfer ht, henters.room]
        have hjoin := (loadJoinedMember_sweepGroup (live_of_sweepGroup henters.live)).mpr
          henters.admits
        rw [(loadJoinedMember_eq.mp (loadJoinedMember_seen hjoin)).1]
        rfl
      obtain ⟨n, hn⟩ := Option.isSome_iff_exists.mp hrow
      refine ⟨projected env now viewer n (settledAs true r t), ?_⟩
      unfold transferHost
      rw [mutateGroup_enters _ _ _ henters, ht]
      have hsaved : (settledAs true r t).loadMember viewer = some n := hn
      unfold finished
      dsimp only
      rw [hsaved]
  rw [hpath]
  constructor
  · rintro ⟨⟨hstays, hfree, hlive⟩, ht⟩
    obtain ⟨hbefore, hearly⟩ := (live_sweepGroup_iff h).mp hlive
    rw [applyTransfer_claim hrole hjoined (find_claimant hids hbefore ⟨hm, hstays⟩),
      governance_sweepGroup h hrole hjoined hlive] at ht
    obtain ⟨hcounter, -, hlate, hready, hfits⟩ := ht
    refine ⟨hfree, hcounter, hstays, ⟨hlate, hbefore, hearly⟩, hready, ?_⟩
    rw [← playbackRevision_sweepGroup h hlive]
    unfold Member.Fits at hfits ⊢
    rw [← (keeps_sweepGroup now r).itemID]
    exact hfits
  · rintro ⟨hfree, hcounter, hstays, ⟨hlate, hbefore, hearly⟩, hready, hfits⟩
    have hlive := live_sweepGroup h hbefore hearly
    refine ⟨⟨hstays, hfree, hlive⟩, ?_⟩
    rw [applyTransfer_claim hrole hjoined (find_claimant hids hbefore ⟨hm, hstays⟩),
      governance_sweepGroup h hrole hjoined hlive]
    refine ⟨hcounter, (governanceRevision_sweepGroup h hlive).symm, hlate, hready, ?_⟩
    rw [← playbackRevision_sweepGroup h hlive] at hfits
    unfold Member.Fits at hfits ⊢
    rw [← (keeps_sweepGroup now r).itemID] at hfits
    exact hfits

end Room

/-! ## The result -/

/-- The published permission isn't the answer. It is published but refused, when the group failed,
the caller is limited, the revision can't be sent, or the sweep's pause makes the member's report an
old one; or it is granted without being published, when the write path has only just seen the caller
or has raised the revision. -/
def Drifts (env : Env) (now : ℤ) (r : Room) (m : Member) : Prop :=
  let g := r.group
  let lasts := g.isOver = false ∧ g.silence now < g.endAfter
  let outdated := r.Pauses now ∧ g.itemID ≠ none
  m.Ready now ∧ g.Absent now ∧
    ((now - m.lastSeen ≤ hostGraceSeconds * 1000 ∧ m.Fits g g.playbackRevision ∧
        (g.state = .failed ∧ g.hostAuthority = .anyone ∨ lasts ∧ (env.limited = true ∨
          parseCounter g.governanceRevision = false ∨ outdated))) ∨
      (lasts ∧ env.limited = false ∧ parseCounter g.governanceRevision = true ∧
        m.leaves now = false ∧ m.Fits g (g.playbackRevision + if r.Pauses now then 1 else 0) ∧
        (hostGraceSeconds * 1000 < now - m.lastSeen ∨ outdated)))

instance {m : Member} : Decidable (Drifts env now r m) := inferInstanceAs (Decidable (_ ∧ _))

variable (now m) in
theorem seen_not_leaves (h : now - m.lastSeen ≤ hostGraceSeconds * 1000) :
    m.leaves now = false := by
  unfold Member.leaves
  rw [Bool.and_eq_false_iff]
  right
  rw [decide_eq_false_iff_not]
  unfold hostGraceSeconds memberLeaveSeconds at *
  omega

theorem claimable_iff_accepts : (Claimable now r.group m ↔ r.Accepts env now m) ↔
    ¬ Drifts env now r m := by
  -- a report about the revision before the pause isn't one about the revision after
  have hmoved : m.Fits r.group r.group.playbackRevision ∧
      m.Fits r.group (r.group.playbackRevision + if r.Pauses now then 1 else 0) →
        ¬ (r.Pauses now ∧ r.group.itemID ≠ none) := by
    rintro ⟨hbefore, hafter⟩ ⟨hpauses, hitem⟩
    rw [if_pos hpauses] at hafter
    have hold := hbefore.resolve_left hitem
    have hnew := hafter.resolve_left hitem
    omega
  have hkept : ¬ (r.Pauses now ∧ r.group.itemID ≠ none) →
      (m.Fits r.group r.group.playbackRevision ↔
        m.Fits r.group (r.group.playbackRevision + if r.Pauses now then 1 else 0)) := by
    intro hnot
    unfold Member.Fits
    by_cases hpauses : r.Pauses now
    · have hitem : r.group.itemID = none := by
        by_contra hitem
        exact hnot ⟨hpauses, hitem⟩
      simp [hitem]
    · rw [if_neg hpauses, add_zero]
  have hfailed : r.group.state = .failed → r.group.isOver = true := by
    intro hstate
    simp [Group.isOver, hstate]
  have hleaves := fun h => seen_not_leaves now m h
  have hlimited : env.limited = true ↔ ¬ env.limited = false := by simp
  have hcounter : parseCounter r.group.governanceRevision = false ↔
      ¬ parseCounter r.group.governanceRevision = true := by simp
  have hunseen : hostGraceSeconds * 1000 < now - m.lastSeen ↔
      ¬ now - m.lastSeen ≤ hostGraceSeconds * 1000 := not_le.symm
  have hover : r.group.isOver = true ↔ ¬ r.group.isOver = false := by simp
  unfold Drifts Claimable Room.Accepts Group.Open
  dsimp only
  rw [hlimited, hcounter, hunseen]
  rw [hover] at hfailed
  generalize (r.Pauses now ∧ r.group.itemID ≠ none) = outdated at *
  generalize m.Fits r.group r.group.playbackRevision = before at *
  generalize m.Fits r.group (r.group.playbackRevision + if r.Pauses now then 1 else 0) = after at *
  grind

/-- **When the published permission is the answer.** For a joined member that isn't the host, the
permission to claim the host says what a claim at the same instant, with the revision just read, is
answered, exactly when the stored facts don't drift. -/
theorem canClaimHost_agrees_iff (env₀ env : Env) (now : ℤ) (viewer : Viewer)
    (device : Option DeviceID) (r : Room) (m : Member) (p : Projection) (h : r.group.Stored)
    (hids : (r.members.map Member.id).Nodup) (hm : r.loadJoinedMember viewer = some m)
    (hrole : m.role ≠ .host) (hread : readGroup env₀ now viewer r = .ok p) :
    (p.canClaimHost = true ↔
      ∃ a, (transferHost env now viewer device ⟨m.id, p.governanceRevision⟩ r).1 = .ok a) ↔
        ¬ Drifts env now r m := by
  have hp : p = (r.group.settled now).project env₀ now viewer m := by
    unfold readGroup at hread
    rw [hm] at hread
    exact (Except.ok.inj hread).symm
  have hgovernance := (readGroup_revisions hread).2
  have hjoined := (Room.mem_of_loadJoinedMember hm).2.2
  rw [hgovernance, Room.transferHost_accepted h hids hm hrole, hp,
    canClaimHost_iff h hrole hjoined]
  exact claimable_iff_accepts

/-- A room whose host is gone, with a member that is ready and was just seen. -/
def claiming (item : Option ItemID) : Room :=
  { watching with
    group := { watching.group with itemID := item }
    members := watching.members ++
      [⟨4, ⟨1, 2, 2⟩, .member, .joined, .ready, 0, 120000, 2000, 125000, 1⟩] }

theorem canClaimHost_lobby :
    ((claiming none).group.settled 127000 |>.project permissive 127000 ⟨1, 2, 2⟩
      ⟨4, ⟨1, 2, 2⟩, .member, .joined, .ready, 0, 120000, 2000, 125000, 1⟩).canClaimHost = true ↔
    ∃ a, (transferHost permissive 127000 ⟨1, 2, 2⟩ (some 9) ⟨4, 1⟩ (claiming none)).1 = .ok a :=
  (canClaimHost_agrees_iff permissive permissive 127000 ⟨1, 2, 2⟩ (some 9) (claiming none)
    ⟨4, ⟨1, 2, 2⟩, .member, .joined, .ready, 0, 120000, 2000, 125000, 1⟩ _ (by decide) (by decide)
    (by decide) (by decide) rfl).mpr (by decide +kernel)

theorem canClaimHost_outdated :
    readGroup permissive 127000 ⟨1, 2, 2⟩ (claiming (some 7)) = .ok
      (((claiming (some 7)).group.settled 127000).project permissive 127000 ⟨1, 2, 2⟩
        ⟨4, ⟨1, 2, 2⟩, .member, .joined, .ready, 0, 120000, 2000, 125000, 1⟩) ∧
    (((claiming (some 7)).group.settled 127000).project permissive 127000 ⟨1, 2, 2⟩
        ⟨4, ⟨1, 2, 2⟩, .member, .joined, .ready, 0, 120000, 2000, 125000, 1⟩).canClaimHost = true ∧
    (transferHost permissive 127000 ⟨1, 2, 2⟩ (some 9) ⟨4, 1⟩ (claiming (some 7))).1 =
      .error .participantIncompatible := by
  refine ⟨by decide +kernel, by decide +kernel, by decide +kernel⟩

end Portico.WatchTogether
