import Portico.WatchTogether.Fences
import Portico.WatchTogether.Members
import Portico.WatchTogether.Receipts

/-!
# How the group's clock moves

Every request moves the group's clock in a few ways, one after another. What holds of a group over
time is read off the ways.

## Main results

* `moves_served`: what every action does to the clock
-/

namespace Portico.WatchTogether

variable {env : Env} {now : ℤ} {viewer : Viewer} {r s t : Room} {m : Member} {g h k : Group}

/-- The clocks of two groups agree, and so do their hosts. -/
structure SameClock (g h : Group) : Prop where
  state : h.state = g.state
  resumeState : h.resumeState = g.resumeState
  waitResumeState : h.waitResumeState = g.waitResumeState
  waitUntilMS : h.waitUntilMS = g.waitUntilMS
  itemID : h.itemID = g.itemID
  positionUS : h.positionUS = g.positionUS
  positionUpdatedMS : h.positionUpdatedMS = g.positionUpdatedMS
  rateNum : h.rateNum = g.rateNum
  rateDen : h.rateDen = g.rateDen
  hostAuthority : h.hostAuthority = g.hostAuthority
  hostMemberID : h.hostMemberID = g.hostMemberID

theorem SameClock.refl (g : Group) : SameClock g g :=
  ⟨rfl, rfl, rfl, rfl, rfl, rfl, rfl, rfl, rfl, rfl, rfl⟩

/-- When a sign of life was last seen: the host's, or anyone's where everyone is in control. -/
def Group.base (g : Group) : ℤ :=
  if g.hostAuthority = .anyone then max g.hostSeenMS g.activitySeenMS else g.hostSeenMS

/-- What a move of the clock may do. -/
inductive Kind
  | still
  | hands
  | starts
  | plays
  | cues

/-- One way the clock of a group moves. -/
inductive Move (now : ℤ) : Kind → Group → Group → Prop
  | keep (g h : Group) (hsame : SameClock g h) (hbase : g.base ≤ h.base ∨ now ≤ h.base) :
      Move now .still g h
  | release (g : Group) (hwait : g.state = .waiting) :
      Move now .still g
        { g with
          state := g.waitResumeState, resumeState := g.waitResumeState
          positionUpdatedMS := min now g.waitUntilMS, waitUntilMS := 0 }
  | returned (g : Group) : Move now .still g (g.hostReturned now)
  | hosted (g : Group) (host device) : Move now .hands g (g.hostedBy now host device)
  | promoted (g : Group) (hpreparing : g.state = .preparing) :
      Move now .still g { g with state := .ready }
  | paused (g : Group) (rate) : Move now .still g ((g.rated rate).paused now (g.extrapolate now))
  | stopped (g : Group) (rate) : Move now .starts g ((g.rated rate).stopped now)
  | sought (g : Group) (rate position) (hbase : now ≤ g.base) :
      Move now .starts g ((g.rated rate).sought now position)
  | started (g : Group) (rate target entry start) (hbase : now ≤ g.base) :
      Move now .starts g ((g.rated rate).started now target entry start)
  | ended (g : Group) (position) : Move now .starts g (g.ended now position)
  | played (g : Group) (rate) (hitem : g.itemID ≠ none) :
      Move now .plays g ((g.rated rate).played now (g.extrapolate now))
  | playedAt (g : Group) (rate position) : Move now .cues g ((g.rated rate).played now position)

/-- Moves of some kinds, one after another. -/
def Moves (now : ℤ) (K : Kind → Prop) : Group → Group → Prop :=
  Relation.ReflTransGen fun g h => ∃ k, K k ∧ Move now k g h

namespace Moves

variable {K : Kind → Prop}

theorem refl (g : Group) : Moves now K g g := Relation.ReflTransGen.refl

theorem trans (hgh : Moves now K g h) (hhk : Moves now K h k) : Moves now K g k :=
  Relation.ReflTransGen.trans hgh hhk

theorem of_move {kind : Kind} (hkind : K kind) (hmove : Move now kind g h) : Moves now K g h :=
  Relation.ReflTransGen.single ⟨kind, hkind, hmove⟩

theorem invariant {P : Group → Prop} (hmoves : Moves now K g h)
    (hstep : ∀ kind g h, K kind → Move now kind g h → P g → P h) (hg : P g) : P h := by
  induction hmoves with
  | refl => exact hg
  | tail _ hlast ih =>
    obtain ⟨kind, hkind, hmove⟩ := hlast
    exact hstep kind _ _ hkind hmove ih

end Moves

/-- What an action may do to the clock: a transfer hands the group over, the commands that set a
position and the end of the title start at one, and a play plays. -/
def Action.Allows : Action → Kind → Prop
  | _, .still => True
  | .transfer _ _ _, .hands => True
  | .transport _ req, .starts => req.command = .stop ∨ req.command = .seek ∨ req.Selects
  | .readiness _ req, .starts => req.ended = true
  | .transport _ req, .plays => req.command = .play ∧ req.positionUS = none
  | .transport _ req, .cues => req.command = .play ∧ req.positionUS ≠ none
  | _, _ => False

theorem Action.allows_still (a : Action) : a.Allows .still := by
  cases a <;> trivial

/-! ## The parts of a request -/

section Parts

variable {K : Kind → Prop} (hstill : K .still)
include hstill

theorem moves_keep (hsame : SameClock g h) (hbase : g.base ≤ h.base ∨ now ≤ h.base) :
    Moves now K g h :=
  Moves.of_move hstill (.keep g h hsame hbase)

theorem moves_save {bump : Bool} : Moves now K s.group (s.save bump).group :=
  moves_keep hstill ⟨rfl, rfl, rfl, rfl, rfl, rfl, rfl, rfl, rfl, rfl, rfl⟩ (Or.inl le_rfl)

theorem moves_receive {receipt : Receipt} :
    Moves now K s.group ((s.save true).receive receipt).trimReceipts.group := by
  have hgroup : ((s.save true).receive receipt).trimReceipts.group = (s.save true).group := rfl
  rw [hgroup]
  exact moves_save hstill

theorem moves_seen {id : MemberID} : Moves now K s.group (s.seen now id).group := by
  refine moves_keep hstill ⟨rfl, rfl, rfl, rfl, rfl, rfl, rfl, rfl, rfl, rfl, rfl⟩ ?_
  unfold Group.base Room.seen
  dsimp only
  by_cases hanyone : s.group.hostAuthority = .anyone
  · right
    simp [Room.updateMember, hanyone]
  · left
    simp [Room.updateMember, hanyone]

variable (now s) in
theorem moves_releaseWait : Moves now K s.group (s.releaseWait now).2.group := by
  rcases Room.group_releaseWait_cases now s with hsame | ⟨hwait, hreleased⟩
  · rw [hsame]
    exact Moves.refl _
  · rw [hreleased]
    exact Moves.of_move hstill (.release _ hwait)

theorem moves_greeted : Moves now K s.group (s.greeted now m).group := by
  unfold Room.greeted
  split_ifs
  · exact Moves.of_move hstill (.returned _)
  · exact Moves.refl _

end Parts

/-! ## Requests -/

theorem base_greeted (hcontrol : s.group.mayControl m = true)
    (hseen : now ≤ s.group.activitySeenMS) : now ≤ (s.greeted now m).group.base := by
  unfold Group.mayControl at hcontrol
  simp only [Bool.or_eq_true, decide_eq_true_eq] at hcontrol
  have hreturned : (s.group.hostReturned now).hostSeenMS = now ∧
      (s.group.hostReturned now).hostAuthority = s.group.hostAuthority := by
    unfold Group.hostReturned
    dsimp only
    split_ifs <;> exact ⟨rfl, rfl⟩
  unfold Room.greeted Group.base
  by_cases hhost : m.role = .host
  · rw [if_pos hhost]
    dsimp only
    rw [hreturned.1]
    split_ifs
    · exact le_max_left _ _
    · exact le_rfl
  · rw [if_neg hhost, if_pos (hcontrol.resolve_left hhost)]
    exact hseen.trans (le_max_right _ _)

theorem sameClock_marked {req : TransportRequest} (g : Group) : SameClock g (g.marked req) :=
  ⟨rfl, rfl, rfl, rfl, rfl, rfl, rfl, rfl, rfl, rfl, rfl⟩

theorem moves_applyCommand {req : TransportRequest} {answer : Answer}
    (hseen : now ≤ s.group.activitySeenMS)
    (happly : applyCommand env now req m s = .ok (answer, t)) :
    Moves now (Action.transport viewer req).Allows s.group t.group := by
  obtain ⟨hcontrol, -, notes, g, htransport, rfl, -⟩ := applyCommand_ok happly
  have hbase := base_greeted hcontrol hseen
  have hstill : (Action.transport viewer req).Allows .still := Action.allows_still _
  apply (moves_greeted hstill).trans
  have hmarked : Moves now (Action.transport viewer req).Allows g (g.marked req) :=
    moves_keep hstill (sameClock_marked g) (Or.inl le_rfl)
  refine Moves.trans ?_ hmarked
  rcases Room.applyTransport_ok htransport with ⟨hcommand, rfl⟩ | ⟨hcommand, rfl⟩ |
    ⟨hcommand, -, rfl⟩ | ⟨hcommand, hitem, rfl⟩ | ⟨hselects, hselect⟩
  · exact Moves.of_move hstill (.paused _ _)
  · have hallows : (Action.transport viewer req).Allows .starts := Or.inl hcommand
    exact Moves.of_move hallows (.stopped _ _)
  · have hallows : (Action.transport viewer req).Allows .starts := Or.inr (Or.inl hcommand)
    exact Moves.of_move hallows (.sought _ _ _ hbase)
  · cases hposition : req.positionUS with
    | none =>
      have hallows : (Action.transport viewer req).Allows .plays := ⟨hcommand, hposition⟩
      exact Moves.of_move hallows (.played _ _ hitem)
    | some position =>
      have hallows : (Action.transport viewer req).Allows .cues := ⟨hcommand, by simp [hposition]⟩
      exact Moves.of_move hallows (.playedAt _ _ _)
  · obtain ⟨target, entry, -, -, -, -, rfl⟩ := Room.selectEntry_ok hselect
    have hallows : (Action.transport viewer req).Allows .starts := Or.inr (Or.inr hselects)
    exact Moves.of_move hallows (.started _ _ _ _ _ hbase)

section Others

variable {K : Kind → Prop} (hstill : K .still)
include hstill

theorem moves_applySettings {req : SettingsRequest} {answer : Answer}
    (happly : applySettings env now viewer req m s = .ok (answer, t)) :
    Moves now K s.group t.group := by
  unfold applySettings at happly
  split_ifs at happly
  obtain ⟨-, rfl⟩ := Prod.mk.inj (Except.ok.inj happly)
  exact moves_keep hstill ⟨rfl, rfl, rfl, rfl, rfl, rfl, rfl, rfl, rfl, rfl, rfl⟩ (Or.inl le_rfl)

theorem moves_applyHeartbeat {device : Option DeviceID}
    (happly : applyHeartbeat now device m s = .ok t) : Moves now K s.group t.group := by
  unfold applyHeartbeat at happly
  split_ifs at happly
  · obtain rfl := Except.ok.inj happly
    exact Moves.refl _
  · obtain rfl := Except.ok.inj happly
    have hdevice : Moves now K s.group
        { s.group with hostDevice := device.or s.group.hostDevice } :=
      moves_keep hstill ⟨rfl, rfl, rfl, rfl, rfl, rfl, rfl, rfl, rfl, rfl, rfl⟩ (Or.inl le_rfl)
    exact hdevice.trans (Moves.of_move hstill (.returned _))

theorem moves_reported {req : ReadinessRequest} :
    Moves now K s.group (s.reported now req m).group := by
  unfold Room.reported
  dsimp only
  split_ifs
  · exact Moves.of_move hstill (.returned _)
  · exact Moves.refl _

theorem moves_summarised {summary : Option ReadinessSummary} {promoted : Bool}
    (hpromoted : promoted = true → g.state = .preparing) :
    Moves now K g (g.summarised summary promoted) := by
  have hsummary : ∀ g : Group, Moves now K g { g with readinessSummary := summary } := fun g =>
    moves_keep hstill ⟨rfl, rfl, rfl, rfl, rfl, rfl, rfl, rfl, rfl, rfl, rfl⟩ (Or.inl le_rfl)
  unfold Group.summarised
  cases promoted with
  | true => exact (Moves.of_move hstill (.promoted g (hpromoted rfl))).trans (hsummary _)
  | false => exact hsummary g

theorem moves_applyQueue {req : QueueRequest} {answer : Answer}
    (happly : applyQueue env now viewer req m s = .ok (answer, t)) :
    Moves now K s.group t.group := by
  obtain ⟨u, hu, rfl⟩ := applyQueue_ok happly
  have hgroup := group_editQueue hu
  unfold Room.refreshPosition
  split
  all_goals
    rw [← hgroup]
    exact moves_keep hstill ⟨rfl, rfl, rfl, rfl, rfl, rfl, rfl, rfl, rfl, rfl, rfl⟩ (Or.inl le_rfl)

end Others

theorem moves_applyTransfer {device : Option DeviceID} {req : TransferRequest}
    (happly : applyTransfer now viewer device req m s = .ok t) :
    Moves now (Action.transfer viewer device req).Allows s.group t.group := by
  obtain ⟨n, device', -, -, rfl⟩ := applyTransfer_ok happly
  have hallows : (Action.transfer viewer device req).Allows .hands := trivial
  exact Moves.of_move hallows (.hosted _ _ _)

theorem moves_applyReadiness {req : ReadinessRequest}
    (happly : applyReadiness now req m s = .ok t) :
    Moves now (Action.readiness viewer req).Allows s.group t.group := by
  have hstill : (Action.readiness viewer req).Allows .still := Action.allows_still _
  rcases applyReadiness_cases happly with rfl | ⟨-, hended, -, -, rfl⟩ | ⟨-, summary, promoted, hp, rfl⟩
  · exact Moves.refl _
  · have hallows : (Action.readiness viewer req).Allows .starts := hended
    exact (moves_reported hstill).trans (Moves.of_move hallows (.ended _ _))
  · have hrelease := moves_releaseWait now (s.reported now req m) hstill
    exact ((moves_reported hstill).trans hrelease).trans (moves_summarised hstill hp)

/-! ## Every action -/

/-- What an action does to the clock: nothing, the end of the group, or moves from the swept group. -/
inductive Ticked (now : ℤ) (K : Kind → Prop) (r s : Room) : Prop
  | idle (hsame : SameClock r.group s.group) (hbase : s.group.base = r.group.base)
      (hrevision : s.group.playbackRevision = r.group.playbackRevision)
  | ends (hlive : r.group.isOver = false) (hover : s.group.isOver = true)
  | swept (hlive : r.group.isOver = false) (hswept : (r.sweepGroup now).2.group.isOver = false)
      (hmoves : Moves now K (r.sweepGroup now).2.group s.group)

theorem Room.Runs.moves {key : String} {K : Kind → Prop} (hstill : K .still)
    (hruns : Room.Runs env now viewer key r m s) :
    Moves now K (r.sweepGroup now).2.group s.group := by
  rw [hruns.room]
  exact moves_seen hstill

theorem Room.Enters.moves {K : Kind → Prop} (hstill : K .still)
    (henters : Room.Enters env now viewer r m s) :
    Moves now K (r.sweepGroup now).2.group s.group := by
  rw [henters.room]
  exact moves_seen hstill

theorem Room.Runs.seen {key : String} (hruns : Room.Runs env now viewer key r m s) :
    now ≤ s.group.activitySeenMS := by
  rw [hruns.room]
  exact le_rfl

/-- **What every action does to the clock.** -/
theorem moves_served {a : Action} (hserved : Served env now r a s) : Ticked now a.Allows r s := by
  have hstill := Action.allows_still a
  cases hserved with
  | idle => exact .idle (SameClock.refl _) rfl rfl
  | swept _ hswept =>
    have hlive : r.group.isOver = false := by
      cases hr : r.group.isOver with
      | false => rfl
      | true =>
        unfold Room.sweepGroup at hswept
        rw [if_pos hr] at hswept
        cases hswept
    cases hover : (r.sweepGroup now).2.group.isOver with
    | true => exact .ends hlive hover
    | false => exact .swept hlive hover (moves_save hstill)
  | transport viewer req m u answer t hvalid hruns happly =>
    have hmoves := (hruns.moves hstill).trans (moves_applyCommand hruns.seen happly)
    exact .swept (Room.live_of_sweepGroup hruns.live) hruns.live
      (hmoves.trans (moves_receive hstill))
  | settings viewer req m u answer t hvalid hruns happly =>
    have hmoves := (hruns.moves hstill).trans (moves_applySettings hstill happly)
    exact .swept (Room.live_of_sweepGroup hruns.live) hruns.live
      (hmoves.trans (moves_receive hstill))
  | queue viewer req m u answer t hvalid hruns happly =>
    have hmoves := (hruns.moves hstill).trans (moves_applyQueue hstill happly)
    exact .swept (Room.live_of_sweepGroup hruns.live) hruns.live
      (hmoves.trans (moves_receive hstill))
  | heartbeat viewer device m u t henters hchange =>
    have hmoves := (henters.moves hstill).trans (moves_applyHeartbeat hstill hchange)
    exact .swept (Room.live_of_sweepGroup henters.live) henters.live
      (hmoves.trans (moves_save hstill))
  | readiness viewer req m u t hvalid henters hchange =>
    have hmoves := (henters.moves hstill).trans (moves_applyReadiness hchange)
    exact .swept (Room.live_of_sweepGroup henters.live) henters.live
      (hmoves.trans (moves_save hstill))
  | endGroup viewer expected m u t henters hchange =>
    unfold applyEnd at hchange
    split_ifs at hchange
    obtain rfl := Except.ok.inj hchange
    exact .ends (Room.live_of_sweepGroup henters.live) rfl
  | leave viewer m u t henters hchange =>
    unfold applyLeave at hchange
    dsimp only at hchange
    split_ifs at hchange
    · obtain rfl := Except.ok.inj hchange
      exact .ends (Room.live_of_sweepGroup henters.live) rfl
    · obtain rfl := Except.ok.inj hchange
      exact .ends (Room.live_of_sweepGroup henters.live) rfl
    · obtain rfl := Except.ok.inj hchange
      exact .swept (Room.live_of_sweepGroup henters.live) henters.live
        ((henters.moves hstill).trans (moves_save hstill))
  | transfer viewer device req m u t henters hchange =>
    have hmoves := (henters.moves hstill).trans (moves_applyTransfer hchange)
    exact .swept (Room.live_of_sweepGroup henters.live) henters.live
      (hmoves.trans (moves_save hstill))
  | createInvite | revokeInvite => exact .idle (SameClock.refl _) rfl rfl
  | join viewer code i m u hi hrecipient hrevoked hexpires huses hlive henter =>
    have hgroup := group_enter henter
    refine .idle ?_ ?_ ?_
    · rw [← hgroup]
      exact ⟨rfl, rfl, rfl, rfl, rfl, rfl, rfl, rfl, rfl, rfl, rfl⟩
    · rw [← hgroup]
      rfl
    · rw [← hgroup]
      rfl

theorem moves_refused {a : Action} {K : Kind → Prop} {fault : Fault}
    (ha : (∃ req, a = .transport viewer req) ∨ ∃ req, a = .readiness viewer req)
    (hfault : (serve env now r a).1 = .error fault) : Ticked now K r (serve env now r a).2 := by
  -- the group is left alone, or saved as ended
  have hends : (r.sweepGroup now).1 = true → (r.sweepGroup now).2.group.isOver = true →
      Ticked now K r ((r.sweepGroup now).2.save true) := by
    intro hswept hover
    refine .ends ?_ hover
    cases hr : r.group.isOver with
    | false => rfl
    | true =>
      unfold Room.sweepGroup at hswept
      rw [if_pos hr] at hswept
      cases hswept
  rcases ha with ⟨req, rfl⟩ | ⟨req, rfl⟩
  · have hcommand : (Action.transport viewer req).command = some (viewer, .transport req) := rfl
    obtain ⟨huntouched, -⟩ := command_untouched hcommand (Or.inl ⟨fault, hfault⟩)
    rcases huntouched with hsame | ⟨hlive, hover, hs, -, -⟩
    · rw [hsame]
      exact .idle (SameClock.refl _) rfl rfl
    · rw [hs]
      exact .ends hlive hover
  · change (reportReadiness env now viewer req r).1 = .error fault at hfault
    change Ticked now K r (reportReadiness env now viewer req r).2
    unfold reportReadiness at hfault ⊢
    split_ifs at hfault ⊢
    · exact .idle (SameClock.refl _) rfl rfl
    · rcases Room.mutateGroup_cases env now viewer r false (applyReadiness now req) (fun _ r =>
          .readiness r.group.state r.group.revision r.group.playbackRevision
            (r.group.readinessSummary.getD (r.summary now)))
        with ⟨fault, h⟩ | ⟨hswept, hover, h⟩ | ⟨m, s, t, m', henters, hchange, h⟩
      · rw [h]
        exact .idle (SameClock.refl _) rfl rfl
      · rw [h]
        exact hends hswept hover
      · rw [h] at hfault
        cases hfault

end Portico.WatchTogether
