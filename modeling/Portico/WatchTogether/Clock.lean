import Portico.WatchTogether.Moves

/-!
# What the moves keep

The position of a group, its pause and its host, through every move of its clock and through the
sweep.

## Main results

* `Move.ticks`, `Move.halted`, `Move.position`, `Move.host`: what one move keeps
* `swept_sweepGroup`: what the sweep keeps
* `Ticked.ticks`, `Ticked.clock`, `Ticked.halted`, `Ticked.pauses`: what an action keeps
-/

namespace Portico.WatchTogether

variable {env : Env} {now : ℤ} {viewer : Viewer} {r s t : Room} {m : Member} {g h : Group}
  {kind : Kind} {K : Kind → Prop}

/-! ## The position -/

/-- Whether the clock runs. -/
def Group.Plays (g : Group) : Prop := g.state = .playing ∨ g.state = .reconnectingPlaying

/-- The position the group has reached: a wait holds it, until its deadline. -/
def Group.clock (now : ℤ) (g : Group) : ℤ := (g.released now).extrapolate now

theorem extrapolate_rest (hrest : ¬ g.Plays ∨ g.positionUpdatedMS = now) :
    g.extrapolate now = if g.itemID = none then 0 else g.positionUS := by
  unfold Group.extrapolate
  by_cases hitem : g.itemID = none
  · rw [if_pos hitem, if_pos hitem]
  · rw [if_neg hitem, if_neg hitem]
    rcases hrest with hstands | hnow
    · exact if_pos (Or.inl hstands)
    · dsimp only
      rw [hnow, sub_self, if_pos le_rfl]
      split_ifs <;> rfl

theorem extrapolate_congr (hitem : h.itemID = g.itemID) (hposition : h.positionUS = g.positionUS)
    (hupdated : h.positionUpdatedMS = g.positionUpdatedMS) (hnum : h.rateNum = g.rateNum)
    (hden : h.rateDen = g.rateDen) (hplays : h.Plays ↔ g.Plays) :
    h.extrapolate now = g.extrapolate now := by
  unfold Group.Plays at hplays
  unfold Group.extrapolate
  rw [hitem, hposition, hupdated, hnum, hden]
  simp only [hplays]

theorem SameClock.position (hsame : SameClock g h) : h.extrapolate now = g.extrapolate now := by
  apply extrapolate_congr hsame.itemID hsame.positionUS hsame.positionUpdatedMS hsame.rateNum
    hsame.rateDen
  unfold Group.Plays
  rw [hsame.state]

/-! ## What a move keeps -/

/-- The states in which the clock stands, whatever happens to the host. -/
def standing : GroupState → Bool
  | .creating | .lobby | .preparing | .ready | .paused | .degraded | .ending => true
  | _ => false

theorem standing_ne {state : GroupState} (hstanding : standing state = true) :
    state ≠ .playing ∧ state ≠ .reconnectingPlaying ∧ state ≠ .waiting ∧
      Group.isReconnecting state = false := by
  cases state <;> simp [standing, Group.isReconnecting] at hstanding ⊢

/-- What holds of a group's clock in every run. -/
structure Ticks (now : ℤ) (g : Group) : Prop where
  resting : g.waitResumeState ∈ [GroupState.playing, .paused, .ready]
  waiting : g.state = .waiting →
    g.waitUntilMS ≤ g.base + groupWaitSeconds * 1000 ∧
      g.waitUntilMS ≤ now + groupWaitSeconds * 1000
  absent : g.state = .reconnectingPlaying → g.resumeState = .playing
  halted : g.state = .reconnectingPaused → standing g.resumeState = true

/-- A wait that is on hasn't passed. -/
def Awake (now : ℤ) (g : Group) : Prop := g.state = .waiting → now < g.waitUntilMS

/-- A group that doesn't play by itself. -/
structure Halted (g : Group) : Prop where
  stands : ¬ g.Plays
  resting : g.state = .waiting → g.waitResumeState ≠ .playing

theorem Ticks.mono {c : ℤ} (hticks : Ticks c g) (hclock : c ≤ now) : Ticks now g := by
  refine ⟨hticks.resting, fun hwait => ?_, hticks.absent, hticks.halted⟩
  obtain ⟨hbase, hdeadline⟩ := hticks.waiting hwait
  exact ⟨hbase, by omega⟩

theorem Ticks.waitResume (hticks : Ticks now g) : g.waitResumeState = .playing ∨
    g.waitResumeState = .paused ∨ g.waitResumeState = .ready := by
  simpa using hticks.resting

theorem Ticks.resumed (hticks : Ticks now g) :
    (g.state = .reconnectingPlaying → g.resumed = .playing) ∧
      (g.state = .reconnectingPaused → standing g.resumed = true) := by
  unfold Group.resumed
  refine ⟨fun hplaying => ?_, fun hpaused => ?_⟩
  · rw [hticks.absent hplaying]
    exact if_neg (fun hne => hne.1 rfl)
  · split_ifs
    · rfl
    · exact hticks.halted hpaused

/-- The group after its host returned: the same, or out of the outage. -/
theorem hostReturned_cases (hticks : Ticks now g) :
    (Group.isReconnecting g.state = false ∧ g.hostReturned now = { g with hostSeenMS := now }) ∨
    (g.state = .reconnectingPlaying ∧ g.hostReturned now =
      { g with hostSeenMS := now, state := .playing, reconnect := g.reconnect + 1 }) ∨
    (g.state = .reconnectingPaused ∧ ∃ state position, standing state = true ∧
      position = (if g.itemID = none then 0 else g.positionUS) ∧ g.hostReturned now =
        { g with
          hostSeenMS := now, state := state, reconnect := g.reconnect + 1
          positionUS := position, positionUpdatedMS := now }) := by
  obtain ⟨hplaying, hpaused⟩ := hticks.resumed
  unfold Group.hostReturned
  dsimp only
  by_cases hreconnecting : Group.isReconnecting g.state = true
  · rw [if_neg (by simp [hreconnecting])]
    have hresumed : ({ g with hostSeenMS := now } : Group).resumed = g.resumed := rfl
    rw [hresumed]
    right
    rcases Group.isReconnecting_iff.mp hreconnecting with hstate | hstate
    · left
      refine ⟨hstate, ?_⟩
      rw [hplaying hstate, if_pos rfl]
    · right
      have hstanding := hpaused hstate
      obtain ⟨hplaying', hreconnecting', -, -⟩ := standing_ne hstanding
      refine ⟨hstate, g.resumed, _, hstanding, ?_, if_neg hplaying'⟩
      -- the state it returns to isn't one in which the clock runs
      apply extrapolate_rest
      left
      rintro (heq | heq)
      · exact hplaying' heq
      · exact hreconnecting' heq
  · rw [if_pos (by simpa using hreconnecting)]
    exact Or.inl ⟨by simpa using hreconnecting, rfl⟩

variable (now g) in
theorem sameClock_hosted (host : MemberID) (device : Option DeviceID) :
    SameClock { g.hostReturned now with hostMemberID := host } (g.hostedBy now host device) ∧
      (g.hostedBy now host device).base = (g.hostReturned now).base := by
  by_cases hreconnecting : Group.isReconnecting g.state = true
  · have hreturned : g.hostReturned now =
        if g.resumed = .playing then
          { g with hostSeenMS := now, state := g.resumed, reconnect := g.reconnect + 1 }
        else
          { g with
            hostSeenMS := now, state := g.resumed, reconnect := g.reconnect + 1
            positionUS := ({ g with state := g.resumed } : Group).extrapolate now
            positionUpdatedMS := now } := by
      unfold Group.hostReturned
      dsimp only
      rw [if_neg (by simp [hreconnecting])]
      rfl
    have hhosted : g.hostedBy now host device =
        if g.resumed ≠ .playing then
          { g with
            hostDevice := device, playbackRevision := g.playbackRevision + 1
            governanceRevision := g.governanceRevision + 1, hostMemberID := host
            hostSeenMS := now, reconnect := g.reconnect + 1, state := g.resumed
            positionUS := ({ g with state := g.resumed } : Group).extrapolate now
            positionUpdatedMS := now }
        else
          { g with
            hostDevice := device, playbackRevision := g.playbackRevision + 1
            governanceRevision := g.governanceRevision + 1, hostMemberID := host
            hostSeenMS := now, reconnect := g.reconnect + 1, state := g.resumed } := by
      unfold Group.hostedBy
      dsimp only
      rw [if_pos hreconnecting]
      rfl
    rw [hreturned, hhosted]
    by_cases hplays : g.resumed = .playing
    · rw [if_pos hplays, if_neg (not_not.mpr hplays)]
      exact ⟨⟨rfl, rfl, rfl, rfl, rfl, rfl, rfl, rfl, rfl, rfl, rfl⟩, rfl⟩
    · rw [if_neg hplays, if_pos hplays]
      exact ⟨⟨rfl, rfl, rfl, rfl, rfl, rfl, rfl, rfl, rfl, rfl, rfl⟩, rfl⟩
  · have hreturned : g.hostReturned now = { g with hostSeenMS := now } := by
      unfold Group.hostReturned
      dsimp only
      rw [if_pos (by simpa using hreconnecting)]
    unfold Group.hostedBy
    dsimp only
    rw [hreturned, if_neg hreconnecting]
    exact ⟨⟨rfl, rfl, rfl, rfl, rfl, rfl, rfl, rfl, rfl, rfl, rfl⟩, rfl⟩

theorem Ticks.keep (hticks : Ticks now g) (hstate : h.state = g.state)
    (hresume : h.resumeState = g.resumeState) (hrest : h.waitResumeState = g.waitResumeState)
    (hwait : h.waitUntilMS = g.waitUntilMS) (hbase : g.base ≤ h.base ∨ now ≤ h.base) :
    Ticks now h := by
  refine ⟨?_, ?_, ?_, ?_⟩
  · rw [hrest]
    exact hticks.resting
  · rw [hstate, hwait]
    intro hwaiting
    obtain ⟨hold, hdeadline⟩ := hticks.waiting hwaiting
    refine ⟨?_, hdeadline⟩
    rcases hbase with hbase | hbase <;> omega
  · rw [hstate, hresume]
    exact hticks.absent
  · rw [hstate, hresume]
    exact hticks.halted

theorem Ticks.of_state (hticks : Ticks now g) (hrest : h.waitResumeState = g.waitResumeState)
    (hstate : h.state ≠ .waiting ∧ Group.isReconnecting h.state = false) :
    Ticks now h ∧ Awake now h := by
  have hreconnecting : h.state ≠ .reconnectingPlaying ∧ h.state ≠ .reconnectingPaused := by
    refine ⟨fun heq => ?_, fun heq => ?_⟩ <;>
    · have hne := hstate.2
      rw [heq] at hne
      cases hne
  have hresting : h.waitResumeState ∈ [GroupState.playing, .paused, .ready] :=
    hrest ▸ hticks.resting
  exact ⟨⟨hresting, fun heq => absurd heq hstate.1, fun heq => absurd heq hreconnecting.1,
    fun heq => absurd heq hreconnecting.2⟩, fun heq => absurd heq hstate.1⟩

theorem ticks_hostReturned (hticks : Ticks now g) (hawake : Awake now g) :
    Ticks now (g.hostReturned now) ∧ Awake now (g.hostReturned now) := by
  rcases hostReturned_cases hticks with ⟨-, heq⟩ | ⟨-, heq⟩ |
    ⟨-, state, position, hstanding, -, heq⟩
  · rw [heq]
    refine ⟨hticks.keep rfl rfl rfl rfl (Or.inr ?_), hawake⟩
    unfold Group.base
    split_ifs
    · exact le_max_left _ _
    · exact le_rfl
  · rw [heq]
    exact hticks.of_state rfl ⟨by simp, rfl⟩
  · rw [heq]
    exact hticks.of_state rfl (standing_ne hstanding).2.2

theorem ticks_beginWait (hrest : g.waitResumeState ∈ [GroupState.playing, .paused, .ready])
    (hbase : now ≤ g.base) : Ticks now (g.beginWait now) ∧ Awake now (g.beginWait now) := by
  have hstate : (g.beginWait now).state = .waiting := rfl
  have hdeadline : (g.beginWait now).waitUntilMS = now + groupWaitSeconds * 1000 := rfl
  have hsame : (g.beginWait now).base = g.base := rfl
  refine ⟨⟨?_, fun _ => ?_, ?_, ?_⟩, fun _ => ?_⟩
  · unfold Group.beginWait
    dsimp only
    split <;> first | exact hrest | simp
  · rw [hdeadline, hsame]
    omega
  · rw [hstate]
    exact nofun
  · rw [hstate]
    exact nofun
  · rw [hdeadline]
    unfold groupWaitSeconds
    omega

theorem rated_clock (rate : Option (ℤ × ℤ)) (g : Group) :
    (g.rated rate).state = g.state ∧ (g.rated rate).resumeState = g.resumeState ∧
      (g.rated rate).waitResumeState = g.waitResumeState ∧ (g.rated rate).itemID = g.itemID ∧
      (g.rated rate).hostMemberID = g.hostMemberID ∧ (g.rated rate).base = g.base := by
  unfold Group.rated
  split <;> exact ⟨rfl, rfl, rfl, rfl, rfl, rfl⟩

/-- **One move.** What holds of the clock in every run is kept by each move. -/
theorem Move.ticks (hmove : Move now kind g h) (hticks : Ticks now g) (hawake : Awake now g) :
    Ticks now h ∧ Awake now h := by
  have hplain : ∀ {state : GroupState}, state = .lobby ∨ state = .paused ∨ state = .ready ∨
      state = .playing → state ≠ .waiting ∧ Group.isReconnecting state = false := by
    rintro state (rfl | rfl | rfl | rfl) <;> exact ⟨by simp, rfl⟩
  cases hmove with
  | keep g h hsame hbase =>
    refine ⟨hticks.keep hsame.state hsame.resumeState hsame.waitResumeState hsame.waitUntilMS hbase,
      fun hwait => ?_⟩
    rw [hsame.waitUntilMS]
    exact hawake (hsame.state ▸ hwait)
  | release g hwait =>
    refine hticks.of_state rfl ?_
    rcases hticks.waitResume with hrest | hrest | hrest <;> simp [hrest, Group.isReconnecting]
  | returned => exact ticks_hostReturned hticks hawake
  | hosted g host device =>
    obtain ⟨hsame, hbase⟩ := sameClock_hosted now g host device
    obtain ⟨hreturned, hawake'⟩ := ticks_hostReturned hticks hawake
    refine ⟨hreturned.keep hsame.state hsame.resumeState hsame.waitResumeState hsame.waitUntilMS
      (Or.inl hbase.ge), fun hwait => ?_⟩
    rw [hsame.waitUntilMS]
    exact hawake' (hsame.state ▸ hwait)
  | promoted => exact hticks.of_state rfl ⟨by simp, rfl⟩
  | paused g rate =>
    refine hticks.of_state (rated_clock rate g).2.2.1 ?_
    apply hplain
    unfold Group.paused
    dsimp only
    split_ifs <;> simp
  | stopped g rate =>
    refine hticks.of_state (rated_clock rate g).2.2.1 ?_
    apply hplain
    unfold Group.stopped
    dsimp only
    split_ifs <;> simp
  | sought g rate position hbase =>
    have hrest := (rated_clock rate g).2.2.1 ▸ hticks.resting
    have hbase' : now ≤ (g.rated rate).base := (rated_clock rate g).2.2.2.2.2 ▸ hbase
    exact ticks_beginWait (g := { g.rated rate with positionUS := position, positionUpdatedMS := now })
      hrest hbase'
  | started g rate target entry start hbase =>
    have hrest := (rated_clock rate g).2.2.1 ▸ hticks.resting
    have hbase' : now ≤ (g.rated rate).base := (rated_clock rate g).2.2.2.2.2 ▸ hbase
    unfold Group.started
    dsimp only
    apply ticks_beginWait
    · split_ifs <;> exact hrest
    · split_ifs <;> exact hbase'
  | ended => exact hticks.of_state rfl ⟨by simp [Group.ended], rfl⟩
  | played g rate =>
    exact hticks.of_state (rated_clock rate g).2.2.1 ⟨by simp [Group.played], rfl⟩
  | playedAt g rate =>
    exact hticks.of_state (rated_clock rate g).2.2.1 ⟨by simp [Group.played], rfl⟩

theorem Halted.of_state (hstate : h.state ≠ .playing ∧ h.state ≠ .reconnectingPlaying ∧
    h.state ≠ .waiting) : Halted h := by
  refine ⟨?_, fun hwait => absurd hwait hstate.2.2⟩
  rintro (heq | heq)
  · exact hstate.1 heq
  · exact hstate.2.1 heq

theorem SameClock.halted (hsame : SameClock g h) (hhalted : Halted g) : Halted h := by
  refine ⟨?_, ?_⟩
  · unfold Group.Plays
    rw [hsame.state]
    exact hhalted.stands
  · rw [hsame.state, hsame.waitResumeState]
    exact hhalted.resting

theorem halted_hostReturned (hticks : Ticks now g) (hhalted : Halted g) :
    Halted (g.hostReturned now) := by
  rcases hostReturned_cases hticks with ⟨-, heq⟩ | ⟨hplaying, -⟩ |
    ⟨-, state, position, hstanding, -, heq⟩
  · rw [heq]
    exact ⟨hhalted.stands, hhalted.resting⟩
  · exact absurd (Or.inr hplaying) hhalted.stands
  · rw [heq]
    obtain ⟨hplaying, hreconnecting, hwaiting, -⟩ := standing_ne hstanding
    exact Halted.of_state ⟨hplaying, hreconnecting, hwaiting⟩

theorem halted_beginWait (hhalted : Halted g) : Halted (g.beginWait now) := by
  have hstate : (g.beginWait now).state = .waiting := rfl
  refine ⟨?_, fun _ => ?_⟩
  · unfold Group.Plays
    rw [hstate]
    simp
  · have hstands := hhalted.stands
    have hresting := hhalted.resting
    unfold Group.Plays at hstands
    unfold Group.beginWait
    dsimp only
    split
    · rename_i heq
      exact absurd (Or.inl heq) hstands
    · rename_i heq
      exact absurd (Or.inr heq) hstands
    · simp
    · simp
    · simp
    · rename_i heq
      exact hresting heq
    · simp

/-- **One move.** Only a play makes a halted group play. -/
theorem Move.halted (hmove : Move now kind g h) (hplays : kind ≠ .plays) (hcues : kind ≠ .cues)
    (hticks : Ticks now g) (hhalted : Halted g) : Halted h := by
  cases hmove with
  | keep g h hsame hbase => exact hsame.halted hhalted
  | release g hwait =>
    have hresting := hhalted.resting hwait
    refine Halted.of_state ?_
    rcases hticks.waitResume with hrest | hrest | hrest
    · exact absurd hrest hresting
    · simp [hrest]
    · simp [hrest]
  | returned => exact halted_hostReturned hticks hhalted
  | hosted g host device =>
    obtain ⟨hsame, -⟩ := sameClock_hosted now g host device
    have hreturned := halted_hostReturned hticks hhalted
    exact hsame.halted ⟨hreturned.stands, hreturned.resting⟩
  | promoted => exact Halted.of_state ⟨by simp, by simp, by simp⟩
  | paused g rate =>
    refine Halted.of_state ?_
    unfold Group.paused
    dsimp only
    split_ifs <;> simp
  | stopped g rate =>
    refine Halted.of_state ?_
    unfold Group.stopped
    dsimp only
    split_ifs <;> simp
  | sought g rate position hbase =>
    obtain ⟨hstate, -, hrest, -⟩ := rated_clock rate g
    refine halted_beginWait (g := { g.rated rate with
      positionUS := position, positionUpdatedMS := now }) ⟨?_, ?_⟩
    · unfold Group.Plays
      dsimp only
      rw [hstate]
      exact hhalted.stands
    · dsimp only
      rw [hstate, hrest]
      exact hhalted.resting
  | started g rate target entry start hbase =>
    obtain ⟨hstate, -, hrest, -⟩ := rated_clock rate g
    unfold Group.started
    dsimp only
    apply halted_beginWait
    split_ifs
    · exact Halted.of_state ⟨by simp, by simp, by simp⟩
    · refine ⟨?_, ?_⟩
      · unfold Group.Plays
        dsimp only
        rw [hstate]
        exact hhalted.stands
      · dsimp only
        rw [hstate, hrest]
        exact hhalted.resting
  | ended g position => exact Halted.of_state ⟨by simp [Group.ended], by simp [Group.ended],
      by simp [Group.ended]⟩
  | played => exact absurd rfl hplays
  | playedAt => exact absurd rfl hcues

theorem extrapolate_set {position : ℤ} (hposition : h.positionUS = position)
    (hrest : ¬ h.Plays ∨ h.positionUpdatedMS = now) (hitem : h.itemID = none → position = 0) :
    h.extrapolate now = position := by
  rw [extrapolate_rest hrest, hposition]
  split_ifs with hnone
  · exact (hitem hnone).symm
  · rfl

theorem extrapolate_none (hitem : g.itemID = none) : g.extrapolate now = 0 := by
  unfold Group.extrapolate
  exact if_pos hitem

theorem position_hostReturned (hticks : Ticks now g) :
    (g.hostReturned now).extrapolate now = g.extrapolate now := by
  rcases hostReturned_cases hticks with ⟨-, heq⟩ | ⟨hplaying, heq⟩ |
    ⟨hpaused, state, position, -, hposition, heq⟩
  · rw [heq]
    exact extrapolate_congr rfl rfl rfl rfl rfl Iff.rfl
  · rw [heq]
    refine extrapolate_congr rfl rfl rfl rfl rfl ?_
    exact ⟨fun _ => Or.inr hplaying, fun _ => Or.inl rfl⟩
  · have hstands : ¬ g.Plays := by
      unfold Group.Plays
      rw [hpaused]
      simp
    rw [heq, extrapolate_rest (Or.inl hstands), ← hposition]
    refine extrapolate_set rfl (Or.inr rfl) fun hitem => ?_
    rw [hposition]
    exact if_pos hitem

/-- **One move.** Only what sets a position moves it. -/
theorem Move.position (hmove : Move now kind g h) (hstarts : kind ≠ .starts) (hcues : kind ≠ .cues)
    (hticks : Ticks now g) (hawake : Awake now g) : h.extrapolate now = g.extrapolate now := by
  cases hmove with
  | keep g h hsame hbase => exact hsame.position
  | release g hwait =>
    have hstands : ¬ g.Plays := by
      unfold Group.Plays
      rw [hwait]
      simp
    rw [extrapolate_rest (Or.inl hstands), extrapolate_rest]
    right
    exact min_eq_left (hawake hwait).le
  | returned => exact position_hostReturned hticks
  | hosted g host device =>
    obtain ⟨hsame, -⟩ := sameClock_hosted now g host device
    rw [hsame.position, ← position_hostReturned hticks]
    exact extrapolate_congr rfl rfl rfl rfl rfl Iff.rfl
  | promoted g hpreparing =>
    refine extrapolate_congr rfl rfl rfl rfl rfl ?_
    unfold Group.Plays
    rw [hpreparing]
    simp
  | paused g rate =>
    have hitem : ((g.rated rate).paused now (g.extrapolate now)).itemID = g.itemID :=
      (rated_clock rate g).2.2.2.1
    refine extrapolate_set rfl (Or.inr rfl) ?_
    rw [hitem]
    exact extrapolate_none
  | played g rate hplayed =>
    have hitem : ((g.rated rate).played now (g.extrapolate now)).itemID = g.itemID :=
      (rated_clock rate g).2.2.2.1
    refine extrapolate_set rfl (Or.inr rfl) ?_
    rw [hitem]
    exact extrapolate_none
  | stopped | sought | started | ended => exact absurd rfl hstarts
  | playedAt => exact absurd rfl hcues

/-- **One move.** Only a transfer hands the group over. -/
theorem Move.host (hmove : Move now kind g h) (hhands : kind ≠ .hands) :
    h.hostMemberID = g.hostMemberID := by
  have hrated : ∀ rate, (g.rated rate).hostMemberID = g.hostMemberID :=
    fun rate => (rated_clock rate g).2.2.2.2.1
  cases hmove with
  | keep g h hsame hbase => exact hsame.hostMemberID
  | returned =>
    unfold Group.hostReturned
    dsimp only
    split_ifs <;> rfl
  | release | promoted | ended => rfl
  | paused g rate => exact hrated rate
  | stopped g rate => exact hrated rate
  | sought g rate => exact hrated rate
  | played g rate => exact hrated rate
  | playedAt g rate => exact hrated rate
  | started g rate target entry start hbase =>
    unfold Group.started Group.beginWait
    dsimp only
    split_ifs <;> exact hrated rate
  | hosted => exact absurd rfl hhands

/-! ## What the sweep keeps -/

/-- The group after its wait was looked at. -/
structure Waited (now : ℤ) (g h : Group) : Prop where
  ticks : Ticks now h
  awake : Awake now h
  position : h.extrapolate now = g.clock now
  halted : Halted g → Halted h
  base : h.base = g.base
  authority : h.hostAuthority = g.hostAuthority
  host : h.hostMemberID = g.hostMemberID
  live : h.isOver = false
  pauseAfter : h.pauseAfter = g.pauseAfter
  paused : h.state = .reconnectingPaused → g.state = .reconnectingPaused

variable (now r) in
theorem waited_releaseWait (hlive : r.group.isOver = false) (hticks : Ticks now r.group) :
    Waited now r.group (r.releaseWait now).2.group := by
  have hkept : Awake now r.group → Waited now r.group r.group := by
    intro hawake
    refine ⟨hticks, hawake, ?_, id, rfl, rfl, rfl, hlive, rfl, id⟩
    unfold Group.clock Group.released
    rw [if_neg fun hpast => absurd (hawake hpast.1) (not_lt.mpr hpast.2)]
  unfold Room.releaseWait
  dsimp only
  split_ifs with hwait hheld
  · exact hkept fun heq => absurd heq hwait
  · exact hkept fun _ => hheld.2
  · -- the wait ends, at its deadline or before
    rw [not_not] at hwait
    have hstate : r.group.waitResumeState ≠ .waiting ∧
        Group.isReconnecting r.group.waitResumeState = false := by
      rcases hticks.waitResume with hrest | hrest | hrest <;> simp [hrest, Group.isReconnecting]
    have hsound := hticks.of_state (h := { r.group with
      state := r.group.waitResumeState, resumeState := r.group.waitResumeState
      positionUpdatedMS := min now r.group.waitUntilMS, waitUntilMS := 0 }) rfl hstate
    refine ⟨hsound.1, hsound.2, ?_, fun hhalted => ?_, rfl, rfl, rfl, ?_, rfl, fun heq => ?_⟩
    · unfold Group.clock Group.released
      by_cases hpast : r.group.waitUntilMS ≤ now
      · rw [if_pos ⟨hwait, hpast⟩]
        exact extrapolate_congr rfl rfl (min_eq_right hpast) rfl rfl Iff.rfl
      · have hstands : ¬ r.group.Plays := by
          unfold Group.Plays
          rw [hwait]
          simp
        rw [if_neg fun h => hpast h.2, extrapolate_rest (Or.inl hstands)]
        exact extrapolate_rest (Or.inr (min_eq_left (not_le.mp hpast).le))
    · have hresting := hhalted.resting hwait
      refine Halted.of_state ⟨hresting, fun heq => ?_, hstate.1⟩
      have hne := hstate.2
      rw [show r.group.waitResumeState = .reconnectingPlaying from heq] at hne
      cases hne
    · unfold Group.isOver
      rcases hticks.waitResume with hrest | hrest | hrest <;> simp [hrest]
    · have hne := hstate.2
      rw [show r.group.waitResumeState = .reconnectingPaused from heq] at hne
      cases hne

theorem silence_eq : g.silence now = (now - g.base).tdiv 1000 := by
  unfold Group.silence Group.base
  split_ifs <;> rfl

theorem not_waiting_of_absent (hticks : Ticks now g) (hawake : Awake now g)
    (hgrace : hostGraceSeconds ≤ g.silence now) : g.state ≠ .waiting := by
  intro hwait
  obtain ⟨hbase, -⟩ := hticks.waiting hwait
  have hdeadline := hawake hwait
  rw [silence_eq] at hgrace
  by_contra hshort
  have hsilence : (now - g.base).tdiv 1000 ≤ (5000 : ℤ).tdiv 1000 := by
    apply Int.tdiv_le_tdiv (by decide)
    unfold groupWaitSeconds at hbase
    omega
  exact absurd (hgrace.trans hsilence) (by decide)

/-- What the sweep keeps of a group that lasts. -/
structure Swept (now : ℤ) (g h : Group) : Prop where
  ticks : Ticks now h
  awake : Awake now h
  position : h.extrapolate now = g.clock now
  halted : Halted g → Halted h
  host : h.hostMemberID = g.hostMemberID

theorem Waited.timeline (hwaited : Waited now g h) (hlive : (h.timeline now).isOver = false) :
    Swept now g (h.timeline now) := by
  rcases Room.timeline_cases now h with ⟨-, hover⟩ | ⟨-, -, -, heq⟩ | ⟨-, -, heq⟩ |
    ⟨-, -, hgrace, hreconnecting, heq⟩
  · rw [hover] at hlive
    cases hlive
  · -- the pause boundary
    rw [heq]
    refine ⟨⟨hwaited.ticks.resting, ?_, ?_, fun _ => rfl⟩, ?_, ?_, fun _ => ?_, hwaited.host⟩
    · exact fun hwait => nomatch hwait
    · exact fun hplaying => nomatch hplaying
    · exact fun hwait => nomatch hwait
    · rw [← hwaited.position]
      exact extrapolate_set rfl (Or.inr rfl) fun hitem => extrapolate_none (g := h) hitem
    · exact Halted.of_state ⟨by simp [Group.pauseAbsent], by simp [Group.pauseAbsent],
        by simp [Group.pauseAbsent]⟩
  · rw [heq]
    exact ⟨hwaited.ticks, hwaited.awake, hwaited.position, hwaited.halted, hwaited.host⟩
  · -- the grace boundary
    have hwaiting := not_waiting_of_absent hwaited.ticks hwaited.awake hgrace
    rw [heq]
    unfold Group.reportAbsent
    split_ifs with hplaying
    · refine ⟨⟨hwaited.ticks.resting, ?_, fun _ => rfl, ?_⟩, ?_, ?_, fun hhalted => ?_, hwaited.host⟩
      · exact fun hwait => nomatch hwait
      · exact fun hpaused => nomatch hpaused
      · exact fun hwait => nomatch hwait
      · rw [← hwaited.position]
        refine extrapolate_congr rfl rfl rfl rfl rfl ?_
        exact ⟨fun _ => Or.inl hplaying, fun _ => Or.inr rfl⟩
      · exact absurd (Or.inl hplaying) (hwaited.halted hhalted).stands
    · have hstands : ¬ h.Plays := by
        rintro (hplays | habsent)
        · exact hplaying hplays
        · rw [habsent] at hreconnecting
          cases hreconnecting
      refine ⟨⟨hwaited.ticks.resting, ?_, ?_, fun _ => ?_⟩, ?_, ?_, fun _ => ?_, hwaited.host⟩
      · exact fun hwait => nomatch hwait
      · exact fun habsent => nomatch habsent
      · have hover := hwaited.live
        unfold Group.isOver at hover
        dsimp only
        revert hplaying hwaiting hreconnecting hover
        cases h.state <;> simp [standing, Group.isReconnecting]
      · exact fun hwait => nomatch hwait
      · rw [← hwaited.position, extrapolate_rest (Or.inl hstands)]
        exact extrapolate_rest (Or.inl (by simp [Group.Plays]))
      · exact Halted.of_state ⟨by simp, by simp, by simp⟩

/-- **The sweep.** -/
theorem swept_sweepGroup (hlive : r.group.isOver = false) (hticks : Ticks now r.group)
    (hafter : (r.sweepGroup now).2.group.isOver = false) :
    Swept now r.group (r.sweepGroup now).2.group := by
  have hgroup : (r.sweepMembers now).2.group = r.group := rfl
  have hwaited := waited_releaseWait now ((r.sweepMembers now).2) hlive hticks
  rw [hgroup] at hwaited
  rw [Room.sweepGroup_live hlive, Room.group_hostTimeline] at hafter ⊢
  exact hwaited.timeline hafter

theorem halted_of_over (hover : g.isOver = true) : Halted g := by
  unfold Group.isOver at hover
  simp only [Bool.or_eq_true, decide_eq_true_eq] at hover
  apply Halted.of_state
  rcases hover with hover | hover <;> rw [hover] <;> simp

theorem halted_of_pauses (hpauses : r.Pauses now) (hticks : Ticks now r.group) :
    Halted (r.sweepGroup now).2.group := by
  obtain ⟨hlive, -, hpause, hstate⟩ := hpauses
  have hgroup : (r.sweepMembers now).2.group = r.group := rfl
  have hwaited := waited_releaseWait now ((r.sweepMembers now).2) hlive hticks
  rw [hgroup] at hwaited
  rw [Room.sweepGroup_live hlive, Room.group_hostTimeline]
  generalize ((r.sweepMembers now).2.releaseWait now).2.group = h at hwaited ⊢
  -- the wait changes nothing that the boundary reads
  have hpause' : h.pauseAfter ≤ h.silence now := by
    rw [silence_eq, hwaited.base, hwaited.pauseAfter, ← silence_eq]
    exact hpause
  rcases Room.timeline_cases now h with ⟨-, hover⟩ | ⟨-, -, -, heq⟩ | ⟨-, hwhy, -⟩ |
    ⟨-, hearly, -⟩
  · exact halted_of_over hover
  · rw [heq]
    exact Halted.of_state ⟨by simp [Group.pauseAbsent], by simp [Group.pauseAbsent],
      by simp [Group.pauseAbsent]⟩
  · rcases hwhy with hearly | hpaused
    · exact absurd hpause' (not_le.mpr hearly)
    · exact absurd (hwaited.paused hpaused) hstate
  · exact absurd hpause' (not_le.mpr hearly)

/-! ## What an action keeps -/

theorem clock_awake (hawake : Awake now g) : g.clock now = g.extrapolate now := by
  unfold Group.clock Group.released
  rw [if_neg fun hpast => absurd (hawake hpast.1) (not_lt.mpr hpast.2)]

theorem SameClock.clock (hsame : SameClock g h) : h.clock now = g.clock now := by
  unfold Group.clock Group.released
  rw [hsame.state, hsame.waitUntilMS]
  split_ifs
  · refine extrapolate_congr hsame.itemID hsame.positionUS rfl hsame.rateNum hsame.rateDen ?_
    unfold Group.Plays
    dsimp only
    rw [hsame.waitResumeState]
  · exact hsame.position

theorem SameClock.isOver (hsame : SameClock g h) : h.isOver = g.isOver := by
  unfold Group.isOver
  rw [hsame.state]

theorem Moves.ticks (hmoves : Moves now K g h) (hticks : Ticks now g) (hawake : Awake now g) :
    Ticks now h ∧ Awake now h :=
  hmoves.invariant (P := fun g => Ticks now g ∧ Awake now g)
    (fun _ _ _ _ hmove hg => hmove.ticks hg.1 hg.2) ⟨hticks, hawake⟩

theorem Moves.halted (hmoves : Moves now K g h) (hplays : ¬ K .plays) (hcues : ¬ K .cues)
    (hticks : Ticks now g) (hawake : Awake now g) (hhalted : Halted g) : Halted h := by
  have hall := hmoves.invariant (P := fun g => (Ticks now g ∧ Awake now g) ∧ Halted g)
    (fun kind g h hkind hmove hg => ⟨hmove.ticks hg.1.1 hg.1.2, hmove.halted
      (fun heq => hplays (heq ▸ hkind)) (fun heq => hcues (heq ▸ hkind)) hg.1.1 hg.2⟩)
    ⟨⟨hticks, hawake⟩, hhalted⟩
  exact hall.2

theorem Moves.position (hmoves : Moves now K g h) (hstarts : ¬ K .starts) (hcues : ¬ K .cues)
    (hticks : Ticks now g) (hawake : Awake now g) : h.extrapolate now = g.extrapolate now := by
  have hall := hmoves.invariant
    (P := fun k => (Ticks now k ∧ Awake now k) ∧ k.extrapolate now = g.extrapolate now)
    (fun kind k l hkind hmove hk => ⟨hmove.ticks hk.1.1 hk.1.2, (hmove.position
      (fun heq => hstarts (heq ▸ hkind)) (fun heq => hcues (heq ▸ hkind)) hk.1.1 hk.1.2).trans hk.2⟩)
    ⟨⟨hticks, hawake⟩, rfl⟩
  exact hall.2

theorem Moves.host (hmoves : Moves now K g h) (hhands : ¬ K .hands) :
    h.hostMemberID = g.hostMemberID :=
  hmoves.invariant (P := fun k => k.hostMemberID = g.hostMemberID)
    (fun _ _ _ hkind hmove hk => (hmove.host fun heq => hhands (heq ▸ hkind)).trans hk) rfl

theorem Ticked.live (hticked : Ticked now K r s) (hlive : s.group.isOver = false) :
    r.group.isOver = false := by
  cases hticked with
  | idle hsame => exact hsame.isOver.symm.trans hlive
  | ends hr => exact hr
  | swept hr => exact hr

theorem Ticked.ticks (hticked : Ticked now K r s) (hlive : s.group.isOver = false)
    (hticks : Ticks now r.group) : Ticks now s.group := by
  cases hticked with
  | idle hsame hbase =>
    exact hticks.keep hsame.state hsame.resumeState hsame.waitResumeState hsame.waitUntilMS
      (Or.inl hbase.ge)
  | ends hr hover =>
    rw [hover] at hlive
    cases hlive
  | swept hr hswept hmoves =>
    have hsweep := swept_sweepGroup hr hticks hswept
    exact (hmoves.ticks hsweep.ticks hsweep.awake).1

theorem Ticked.clock (hticked : Ticked now K r s) (hlive : s.group.isOver = false)
    (hticks : Ticks now r.group) (hstarts : ¬ K .starts) (hcues : ¬ K .cues) :
    s.group.clock now = r.group.clock now := by
  cases hticked with
  | idle hsame => exact hsame.clock
  | ends hr hover =>
    rw [hover] at hlive
    cases hlive
  | swept hr hswept hmoves =>
    have hsweep := swept_sweepGroup hr hticks hswept
    rw [clock_awake (hmoves.ticks hsweep.ticks hsweep.awake).2,
      hmoves.position hstarts hcues hsweep.ticks hsweep.awake, hsweep.position]

theorem Ticked.halted (hticked : Ticked now K r s) (hticks : r.group.isOver = false → Ticks now r.group)
    (hplays : ¬ K .plays) (hcues : ¬ K .cues) (hhalted : Halted r.group) : Halted s.group := by
  cases hticked with
  | idle hsame => exact hsame.halted hhalted
  | ends hr hover => exact halted_of_over hover
  | swept hr hswept hmoves =>
    have hsweep := swept_sweepGroup hr (hticks hr) hswept
    exact hmoves.halted hplays hcues hsweep.ticks hsweep.awake (hsweep.halted hhalted)

theorem Ticked.pauses (hticked : Ticked now K r s) (hticks : Ticks now r.group)
    (hplays : ¬ K .plays) (hcues : ¬ K .cues) (hpauses : r.Pauses now)
    (hwritten : s.group.playbackRevision ≠ r.group.playbackRevision) : Halted s.group := by
  cases hticked with
  | idle _ _ hrevision => exact absurd hrevision hwritten
  | ends hr hover => exact halted_of_over hover
  | swept hr hswept hmoves =>
    have hsweep := swept_sweepGroup hr hticks hswept
    exact hmoves.halted hplays hcues hsweep.ticks hsweep.awake (halted_of_pauses hpauses hticks)

theorem Ticked.host (hticked : Ticked now K r s) (hlive : s.group.isOver = false)
    (hhands : ¬ K .hands) : s.group.hostMemberID = r.group.hostMemberID := by
  cases hticked with
  | idle hsame => exact hsame.hostMemberID
  | ends hr hover =>
    rw [hover] at hlive
    cases hlive
  | swept hr hswept hmoves =>
    rw [hmoves.host hhands]
    exact (Room.keeps_sweepGroup now r).hostMemberID

end Portico.WatchTogether
