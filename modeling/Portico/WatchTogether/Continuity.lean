import Portico.WatchTogether.Clock

/-!
# The group over time

One host while the group lasts, an end that is final, a pause that only a command ends, and a position
that nobody's coming and going moves, in every run at a clock that doesn't run back.

## Main results

* `HostRow.served`: every action keeps the host
* `timeline_law`: the law, in every run
-/

namespace Portico.WatchTogether

variable {env : Env} {now : ℤ} {viewer : Viewer} {r s t : Room} {m : Member} {K : Kind → Prop}
  {e : Event}

/-! ## The host -/

/-- The group has one host: it is joined, and the group names it. -/
def HostRow (r : Room) : Prop :=
  ∃ before m after, r.members = before ++ m :: after ∧ m.role = .host ∧ m.state = .joined ∧
    m.id = r.group.hostMemberID ∧ ∀ n ∈ before ++ after, n.role ≠ .host

theorem HostRow.map (hrow : HostRow r) {f : Member → Member} (hs : s.members = r.members.map f)
    (hid : ∀ m, (f m).id = m.id) (hrole : ∀ m, (f m).role = m.role)
    (hhost : ∀ m ∈ r.members, m.role = .host → m.state = .joined → (f m).state = .joined)
    (hsame : s.group.hostMemberID = r.group.hostMemberID) : HostRow s := by
  obtain ⟨before, m, after, hmembers, hmhost, hjoined, hmid, hothers⟩ := hrow
  refine ⟨before.map f, f m, after.map f, ?_, ?_, ?_, ?_, ?_⟩
  · rw [hs, hmembers, List.map_append, List.map_cons]
  · rw [hrole, hmhost]
  · exact hhost m (by rw [hmembers]; simp) hmhost hjoined
  · rw [hid, hmid, hsame]
  · intro n hn
    rw [← List.map_append] at hn
    obtain ⟨k, hk, rfl⟩ := List.mem_map.mp hn
    rw [hrole]
    exact hothers k hk

theorem HostRow.follows (hrow : HostRow r) (hrows : Follows Member.Stays r s)
    (hsame : s.group.hostMemberID = r.group.hostMemberID) : HostRow s := by
  obtain ⟨⟨f, hf, hstays⟩, -, -⟩ := hrows
  exact hrow.map hf (fun m => (hstays m).id) (fun m => (hstays m).role)
    (fun m _ hhost hjoined => ((hstays m).host hhost).trans hjoined) hsame

theorem HostRow.leave (hrow : HostRow r) (hr : Rows r) (hm : m ∈ r.members) (hmember : m.role ≠ .host)
    (hrows : Follows Member.Stays r s)
    (hsame : s.group.hostMemberID = r.group.hostMemberID) :
    HostRow (s.updateMember m.id fun n => { n with state := .left }) := by
  obtain ⟨⟨f, hf, hstays⟩, -, -⟩ := hrows
  refine hrow.map (f := fun n => if (f n).id = m.id then { f n with state := .left } else f n)
    ?_ ?_ ?_ ?_ hsame
  · unfold Room.updateMember
    dsimp only
    rw [hf, List.map_map]
    rfl
  · intro n
    split_ifs <;> exact (hstays n).id
  · intro n
    split_ifs <;> exact (hstays n).role
  · intro n hn hhost hjoined
    have hne : (f n).id ≠ m.id := by
      rw [(hstays n).id]
      intro heq
      obtain rfl : n = m := List.inj_on_of_nodup_map hr.distinct hn hm heq
      exact hmember hhost
    rw [if_neg hne, (hstays n).host hhost]
    exact hjoined

theorem hostRow_applyTransfer {device : Option DeviceID} {req : TransferRequest} (hs : Rows s)
    (happly : applyTransfer now viewer device req m s = .ok t) : HostRow t := by
  obtain ⟨n, device', hn, hjoined, rfl⟩ := applyTransfer_ok happly
  have hid : n.id = req.memberID := by simpa using List.find?_some hn
  obtain ⟨before, after, hmembers, -, hothers⟩ := hs.split (List.mem_of_find?_eq_some hn) id
  refine ⟨before.map fun n => if n.id = req.memberID then { n with role := .host } else
    { n with role := .member }, { n with role := .host }, after.map fun n =>
      if n.id = req.memberID then { n with role := .host } else { n with role := .member },
    ?_, rfl, hjoined, ?_, ?_⟩
  · dsimp only
    rw [hmembers, List.map_append, List.map_cons, if_pos hid]
  · obtain ⟨hsame, -⟩ := sameClock_hosted now s.group req.memberID device'
    exact hid.trans hsame.hostMemberID.symm
  · intro k hk
    rw [← List.map_append] at hk
    obtain ⟨l, hl, rfl⟩ := List.mem_map.mp hk
    have hne := hothers l hl
    rw [hid] at hne
    rw [if_neg hne]
    simp

theorem hostRow_enter (hrow : HostRow r) (henter : r.enter now viewer = .ok (m, s)) : HostRow s := by
  have hgroup := group_enter henter
  unfold Room.enter at henter
  split at henter
  · split_ifs at henter
    obtain ⟨-, rfl⟩ := Prod.mk.inj (Except.ok.inj henter)
    obtain ⟨before, h, after, hmembers, hhost, hjoined, hid, hothers⟩ := hrow
    refine ⟨before, h, after ++ [_], by rw [hmembers, List.append_assoc, List.cons_append], hhost,
      hjoined, hid, fun n hn => ?_⟩
    rw [← List.append_assoc] at hn
    rcases List.mem_append.mp hn with hn | hn
    · exact hothers n hn
    · rw [List.mem_singleton.mp hn]
      simp
  · obtain ⟨-, rfl⟩ := Prod.mk.inj (Except.ok.inj henter)
    refine hrow.map (s := Room.updateMember _ _ r) rfl ?_ ?_ ?_ rfl
    · intro n
      split_ifs <;> rfl
    · intro n
      split_ifs <;> rfl
    · intro n _ _ hjoined
      split_ifs
      · rfl
      · exact hjoined

/-- **The host.** Every action that doesn't end the group leaves it with one host. -/
theorem HostRow.served {a : Action} (hrow : HostRow r) (hr : Rows r)
    (hserved : Served env now r a s) (hlive : s.group.isOver = false) : HostRow s := by
  have hticked := moves_served hserved
  have hsaved : ∀ {u : Room} {bump : Bool}, Follows Member.Stays r u →
      Follows Member.Stays r (u.save bump) := fun h => ⟨h.members, h.invites, h.nextID⟩
  cases hserved with
  | idle => exact hrow
  | swept =>
    have hhost := (Room.keeps_sweepGroup now r).hostMemberID
    exact hrow.follows (hsaved stays_sweepGroup) hhost
  | transport viewer req m u answer t hvalid hruns happly =>
    have hrows := hruns.stays.trans (stays_applyCommand happly)
    exact hrow.follows ⟨hrows.members, hrows.invites, hrows.nextID⟩ (hticked.host hlive id)
  | settings viewer req m u answer t hvalid hruns happly =>
    have hrows := hruns.stays.trans (stays_applySettings happly)
    exact hrow.follows ⟨hrows.members, hrows.invites, hrows.nextID⟩ (hticked.host hlive id)
  | queue viewer req m u answer t hvalid hruns happly =>
    have hrows := hruns.stays.trans (stays_applyQueue happly)
    exact hrow.follows ⟨hrows.members, hrows.invites, hrows.nextID⟩ (hticked.host hlive id)
  | heartbeat viewer device m u t henters hchange =>
    exact hrow.follows (hsaved (henters.stays.trans (stays_applyHeartbeat hchange)))
      (hticked.host hlive id)
  | readiness viewer req m u t hvalid henters hchange =>
    exact hrow.follows (hsaved (henters.stays.trans (stays_applyReadiness hchange)))
      (hticked.host hlive id)
  | endGroup viewer expected m u t henters hchange =>
    exact hrow.follows (hsaved (henters.stays.trans (stays_applyEnd hchange)))
      (hticked.host hlive id)
  | leave viewer m u t henters hchange =>
    have hhost := hticked.host hlive id
    unfold applyLeave at hchange
    dsimp only at hchange
    split_ifs at hchange with hmhost hempty
    · obtain rfl := Except.ok.inj hchange
      cases hlive
    · obtain rfl := Except.ok.inj hchange
      cases hlive
    · -- another member than the host leaves
      obtain rfl := Except.ok.inj hchange
      have hleft := hrow.leave hr (Room.mem_of_loadJoinedMember henters.admits.1).1 hmhost
        henters.stays hhost
      exact hleft
  | transfer viewer device req m u t henters hchange =>
    have hrows := hr.kept (henters.stays.mono fun _ _ hmn => hmn.toKept)
    have hhanded := hostRow_applyTransfer hrows hchange
    exact hhanded
  | createInvite | revokeInvite => exact hrow
  | join viewer code i m u hi hrecipient hrevoked hexpires huses hr' henter =>
    have hentered := hostRow_enter hrow henter
    exact hentered

/-! ## The law -/

/-- The event is answered, not refused. -/
def Accepted (r : Room) (e : Event) : Prop :=
  ∃ answer, (serve e.env e.now r e.action).1 = .ok answer

/-- A play command. -/
def PlaysOn (r : Room) (e : Event) : Prop :=
  Accepted r e ∧ ∃ viewer req, e.action = .transport viewer req ∧ req.command = .play

/-- A command or a report that sets the position: a seek, a stop, one that selects an entry, a play
with a position, and the end of the title. -/
def Repositions (r : Room) (e : Event) : Prop :=
  Accepted r e ∧
    ((∃ viewer req, e.action = .transport viewer req ∧
        (req.command = .stop ∨ req.command = .seek ∨ req.Selects ∨
          req.command = .play ∧ req.positionUS ≠ none)) ∨
      ∃ viewer req, e.action = .readiness viewer req ∧ req.ended = true)

theorem refused_of_not_accepted (hrefused : ¬ Accepted r e) :
    ∃ fault, (serve e.env e.now r e.action).1 = .error fault := by
  cases hanswer : (serve e.env e.now r e.action).1 with
  | error fault => exact ⟨fault, rfl⟩
  | ok answer => exact absurd ⟨answer, hanswer⟩ hrefused

theorem ticked_refused (hact : act r e = some s) (hrefused : ¬ Accepted r e) :
    ∃ K : Kind → Prop, Ticked e.now K r s ∧ ¬ K .starts ∧ ¬ K .plays ∧ ¬ K .cues := by
  obtain ⟨fault, hfault⟩ := refused_of_not_accepted hrefused
  have hticked := moves_served (act_served hact)
  have hs := act_serve hact
  cases haction : e.action with
  | transport viewer req =>
    rw [haction] at hfault hs
    refine ⟨fun k => k = .still, ?_, by simp, by simp, by simp⟩
    rw [hs]
    exact moves_refused (Or.inl ⟨req, rfl⟩) hfault
  | readiness viewer req =>
    rw [haction] at hfault hs
    refine ⟨fun k => k = .still, ?_, by simp, by simp, by simp⟩
    rw [hs]
    exact moves_refused (Or.inr ⟨req, rfl⟩) hfault
  | settings | queue | heartbeat | endGroup | leave | transfer | createInvite | revokeInvite | join
    | sweep =>
    rw [haction] at hticked
    exact ⟨_, hticked, id, id, id⟩

theorem ticked_plain (hact : act r e = some s) (hplays : ¬ PlaysOn r e) :
    ∃ K : Kind → Prop, Ticked e.now K r s ∧ ¬ K .plays ∧ ¬ K .cues := by
  by_cases haccepted : Accepted r e
  · have hticked := moves_served (act_served hact)
    refine ⟨_, hticked, fun hallows => hplays ⟨haccepted, ?_⟩, fun hallows => hplays ⟨haccepted, ?_⟩⟩
    all_goals
      cases haction : e.action with
      | transport viewer req =>
        rw [haction] at hallows
        exact ⟨viewer, req, rfl, hallows.1⟩
      | readiness | settings | queue | heartbeat | endGroup | leave | transfer | createInvite
        | revokeInvite | join | sweep =>
        rw [haction] at hallows
        exact hallows.elim
  · obtain ⟨K, hticked, -, hplays', hcues⟩ := ticked_refused hact haccepted
    exact ⟨K, hticked, hplays', hcues⟩

theorem ticked_steady (hact : act r e = some s) (hsteady : ¬ Repositions r e) :
    ∃ K : Kind → Prop, Ticked e.now K r s ∧ ¬ K .starts ∧ ¬ K .cues := by
  by_cases haccepted : Accepted r e
  · have hticked := moves_served (act_served hact)
    refine ⟨_, hticked, fun hallows => hsteady ⟨haccepted, ?_⟩,
      fun hallows => hsteady ⟨haccepted, ?_⟩⟩
    · cases haction : e.action with
      | transport viewer req =>
        rw [haction] at hallows
        refine Or.inl ⟨viewer, req, rfl, ?_⟩
        rcases hallows with hstop | hseek | hselects
        · exact Or.inl hstop
        · exact Or.inr (Or.inl hseek)
        · exact Or.inr (Or.inr (Or.inl hselects))
      | readiness viewer req =>
        rw [haction] at hallows
        exact Or.inr ⟨viewer, req, rfl, hallows⟩
      | settings | queue | heartbeat | endGroup | leave | transfer | createInvite | revokeInvite
        | join | sweep =>
        rw [haction] at hallows
        exact hallows.elim
    · cases haction : e.action with
      | transport viewer req =>
        rw [haction] at hallows
        exact Or.inl ⟨viewer, req, rfl, Or.inr (Or.inr (Or.inr hallows))⟩
      | readiness | settings | queue | heartbeat | endGroup | leave | transfer | createInvite
        | revokeInvite | join | sweep =>
        rw [haction] at hallows
        exact hallows.elim
  · obtain ⟨K, hticked, hstarts, -, hcues⟩ := ticked_refused hact haccepted
    exact ⟨K, hticked, hstarts, hcues⟩

/-! ## Runs -/

/-- What holds of a room at a time, in every run. -/
structure Sound (c : Clocked) : Prop where
  rows : Rows c.room
  ticks : c.room.group.isOver = false → Ticks c.clock c.room.group
  host : c.room.group.isOver = false → HostRow c.room

theorem step_act {c d : Clocked} (hstep : step c e = some d) :
    c.clock ≤ e.now ∧ act c.room e = some d.room ∧ d.clock = e.now := by
  unfold step at hstep
  split_ifs at hstep with hback
  rw [Option.map_eq_some_iff] at hstep
  obtain ⟨r, hr, rfl⟩ := hstep
  exact ⟨not_lt.mp hback, hr, rfl⟩

theorem Sound.step {c d : Clocked} (hsound : Sound c) (hstep : WatchTogether.step c e = some d) :
    Sound d := by
  obtain ⟨hclock, hact, hnow⟩ := step_act hstep
  have hserved := act_served hact
  have hticked := moves_served hserved
  refine ⟨hsound.rows.served hserved, fun hlive => ?_, fun hlive => ?_⟩
  · rw [hnow]
    exact hticked.ticks hlive ((hsound.ticks (hticked.live hlive)).mono hclock)
  · exact (hsound.host (hticked.live hlive)).served hsound.rows hserved hlive

/-- The law of a group over time, in the state `c` a run `es` from `start` comes to. -/
structure TimelineLaw (start : Clocked) (es : List Event) (c : Clocked) : Prop where
  /-- While the group lasts it has one host, who is joined and whom it names. -/
  host : c.room.group.isOver = false → HostRow c.room
  /-- Its end is final. -/
  final : ∀ before after d, es = before ++ after → Machine.run step start before = some d →
    d.room.group.isOver = true → c.room.group = d.room.group
  /-- Once the pause boundary has paused it, it plays again after a play command only. -/
  halted : ∀ before e after d d', es = before ++ e :: after →
    Machine.run step start before = some d → step d e = some d' → d.room.Pauses e.now →
    d'.room.group.playbackRevision ≠ d.room.group.playbackRevision →
    Machine.Each step (fun d e => ¬ PlaysOn d.room e) d (e :: after) → ¬ c.room.group.Plays
  /-- What doesn't set the position, and doesn't end the group, leaves the position it has reached. -/
  steady : ∀ e d, step c e = some d → ¬ Repositions c.room e → d.room.group.isOver = false →
    d.room.group.clock e.now = c.room.group.clock e.now

theorem sound_createGroup {device : DeviceID} {authority : HostAuthority} :
    Sound ⟨now, createGroup now viewer device authority⟩ := by
  refine ⟨rows_createGroup, fun _ => ⟨by simp [createGroup], ?_, ?_, ?_⟩, fun _ => ?_⟩
  · exact fun hwait => nomatch hwait
  · exact fun habsent => nomatch habsent
  · exact fun hpaused => nomatch hpaused
  · exact ⟨[], _, [], rfl, rfl, rfl, rfl, by simp⟩

/-- **A group over time.** In every run at a clock that doesn't run back, a group that lasts has one
host, an end is final, a pause for the absence of the host is ended by a play command only, and only
what sets a position, or ends the group, moves it. -/
theorem timeline_law (now : ℤ) (viewer : Viewer) (device : DeviceID) (authority : HostAuthority)
    (es : List Event) (c : Clocked)
    (hrun : Machine.run step ⟨now, createGroup now viewer device authority⟩ es = some c) :
    TimelineLaw ⟨now, createGroup now viewer device authority⟩ es c := by
  have hsound : ∀ {es c}, Machine.run step ⟨now, createGroup now viewer device authority⟩ es =
      some c → Sound c := fun hrun =>
    Machine.run_invariant (P := Sound) (fun _ _ _ hs hstep => hs.step hstep) sound_createGroup hrun
  refine ⟨(hsound hrun).host, ?_, ?_, ?_⟩
  · rintro before after d rfl hbefore hover
    obtain ⟨d', hd', hafter⟩ := Machine.run_append.mp hrun
    obtain rfl : d = d' := Option.some.inj (hbefore.symm.trans hd')
    -- a group that is over stays as it is
    have hsame := Machine.run_invariant (P := fun c => c.room.group = d.room.group)
      (fun c e c' hc hstep => by
        obtain ⟨-, hact, -⟩ := step_act hstep
        rw [group_served (act_served hact) (by rw [hc]; exact hover), hc]) rfl hafter
    exact hsame
  · rintro before e after d d' rfl hbefore hstep hpauses hwritten heach
    obtain ⟨d'', hd'', hafter⟩ := Machine.run_append.mp hrun
    obtain rfl : d = d'' := Option.some.inj (hbefore.symm.trans hd'')
    obtain ⟨d'', hd'', hrest⟩ := Machine.run_cons.mp hafter
    obtain rfl : d' = d'' := Option.some.inj (hstep.symm.trans hd'')
    have hd := hsound hbefore
    obtain ⟨hclock, hact, -⟩ := step_act hstep
    obtain ⟨K, hticked, hplays, hcues⟩ := ticked_plain hact heach.1
    have hticks := (hd.ticks hpauses.1).mono hclock
    have hpaused : Sound d' ∧ Halted d'.room.group :=
      ⟨hd.step hstep, hticked.pauses hticks hplays hcues hpauses hwritten⟩
    -- from there on nothing that isn't a play makes it play
    have hhalted := Machine.run_history (P := fun _ c => Sound c ∧ Halted c.room.group)
      (Q := fun c e => ¬ PlaysOn c.room e) hpaused
      (fun _ c e c' hc hplays hstep => by
        obtain ⟨hclock, hact, -⟩ := step_act hstep
        obtain ⟨K, hticked, hplays, hcues⟩ := ticked_plain hact hplays
        exact ⟨hc.1.step hstep, hticked.halted (fun hlive => (hc.1.ticks hlive).mono hclock) hplays
          hcues hc.2⟩) hrest (heach.2 d' hstep)
    exact hhalted.2.stands
  · intro e d hstep hsteady hlive
    obtain ⟨hclock, hact, -⟩ := step_act hstep
    obtain ⟨K, hticked, hstarts, hcues⟩ := ticked_steady hact hsteady
    have hticks := ((hsound hrun).ticks (hticked.live hlive)).mono hclock
    exact hticked.clock hlive hticks hstarts hcues

/-- The host loads the first of two entries and plays it. -/
def playing : List Event :=
  listening [10, 11] ++
    [⟨⟨false, fun _ _ => true⟩, 2000, .transport ⟨1, 1, 1⟩ (transportRequest "c" 2 .play none)⟩]

theorem timeline_law_playing : ∃ c,
    Machine.run step ⟨1000, createGroup 1000 ⟨1, 1, 1⟩ 5 .hostOnly⟩ playing = some c ∧
      TimelineLaw ⟨1000, createGroup 1000 ⟨1, 1, 1⟩ 5 .hostOnly⟩ playing c :=
  ⟨_, rfl, timeline_law 1000 ⟨1, 1, 1⟩ 5 .hostOnly playing _ rfl⟩

/-- Ten seconds into the entry, the next one starts at its beginning, and the end of the group shows
the position that was last set. -/
theorem timeline_law_restarts : ∃ c,
    Machine.run step ⟨1000, createGroup 1000 ⟨1, 1, 1⟩ 5 .hostOnly⟩ playing = some c ∧
    c.room.group.clock 12000 = 10000000 ∧
    (step c ⟨⟨false, fun _ _ => true⟩, 12000, .transport ⟨1, 1, 1⟩
      (transportRequest "d" 3 .next none)⟩).map (fun d => d.room.group.clock 12000) = some 0 ∧
    (step c ⟨⟨false, fun _ _ => true⟩, 12000, .endGroup ⟨1, 1, 1⟩ 1⟩).map
      (fun d => (d.room.group.state, d.room.group.clock 12000)) = some (.ended, 0) := by
  refine ⟨_, rfl, ?_, ?_, ?_⟩
  · decide +kernel
  · decide +kernel
  · decide +kernel

end Portico.WatchTogether
