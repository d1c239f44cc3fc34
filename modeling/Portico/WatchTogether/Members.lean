import Portico.WatchTogether.SharedQueue

/-!
# The members and the invitations of a run

A request changes the rows of the members in place: who they are stays, and nobody is joined by it but
the one who comes in. Invitations keep their terms.

## Main results

* `Follows` for the sweep and for every request
* `group_served`: a group that is over stays as it is
-/

namespace Portico.WatchTogether

variable {env : Env} {now : ℤ} {viewer : Viewer} {r s t : Room} {m : Member}

/-- The same person, joined only if it was. -/
structure Member.Kept (m n : Member) : Prop where
  id : n.id = m.id
  viewer : n.viewer = m.viewer
  joined : n.state = .joined → m.state = .joined

/-- The same person in the same role: a host doesn't go. -/
structure Member.Stays (m n : Member) : Prop extends Member.Kept m n where
  role : n.role = m.role
  host : m.role = .host → n.state = m.state

/-- The same invitation, revoked perhaps. -/
def Invite.Stays (i j : Invite) : Prop := j = i ∨ j = { i with revoked := true }

theorem Member.Kept.refl (m : Member) : m.Kept m := ⟨rfl, rfl, fun h => h⟩

theorem Member.Kept.trans {l m n : Member} (h : l.Kept m) (h' : m.Kept n) : l.Kept n :=
  ⟨h'.id.trans h.id, h'.viewer.trans h.viewer, fun hn => h.joined (h'.joined hn)⟩

theorem Member.Stays.refl (m : Member) : m.Stays m := ⟨Member.Kept.refl m, rfl, fun _ => rfl⟩

theorem Member.Stays.trans {l m n : Member} (h : l.Stays m) (h' : m.Stays n) : l.Stays n := by
  refine ⟨h.toKept.trans h'.toKept, h'.role.trans h.role, fun hl => ?_⟩
  rw [h'.host (h.role.trans hl), h.host hl]

theorem Invite.Stays.trans {i j k : Invite} (h : i.Stays j) (h' : j.Stays k) : i.Stays k := by
  rcases h with rfl | rfl
  · exact h'
  · rcases h' with rfl | rfl
    · exact Or.inr rfl
    · exact Or.inr rfl

/-- The rows of `s` are those of `r`, changed one by one. -/
structure Follows (R : Member → Member → Prop) (r s : Room) : Prop where
  members : ∃ f : Member → Member, s.members = r.members.map f ∧ ∀ m, R m (f m)
  invites : ∃ f : Invite → Invite, s.invites = r.invites.map f ∧ ∀ i, Invite.Stays i (f i)
  nextID : r.nextID ≤ s.nextID

theorem exists_map_self {α : Type*} {R : α → α → Prop} (hR : ∀ a, R a a) (l : List α) :
    ∃ f : α → α, l = l.map f ∧ ∀ a, R a (f a) :=
  ⟨id, (List.map_id l).symm, hR⟩

theorem Invite.Stays.refl (i : Invite) : i.Stays i := Or.inl rfl

namespace Follows

variable {R : Member → Member → Prop}

theorem of_eq (hR : ∀ m, R m m) (hmembers : s.members = r.members)
    (hinvites : s.invites = r.invites) (hnext : r.nextID ≤ s.nextID) : Follows R r s := by
  refine ⟨?_, ?_, hnext⟩
  · rw [hmembers]
    exact exists_map_self hR r.members
  · rw [hinvites]
    exact exists_map_self Invite.Stays.refl r.invites

theorem refl (r : Room) : Follows Member.Stays r r := of_eq Member.Stays.refl rfl rfl le_rfl

theorem comp (hR : ∀ l m n, R l m → R m n → R l n) (h : Follows R r s) (h' : Follows R s t) :
    Follows R r t := by
  obtain ⟨⟨f, hf, hfR⟩, ⟨g, hg, hgR⟩, hnext⟩ := h
  obtain ⟨⟨f', hf', hfR'⟩, ⟨g', hg', hgR'⟩, hnext'⟩ := h'
  refine ⟨⟨f' ∘ f, ?_, fun m => hR _ _ _ (hfR m) (hfR' (f m))⟩,
    ⟨g' ∘ g, ?_, fun i => (hgR i).trans (hgR' (g i))⟩, hnext.trans hnext'⟩
  · rw [hf', hf, List.map_map]
  · rw [hg', hg, List.map_map]

theorem trans (h : Follows Member.Stays r s) (h' : Follows Member.Stays s t) :
    Follows Member.Stays r t :=
  h.comp (fun _ _ _ hlm hmn => hlm.trans hmn) h'

theorem mono {Q : Member → Member → Prop} (h : Follows R r s) (hRQ : ∀ m n, R m n → Q m n) :
    Follows Q r s := by
  obtain ⟨⟨f, hf, hfR⟩, hinvites, hnext⟩ := h
  exact ⟨⟨f, hf, fun m => hRQ _ _ (hfR m)⟩, hinvites, hnext⟩

end Follows

/-! ## The sweep -/

theorem stays_sweepMembers : Follows Member.Stays r (r.sweepMembers now).2 := by
  refine ⟨⟨_, rfl, fun m => ?_⟩, exists_map_self Invite.Stays.refl r.invites, le_rfl⟩
  split_ifs with hleaves
  · -- only a member leaves, never a host
    unfold Member.leaves at hleaves
    simp only [Bool.and_eq_true, decide_eq_true_eq] at hleaves
    refine ⟨⟨rfl, rfl, fun h => ?_⟩, rfl, fun hhost => ?_⟩
    · cases h
    · rw [hleaves.1.2] at hhost
      cases hhost
  · exact Member.Stays.refl m

variable (now r) in
theorem stays_releaseWait : Follows Member.Stays r (r.releaseWait now).2 := by
  unfold Room.releaseWait
  dsimp only
  split_ifs
  all_goals exact Follows.of_eq Member.Stays.refl rfl rfl le_rfl

theorem stays_endGroup {reason : EndedReason} : Follows Member.Stays r (r.endGroup reason) :=
  ⟨exists_map_self Member.Stays.refl r.members, ⟨_, rfl, fun _ => Or.inr rfl⟩, le_rfl⟩

theorem stays_hostTimeline {changed : Bool} :
    Follows Member.Stays r (r.hostTimeline now changed).2 := by
  unfold Room.hostTimeline
  dsimp only
  split_ifs
  · exact stays_endGroup
  all_goals exact Follows.of_eq Member.Stays.refl rfl rfl le_rfl

theorem stays_sweepGroup : Follows Member.Stays r (r.sweepGroup now).2 := by
  unfold Room.sweepGroup
  split_ifs
  · exact Follows.refl r
  · exact stays_sweepMembers.trans ((stays_releaseWait _ _).trans stays_hostTimeline)

theorem stays_updateMember {id : MemberID} {f : Member → Member} (hf : ∀ m, Member.Stays m (f m)) :
    Follows Member.Stays r (r.updateMember id f) := by
  refine ⟨⟨_, rfl, fun m => ?_⟩, exists_map_self Invite.Stays.refl r.invites, le_rfl⟩
  split_ifs
  · exact hf m
  · exact Member.Stays.refl m

theorem stays_seen {id : MemberID} : Follows Member.Stays r (r.seen now id) := by
  have hupdate : Follows Member.Stays r (r.updateMember id fun m => { m with seenMS := now }) :=
    stays_updateMember fun m => ⟨⟨rfl, rfl, fun h => h⟩, rfl, fun _ => rfl⟩
  exact ⟨hupdate.members, hupdate.invites, hupdate.nextID⟩

theorem Room.Runs.stays {key : String} (h : Room.Runs env now viewer key r m s) :
    Follows Member.Stays r s := by
  rw [h.room]
  exact stays_sweepGroup.trans stays_seen

theorem Room.Enters.stays (h : Room.Enters env now viewer r m s) : Follows Member.Stays r s := by
  rw [h.room]
  exact stays_sweepGroup.trans stays_seen

/-! ## Requests -/

variable (now s m) in
theorem stays_greeted : Follows Member.Stays s (s.greeted now m) := by
  unfold Room.greeted
  split_ifs
  all_goals exact Follows.of_eq Member.Stays.refl rfl rfl le_rfl

theorem stays_applyCommand {req : TransportRequest} {answer : Answer}
    (h : applyCommand env now req m s = .ok (answer, t)) : Follows Member.Stays s t := by
  obtain ⟨-, -, notes, g, -, rfl, -⟩ := applyCommand_ok h
  have hgreeted := stays_greeted now s m
  exact ⟨hgreeted.members, hgreeted.invites, hgreeted.nextID⟩

theorem stays_applySettings {req : SettingsRequest} {answer : Answer}
    (h : applySettings env now viewer req m s = .ok (answer, t)) : Follows Member.Stays s t := by
  unfold applySettings at h
  split_ifs at h
  obtain ⟨-, rfl⟩ := Prod.mk.inj (Except.ok.inj h)
  exact Follows.of_eq Member.Stays.refl rfl rfl le_rfl

theorem stays_editQueue {req : QueueRequest} (h : s.editQueue env viewer m req = .ok t) :
    Follows Member.Stays s t := by
  have happend : ∀ {q u : Room},
      (if maxQueueEntries < q.queue.length + req.itemIDs.length then .error .queueFull
        else (q.appendItems env viewer m.id q.queue.length req.itemIDs).map renumbered) =
        (.ok u : Except Fault Room) → Follows Member.Stays q u := by
    intro q u hu
    split_ifs at hu
    obtain ⟨v, hv, rfl⟩ := exists_of_map_eq_ok hu
    obtain rfl := appendItems_ok hv
    exact Follows.of_eq Member.Stays.refl rfl rfl (Nat.le_add_right _ _)
  unfold Room.editQueue at h
  cases hop : req.operation with
  | append =>
    rw [hop] at h
    exact happend h
  | replace =>
    rw [hop] at h
    have hreplaced := happend (q := { s with queue := [] }) h
    exact ⟨hreplaced.members, hreplaced.invites, hreplaced.nextID⟩
  | remove =>
    rw [hop] at h
    dsimp only at h
    split_ifs at h
    obtain rfl := Except.ok.inj h
    exact Follows.of_eq Member.Stays.refl rfl rfl le_rfl
  | move =>
    rw [hop] at h
    dsimp only at h
    split at h
    · obtain ⟨ids, -, rfl⟩ := exists_of_map_eq_ok h
      exact Follows.of_eq Member.Stays.refl rfl rfl le_rfl
    · cases h

theorem stays_applyQueue {req : QueueRequest} {answer : Answer}
    (h : applyQueue env now viewer req m s = .ok (answer, t)) : Follows Member.Stays s t := by
  obtain ⟨u, hu, rfl⟩ := applyQueue_ok h
  apply (stays_editQueue hu).trans
  unfold Room.refreshPosition
  split
  all_goals exact Follows.of_eq Member.Stays.refl rfl rfl le_rfl

theorem stays_applyHeartbeat {device : Option DeviceID}
    (h : applyHeartbeat now device m s = .ok t) : Follows Member.Stays s t := by
  unfold applyHeartbeat at h
  split_ifs at h
  all_goals
    obtain rfl := Except.ok.inj h
    exact Follows.of_eq Member.Stays.refl rfl rfl le_rfl

theorem stays_reported {req : ReadinessRequest} :
    Follows Member.Stays s (s.reported now req m) := by
  have hupdate : Follows Member.Stays s (s.updateMember m.id fun n =>
      { n with
        readiness := req.readiness, positionUS := req.positionUS.getD 0, readinessMS := now
        readinessRevision := s.group.playbackRevision }) :=
    stays_updateMember fun n => ⟨⟨rfl, rfl, fun h => h⟩, rfl, fun _ => rfl⟩
  unfold Room.reported
  dsimp only
  split_ifs
  · exact ⟨hupdate.members, hupdate.invites, hupdate.nextID⟩
  · exact hupdate

theorem stays_applyReadiness {req : ReadinessRequest} (h : applyReadiness now req m s = .ok t) :
    Follows Member.Stays s t := by
  rcases applyReadiness_cases h with rfl | ⟨-, -, -, -, rfl⟩ | ⟨-, summary, promoted, -, rfl⟩
  · exact Follows.refl t
  · exact stays_reported.trans (Follows.of_eq Member.Stays.refl rfl rfl le_rfl)
  · have hrelease := stays_releaseWait now (s.reported now req m)
    exact (stays_reported.trans hrelease).trans (Follows.of_eq Member.Stays.refl rfl rfl le_rfl)

theorem stays_applyEnd {expected : ℤ} (h : applyEnd expected m s = .ok t) :
    Follows Member.Stays s t := by
  unfold applyEnd at h
  split_ifs at h
  obtain rfl := Except.ok.inj h
  exact stays_endGroup

theorem kept_applyLeave (h : applyLeave m s = .ok t) : Follows Member.Kept s t := by
  have hleft : Follows Member.Kept s (s.updateMember m.id fun n => { n with state := .left }) := by
    refine ⟨⟨_, rfl, fun n => ?_⟩, exists_map_self Invite.Stays.refl s.invites, le_rfl⟩
    split_ifs
    · exact ⟨rfl, rfl, fun h => nomatch h⟩
    · exact Member.Kept.refl n
  have hended : ∀ {u : Room} {reason}, Follows Member.Kept u (u.endGroup reason) :=
    stays_endGroup.mono fun _ _ hmn => hmn.toKept
  unfold applyLeave at h
  dsimp only at h
  split_ifs at h
  · obtain rfl := Except.ok.inj h
    exact hleft.comp (fun _ _ _ hlm hmn => hlm.trans hmn) hended
  · obtain rfl := Except.ok.inj h
    exact hleft.comp (fun _ _ _ hlm hmn => hlm.trans hmn) hended
  · obtain rfl := Except.ok.inj h
    exact hleft

theorem applyTransfer_ok {device : Option DeviceID} {req : TransferRequest}
    (h : applyTransfer now viewer device req m s = .ok t) :
    ∃ n device', s.members.find? (fun n => decide (n.id = req.memberID)) = some n ∧
      n.state = .joined ∧
      t = { s with
        members := s.members.map fun n =>
          if n.id = req.memberID then { n with role := .host } else { n with role := .member }
        group := s.group.hostedBy now req.memberID device' } := by
  unfold applyTransfer at h
  simp only [guard_eq_ok] at h
  obtain ⟨-, -, -, -, h⟩ := h
  split at h
  · cases h
  · rename_i n hn
    simp only [guard_eq_ok] at h
    obtain ⟨-, hjoined, -, h⟩ := h
    exact ⟨n, _, hn, not_not.mp hjoined, (Except.ok.inj h).symm⟩

theorem kept_applyTransfer {device : Option DeviceID} {req : TransferRequest}
    (h : applyTransfer now viewer device req m s = .ok t) : Follows Member.Kept s t := by
  obtain ⟨n, device', -, -, rfl⟩ := applyTransfer_ok h
  refine ⟨⟨_, rfl, fun n => ?_⟩, exists_map_self Invite.Stays.refl s.invites, le_rfl⟩
  split_ifs <;> exact ⟨rfl, rfl, fun h => h⟩

/-! ## Every request -/

theorem kept_swept : Follows Member.Kept r ((r.sweepGroup now).2.save true) := by
  have hrows : Follows Member.Kept r (r.sweepGroup now).2 :=
    stays_sweepGroup.mono fun _ _ hmn => hmn.toKept
  exact ⟨hrows.members, hrows.invites, hrows.nextID⟩

theorem kept_served {a : Action} (h : Served env now r a s)
    (hcreate : ∀ viewer code req, a ≠ .createInvite viewer code req)
    (hrevoke : ∀ viewer id, a ≠ .revokeInvite viewer id)
    (hjoin : ∀ viewer code, a ≠ .join viewer code) : Follows Member.Kept r s := by
  have hkept : ∀ {u v : Room}, Follows Member.Stays u v → Follows Member.Kept u v :=
    fun h => h.mono fun _ _ hmn => hmn.toKept
  -- saving a room changes none of its rows
  have hsave : ∀ {u v : Room} {bump : Bool}, Follows Member.Kept u v →
      Follows Member.Kept u (v.save bump) := fun h => ⟨h.members, h.invites, h.nextID⟩
  have htrans : ∀ {u v w : Room}, Follows Member.Stays u v → Follows Member.Kept v w →
      Follows Member.Kept u w :=
    fun h h' => (hkept h).comp (fun _ _ _ hlm hmn => hlm.trans hmn) h'
  cases h with
  | idle => exact hkept (Follows.refl r)
  | swept => exact kept_swept
  | transport viewer req m u answer t hvalid hruns happly =>
    have hrows := hkept (hruns.stays.trans (stays_applyCommand happly))
    exact ⟨hrows.members, hrows.invites, hrows.nextID⟩
  | settings viewer req m u answer t hvalid hruns happly =>
    have hrows := hkept (hruns.stays.trans (stays_applySettings happly))
    exact ⟨hrows.members, hrows.invites, hrows.nextID⟩
  | queue viewer req m u answer t hvalid hruns happly =>
    have hrows := hkept (hruns.stays.trans (stays_applyQueue happly))
    exact ⟨hrows.members, hrows.invites, hrows.nextID⟩
  | heartbeat viewer device m u t henters hchange =>
    exact hsave (hkept (henters.stays.trans (stays_applyHeartbeat hchange)))
  | readiness viewer req m u t hvalid henters hchange =>
    exact hsave (hkept (henters.stays.trans (stays_applyReadiness hchange)))
  | endGroup viewer expected m u t henters hchange =>
    exact hsave (hkept (henters.stays.trans (stays_applyEnd hchange)))
  | leave viewer m u t henters hchange =>
    exact hsave (htrans henters.stays (kept_applyLeave hchange))
  | transfer viewer device req m u t henters hchange =>
    exact hsave (htrans henters.stays (kept_applyTransfer hchange))
  | createInvite viewer code req => exact absurd rfl (hcreate viewer code req)
  | revokeInvite viewer id => exact absurd rfl (hrevoke viewer id)
  | join viewer code => exact absurd rfl (hjoin viewer code)

/-! ## The end -/

theorem group_served {a : Action} (h : Served env now r a s) (hover : r.group.isOver = true) :
    s.group = r.group := by
  have hdead : (r.sweepGroup now).2.group.isOver = false → False := by
    intro hlive
    have hlive' := Room.live_of_sweepGroup hlive
    rw [hover] at hlive'
    cases hlive'
  cases h with
  | idle => rfl
  | swept _ hswept =>
    unfold Room.sweepGroup at hswept
    rw [if_pos hover] at hswept
    cases hswept
  | transport viewer req m u answer t hvalid hruns happly => exact (hdead hruns.live).elim
  | settings viewer req m u answer t hvalid hruns happly => exact (hdead hruns.live).elim
  | queue viewer req m u answer t hvalid hruns happly => exact (hdead hruns.live).elim
  | heartbeat viewer device m u t henters hchange => exact (hdead henters.live).elim
  | readiness viewer req m u t hvalid henters hchange => exact (hdead henters.live).elim
  | endGroup viewer expected m u t henters hchange => exact (hdead henters.live).elim
  | leave viewer m u t henters hchange => exact (hdead henters.live).elim
  | transfer viewer device req m u t henters hchange => exact (hdead henters.live).elim
  | createInvite | revokeInvite => rfl
  | join viewer code i m u hi hrecipient hrevoked hexpires huses hlive henter =>
    rw [hover] at hlive
    cases hlive

/-! ## Identifiers -/

/-- A member's identifier is its own. -/
structure Rows (r : Room) : Prop where
  distinct : (r.members.map Member.id).Nodup
  fresh : ∀ m ∈ r.members, m.id < r.nextID

theorem Rows.follows {R : Member → Member → Prop} (hR : ∀ m n, R m n → n.id = m.id) (h : Rows r)
    (hrows : Follows R r s) : Rows s := by
  obtain ⟨⟨f, hf, hfR⟩, -, hnext⟩ := hrows
  refine ⟨?_, fun n hn => ?_⟩
  · have hids : s.members.map Member.id = r.members.map Member.id := by
      rw [hf, List.map_map]
      apply List.map_congr_left
      intro m _
      exact hR _ _ (hfR m)
    rw [hids]
    exact h.distinct
  · rw [hf] at hn
    obtain ⟨m, hm, rfl⟩ := List.mem_map.mp hn
    rw [hR _ _ (hfR m)]
    exact (h.fresh m hm).trans_le hnext

theorem Rows.kept (h : Rows r) (hrows : Follows Member.Kept r s) : Rows s :=
  h.follows (fun _ _ hmn => hmn.id) hrows

theorem Rows.split (h : Rows r) (hm : m ∈ r.members) (f : Member → Member) :
    ∃ before after, r.members = before ++ m :: after ∧
      (r.updateMember m.id f).members = before ++ f m :: after ∧
      ∀ n ∈ before ++ after, n.id ≠ m.id := by
  obtain ⟨before, after, hsplit⟩ := List.append_of_mem hm
  have hdistinct := h.distinct
  rw [hsplit, List.map_append, List.map_cons, List.nodup_middle, List.nodup_cons,
    ← List.map_append] at hdistinct
  have hother : ∀ n ∈ before ++ after, n.id ≠ m.id := by
    intro n hn heq
    exact hdistinct.1 (heq ▸ List.mem_map_of_mem hn)
  refine ⟨before, after, hsplit, ?_, hother⟩
  unfold Room.updateMember
  dsimp only
  rw [hsplit, List.map_append, List.map_cons, if_pos rfl]
  congr 1
  · conv_rhs => rw [← List.map_id before]
    apply List.map_congr_left
    intro n hn
    exact if_neg (hother n (List.mem_append_left _ hn))
  · congr 1
    conv_rhs => rw [← List.map_id after]
    apply List.map_congr_left
    intro n hn
    exact if_neg (hother n (List.mem_append_right _ hn))

theorem rows_enter (h : Rows r) (henter : r.enter now viewer = .ok (m, s)) : Rows s := by
  unfold Room.enter at henter
  split at henter
  · split_ifs at henter
    obtain ⟨-, rfl⟩ := Prod.mk.inj (Except.ok.inj henter)
    refine ⟨?_, fun n hn => ?_⟩
    · rw [List.map_append, List.nodup_append]
      refine ⟨h.distinct, List.nodup_singleton _, ?_⟩
      rintro _ hold _ hnew heq
      obtain ⟨n, hn, rfl⟩ := List.mem_map.mp hold
      rw [List.mem_singleton.mp hnew] at heq
      exact (h.fresh n hn).ne heq
    · rcases List.mem_append.mp hn with hn | hn
      · exact (h.fresh n hn).trans (Nat.lt_succ_self _)
      · rw [List.mem_singleton.mp hn]
        exact Nat.lt_succ_self _
  · obtain ⟨-, rfl⟩ := Prod.mk.inj (Except.ok.inj henter)
    -- the row of a member that is back keeps its identifier
    apply h.follows (R := fun m n => n.id = m.id) fun _ _ hmn => hmn
    refine ⟨⟨_, rfl, fun n => ?_⟩, exists_map_self Invite.Stays.refl r.invites, le_rfl⟩
    split_ifs <;> rfl

theorem Rows.served {a : Action} (h : Rows r) (hserved : Served env now r a s) : Rows s := by
  cases a with
  | createInvite viewer code req =>
    cases hserved with
    | idle => exact h
    | swept => exact h.kept kept_swept
    | createInvite => exact ⟨h.distinct, fun m hm => (h.fresh m hm).trans (Nat.lt_succ_self _)⟩
  | revokeInvite viewer id =>
    cases hserved with
    | idle => exact h
    | swept => exact h.kept kept_swept
    | revokeInvite => exact ⟨h.distinct, h.fresh⟩
  | join viewer code =>
    cases hserved with
    | idle => exact h
    | swept => exact h.kept kept_swept
    | join viewer code i m u hi hrecipient hrevoked hexpires huses hlive henter =>
      have hrows := rows_enter h henter
      exact ⟨hrows.distinct, hrows.fresh⟩
  | transport | settings | queue | heartbeat | readiness | endGroup | leave | transfer | sweep =>
    exact h.kept (kept_served hserved (fun _ _ _ h => nomatch h) (fun _ _ h => nomatch h)
      (fun _ _ h => nomatch h))

theorem rows_createGroup {device : DeviceID} {authority : HostAuthority} :
    Rows (createGroup now viewer device authority) := by
  refine ⟨List.nodup_singleton _, fun m hm => ?_⟩
  rw [List.mem_singleton.mp hm]
  exact Nat.one_pos

end Portico.WatchTogether
