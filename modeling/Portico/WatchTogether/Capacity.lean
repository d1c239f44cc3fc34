import Portico.WatchTogether.Members

/-!
# Places and invitations

How many members a group has, and what its invitations are good for, over whole runs.

## Main results

* `Accounted.act`: what every event does to the account of the invitations
* `room_capacity`: the law of places and invitations
-/

namespace Portico.WatchTogether

variable {env : Env} {now : ℤ} {viewer : Viewer} {r s t : Room} {m : Member}
  {start : Room} {es : List Event} {e : Event}

/-- How many members are joined. -/
def Room.joined (r : Room) : ℕ := r.members.countP fun m => m.state = .joined

/-- The invitation an event redeems. -/
def redeemed (r : Room) (e : Event) : Option ℕ :=
  match e.action with
  | .join _ code =>
    match (serve e.env e.now r e.action).1 with
    | .ok _ => (r.invites.find? fun i => i.code = code).map Invite.id
    | .error _ => none
  | _ => none

/-- The invitations a run redeems, one by one. -/
def redemptions (start : Room) (es : List Event) : List ℕ := Machine.outputs act redeemed start es

/-- An invitation is issued, on the terms it has. -/
def Issues (i : Invite) (r : Room) (e : Event) : Prop :=
  ∃ viewer code req j, e.action = .createInvite viewer code req ∧
    (serve e.env e.now r e.action).1 = .ok (.invite j) ∧ j.id = i.id ∧ j.code = i.code ∧
    j.recipient = i.recipient ∧ j.maxUses = i.maxUses ∧ j.expiresMS = i.expiresMS

/-- An invitation is revoked by the host. -/
def Revokes (id : ℕ) (r : Room) (e : Event) : Prop :=
  ∃ viewer, e.action = .revokeInvite viewer id ∧ (serve e.env e.now r e.action).1 = .ok .done

/-- A member that has left comes back to a group that is full. -/
def ReturnsToFull (r : Room) (e : Event) : Prop :=
  ∃ viewer code i m, e.action = .join viewer code ∧ Redeemable e.env e.now viewer code r i ∧
    r.loadMember viewer = some m ∧ m.state ≠ .joined ∧ maxMembers ≤ r.joined

/-! ## The rows -/

theorem joined_le (h : Follows Member.Kept r s) : s.joined ≤ r.joined := by
  obtain ⟨⟨f, hf, hkept⟩, -, -⟩ := h
  unfold Room.joined
  rw [hf, List.countP_map]
  apply List.countP_mono_left
  intro m hm hjoined
  simp only [Function.comp_apply, decide_eq_true_eq] at hjoined ⊢
  exact (hkept m).joined hjoined

/-- The terms of an invitation, and how often it was used, when it stays. -/
theorem Invite.Stays.terms {i j : Invite} (h : i.Stays j) : j.id = i.id ∧ j.code = i.code ∧
    j.recipient = i.recipient ∧ j.maxUses = i.maxUses ∧ j.expiresMS = i.expiresMS ∧
    j.uses = i.uses ∧ (i.revoked = true → j.revoked = true) := by
  rcases h with rfl | rfl
  · exact ⟨rfl, rfl, rfl, rfl, rfl, rfl, fun h => h⟩
  · exact ⟨rfl, rfl, rfl, rfl, rfl, rfl, fun _ => rfl⟩

/-! ## The history of a room -/

/-- What the invitations of a room and the events before it have to do with each other. -/
structure Accounted (start : Room) (es : List Event) (r : Room) : Prop where
  distinct : (r.invites.map Invite.id).Nodup
  fresh : ∀ i ∈ r.invites, i.id < r.nextID
  known : ∀ id ∈ redemptions start es, id < r.nextID
  counted : ∀ i ∈ r.invites, ((redemptions start es).count i.id : ℤ) = i.uses ∧ i.uses ≤ i.maxUses
  issued : ∀ i ∈ r.invites, Machine.Happened act (Issues i) start es
  revoked : ∀ i ∈ r.invites, Machine.Happened act (Revokes i.id) start es → i.revoked = true
  named : ∀ id, Machine.Happened act (Revokes id) start es → id < r.nextID
  ended : Machine.Happened act (fun s _ => s.group.isOver = true) start es → r.group.isOver = true

theorem Accounted.ended_act (h : Accounted start es r) (hrun : Machine.run act start es = some r)
    (hact : act r e = some s)
    (hhappened : Machine.Happened act (fun s _ => s.group.isOver = true) start (es ++ [e])) :
    s.group.isOver = true := by
  have hover : r.group.isOver = true := by
    rcases (Machine.happened_concat hrun).mp hhappened with hbefore | hnow
    · exact h.ended hbefore
    · exact hnow
  rw [group_served (act_served hact) hover]
  exact hover

/-- Nothing is redeemed or issued, and what is revoked is marked so. -/
theorem Accounted.follows (h : Accounted start es r) (hrun : Machine.run act start es = some r)
    (hact : act r e = some s) (hrows : Follows Member.Kept r s) (hredeemed : redeemed r e = none)
    (hrevokes : ∀ id, Revokes id r e →
      id < r.nextID ∧ ∀ j ∈ s.invites, j.id = id → j.revoked = true) :
    Accounted start (es ++ [e]) s := by
  obtain ⟨-, ⟨f, hf, hstays⟩, hnext⟩ := hrows
  have hsame : redemptions start (es ++ [e]) = redemptions start es := by
    unfold redemptions
    rw [Machine.outputs_concat hrun, hredeemed]
    simp
  have hold : ∀ j ∈ s.invites, ∃ i ∈ r.invites, i.Stays j := by
    intro j hj
    rw [hf] at hj
    obtain ⟨i, hi, rfl⟩ := List.mem_map.mp hj
    exact ⟨i, hi, hstays i⟩
  refine ⟨?_, ?_, ?_, ?_, ?_, ?_, ?_, h.ended_act hrun hact⟩
  · have hids : s.invites.map Invite.id = r.invites.map Invite.id := by
      rw [hf, List.map_map]
      apply List.map_congr_left
      intro i _
      exact (hstays i).terms.1
    rw [hids]
    exact h.distinct
  · intro j hj
    obtain ⟨i, hi, hij⟩ := hold j hj
    rw [hij.terms.1]
    exact (h.fresh i hi).trans_le hnext
  · intro id hid
    rw [hsame] at hid
    exact (h.known id hid).trans_le hnext
  · intro j hj
    obtain ⟨i, hi, hij⟩ := hold j hj
    obtain ⟨hid, -, -, hmax, -, huses, -⟩ := hij.terms
    rw [hsame, hid, hmax, huses]
    exact h.counted i hi
  · intro j hj
    obtain ⟨i, hi, hij⟩ := hold j hj
    obtain ⟨hid, hcode, hrecipient, hmax, hexpires, -, -⟩ := hij.terms
    have hissues : Issues j = Issues i := by
      unfold Issues
      rw [hid, hcode, hrecipient, hmax, hexpires]
    rw [hissues]
    exact (h.issued i hi).concat
  · intro j hj hhappened
    obtain ⟨i, hi, hij⟩ := hold j hj
    obtain ⟨hid, -, -, -, -, -, hrevoked⟩ := hij.terms
    rcases (Machine.happened_concat hrun).mp hhappened with hbefore | hnow
    · rw [hid] at hbefore
      exact hrevoked (h.revoked i hi hbefore)
    · exact (hrevokes j.id hnow).2 j hj rfl
  · intro id hhappened
    rcases (Machine.happened_concat hrun).mp hhappened with hbefore | hnow
    · exact (h.named id hbefore).trans_le hnext
    · exact (hrevokes id hnow).1.trans_le hnext

theorem Accounted.issue {code : ℕ} {req : InviteRequest} {i : Invite} (h : Accounted start es r)
    (hrun : Machine.run act start es = some r) (he : e.action = .createInvite viewer code req)
    (hid : i.id = r.nextID) (huses : i.uses = 0) (hmax : 1 ≤ i.maxUses)
    (hanswer : (serve e.env e.now r e.action).1 = .ok (.invite i))
    (hact : act r e = some { r with invites := r.invites ++ [i], nextID := r.nextID + 1 }) :
    Accounted start (es ++ [e]) { r with invites := r.invites ++ [i], nextID := r.nextID + 1 } := by
  have hsame : redemptions start (es ++ [e]) = redemptions start es := by
    unfold redemptions
    rw [Machine.outputs_concat hrun]
    unfold redeemed
    rw [he]
    simp
  have hrevokes : ∀ id, Machine.Happened act (Revokes id) start (es ++ [e]) →
      Machine.Happened act (Revokes id) start es := by
    intro id hhappened
    rcases (Machine.happened_concat hrun).mp hhappened with hbefore | ⟨viewer', he', -⟩
    · exact hbefore
    · rw [he] at he'
      cases he'
  refine ⟨?_, ?_, ?_, ?_, ?_, ?_, ?_, h.ended_act hrun hact⟩
  · rw [List.map_append, List.nodup_append]
    refine ⟨h.distinct, List.nodup_singleton _, ?_⟩
    rintro _ hold _ hnew heq
    obtain ⟨j, hj, rfl⟩ := List.mem_map.mp hold
    rw [List.mem_singleton.mp hnew, hid] at heq
    exact (h.fresh j hj).ne heq
  · intro j hj
    rcases List.mem_append.mp hj with hj | hj
    · exact (h.fresh j hj).trans (Nat.lt_succ_self _)
    · rw [List.mem_singleton.mp hj, hid]
      exact Nat.lt_succ_self _
  · intro id hknown
    rw [hsame] at hknown
    exact (h.known id hknown).trans (Nat.lt_succ_self _)
  · intro j hj
    rw [hsame]
    rcases List.mem_append.mp hj with hj | hj
    · exact h.counted j hj
    · rw [List.mem_singleton.mp hj]
      -- a new identifier has not been redeemed
      have hnone : (redemptions start es).count i.id = 0 := by
        apply List.count_eq_zero_of_not_mem
        intro hknown
        exact absurd (h.known _ hknown) (by rw [hid]; exact lt_irrefl _)
      rw [hnone, huses]
      exact ⟨rfl, by omega⟩
  · intro j hj
    rcases List.mem_append.mp hj with hj | hj
    · exact (h.issued j hj).concat
    · rw [List.mem_singleton.mp hj, Machine.happened_concat hrun]
      exact Or.inr ⟨viewer, code, req, i, he, hanswer, rfl, rfl, rfl, rfl, rfl⟩
  · intro j hj hhappened
    rcases List.mem_append.mp hj with hj | hj
    · exact h.revoked j hj (hrevokes _ hhappened)
    · rw [List.mem_singleton.mp hj] at hhappened
      exact absurd (h.named _ (hrevokes _ hhappened)) (by rw [hid]; exact lt_irrefl _)
  · intro id hhappened
    exact (h.named id (hrevokes id hhappened)).trans (Nat.lt_succ_self _)

theorem Accounted.revoke {id : ℕ} (h : Accounted start es r)
    (hrun : Machine.run act start es = some r) (he : e.action = .revokeInvite viewer id)
    (hexists : ∃ i ∈ r.invites, i.id = id) (hact : act r e = some s)
    (hs : s = { r with
      invites := r.invites.map fun i => if i.id = id then { i with revoked := true } else i }) :
    Accounted start (es ++ [e]) s := by
  have hredeemed : redeemed r e = none := by
    unfold redeemed
    rw [he]
  apply h.follows hrun hact _ hredeemed
  · rintro id' ⟨viewer', he', -⟩
    obtain ⟨-, rfl⟩ := Action.revokeInvite.inj (he.symm.trans he')
    obtain ⟨i, hi, rfl⟩ := hexists
    refine ⟨h.fresh i hi, fun j hj hid => ?_⟩
    rw [hs] at hj
    obtain ⟨k, -, rfl⟩ := List.mem_map.mp hj
    by_cases hk : k.id = i.id
    · rw [if_pos hk]
    · rw [if_neg hk] at hid
      exact absurd hid hk
  · rw [hs]
    refine ⟨exists_map_self Member.Kept.refl r.members, ⟨_, rfl, fun i => ?_⟩, le_rfl⟩
    split_ifs
    · exact Or.inr rfl
    · exact Or.inl rfl

theorem Accounted.redeem {i : Invite} (h : Accounted start es r)
    (hrun : Machine.run act start es = some r) (hact : act r e = some s)
    (hredeemed : redeemed r e = some i.id) (hi : i ∈ r.invites) (huses : i.uses < i.maxUses)
    (hrevokes : ∀ id, ¬ Revokes id r e) (hnext : r.nextID ≤ s.nextID)
    (hs : s.invites =
      r.invites.map fun j => if j.id = i.id then { j with uses := j.uses + 1 } else j) :
    Accounted start (es ++ [e]) s := by
  have hsame : redemptions start (es ++ [e]) = redemptions start es ++ [i.id] := by
    unfold redemptions
    rw [Machine.outputs_concat hrun, hredeemed]
    rfl
  have hold : ∀ j ∈ s.invites, ∃ k ∈ r.invites, k.id = j.id ∧ k.code = j.code ∧
      k.recipient = j.recipient ∧ k.maxUses = j.maxUses ∧ k.expiresMS = j.expiresMS ∧
      k.revoked = j.revoked ∧ j.uses = k.uses + if k.id = i.id then 1 else 0 := by
    intro j hj
    rw [hs] at hj
    obtain ⟨k, hk, rfl⟩ := List.mem_map.mp hj
    refine ⟨k, hk, ?_⟩
    split_ifs
    · exact ⟨rfl, rfl, rfl, rfl, rfl, rfl, rfl⟩
    · exact ⟨rfl, rfl, rfl, rfl, rfl, rfl, (add_zero _).symm⟩
  have hbefore : ∀ id, Machine.Happened act (Revokes id) start (es ++ [e]) →
      Machine.Happened act (Revokes id) start es := by
    intro id hhappened
    rcases (Machine.happened_concat hrun).mp hhappened with hbefore | hnow
    · exact hbefore
    · exact (hrevokes id hnow).elim
  refine ⟨?_, ?_, ?_, ?_, ?_, ?_, ?_, h.ended_act hrun hact⟩
  · have hids : s.invites.map Invite.id = r.invites.map Invite.id := by
      rw [hs, List.map_map]
      apply List.map_congr_left
      intro j _
      simp only [Function.comp_apply]
      split_ifs <;> rfl
    rw [hids]
    exact h.distinct
  · intro j hj
    obtain ⟨k, hk, hid, -⟩ := hold j hj
    rw [← hid]
    exact (h.fresh k hk).trans_le hnext
  · intro id hid
    rw [hsame] at hid
    rcases List.mem_append.mp hid with hid | hid
    · exact (h.known id hid).trans_le hnext
    · rw [List.mem_singleton.mp hid]
      exact (h.fresh i hi).trans_le hnext
  · intro j hj
    obtain ⟨k, hk, hid, -, -, hmax, -, -, hcount⟩ := hold j hj
    obtain ⟨hcounted, hle⟩ := h.counted k hk
    rw [hsame, List.count_append, ← hid, ← hmax, hcount]
    by_cases hki : k.id = i.id
    · obtain rfl : k = i := List.inj_on_of_nodup_map h.distinct hk hi hki
      rw [if_pos rfl, List.count_singleton_self]
      push_cast
      exact ⟨by rw [hcounted], huses⟩
    · rw [if_neg hki, List.count_singleton, if_neg (by simpa using Ne.symm hki)]
      simpa using ⟨hcounted, hle⟩
  · intro j hj
    obtain ⟨k, hk, hid, hcode, hrecipient, hmax, hexpires, -⟩ := hold j hj
    have hissues : Issues j = Issues k := by
      unfold Issues
      rw [hid, hcode, hrecipient, hmax, hexpires]
    rw [hissues]
    exact (h.issued k hk).concat
  · intro j hj hhappened
    obtain ⟨k, hk, hid, -, -, -, -, hrevoked, -⟩ := hold j hj
    rw [← hrevoked]
    exact h.revoked k hk (by rw [hid]; exact hbefore _ hhappened)
  · intro id hhappened
    exact (h.named id (hbefore id hhappened)).trans_le hnext

theorem enter_ok {s : Room} (h : r.enter now viewer = .ok (m, s)) :
    s.invites = r.invites ∧ r.nextID ≤ s.nextID := by
  unfold Room.enter at h
  split at h
  · split_ifs at h
    obtain ⟨-, rfl⟩ := Prod.mk.inj (Except.ok.inj h)
    exact ⟨rfl, Nat.le_succ _⟩
  · obtain ⟨-, rfl⟩ := Prod.mk.inj (Except.ok.inj h)
    exact ⟨rfl, le_rfl⟩

/-- How many are joined when one comes in: one more, unless it was joined already. -/
theorem joined_enter {s : Room} (hr : Rows r) (h : r.enter now viewer = .ok (m, s)) :
    (r.loadMember viewer = none ∧ r.joined < maxMembers ∧ s.joined = r.joined + 1) ∨
    ∃ n, r.loadMember viewer = some n ∧
      s.joined = r.joined + if n.state = .joined then 0 else 1 := by
  unfold Room.enter at h
  split at h
  · rename_i hnone
    split_ifs at h with hfull
    obtain ⟨-, rfl⟩ := Prod.mk.inj (Except.ok.inj h)
    refine Or.inl ⟨hnone, not_le.mp hfull, ?_⟩
    unfold Room.joined
    rw [List.countP_append, List.countP_singleton]
    rfl
  · rename_i n hn
    obtain ⟨-, rfl⟩ := Prod.mk.inj (Except.ok.inj h)
    refine Or.inr ⟨n, hn, ?_⟩
    obtain ⟨before, after, hbefore, hafter, -⟩ := hr.split (Room.mem_of_loadMember hn).1 fun m =>
      { m with
        state := .joined, readiness := .buffering, readinessMS := now, seenMS := now
        readinessRevision := 0 }
    unfold Room.joined
    rw [hafter, hbefore, List.countP_append, List.countP_append, List.countP_cons,
      List.countP_cons]
    simp only [decide_true, if_true, decide_eq_true_eq]
    split_ifs <;> omega

/-- **The account.** What every event does to it. -/
theorem Accounted.act (h : Accounted start es r) (hrun : Machine.run WatchTogether.act start es = some r)
    (hact : WatchTogether.act r e = some s) : Accounted start (es ++ [e]) s := by
  have hs := act_serve hact
  have hserved := act_served hact
  -- a request that isn't about invitations, or that is refused
  have hother : Follows Member.Kept r s → redeemed r e = none → (∀ id, ¬ Revokes id r e) →
      Accounted start (es ++ [e]) s :=
    fun hrows hredeemed hrevokes => h.follows hrun hact hrows hredeemed
      fun id hid => (hrevokes id hid).elim
  have hsame : s = r → Follows Member.Kept r s := by
    rintro rfl
    exact (Follows.refl s).mono fun _ _ hmn => hmn.toKept
  cases haction : e.action with
  | createInvite viewer code req =>
    have hserve : serve e.env e.now r e.action = createInvite e.env e.now viewer code req r := by
      rw [haction]
      rfl
    have hrevokes : ∀ id, ¬ Revokes id r e := by
      rintro id ⟨viewer', he, -⟩
      rw [haction] at he
      cases he
    rcases createInvite_cases e.env e.now viewer r code req with ⟨fault, hc⟩ | ⟨m, i, -, -, hi, hc⟩
    · rw [hserve, hc] at hs
      exact hother (hsame hs) (by unfold redeemed; rw [haction]) hrevokes
    · rw [hserve, hc] at hs
      subst hs
      exact h.issue hrun haction hi.1 hi.2.2.1 hi.2.2.2.1 (by rw [hserve, hc]) hact
  | revokeInvite viewer id =>
    have hserve : serve e.env e.now r e.action = revokeInvite viewer id r := by
      rw [haction]
      rfl
    rcases revokeInvite_cases viewer r id with
      ⟨fault, hc⟩ | ⟨m, -, -, hexists, hc⟩
    · rw [hserve, hc] at hs
      apply hother (hsame hs) (by unfold redeemed; rw [haction])
      rintro id' ⟨viewer', he, hdone⟩
      rw [hserve, hc] at hdone
      cases hdone
    · rw [hserve, hc] at hs
      exact h.revoke hrun haction hexists hact hs
  | join viewer code =>
    have hserve : serve e.env e.now r e.action = join e.env e.now viewer code r := by
      rw [haction]
      rfl
    have hrevokes : ∀ id, ¬ Revokes id r e := by
      rintro id ⟨viewer', he, -⟩
      rw [haction] at he
      cases he
    rcases join_cases e.env e.now viewer r code with
      ⟨fault, hc⟩ | ⟨i, m, u, answer, hi, henter, hc⟩
    · rw [hserve, hc] at hs
      apply hother (hsame hs) _ hrevokes
      unfold redeemed
      rw [haction]
      dsimp only
      rw [← haction, hserve, hc]
    · rw [hserve, hc] at hs
      obtain ⟨hinvites, hnext⟩ := enter_ok henter
      apply h.redeem hrun hact _ (List.mem_of_find?_eq_some hi.found) hi.uses hrevokes
      · rw [hs]
        exact hnext
      · rw [hs, ← hinvites]
        rfl
      · unfold redeemed
        rw [haction]
        dsimp only
        rw [← haction, hserve, hc]
        dsimp only
        rw [hi.found]
        rfl
  | transport | settings | queue | heartbeat | readiness | endGroup | leave | transfer | sweep =>
    apply hother
    · rw [haction] at hserved
      exact kept_served hserved (fun _ _ _ h => nomatch h) (fun _ _ h => nomatch h)
        (fun _ _ h => nomatch h)
    · unfold redeemed
      rw [haction]
    · rintro id ⟨viewer', he, -⟩
      rw [haction] at he
      cases he

/-- A join fills a place only while there is one, unless it is a return to a full group. -/
theorem joined_act (hr : Rows r) (hjoined : r.joined ≤ maxMembers) (hreturns : ¬ ReturnsToFull r e)
    (hact : act r e = some s) : s.joined ≤ maxMembers := by
  have hserved := act_served hact
  cases haction : e.action with
  | createInvite viewer code req =>
    rw [haction] at hserved
    cases hserved with
    | idle => exact hjoined
    | swept => exact (joined_le kept_swept).trans hjoined
    | createInvite => exact hjoined
  | revokeInvite viewer id =>
    rw [haction] at hserved
    cases hserved with
    | idle => exact hjoined
    | swept => exact (joined_le kept_swept).trans hjoined
    | revokeInvite => exact hjoined
  | join viewer code =>
    have hs := act_serve hact
    have hserve : serve e.env e.now r e.action = join e.env e.now viewer code r := by
      rw [haction]
      rfl
    rcases join_cases e.env e.now viewer r code with
      ⟨fault, hc⟩ | ⟨i, m, u, answer, hi, henter, hc⟩
    · rw [hserve, hc] at hs
      rw [hs]
      exact hjoined
    · rw [hserve, hc] at hs
      have hsame : s.joined = u.joined := by rw [hs]; rfl
      rw [hsame]
      rcases joined_enter hr henter with ⟨-, hplace, hu⟩ | ⟨n, hn, hu⟩
      · rw [hu]
        exact hplace
      · rw [hu]
        split_ifs with hstate
        · exact hjoined
        · by_contra hfull
          exact hreturns ⟨viewer, code, i, n, haction, hi, hn, hstate,
            Nat.lt_succ_iff.mp (not_le.mp hfull)⟩
  | transport | settings | queue | heartbeat | readiness | endGroup | leave | transfer | sweep =>
    rw [haction] at hserved
    exact (joined_le (kept_served hserved (fun _ _ _ h => nomatch h) (fun _ _ h => nomatch h)
      (fun _ _ h => nomatch h))).trans hjoined

/-! ## The law -/

/-- The law of places and invitations in the room `r` a run `es` from `start` comes to. -/
structure Capacity (start : Room) (es : List Event) (r : Room) : Prop where
  /-- The group is never overfull. -/
  joined : r.joined ≤ maxMembers
  /-- An invitation was issued in the run on the terms it has. -/
  issued : ∀ i ∈ r.invites, Machine.Happened act (Issues i) start es
  /-- It is redeemed at most as often as its terms say. -/
  uses : ∀ i ∈ r.invites, (redemptions start es).count i.id ≤ i.maxUses
  /-- What is redeemed is used up, expired, revoked or ended by nothing that came before, and is for
  the one who redeems it. -/
  redeems : ∀ e id, redeemed r e = some id → ∃ viewer code, e.action = .join viewer code ∧
    ∃ i ∈ r.invites, i.id = id ∧ i.code = code ∧ (redemptions start es).count id < i.maxUses ∧
      e.now < i.expiresMS ∧ (i.recipient = none ∨ i.recipient = some viewer.profile) ∧
      ¬ Machine.Happened act (Revokes id) start es ∧ r.group.isOver = false ∧
      ¬ Machine.Happened act (fun s _ => s.group.isOver = true) start es

theorem redeemed_eq_some {id : ℕ} (h : redeemed r e = some id) :
    ∃ viewer code i, e.action = .join viewer code ∧ Redeemable e.env e.now viewer code r i ∧
      i.id = id := by
  unfold redeemed at h
  split at h
  · rename_i viewer code haction
    have hserve : serve e.env e.now r e.action = join e.env e.now viewer code r := by
      rw [haction]
      rfl
    rw [hserve] at h
    rcases join_cases e.env e.now viewer r code with
      ⟨fault, hc⟩ | ⟨i, m, u, answer, hi, -, hc⟩
    · rw [hc] at h
      cases h
    · rw [hc] at h
      dsimp only at h
      rw [hi.found] at h
      exact ⟨viewer, code, i, haction, hi, Option.some.inj h⟩
  · cases h

theorem Accounted.capacity (h : Accounted start es r) (hjoined : r.joined ≤ maxMembers) :
    Capacity start es r := by
  refine ⟨hjoined, h.issued, fun i hi => ?_, fun e id hredeemed => ?_⟩
  · obtain ⟨hcounted, hmax⟩ := h.counted i hi
    rw [hcounted]
    exact hmax
  · obtain ⟨viewer, code, i, haction, hi, rfl⟩ := redeemed_eq_some hredeemed
    have hmem := List.mem_of_find?_eq_some hi.found
    have hcode : i.code = code := by simpa using List.find?_some hi.found
    refine ⟨viewer, code, haction, i, hmem, rfl, hcode, ?_, hi.expires, hi.recipient, ?_, hi.live, ?_⟩
    · rw [(h.counted i hmem).1]
      exact hi.uses
    · intro hrevoked
      have htrue := h.revoked i hmem hrevoked
      rw [hi.revoked] at htrue
      cases htrue
    · intro hended
      have htrue := h.ended hended
      rw [hi.live] at htrue
      cases htrue

theorem accounted_createGroup {device : DeviceID} {authority : HostAuthority} :
    Accounted (createGroup now viewer device authority) [] (createGroup now viewer device authority) := by
  refine ⟨List.nodup_nil, ?_, ?_, ?_, ?_, ?_, ?_, ?_⟩
  · intro i hi
    exact absurd hi List.not_mem_nil
  · intro id hid
    exact absurd hid List.not_mem_nil
  · intro i hi
    exact absurd hi List.not_mem_nil
  · intro i hi
    exact absurd hi List.not_mem_nil
  · intro i hi
    exact absurd hi List.not_mem_nil
  · intro id hhappened
    exact absurd hhappened Machine.not_happened_nil
  · intro hhappened
    exact absurd hhappened Machine.not_happened_nil

theorem joined_createGroup {device : DeviceID} {authority : HostAuthority} :
    (createGroup now viewer device authority).joined = 1 := by
  simp [Room.joined, createGroup]

/-- **Places and invitations.** In every run of a group in which nobody comes back to it while it is
full, it is never overfull; an invitation is redeemed at most as often as it says, and never after it
has expired, was revoked or the group has ended, nor by another profile than the one it is bound
to. -/
theorem room_capacity (now : ℤ) (viewer : Viewer) (device : DeviceID) (authority : HostAuthority)
    (es : List Event) (r : Room)
    (hrun : Machine.run act (createGroup now viewer device authority) es = some r)
    (heach : Machine.Each act (fun r e => ¬ ReturnsToFull r e)
      (createGroup now viewer device authority) es) :
    Capacity (createGroup now viewer device authority) es r := by
  -- along the run: the account of the invitations, the rows and the places
  have hinv : Machine.run act (createGroup now viewer device authority) es = some r ∧
      Accounted (createGroup now viewer device authority) es r ∧ Rows r ∧ r.joined ≤ maxMembers := by
    refine Machine.run_history (P := fun es r =>
      Machine.run act (createGroup now viewer device authority) es = some r ∧
        Accounted (createGroup now viewer device authority) es r ∧ Rows r ∧ r.joined ≤ maxMembers)
      (Q := fun r e => ¬ ReturnsToFull r e) ?_ ?_ hrun heach
    · refine ⟨rfl, accounted_createGroup, rows_createGroup, ?_⟩
      rw [joined_createGroup]
      decide
    · rintro es r e s ⟨hr, haccounted, hrows, hjoined⟩ hreturns hact
      exact ⟨Machine.run_concat.mpr ⟨r, hr, hact⟩, haccounted.act hr hact,
        hrows.served (act_served hact), joined_act hrows hjoined hreturns hact⟩
  exact hinv.2.1.capacity hinv.2.2.2

/-- The host invites, and the second profile joins. -/
def inviting : List Event :=
  [⟨⟨false, fun _ _ => true⟩, 1001, .createInvite ⟨1, 1, 1⟩ 77 ⟨0, 32, none⟩⟩,
    ⟨⟨false, fun _ _ => true⟩, 1002, .join ⟨1, 2, 2⟩ 77⟩]

/-- The second profile leaves, the group fills up, and the second profile comes back. -/
def crowd : List Event :=
  [⟨⟨false, fun _ _ => true⟩, 1003, .leave ⟨1, 2, 2⟩⟩,
    ⟨⟨false, fun _ _ => true⟩, 1004, .createInvite ⟨1, 1, 1⟩ 78 ⟨0, 1, none⟩⟩] ++
  (List.range 31).map (fun n => ⟨⟨false, fun _ _ => true⟩, 1005, .join ⟨1, n + 3, n + 3⟩ 77⟩) ++
  [⟨⟨false, fun _ _ => true⟩, 1006, .join ⟨1, 2, 2⟩ 78⟩]

theorem room_capacity_inviting : ∃ r,
    Machine.run act (createGroup 1000 ⟨1, 1, 1⟩ 5 .hostOnly) inviting = some r ∧
      Capacity (createGroup 1000 ⟨1, 1, 1⟩ 5 .hostOnly) inviting r := by
  refine ⟨_, rfl, room_capacity 1000 ⟨1, 1, 1⟩ 5 .hostOnly inviting _ rfl ?_⟩
  refine ⟨?_, fun r hr => ⟨?_, fun _ _ => trivial⟩⟩
  · rintro ⟨viewer, code, i, m, haction, -⟩
    cases haction
  · rintro ⟨viewer, code, i, m, haction, -, -, -, hfull⟩
    obtain rfl := Option.some.inj hr
    exact absurd hfull (by decide +kernel)

theorem room_capacity_crowd :
    (Machine.run act (createGroup 1000 ⟨1, 1, 1⟩ 5 .hostOnly) (inviting ++ crowd)).map
      Room.joined = some 33 := by
  decide +kernel

end Portico.WatchTogether
