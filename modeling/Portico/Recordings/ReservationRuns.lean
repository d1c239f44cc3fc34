import Portico.Recordings.Events
import Portico.Recordings.Progress
import Portico.Recordings.Reservations

/-!
# Reservations along a run

Every transaction keeps the recordings and their reservations together, with two exceptions. The
work of a rule reserves the padded interval of a recording again that it takes to be unchanged,
although the tuners had left less of it; and a claim that brings a recording up to the guide
reserves its tuner, although it waits for its source or its guide.

## Main results

* `Kept.claimNext`: a claim keeps the recording that it looks at and its reservation together
* `Kept.step`: a clean event keeps each recording and its reservations together
* `reservations_match`: in a run of clean events the reservations are those of the recordings
-/

namespace Portico.Recordings

open Machine

variable {g : Guide} {s s' : State} {env : Env} {r : Recording} {id : String}

/-! ## Claims -/

/-- A later attempt has a reason, and the interval that the tuners leave. -/
def Refusal.Proper (env : Env) (r : Recording) : Refusal → Prop
  | .later reason window => reason ≠ "" ∧
    ∀ w, window = some w → ∃ blocked, env.window r = some (w.1, w.2, blocked)
  | _ => True

variable {refusal : Refusal}

theorem Verdict.proper {v : Verdict} (h : v.check = .error refusal) : refusal.Proper env r := by
  cases v <;> cases h
  · trivial
  · exact ⟨by decide, fun _ hw => by cases hw⟩

theorem authorised_proper (h : (r.authorised env >>= fun _ => r.ruled g) = .error refusal) :
    refusal.Proper env r := by
  rcases bind_eq_error.mp h with h | ⟨-, -, h⟩
  · rcases bind_eq_error.mp h with h | ⟨-, -, h⟩
    · exact Verdict.proper h
    · split_ifs at h
      exact Verdict.proper h
  · unfold Recording.ruled at h
    split at h
    · cases h
    · split_ifs at h
      split at h
      · cases h; trivial
      · split_ifs at h <;> cases h
        · trivial
        · exact ⟨by decide, fun _ hw => by cases hw⟩

theorem recover_proper (h : r.recover g env = .error refusal) : refusal.Proper env r := by
  unfold Recording.recover at h
  repeat' split at h
  all_goals
    cases h <;> first | trivial | exact ⟨by decide, fun _ hw => by cases hw⟩

theorem unspent_proper (h : r.unspent env = .error refusal) : refusal.Proper env r := by
  unfold Recording.unspent at h
  split at h
  · rename_i fault _
    split_ifs at h <;> cases h
    · exact ⟨by cases fault <;> decide, fun _ hw => by cases hw⟩
    · trivial
  · split_ifs at h
    cases h
    trivial

theorem tune_proper {generation : String} (h : r.tune g env generation = .error refusal) :
    refusal.Proper env r := by
  unfold Recording.tune at h
  split at h
  · cases h; trivial
  rename_i start stop blocked hwindow
  split_ifs at h
  · cases h
    exact ⟨by decide, fun _ hw => by cases hw⟩
  split at h
  · cases h; trivial
  split at h
  · cases h
  all_goals cases h
  · exact ⟨by decide, fun w hw => by cases hw; exact ⟨blocked, hwindow⟩⟩
  · exact ⟨by decide, fun w hw => by cases hw; exact ⟨blocked, hwindow⟩⟩
  · exact ⟨by decide, fun w hw => by cases hw; exact ⟨blocked, hwindow⟩⟩
  · trivial

theorem capture_proper (h : r.capture g env = .error refusal) : refusal.Proper env r := by
  unfold Recording.capture at h
  split at h
  · cases h; trivial
  dsimp only at h
  split_ifs at h
  · cases h
    exact ⟨by decide, fun _ hw => by cases hw⟩
  · split at h <;> cases h <;> trivial
  · rcases bind_eq_error.mp h with h | ⟨-, -, h⟩
    · exact unspent_proper h
    · exact tune_proper h

/-- A capture that goes on, or is finished, has the interval of its recording. -/
theorem recover_window {c : Claim} (h : r.recover g env = .ok c) :
    c.start = r.start ∧ c.stop = r.stop := by
  unfold Recording.recover at h
  repeat' split at h
  all_goals
    cases h
    try exact ⟨rfl, rfl⟩

section Claims

variable (hwindow : ∀ r ∈ s.recordings, r.state.unreserved = true → ∀ start stop blocked,
  env.window (g.load r) = some (start, stop, blocked) → start = r.start ∧ stop = r.stop)

include hwindow

/-- What stands against a claim is recorded with the recording and its reservation. -/
theorem Kept.refuse (h : Kept s) (h' : Kept s') (hrows : s'.recordings = s.recordings)
    (hr : r ∈ s.recordings) (hproper : refusal.Proper env (g.load r)) {c : Prop}
    (hfollows : refusal.Follows g c (g.load r))
    (hclean : ∀ source, c → g.source r.source = some source → source.active = true →
      (g.load r).Stale g source → r.state.unreserved = false) :
    Kept (s.refuse env (g.load r) s' refusal).2 := by
  have honly : ∀ x ∈ s'.recordings, x.id = r.id → x = r := fun x hx hxid =>
    eq_of_key s'.keys hx (hrows ▸ hr) hxid
  cases refusal with
  | broken => exact h
  | fail reason =>
    apply h'.update_unreserve
    intro x hx _
    exact ⟨(h' x hx).priority, fun hwait _ => by cases hwait⟩
  | later reason window =>
    obtain ⟨hreason, hleft⟩ := hproper
    show Kept (s'.later env (g.load r) reason window)
    unfold State.later State.narrow
    split_ifs with hsame
    · apply h'.update
      intro x hx hxid
      obtain rfl := honly x hx hxid
      have hfits := h' x hx
      have hstart : (x.postponed env reason window).start = x.start := congrArg Prod.fst hsame
      have hstop : (x.postponed env reason window).stop = x.stop := congrArg Prod.snd hsame
      refine ⟨hfits.priority, fun _ hnone => absurd hnone hreason, hfits.free, fun hwait => ?_⟩
      rw [hstart, hstop]
      exact hfits.same hwait
    · apply h'.update_reserve
      intro x hx hxid
      obtain rfl := honly x hx hxid
      refine ⟨(h' x hx).priority, fun _ hnone => absurd hnone hreason, ?_,
        fun _ => ⟨rfl, rfl, (h' x hx).priority.symm⟩⟩
      -- a recording that has no reservation competes with none, so its interval is left
      by_contra hfree
      cases window with
      | none => exact hsame rfl
      | some w =>
        obtain ⟨blocked, hw⟩ := hleft w rfl
        have hstate : x.state.unreserved = true := Bool.of_not_eq_false hfree
        obtain ⟨hstart, hstop⟩ := hwindow x hr hstate _ _ _ hw
        exact hsame (Prod.ext hstart hstop)
  | refresh generation p start stop =>
    obtain ⟨hc, source, hsource, hactive, hstale, -, -, hpadded⟩ := hfollows
    apply h'.update_reserve
    intro x hx hxid
    obtain rfl := honly x hx hxid
    exact ⟨(h' x hx).priority, fun _ _ => hpadded, hclean source hc hsource hactive hstale,
      fun _ => ⟨rfl, rfl, (h' x hx).priority.symm⟩⟩

omit hwindow in
theorem Kept.claim {c : Claim} (h : Kept s) (hr : r ∈ s.recordings)
    (hc : r.state.mutable = true ∨ (c.start = r.start ∧ c.stop = r.stop)) :
    Kept (s.claim env (g.load r) c) := by
  have honly : ∀ x ∈ s.recordings, x.id = r.id → x = r := fun x hx hxid =>
    eq_of_key s.keys hx hr hxid
  unfold State.claim State.narrow
  split_ifs with hsame
  · apply h.update
    intro x hx hxid
    rw [← hxid]
    refine ⟨(h x hx).priority, fun hwait => ?_, fun hfree => (h x hx).free ?_, fun hwait => ?_⟩
    · rw [mutable_claimed] at hwait
      cases hwait
    · unfold Recording.claimed at hfree
      dsimp only at hfree
      split_ifs at hfree
      · exact hfree
      · cases hfree
      · cases hfree
    · rw [mutable_claimed] at hwait
      cases hwait
  · apply h.update_reserve
    intro x hx hxid
    obtain rfl := honly x hx hxid
    have hwait : x.state.mutable = true := by
      rcases hc with hc | ⟨hstart, hstop⟩
      · exact hc
      · exact absurd (Prod.ext hstart hstop) hsame
    refine ⟨(h x hx).priority, fun hmutable => ?_, ?_, fun hmutable => ?_⟩
    · rw [mutable_claimed] at hmutable
      cases hmutable
    · unfold Recording.claimed
      dsimp only
      have hwithdrawn : x.state.withdrawn = false := by
        revert hwait
        cases x.state <;> decide
      rw [hwithdrawn]
      split_ifs <;> first | rfl | contradiction
    · rw [mutable_claimed] at hmutable
      cases hmutable

omit hwindow in
theorem Kept.join {leader : String} {sharing : State.Sharing} (h : Kept s)
    (hjoin : s.join env r leader = some (s', sharing)) : Kept s' := by
  obtain ⟨l, -, hl⟩ := Option.map_eq_some_iff.mp hjoin
  split_ifs at hl
  · obtain ⟨rfl, -⟩ := Prod.mk.inj hl
    exact h
  · obtain ⟨rfl, -⟩ := Prod.mk.inj hl
    exact h.of_eq rfl rfl
  · obtain ⟨rfl, -⟩ := Prod.mk.inj hl
    apply h.update
    intro x hx _
    refine ⟨(h x hx).priority, fun hno => ?_, fun hno => ?_, fun hno => ?_⟩
    all_goals cases hno

omit hwindow in
theorem Kept.sharedCaptureTx {sharing : State.Sharing} (h : Kept s)
    (hshared : s.sharedCaptureTx env r = some (s', sharing)) : Kept s' := by
  unfold State.sharedCaptureTx at hshared
  split_ifs at hshared
  · obtain ⟨rfl, -⟩ := Prod.mk.inj (Option.some.inj hshared)
    exact h
  · split at hshared
    · exact h.join hshared
    · split at hshared
      · obtain ⟨rfl, -⟩ := Prod.mk.inj (Option.some.inj hshared)
        exact h
      · refine Kept.join ?_ hshared
        exact h.of_eq rfl rfl

/-- **Claims.** A call keeps the recording that it looks at and its reservation together, unless it
brings one up to the guide that waits for its source or its guide. -/
theorem Kept.claimNext (h : Kept s)
    (hclean : ∀ r, s.pick env.now = some r → ∀ source, Reached g s env r →
      g.source r.source = some source → source.active = true → (g.load r).Stale g source →
      r.state ≠ .waitingSource ∧ r.state ≠ .waitingGuide) : Kept (s.claimNext g env).2 := by
  unfold State.claimNext
  split_ifs
  · exact h
  split
  · exact h
  rename_i r hpick
  obtain ⟨hr, hdue⟩ := mem_of_pick hpick
  unfold State.examine
  split
  · rename_i refusal hrefusal
    exact Kept.refuse hwindow h h rfl hr (authorised_proper hrefusal)
      (authorised_follows (c := False) hrefusal) fun _ hfalse => hfalse.elim
  rename_i hok
  split
  · exact h
  · rename_i s' hshared
    rcases sharedCaptureTx_cases hshared with ⟨hrows, -⟩ | ⟨c, f, heq, -⟩
    · exact Kept.refuse hwindow h (h.sharedCaptureTx hshared) hrows hr
        ⟨by decide, fun _ hw => by cases hw⟩ (c := False) trivial fun _ hfalse => hfalse.elim
    · cases heq
  · rename_i s' c hshared
    have h' := h.sharedCaptureTx hshared
    split_ifs
    · apply h'.update_unreserve
      intro x hx _
      exact ⟨(h' x hx).priority, fun hwait _ => by cases hwait⟩
    · exact h'
  · rename_i s' hshared
    have h' := h.sharedCaptureTx hshared
    rcases sharedCaptureTx_cases hshared with ⟨hrows, -⟩ | ⟨c, f, heq, -⟩
    swap
    · cases heq
    have hr' : r ∈ s'.recordings := hrows ▸ hr
    by_cases hrecovering : (g.load r).recovering = true
    · rw [if_pos hrecovering]
      split
      · rename_i refusal hrefusal
        exact Kept.refuse hwindow h h' hrows hr (recover_proper hrefusal)
          (recover_follows (c := False) hrefusal) fun _ hfalse => hfalse.elim
      · rename_i c hc
        have hsame := recover_window hc
        exact h'.claim hr' (Or.inr hsame)
    · rw [if_neg hrecovering]
      -- a recording whose capture is the first one waits
      have hwait : r.state.mutable = true := by
        apply mutable_of_due hdue
        rintro (hstate | hstate) <;> apply hrecovering <;> unfold Recording.recovering
        · rw [show (g.load r).state.capturing = true from hstate]
          rfl
        · rw [show (g.load r).state.withdrawn = true from hstate, Bool.or_true]
      split
      · rename_i refusal hrefusal
        obtain ⟨⟨⟩, hauth, hruled⟩ := bind_eq_ok.mp hok
        have hreached : Reached g s env r :=
          ⟨hauth, hruled, ⟨s', hshared⟩, Bool.eq_false_of_not_eq_true hrecovering⟩
        refine Kept.refuse hwindow h h' hrows hr (capture_proper hrefusal)
          (capture_follows hreached hrefusal) fun source _ hsource hactive hstale => ?_
        obtain ⟨hsource', hguide⟩ := hclean r hpick source hreached hsource hactive hstale
        revert hwait hsource' hguide
        cases r.state <;> decide
      · exact h'.claim hr' (Or.inl hwait)

end Claims

/-! ## Runs -/

section Runs

variable {st t : Store} {e : Event} {es : List Event} {now : ℤ} {o : Owner} {token reason : String}
  {recordID : Owner → String → String → String} {capacity : String → Option LiveChannels.Capacity}

/-- **Clean events.** A claim brings no recording up to the guide that waits for its source or its
guide, and the work of a rule comes to no recording that it takes to be unchanged although its
interval isn't the padded one. -/
def Clean (s : Store) : Event → Prop
  | .claimNext env capacity => ∀ r, s.state.pick env.now = some r → ∀ source,
      Reached s.guide s.state (s.claimEnv env capacity) r → s.guide.source r.source = some source →
      source.active = true → (s.guide.load r).Stale s.guide source →
      r.state ≠ .waitingSource ∧ r.state ≠ .waitingGuide
  | .reconcileOne env => ∀ w rule source, s.nextWork = some (w, rule) →
      s.guide.source rule.config.source = some source → w.phase = .existing →
      w.generation = source.generation → env.authority ≠ .unavailable →
      Each (fun u r => u.reconsider s.guide env rule source r.id)
        (fun u r => Settled s.guide env rule source u r.id) s.state (s.existing env.now rule w.cursor)
  | _ => True

/-- The tuners leave its interval to a recording that has no reservation. -/
theorem Kept.window (h : Kept st.state) (hr : r ∈ st.state.recordings)
    (hfree : r.state.unreserved = true) {start stop : ℤ} {blocked : Bool}
    (hwindow : (st.claimEnv env capacity).window (st.guide.load r) = some (start, stop, blocked)) :
    start = r.start ∧ stop = r.stop := by
  have hnone := (h r hr).free hfree
  apply State.captureWindowTx_of_unreserved (r := st.guide.load r) ?_ hwindow
  intro v hv hid
  by_contra henabled
  have hmem := mem_reserved.mpr ⟨hv, hid, by simpa using henabled⟩
  have hid' : (st.guide.load r).id = r.id := rfl
  rw [hid', hnone] at hmem
  cases hmem

theorem Kept.detachAll {rule : String} (h : Kept s) : Kept (s.detachAll rule) := by
  unfold Kept
  apply forall_updateWhere
  · intro r hr _
    exact (h r hr).detached
  · intro r hr _
    exact h r hr

theorem mem_of_loadTx (h : s.loadTx o id = some r) : r ∈ s.recordings ∧ r.id = id :=
  have hrow := (Option.filter_eq_some_iff.mp h).1
  ⟨mem_of_rowOf hrow, key_of_rowOf hrow⟩

theorem Kept.schedule {binding : Occurrence} {options : Options} {defaults : Option Options}
    {permitted available visible : Bool} (h : Kept st.state)
    (hstep : st.schedule recordID now o binding options defaults permitted available visible =
      some t) : Kept t.state := by
  unfold Store.schedule at hstep
  split at hstep
  · cases hstep
  split at hstep
  · cases hstep
  split at hstep
  · cases hstep
  dsimp only at hstep
  split at hstep
  · cases hstep
  rename_i start stop hpadded
  split at hstep
  · cases hstep
  obtain ⟨u, hu, rfl⟩ := Option.map_eq_some_iff.mp hstep
  exact h.insertTx rfl hpadded rfl (toOption_eq_some.mp hu)

theorem Kept.changed {options : Options} {permitted : Bool} (h : Kept st.state)
    (hstep : st.change now o id options permitted = some t) : Kept t.state := by
  unfold Store.change at hstep
  split at hstep
  · cases hstep
  rename_i r hr
  split_ifs at hstep
  split at hstep
  · cases hstep
  rename_i start stop hpadded
  split_ifs at hstep
  obtain rfl := Option.some.inj hstep
  apply h.update_reserve
  intro x hx hxid
  obtain ⟨hmem, hrid⟩ := mem_of_loadTx hr
  obtain rfl := eq_of_key st.state.keys hx hmem (hxid.trans hrid.symm)
  exact ⟨rfl, fun _ _ => hpadded, rfl, fun _ => ⟨rfl, rfl, rfl⟩⟩

theorem Kept.drop {f : Recording → Recording} (h : Kept s) (hid : ∀ r, (f r).id = r.id)
    (hpriority : ∀ r, (f r).priority = r.priority ∧ (f r).options = r.options)
    (hstate : ∀ r, (f r).state.mutable = false) : Kept ((s.update id f hid).unreserve id) := by
  apply h.update_unreserve
  intro x hx _
  refine ⟨?_, fun hwait => ?_⟩
  · rw [(hpriority x).1, (hpriority x).2]
    exact (h x hx).priority
  · rw [hstate] at hwait
    cases hwait

theorem Kept.cancel (h : Kept st.state) (hstep : st.cancel o id = some t) : Kept t.state := by
  unfold Store.cancel at hstep
  split at hstep
  · cases hstep
  split_ifs at hstep
  obtain rfl := Option.some.inj hstep
  exact h.drop _ (fun _ => ⟨rfl, rfl⟩) fun _ => rfl

theorem Kept.delete (h : Kept st.state) (hstep : st.delete o id reason = some t) : Kept t.state := by
  unfold Store.delete at hstep
  split at hstep
  · cases hstep
  split_ifs at hstep
  obtain rfl := Option.some.inj hstep
  exact h.drop _ (fun _ => ⟨rfl, rfl⟩) fun _ => rfl

theorem Kept.deleted (h : Kept st.state) (hstep : st.deleted id = some t) : Kept t.state := by
  unfold Store.deleted at hstep
  split at hstep
  · cases hstep
  rename_i r hrow
  split_ifs at hstep with hstate
  obtain rfl := Option.some.inj hstep
  rw [not_not] at hstate
  rw [Store.state_setState]
  apply h.update
  intro x hx hxid
  obtain rfl := eq_of_key st.state.keys hx (mem_of_rowOf hrow) (hxid.trans (key_of_rowOf hrow).symm)
  refine ⟨(h x hx).priority, fun hno => ?_, fun _ => ?_, fun hno => ?_⟩
  · cases hno
  · rw [← hxid]
    exact (h x hx).free (by rw [hstate]; rfl)
  · cases hno

theorem state_saveRule {revision : Option ℕ} {config : RuleConfig} {enabled permitted available : Bool}
    {anchor : Option Programme} (hstep : st.saveRule now o id revision config enabled permitted
      available anchor = some t) : t.state = st.state := by
  unfold Store.saveRule at hstep
  repeat' split at hstep
  all_goals
    cases hstep
    try rfl

theorem Kept.deleteRule {revision : ℕ} {keep : Bool} (h : Kept st.state)
    (hstep : st.deleteRule now o id revision keep = some t) : Kept t.state := by
  unfold Store.deleteRule at hstep
  split at hstep
  · cases hstep
  split at hstep
  · cases hstep
  obtain rfl := Option.some.inj hstep
  cases keep with
  | false => exact h
  | true => exact h.detachAll

theorem state_sweepRules : (st.sweepRules now).state = st.state := by
  unfold Store.sweepRules
  dsimp only
  generalize page Rule.id st.rulesCursor _ = rows
  suffices hfold : ∀ u : Store, (rows.foldl _ u).state = u.state from hfold st
  intro u
  induction rows generalizing u with
  | nil => rfl
  | cons r rows ih =>
    rw [List.foldl_cons, ih]
    split
    · rfl
    · split_ifs <;> rfl

theorem Kept.reconcileScheduled {authority : Recording → Verdict} (h : Kept st.state)
    (hstep : st.reconcileScheduled now authority = some t) : Kept t.state := by
  unfold Store.reconcileScheduled at hstep
  obtain ⟨u, hu, rfl⟩ := Option.map_eq_some_iff.mp hstep
  rw [← @run_eq_foldlM _ _ (fun (u : State) (r : Recording) =>
    u.follow st.guide now authority r.id) _ _] at hu
  exact run_invariant (P := Kept) (fun _ _ _ h hfollow => h.follow hfollow) h hu

theorem Kept.reconcileOne {env : RuleEnv} (h : Kept st.state) (hclean : Clean st (.reconcileOne env))
    (hstep : st.reconcileOne recordID env = some t) : Kept t.state := by
  unfold Store.reconcileOne at hstep
  split at hstep
  · cases hstep
  rename_i w rule hwork
  split at hstep
  · cases hstep
  rename_i source hsource
  by_cases hgeneration : w.generation = source.generation
  swap
  · rw [if_pos hgeneration] at hstep
    obtain rfl := Option.some.inj hstep
    exact h
  rw [if_neg (not_not.mpr hgeneration)] at hstep
  by_cases hauthority : env.authority = .unavailable
  · rw [if_pos hauthority] at hstep
    cases hstep
  rw [if_neg hauthority] at hstep
  split at hstep
  · rename_i hphase
    obtain ⟨u, hu, rfl⟩ := Option.map_eq_some_iff.mp hstep
    rw [← @run_eq_foldlM _ _ (fun (u : State) (r : Recording) =>
      u.reconsider st.guide env rule source r.id) _ _] at hu
    exact run_history (P := fun _ u => Kept u) h
      (fun _ _ _ _ h hsettled hrec => h.reconsider hsettled hrec) hu
      (hclean w rule source hwork hsource hphase hgeneration hauthority)
  · split_ifs at hstep
    · obtain rfl := Option.some.inj hstep
      exact h
    · obtain ⟨u, hu, rfl⟩ := Option.map_eq_some_iff.mp hstep
      rw [← @run_eq_foldlM _ _ (fun (u : State) (p : Programme) =>
        u.discover st.guide env rule source recordID p) _ _] at hu
      exact run_invariant (P := Kept) (fun _ _ _ h hdisc => h.discover hdisc) h hu
  · cases hstep

/-! ### Workers -/

/-- What a worker reports of a recording whose interval, priority and state stay what they are. -/
theorem Kept.note {f : Recording → Recording} (h : Kept s) (hid : ∀ r, (f r).id = r.id)
    (hrow : ∀ vs r, Fits vs r → Fits vs (f r)) : Kept (s.update id f hid) := by
  apply h.update
  intro x hx hxid
  rw [← hxid]
  exact hrow _ x (h x hx)

theorem Kept.failWorker {recoverable : Bool} (h : Kept st.state)
    (hstep : st.failWorker now id token reason recoverable = some t) : Kept t.state := by
  unfold Store.failWorker at hstep
  split at hstep
  · cases hstep
  rename_i r hheld
  by_cases hcapturing : r.state.capturing = true
  · rw [if_pos hcapturing] at hstep
    obtain rfl := Option.some.inj hstep
    exact h.drop _ (fun _ => ⟨rfl, rfl⟩) fun _ => by cases recoverable <;> rfl
  · rw [if_neg hcapturing] at hstep
    split_ifs at hstep
    obtain rfl := Option.some.inj hstep
    rw [Store.state_setState]
    exact h.note _ fun _ _ hfits => ⟨hfits.priority, hfits.padded, hfits.free, hfits.same⟩

theorem Kept.deny (h : Kept st.state) (hstep : st.deny id token = some t) : Kept t.state := by
  unfold Store.deny at hstep
  split at hstep
  · cases hstep
  split_ifs at hstep
  · obtain rfl := Option.some.inj hstep
    exact h.drop _ (fun _ => ⟨rfl, rfl⟩) fun _ => rfl
  · obtain rfl := Option.some.inj hstep
    exact h.unreserve

theorem Kept.renew (h : Kept st.state) (hstep : st.renew now id token = some t) : Kept t.state := by
  obtain ⟨r, -, rfl⟩ := Option.map_eq_some_iff.mp hstep
  rw [Store.state_setState]
  exact h.note _ fun _ _ hfits => ⟨hfits.priority, hfits.padded, hfits.free, hfits.same⟩

theorem Kept.checkpoint {retired : Bool} (h : Kept st.state)
    (hstep : st.checkpoint id token retired = some t) : Kept t.state := by
  unfold Store.checkpoint at hstep
  split at hstep
  · cases hstep
  rename_i r hheld
  by_cases hstate : r.state.capturing = true ∨ r.state.withdrawn = true
  swap
  · rw [if_neg hstate] at hstep
    cases hstep
  rw [if_pos hstate] at hstep
  obtain rfl := Option.some.inj hstep
  rw [Store.state_setState]
  apply h.update
  intro x hx hxid
  have hrow := (Option.filter_eq_some_iff.mp hheld).1
  obtain rfl := eq_of_key st.state.keys hx (mem_of_rowOf hrow) (hxid.trans (key_of_rowOf hrow).symm)
  have hfits := h x hx
  rw [hxid] at hfits
  by_cases hwithdrawn : x.state.withdrawn = true
  · simp only [hwithdrawn, if_true]
    exact ⟨hfits.priority, hfits.padded, hfits.free, hfits.same⟩
  · simp only [hwithdrawn]
    cases retired with
    | false => exact ⟨hfits.priority, nofun, nofun, nofun⟩
    | true => exact ⟨hfits.priority, nofun, nofun, nofun⟩

theorem Kept.publish {complete : Bool} (h : Kept st.state)
    (hstep : st.publish id token complete reason = some t) : Kept t.state := by
  unfold Store.publish at hstep
  split at hstep
  · cases hstep
  rename_i r hheld
  by_cases hwithdrawn : r.state.withdrawn = true
  · rw [if_pos hwithdrawn] at hstep
    obtain rfl := Option.some.inj hstep
    rw [Store.state_setState]
    exact h.note _ fun _ _ hfits => ⟨hfits.priority, hfits.padded, hfits.free, hfits.same⟩
  rw [if_neg hwithdrawn] at hstep
  by_cases hcapturing : r.state.capturing = true
  · rw [if_pos hcapturing] at hstep
    obtain rfl := Option.some.inj hstep
    exact h.drop _ (fun _ => ⟨rfl, rfl⟩) fun _ => by cases complete <;> rfl
  · rw [if_neg hcapturing] at hstep
    cases hstep

/-- **A step.** A clean event keeps each recording and its reservations together. -/
theorem Kept.apply (h : Kept st.state) (hclean : Clean st e) (happly : st.apply recordID e = some t) :
    Kept t.state := by
  cases e with
  | guide g =>
    obtain rfl := Option.some.inj happly
    exact h
  | schedule => exact h.schedule happly
  | change => exact h.changed happly
  | cancel => exact h.cancel happly
  | delete => exact h.delete happly
  | deleted => exact h.deleted happly
  | saveRule =>
    rw [state_saveRule happly]
    exact h
  | deleteRule => exact h.deleteRule happly
  | sweepRules =>
    obtain rfl := Option.some.inj happly
    rw [state_sweepRules]
    exact h
  | reconcileOne => exact h.reconcileOne hclean happly
  | reconcileScheduled => exact h.reconcileScheduled happly
  | expireMissed =>
    obtain rfl := Option.some.inj happly
    exact h.expireMissed
  | claimNext env capacity =>
    obtain rfl := Option.some.inj happly
    exact Kept.claimNext (fun r hr hfree _ _ _ hw => h.window hr hfree hw) h hclean
  | failWorker => exact h.failWorker happly
  | deny => exact h.deny happly
  | renew => exact h.renew happly
  | checkpoint => exact h.checkpoint happly
  | publish => exact h.publish happly

theorem Kept.step (h : Kept st.state) (hclean : Clean st e) (hstep : st.step recordID e = some t) :
    Kept t.state := by
  obtain rfl := Option.some.inj hstep
  cases happly : st.apply recordID e with
  | none => exact h
  | some u => exact h.apply hclean happly

/-- **Reservations.** In a run of clean events the reservations in force are those of recordings
that may be captured, at each state. -/
theorem reservations_match (hclean : Each (Store.step recordID) Clean {} es) :
    Along (Store.step recordID) (fun s => Reserved s.state) {} es := by
  refine along_of_each (I := fun s => Kept s.state) (fun _ h => h.reserved)
    (fun _ _ _ h hclean hstep => h.step hclean hstep) ?_ hclean
  intro r hr
  cases hr

end Runs

/-! ### A recording whose interval was narrowed -/

def evening : Guide :=
  { sources := [{ id := "antenna", active := true, generation := "g1" }]
    channels := [⟨"g1", "one", some "udp:1"⟩, ⟨"g1", "two", some "udp:2"⟩]
    programmes :=
      [("g1", { id := "p1", channel := "one", title := "Game", seriesID := "s"
                start := 0, stop := hour }),
        ("g1", { id := "p2", channel := "two", title := "News", start := hour, stop := 2 * hour })]
    keys := by decide }

def neighbour : Owner := ⟨⟨"local", "account", "neighbour"⟩, by decide⟩

/-- The numbers of the recordings. -/
def recordingOf (o : Owner) (_ programme : String) : String := o.1.profileID ++ "/" ++ programme

/-- A rule records the game with half an hour of padding after it. -/
def gameRule : Event :=
  .saveRule 0 defaultOwner "rule" none
    { source := "antenna", seriesID := "s", options := { after := 1800000 } } true true true
    (some { id := "p1", channel := "one", title := "Game", seriesID := "s", start := 0, stop := hour })

def newsAfter : Event :=
  .schedule 3 neighbour ⟨"antenna", "two", "g1", "p2"⟩ { priority := 10 } none true true true

/-- The news, which wins, leave the game no padding; its claim finds that out, and that the tuner
isn't free yet. A minute later the rule's work comes round. -/
def narrowedRun : List Event :=
  [.guide evening, gameRule, .reconcileOne { now := 1 }, .reconcileOne { now := 2 }, newsAfter,
    .claimNext { now := 1000, acquire := fun _ => .full } fun _ => some ⟨true, 1⟩,
    .sweepRules 70000, .reconcileOne { now := 70001 }]

theorem run_narrowed :
    (run (Store.step recordingOf) {} narrowedRun).map (fun s =>
      (s.state.recordings.map fun r => (r.id, r.state, r.start, r.stop), s.state.reservations)) =
    some ([("profile/p1", .scheduled, 0, hour), ("neighbour/p2", .scheduled, hour, 2 * hour)],
      [{ id := "profile/p1", source := "antenna", start := 0, stop := hour + 1800000, priority := 0 },
        { id := "neighbour/p2", source := "antenna", start := hour, stop := 2 * hour
          priority := 10 }]) := by
  decide +kernel

/-- The tuners plan the padding again, which the recording doesn't have any more. -/
theorem narrowed_not_reserved :
    ¬ Along (Store.step recordingOf) (fun s => Reserved s.state) {} narrowedRun := by
  intro halong
  obtain ⟨s, hrun, hs⟩ := Option.map_eq_some_iff.mp run_narrowed
  obtain ⟨hrows, hreservations⟩ := Prod.mk.inj hs
  have hreserved := halong.last hrun
  obtain ⟨r, hr, hfacts⟩ := List.mem_map.mp
    (hrows ▸ List.mem_cons_self : ("profile/p1", RecordingState.scheduled, 0, hour) ∈
      s.state.recordings.map fun r => (r.id, r.state, r.start, r.stop))
  simp only [Prod.mk.injEq] at hfacts
  obtain ⟨hid, hstate, -, hstop⟩ := hfacts
  have hlaw := hreserved r hr _ (hreservations ▸ List.mem_cons_self) hid.symm rfl
  obtain ⟨-, hsame, -⟩ := hlaw.1 (by rw [hstate]; rfl)
  rw [hstop] at hsame
  exact absurd hsame (by decide)

/-- The game and the news are scheduled, brought up to the guide, and one of them is cancelled. -/
theorem reservations_match_evening :
    Along (Store.step recordingOf) (fun s => Reserved s.state) {}
      [.guide evening, gameRule, newsAfter, .reconcileScheduled 4 fun _ => .allowed,
        .expireMissed 5, .cancel neighbour "neighbour/p2"] := by
  apply reservations_match
  simp [Each, Clean, gameRule, newsAfter]

end Portico.Recordings
