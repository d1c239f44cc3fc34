import Portico.Recordings.Reconciliation

/-!
# Recordings and their reservations

The interval of a recording that waits is stored with it, and once more with the reservation of its
tuner. A change of a recording comes with the same change of its reservation, in the rounds of the
server as well. The work of a rule is an exception: it reserves the padded interval of a recording
that it takes to be unchanged, although the tuners may have left less of it.

## Main results

* `Kept.reserved`: recordings that go with their reservations have what is reserved
* `Kept.update_reserve`, `Kept.update_unreserve`: a change of a recording and of its reservation
* `Kept.follow`, `Kept.reconsider`: what the rounds make of a recording goes with its reservation
-/

namespace Portico.Recordings

variable {g : Guide} {s u : State} {r : Recording} {id id' source : String}
  {start stop priority now : ℤ} {vs : List Reservation} {f : Recording → Recording}

/-! ## Reservations in force -/

/-- The states in which a recording has no tuner reserved. -/
def RecordingState.unreserved : RecordingState → Bool
  | .cancelled | .failed | .deleted | .pendingDelete | .waitingSource | .waitingGuide => true
  | _ => false

/-- The reservations of a recording that are in force. -/
def State.reserved (s : State) (id : String) : List Reservation :=
  s.reservations.filter fun v => v.id = id && v.enabled

/-- The reservations in force are those of recordings that may be captured: a recording that waits
has its own interval and priority reserved, and one that was given up or waits for its source or its
guide has no reservation. -/
def Reserved (s : State) : Prop :=
  ∀ r ∈ s.recordings, ∀ v ∈ s.reservations, v.id = r.id → v.enabled = true →
    (r.state.mutable = true → v.start = r.start ∧ v.stop = r.stop ∧ v.priority = r.priority) ∧
    r.state ≠ .cancelled ∧ r.state ≠ .failed ∧ r.state ≠ .deleted ∧ r.state ≠ .waitingSource ∧
    r.state ≠ .waitingGuide

theorem mem_reserved {v : Reservation} :
    v ∈ s.reserved id ↔ v ∈ s.reservations ∧ v.id = id ∧ v.enabled = true := by
  unfold State.reserved
  rw [List.mem_filter, Bool.and_eq_true, decide_eq_true_eq]

theorem reserved_congr (h : u.reservations = s.reservations) : u.reserved id = s.reserved id := by
  unfold State.reserved
  rw [h]

theorem reserved_reserve_self {v : Reservation}
    (h : v ∈ (s.reserve id source start stop priority).reserved id) :
    v.start = start ∧ v.stop = stop ∧ v.priority = priority := by
  obtain ⟨hmem, hid, -⟩ := mem_reserved.mp h
  unfold State.reserve at hmem
  dsimp only at hmem
  split_ifs at hmem with hany
  · obtain ⟨w, -, rfl⟩ := mem_updateWhere.mp hmem
    by_cases hw : w.id = id
    · rw [if_pos (decide_eq_true hw)]
      exact ⟨rfl, rfl, rfl⟩
    · rw [if_neg (by simpa using hw)] at hid
      exact absurd hid hw
  · rcases List.mem_append.mp hmem with hmem | hmem
    · exact absurd (List.any_eq_true.mpr ⟨v, hmem, decide_eq_true hid⟩) hany
    · obtain rfl := List.mem_singleton.mp hmem
      exact ⟨rfl, rfl, rfl⟩

/-- An update of the rows with one number changes no reservation of another one. -/
theorem filter_updateWhere_ne {rows : List Reservation} {f : Reservation → Reservation}
    (hid : ∀ v, (f v).id = v.id) (hne : id' ≠ id) :
    (updateWhere (fun v => v.id = id) f rows).filter (fun v => v.id = id' && v.enabled) =
      rows.filter fun v => v.id = id' && v.enabled := by
  induction rows with
  | nil => rfl
  | cons v rows ih =>
    unfold updateWhere at ih ⊢
    rw [List.map_cons, List.filter_cons, List.filter_cons, ih]
    by_cases hv : v.id = id
    · have hother : v.id ≠ id' := fun h => hne (h.symm.trans hv)
      rw [if_pos (decide_eq_true hv)]
      simp [hid, hother]
    · have hsame : (if decide (v.id = id) = true then f v else v) = v := if_neg (by simpa using hv)
      simp only [hsame]

theorem reserved_reserve_ne (hne : id' ≠ id) :
    (s.reserve id source start stop priority).reserved id' = s.reserved id' := by
  unfold State.reserve State.reserved
  dsimp only
  split_ifs
  · exact filter_updateWhere_ne (fun _ => rfl) hne
  · rw [List.filter_append]
    simp [hne.symm]

theorem reserved_unreserve_self : (s.unreserve id).reserved id = [] := by
  unfold State.unreserve State.reserved
  rw [List.filter_eq_nil_iff]
  intro v hv
  obtain ⟨w, -, rfl⟩ := mem_updateWhere.mp hv
  split_ifs with hw
  · simp
  · simp only [decide_eq_true_eq] at hw
    simp [hw]

theorem reserved_unreserve_ne (hne : id' ≠ id) : (s.unreserve id).reserved id' = s.reserved id' := by
  unfold State.unreserve State.reserved
  exact filter_updateWhere_ne (fun _ => rfl) hne

/-! ## A recording and its reservations -/

/-- What a recording has to do with its reservations: it has the priority of its options; one that
waits without a reason has the padded interval of its programme; one that was given up, or waits for
its source or its guide, has no reservation; and one that waits has its own interval reserved. -/
structure Fits (vs : List Reservation) (r : Recording) : Prop where
  priority : r.priority = r.options.priority
  padded : r.state.mutable = true → r.reason = "" →
    padded r.programme r.options = some (r.start, r.stop)
  free : r.state.unreserved = true → vs = []
  same : r.state.mutable = true → ∀ v ∈ vs, v.start = r.start ∧ v.stop = r.stop ∧
    v.priority = r.priority

/-- Each recording and its reservations go together. -/
def Kept (s : State) : Prop := ∀ r ∈ s.recordings, Fits (s.reserved r.id) r

/-- Recordings that go with their reservations have what is reserved. -/
theorem Kept.reserved (h : Kept s) : Reserved s := by
  intro r hr v hv hid henabled
  have hmem : v ∈ s.reserved r.id := mem_reserved.mpr ⟨hv, hid, henabled⟩
  have hfits := h r hr
  have hstate : r.state.unreserved = false := by
    by_contra hfree
    rw [hfits.free (by simpa using hfree)] at hmem
    cases hmem
  refine ⟨fun hwait => hfits.same hwait v hmem, ?_⟩
  refine ⟨?_, ?_, ?_, ?_, ?_⟩ <;> intro heq <;> rw [heq] at hstate <;> cases hstate

theorem Kept.change (h : Kept s) (hid : ∀ r, (f r).id = r.id)
    (hrows : u.recordings = updateWhere (fun r => r.id = id) f s.recordings)
    (hother : ∀ id', id' ≠ id → u.reserved id' = s.reserved id')
    (hrow : ∀ r ∈ s.recordings, r.id = id → Fits (u.reserved id) (f r)) : Kept u := by
  unfold Kept
  rw [hrows]
  apply forall_updateWhere
  · intro r hr hrid
    have heq : r.id = id := of_decide_eq_true hrid
    rw [hid, heq]
    exact hrow r hr heq
  · intro r hr hrid
    rw [hother r.id (of_decide_eq_false hrid)]
    exact h r hr

theorem Kept.update (h : Kept s) (hid : ∀ r, (f r).id = r.id)
    (hrow : ∀ r ∈ s.recordings, r.id = id → Fits (s.reserved id) (f r)) :
    Kept (s.update id f hid) :=
  h.change hid rfl (fun _ _ => rfl) hrow

/-- A recording gets another interval, and its reservation the same one. -/
theorem Kept.update_reserve (h : Kept s) (hid : ∀ r, (f r).id = r.id)
    (hrow : ∀ r ∈ s.recordings, r.id = id → (f r).priority = (f r).options.priority ∧
      ((f r).state.mutable = true → (f r).reason = "" →
        Recordings.padded (f r).programme (f r).options = some ((f r).start, (f r).stop)) ∧
      (f r).state.unreserved = false ∧
      ((f r).state.mutable = true → start = (f r).start ∧ stop = (f r).stop ∧
        priority = (f r).priority)) :
    Kept ((s.update id f hid).reserve id source start stop priority) := by
  refine h.change hid rfl (fun _ hne => reserved_reserve_ne hne) fun r hr hrid => ?_
  obtain ⟨hpriority, hpadded, hstate, hsame⟩ := hrow r hr hrid
  refine ⟨hpriority, hpadded, fun hfree => ?_, fun hwait v hv => ?_⟩
  · rw [hstate] at hfree
    cases hfree
  · obtain ⟨rfl, rfl, rfl⟩ := reserved_reserve_self hv
    exact hsame hwait

theorem Kept.update_unreserve (h : Kept s) (hid : ∀ r, (f r).id = r.id)
    (hrow : ∀ r ∈ s.recordings, r.id = id → (f r).priority = (f r).options.priority ∧
      ((f r).state.mutable = true → (f r).reason = "" →
        Recordings.padded (f r).programme (f r).options = some ((f r).start, (f r).stop))) :
    Kept ((s.update id f hid).unreserve id) := by
  refine h.change hid rfl (fun _ hne => reserved_unreserve_ne hne) fun r hr hrid => ?_
  obtain ⟨hpriority, hpadded⟩ := hrow r hr hrid
  have hnone : ((s.update id f hid).unreserve id).reserved id = [] := reserved_unreserve_self
  rw [hnone]
  exact ⟨hpriority, hpadded, fun _ => rfl, fun _ v hv => by cases hv⟩

theorem Kept.unreserve (h : Kept s) : Kept (s.unreserve id) := by
  have hkept := @Kept.update_unreserve _ id (fun r => r) h (fun _ => rfl) fun r hr _ =>
    ⟨(h r hr).priority, (h r hr).padded⟩
  have hsame : s.update id (fun r => r) (fun _ => rfl) = s := by
    unfold State.update
    congr 1
    simp [updateWhere]
  rwa [hsame] at hkept

theorem Kept.of_eq (h : Kept s) (hrows : u.recordings = s.recordings)
    (hreservations : u.reservations = s.reservations) : Kept u := by
  intro r hr
  rw [hrows] at hr
  rw [reserved_congr hreservations]
  exact h r hr

/-! ## The transactions -/

theorem Fits.detached (h : Fits vs r) : Fits vs r.detached :=
  ⟨h.priority, h.padded, h.free, h.same⟩

theorem Kept.reserve (h : Kept s)
    (hrow : ∀ r ∈ s.recordings, r.id = id → r.state.unreserved = false ∧
      (r.state.mutable = true → start = r.start ∧ stop = r.stop ∧ priority = r.priority)) :
    Kept (s.reserve id source start stop priority) := by
  have hkept := @Kept.update_reserve _ id source _ _ _ (fun r => r) h (fun _ => rfl)
    fun r hr hrid => ⟨(h r hr).priority, (h r hr).padded, hrow r hr hrid⟩
  have hsame : s.update id (fun r => r) (fun _ => rfl) = s := by
    unfold State.update
    congr 1
    simp [updateWhere]
  rwa [hsame] at hkept

theorem Kept.settle {state : RecordingState} {reason : String} (h : Kept s)
    (hreason : state.mutable = true → reason ≠ "") : Kept (s.settle r state reason) := by
  unfold State.settle
  split_ifs
  · apply h.update_unreserve
    intro x hx _
    exact ⟨(h x hx).priority, fun hwait hnone => absurd hnone (hreason hwait)⟩
  · exact h.unreserve

theorem Kept.insertTx (h : Kept s) (hpriority : r.priority = r.options.priority)
    (hpadded : Recordings.padded r.programme r.options = some (r.start, r.stop))
    (hstate : r.state = .scheduled) (hins : s.insertTx r = .ok u) : Kept u := by
  unfold State.insertTx at hins
  split at hins
  · split_ifs at hins
    · obtain rfl := Except.ok.inj hins
      apply h.update
      intro x hx hid
      rw [← hid]
      exact (h x hx).detached
    · obtain rfl := Except.ok.inj hins
      exact h
  · rename_i hfresh
    obtain rfl := Except.ok.inj hins
    intro x hx
    rcases List.mem_append.mp hx with hx | hx
    · have hne : x.id ≠ r.id := rowOf_eq_none.mp hfresh x hx
      rw [reserved_reserve_ne hne]
      exact h x hx
    · obtain rfl := List.mem_singleton.mp hx
      refine ⟨hpriority, fun _ _ => hpadded, fun hfree => ?_, fun _ v hv => ?_⟩
      · rw [hstate] at hfree
        cases hfree
      · obtain ⟨hstart, hstop, hsame⟩ := reserved_reserve_self hv
        exact ⟨hstart, hstop, hsame.trans hpriority.symm⟩

theorem Kept.expire (h : Kept s) : Kept (s.expire r) := by
  apply h.update_unreserve
  intro x hx _
  exact ⟨(h x hx).priority, fun hwait _ => by cases hwait⟩

theorem Kept.expireMissed (h : Kept s) : Kept (s.expireMissed g now) := by
  unfold State.expireMissed
  generalize s.expiredCandidates g now = rows
  induction rows generalizing s with
  | nil => exact h
  | cons r rows ih => exact ih h.expire

/-- A recording that an owner scheduled keeps its reservation: one that has changed is reserved as
it is stored, and the interval of one that hasn't is the padded one. -/
theorem Kept.follow {authority : Recording → Verdict} (h : Kept s)
    (hfollow : s.follow g now authority id = some u) : Kept u := by
  unfold State.follow at hfollow
  split at hfollow
  · cases hfollow
  rename_i row hrow
  have hid : row.id = id := key_of_rowOf hrow
  have honly : ∀ x ∈ s.recordings, x.id = row.id → x = row := fun x hx hxid =>
    eq_of_key s.keys hx (mem_of_rowOf hrow) hxid
  by_cases hunavailable : authority (g.load row) = .unavailable
  · rw [if_pos hunavailable] at hfollow
    obtain rfl := Option.some.inj hfollow
    exact h
  rw [if_neg hunavailable] at hfollow
  split at hfollow
  · cases hfollow
  rename_i source hsource
  split_ifs at hfollow with hshared hdenied hactive
  · obtain rfl := Option.some.inj hfollow
    exact h
  · obtain rfl := Option.some.inj hfollow
    exact h.settle fun hwait => by cases hwait
  · obtain rfl := Option.some.inj hfollow
    exact h.settle fun _ => by decide
  dsimp only at hfollow
  split at hfollow
  · cases hfollow
  rename_i start stop hpadded
  split_ifs at hfollow with hmissed hchanged
  · obtain rfl := Option.some.inj hfollow
    exact h.settle fun hwait => by cases hwait
  · obtain rfl := Option.some.inj hfollow
    apply h.update_reserve
    intro x hx hxid
    obtain rfl := honly x hx hxid
    exact ⟨(h x hx).priority, fun _ _ => hpadded, rfl, fun _ => ⟨rfl, rfl, (h x hx).priority.symm⟩⟩
  · obtain rfl := Option.some.inj hfollow
    simp only [not_or, not_not] at hchanged
    obtain ⟨hstate, hreason, -, hprogramme⟩ := hchanged
    refine h.reserve fun x hx hxid => ?_
    obtain rfl := honly x hx hxid
    have hstored : x.state = .scheduled := hstate
    have hfits := h x hx
    have hsame := hfits.padded (by rw [hstored]; rfl) hreason
    rw [hprogramme] at hpadded
    obtain ⟨rfl, rfl⟩ := Prod.mk.inj (Option.some.inj (hpadded.symm.trans hsame))
    exact ⟨by rw [hstored]; rfl, fun _ => ⟨rfl, rfl, hfits.priority.symm⟩⟩

/-- The work of a rule takes a recording to be unchanged only when its interval is the padded one.
-/
def Settled (g : Guide) (env : RuleEnv) (rule : Rule) (source : Source) (u : State) (id : String) :
    Prop :=
  ∀ r, rowOf Recording.id id u.recordings = some r → ∀ p, u.wanted g env rule source r = .inl p →
    State.Unchanged rule source r p → padded p rule.config.options = some (r.start, r.stop)

/-- A recording that a rule has scheduled keeps its reservation, when it is settled. -/
theorem Kept.reconsider {env : RuleEnv} {rule : Rule} {source : Source} (h : Kept s)
    (hsettled : Settled g env rule source s id) (hrec : s.reconsider g env rule source id = some u) :
    Kept u := by
  unfold State.reconsider at hrec
  split at hrec
  · cases hrec
  rename_i r hrow
  have honly : ∀ x ∈ s.recordings, x.id = r.id → x = r := fun x hx hxid =>
    eq_of_key s.keys hx (mem_of_rowOf hrow) hxid
  split at hrec
  · rename_i state reason hwanted
    obtain rfl := Option.some.inj hrec
    refine h.settle fun _ hreason => ?_
    unfold State.wanted at hwanted
    dsimp only at hwanted
    split_ifs at hwanted <;> try split at hwanted
    all_goals try split_ifs at hwanted
    all_goals
      cases hwanted
      exact absurd hreason (by decide)
  · rename_i p hwanted
    split at hrec
    · cases hrec
    rename_i start stop hpadded
    obtain rfl := Option.some.inj hrec
    split_ifs with hunchanged
    · have hsame := hsettled r hrow p hwanted hunchanged
      obtain ⟨rfl, rfl⟩ := Prod.mk.inj (Option.some.inj (hpadded.symm.trans hsame))
      obtain ⟨-, -, -, hoptions, hstate⟩ := hunchanged
      refine h.reserve fun x hx hxid => ?_
      obtain rfl := honly x hx hxid
      refine ⟨by rw [hstate]; rfl, fun _ => ⟨rfl, rfl, ?_⟩⟩
      rw [(h x hx).priority, hoptions]
    · apply h.update_reserve
      intro x hx hxid
      exact ⟨rfl, fun _ _ => hpadded, rfl, fun _ => ⟨rfl, rfl, rfl⟩⟩

theorem Kept.discover {env : RuleEnv} {rule : Rule} {source : Source} {p : Programme}
    {recordID : Owner → String → String → String} (h : Kept s)
    (hdisc : s.discover g env rule source recordID p = some u) : Kept u := by
  unfold State.discover at hdisc
  split_ifs at hdisc
  · obtain rfl := Option.some.inj hdisc
    exact h
  · obtain rfl := Option.some.inj hdisc
    exact h
  · split at hdisc
    · cases hdisc
    rename_i start stop hpadded
    dsimp only at hdisc
    split at hdisc
    · rename_i hins
      obtain rfl := Option.some.inj hdisc
      exact h.insertTx rfl hpadded rfl hins
    · obtain rfl := Option.some.inj hdisc
      exact h
    · cases hdisc

end Portico.Recordings
