import Portico.Operations.Scheduler

/-!
# Operations: the states of a job

The control loop acts on values that it read before, callbacks end with the values that they began
with, and commands come in between. A write names the revision that its value had, or the one state
that it leaves; every change of state makes a new revision.

## Main definitions

* `Goes`: what one event does to a row
* `Held`: a job value that the loop or a callback keeps
* `Sound`: the invariant of the scheduler

## Main results

* `Sound.step`: every event keeps the invariant, and does to each row what it may
* `operation_states`: what holds of the rows in every run
-/

namespace Portico.Operations

open Machine

variable {adapters : Adapters} {s s' : Scheduler} {j k v : Job}

/-! ## Rows -/

/-- A job that is made of steps. -/
def IsStep (adapters : Adapters) (j : Job) : Prop :=
  ∃ asyncStep, (adapters j.kind).map Adapter.work = some (.step asyncStep)

/-- A job whose work is a worker of a domain. -/
def IsDomain (adapters : Adapters) (j : Job) : Prop :=
  ∃ cancel controlTx cancelTx,
    (adapters j.kind).map Adapter.work = some (.domain cancel controlTx cancelTx)

/-- A job that waits and that no domain worker was started for. -/
def Job.Untouched (j : Job) : Prop :=
  (j.state = .queued ∨ j.state = .paused) ∧ j.domainID = none

/-- A row that fits its adapter. -/
structure Fit (adapters : Adapters) (j : Job) : Prop where
  begun : j.state = .running ∨ j.state = .reconciling → IsDomain adapters j → j.domainID.isSome
  owner : j.domainID.isSome → IsDomain adapters j
  asked : j.state = .cancellationRequested → j.domainID.isSome →
    ((adapters j.kind).map Adapter.work).any Scheduler.hasCancel
  fresh : j.Untouched → j.attempt = 0 ∨ IsStep adapters j

/-- What one event does to a row. What lets a requested cancellation end is a parameter. -/
structure Goes (adapters : Adapters) (quiet : Job → Prop) (j k : Job) : Prop where
  id : k.id = j.id
  kind : k.kind = j.kind
  resource : k.resource = j.resource
  revision : j.revision ≤ k.revision
  same : k.revision = j.revision → k.state = j.state ∧ k.domainID = j.domainID
  terminal : j.state.active = false → k.state = j.state
  requested : j.state = .cancellationRequested →
    k.state = .cancellationRequested ∧ k.revision = j.revision ∨ k.state = .cancelled ∧ quiet j
  domain : j.domainID.isSome → k.domainID = j.domainID
  untouched : k.Untouched → j.Untouched ∨ IsStep adapters j
  fit : Fit adapters j → Fit adapters k

variable {quiet : Job → Prop}

theorem Goes.refl (j : Job) : Goes adapters quiet j j where
  id := rfl
  kind := rfl
  resource := rfl
  revision := le_rfl
  same _ := ⟨rfl, rfl⟩
  terminal _ := rfl
  requested h := Or.inl ⟨h, rfl⟩
  domain _ := rfl
  untouched := Or.inl
  fit h := h

theorem not_isDomain (h : IsStep adapters j) : ¬ IsDomain adapters j := by
  rintro ⟨c, t, x, hdomain⟩
  obtain ⟨a, hstep⟩ := h
  rw [hstep] at hdomain
  cases hdomain

/-- A change of an active row that isn't to be cancelled, under a new revision. -/
theorem goes_of_change (hid : k.id = j.id) (hkind : k.kind = j.kind) (hresource : k.resource = j.resource)
    (hrevision : k.revision = j.revision + 1) (hactive : j.state.active = true)
    (hrequested : j.state ≠ .cancellationRequested) (hdomain : j.domainID.isSome → k.domainID = j.domainID)
    (huntouched : k.Untouched → j.Untouched ∨ IsStep adapters j)
    (hfit : Fit adapters j → Fit adapters k) : Goes adapters quiet j k where
  id := hid
  kind := hkind
  resource := hresource
  revision := by omega
  same h := by omega
  terminal h := by rw [hactive] at h; cases h
  requested h := absurd h hrequested
  domain := hdomain
  untouched := huntouched
  fit := hfit

/-- What one event does to the rows: it changes some, or admits one. -/
inductive Rows (adapters : Adapters) (quiet : Job → Prop) (t t' : Store) : Prop
  | update (p : Job → Bool) (f : Job → Job) (jobs : t'.jobs = updateWhere p f t.jobs)
      (nextID : t'.nextID = t.nextID) (goes : ∀ j ∈ t.jobs, p j = true → Goes adapters quiet j (f j))
  | enter (n : Job) (jobs : t'.jobs = t.jobs ++ [n]) (nextID : t'.nextID = t.nextID + 1)
      (id : n.id = t.nextID) (fit : Fit adapters n) (domain : n.domainID = none)
      (alone : ∀ j ∈ t.jobs, j.state.active = true → j.kind = n.kind → j.resource ≠ n.resource)

variable {t t' : Store}

theorem Rows.refl (t : Store) : Rows adapters quiet t t :=
  .update (fun _ => false) id updateWhere_false.symm rfl fun _ _ h => nomatch h

theorem Rows.still (t : Store) : Rows adapters (fun _ => True) t t := Rows.refl t

theorem Rows.of_jobs (hjobs : t'.jobs = t.jobs) (hnext : t'.nextID = t.nextID) :
    Rows adapters quiet t t' :=
  .update (fun _ => false) id (hjobs.trans updateWhere_false.symm) hnext fun _ _ h => nomatch h

theorem Rows.forward (h : Rows adapters quiet t t') (hj : j ∈ t.jobs) :
    ∃ k ∈ t'.jobs, Goes adapters quiet j k := by
  cases h with
  | update p f hjobs _ hgoes =>
    rw [hjobs]
    refine ⟨if p j then f j else j, mem_updateWhere.mpr ⟨j, hj, rfl⟩, ?_⟩
    split_ifs with hp
    · exact hgoes j hj hp
    · exact Goes.refl j
  | enter n hjobs =>
    rw [hjobs]
    exact ⟨j, List.mem_append_left _ hj, Goes.refl j⟩

theorem Rows.back (h : Rows adapters quiet t t') (hk : k ∈ t'.jobs) :
    (∃ j ∈ t.jobs, Goes adapters quiet j k) ∨ k.id = t.nextID ∧ t'.nextID = t.nextID + 1 ∧
      Fit adapters k ∧ k.domainID = none ∧
        ∀ j ∈ t.jobs, j.state.active = true → j.kind = k.kind → j.resource ≠ k.resource := by
  cases h with
  | update p f hjobs _ hgoes =>
    rw [hjobs] at hk
    obtain ⟨j, hj, rfl⟩ := mem_updateWhere.mp hk
    refine Or.inl ⟨j, hj, ?_⟩
    split_ifs with hp
    · exact hgoes j hj hp
    · exact Goes.refl j
  | enter n hjobs hnext hid hfit hdomain halone =>
    rw [hjobs, List.mem_append, List.mem_singleton] at hk
    rcases hk with hk | rfl
    · exact Or.inl ⟨k, hk, Goes.refl k⟩
    · exact Or.inr ⟨hid, hnext, hfit, hdomain, halone⟩

theorem Rows.nextID (h : Rows adapters quiet t t') : t.nextID ≤ t'.nextID := by
  cases h with
  | update _ _ _ hnext => exact hnext.ge
  | enter _ _ hnext => omega

theorem Rows.old (h : Rows adapters quiet t t') (hk : k ∈ t'.jobs) (hold : k.id < t.nextID) :
    ∃ j ∈ t.jobs, Goes adapters quiet j k := by
  rcases h.back hk with hgoes | ⟨hid, -⟩
  · exact hgoes
  · omega

theorem Rows.ids (h : Rows adapters quiet t t') (hids : (t.jobs.map Job.id).Nodup)
    (hfresh : ∀ j ∈ t.jobs, j.id < t.nextID) : (t'.jobs.map Job.id).Nodup := by
  cases h with
  | update p f hjobs _ hgoes =>
    have hmap : t'.jobs.map Job.id = t.jobs.map Job.id := by
      rw [hjobs, updateWhere, List.map_map]
      apply List.map_congr_left
      intro j hj
      rw [Function.comp_apply]
      split_ifs with hp
      · exact (hgoes j hj hp).id
      · rfl
    rw [hmap]
    exact hids
  | enter n hjobs _ hid =>
    rw [hjobs]
    exact nodup_append_row hids fun j hj => by rw [hid]; exact (hfresh j hj).ne

/-! ## Values -/

/-- A value of a row that the control loop read: as long as the row has its revision, it is as it was
read, and a requested cancellation only ends. -/
structure Held (adapters : Adapters) (t : Store) (v : Job) : Prop where
  old : v.id < t.nextID
  active : v.state.active = true
  fit : Fit adapters v
  row : ∀ k ∈ t.jobs, k.id = v.id → k.kind = v.kind ∧ v.revision ≤ k.revision ∧
    (k.revision = v.revision → k.state = v.state ∧ k.domainID = v.domainID) ∧
      (v.state = .cancellationRequested → k.revision = v.revision ∨ k.state = .cancelled)

/-- The value that a callback began with: as long as the row has its revision, it is active. -/
structure HeldCall (t : Store) (v : Job) : Prop where
  old : v.id < t.nextID
  row : ∀ k ∈ t.jobs, k.id = v.id → k.kind = v.kind ∧ v.revision ≤ k.revision ∧
    (k.revision = v.revision → k.state.active = true)

theorem Held.call (h : Held adapters t v) : HeldCall t v := by
  refine ⟨h.old, fun k hk hid => ?_⟩
  obtain ⟨hkind, hle, hsame, -⟩ := h.row k hk hid
  exact ⟨hkind, hle, fun heq => (hsame heq).1 ▸ h.active⟩

theorem Held.rows (h : Held adapters t v) (hrows : Rows adapters quiet t t') : Held adapters t' v := by
  refine ⟨h.old.trans_le hrows.nextID, h.active, h.fit, fun k hk hid => ?_⟩
  obtain ⟨j, hj, hgoes⟩ := hrows.old hk (hid ▸ h.old)
  obtain ⟨hkind, hle, hsame, hrequested⟩ := h.row j hj (hgoes.id.symm.trans hid)
  have hle' := hgoes.revision
  refine ⟨hgoes.kind.trans hkind, hle.trans hle', fun heq => ?_, fun hreq => ?_⟩
  · have hj : j.revision = v.revision := by omega
    obtain ⟨hstate, hdomain⟩ := hgoes.same (by omega)
    exact ⟨hstate.trans (hsame hj).1, hdomain.trans (hsame hj).2⟩
  · rcases hrequested hreq with heq | hcancelled
    · rcases hgoes.requested ((hsame heq).1.trans hreq) with ⟨-, hrev⟩ | ⟨hdone, -⟩
      · exact Or.inl (hrev.trans heq)
      · exact Or.inr hdone
    · exact Or.inr ((hgoes.terminal (by rw [hcancelled]; rfl)).trans hcancelled)

theorem HeldCall.rows (h : HeldCall t v) (hrows : Rows adapters quiet t t') : HeldCall t' v := by
  refine ⟨h.old.trans_le hrows.nextID, fun k hk hid => ?_⟩
  obtain ⟨j, hj, hgoes⟩ := hrows.old hk (hid ▸ h.old)
  obtain ⟨hkind, hle, hactive⟩ := h.row j hj (hgoes.id.symm.trans hid)
  have hle' := hgoes.revision
  refine ⟨hgoes.kind.trans hkind, hle.trans hle', fun heq => ?_⟩
  rw [(hgoes.same (by omega)).1]
  exact hactive (by omega)

theorem held_of_mem (hids : (t.jobs.map Job.id).Nodup) (hfresh : ∀ j ∈ t.jobs, j.id < t.nextID)
    (hj : j ∈ t.jobs) (hactive : j.state.active = true) (hfit : Fit adapters j) :
    Held adapters t j := by
  refine ⟨hfresh j hj, hactive, hfit, fun k hk hid => ?_⟩
  obtain rfl := eq_of_key hids hk hj hid
  exact ⟨rfl, le_rfl, fun _ => ⟨rfl, rfl⟩, fun _ => Or.inl rfl⟩

/-! ## The invariant -/

/-- A callback that is registered. -/
def CallStage.live : CallStage → Bool
  | .closing _ => false
  | _ => true

/-- The rows fit their adapters, and no two active ones are of one kind and resource. -/
structure Base (adapters : Adapters) (t : Store) : Prop where
  ids : (t.jobs.map Job.id).Nodup
  fresh : ∀ j ∈ t.jobs, j.id < t.nextID
  fit : ∀ j ∈ t.jobs, Fit adapters j
  unique : ∀ j ∈ t.jobs, ∀ k ∈ t.jobs, j.state.active = true → k.state.active = true →
    j.kind = k.kind → j.resource = k.resource → j = k
  all : ∀ n < t.nextID, ∃ j ∈ t.jobs, j.id = n

/-- A callback and its row. -/
structure CallSound (adapters : Adapters) (t : Store) (running : List ℕ) (c : Callback) : Prop where
  held : HeldCall t c.job
  registered : c.stage.live = true → c.job.id ∈ running
  async : c.asyncStep = true → IsStep adapters c.job
  cleanup : c.asyncStep = false → ¬ IsStep adapters c.job ∧
    ∀ k ∈ t.jobs, k.id = c.job.id → ¬ k.Untouched
  closing : c.stage.live = false → c.asyncStep = false

/-- What the control loop keeps while it waits. -/
def StageSound (adapters : Adapters) (t : Store) (ended running : List ℕ)
    (calls : List Callback) : Stage → Prop
  | .cancelling j => Held adapters t j ∧ j.state = .cancellationRequested
  | .quiescing j =>
    Held adapters t j ∧ j.state = .cancellationRequested ∧ (j.domainID.isSome → j.id ∈ ended)
  | .observing j => Held adapters t j ∧ j.domainID.isSome ∧ IsDomain adapters j
  | .stepping j _ => Held adapters t j ∧ IsStep adapters j
  | .maintaining j _ =>
    Held adapters t j ∧ j.state ≠ .cancellationRequested ∧ ¬ IsStep adapters j ∧ ¬ IsDomain adapters j ∧
      j.id ∈ running ∧ ∀ c ∈ calls, c.stage.live = true → c.job.id ≠ j.id
  | .startingDomain j _ => Held adapters t j ∧ j.domainID = none ∧ IsDomain adapters j
  | .finishing j v _ _ =>
    Held adapters t j ∧ (v.state.terminal = true ∨ IsStep adapters j ∨
      IsDomain adapters j ∧ j.domainID.isSome)
  | _ => True

/-- The invariant of the scheduler. -/
structure Sound (adapters : Adapters) (s : Scheduler) : Prop where
  base : Base adapters s.store
  todo : ∀ v ∈ s.todo, Held adapters s.store v
  stage : StageSound adapters s.store s.ended s.running s.callbacks s.stage
  calls : ∀ c ∈ s.callbacks, CallSound adapters s.store s.running c
  live : ((s.callbacks.filter fun c => c.stage.live).map fun c => c.job.id).Nodup

/-- A requested cancellation may end: no callback of the job works, and its domain worker was seen at
its end. -/
def Quiet (s : Scheduler) (j : Job) : Prop :=
  (∀ c ∈ s.callbacks, c.job.id = j.id → c.stage ≠ .working) ∧ (j.domainID.isSome → j.id ∈ s.ended)

theorem initial_sound (now : ℤ) : Sound adapters (initial now) where
  base := ⟨List.nodup_nil, fun _ h => (nomatch h), fun _ h => (nomatch h), fun _ h => (nomatch h),
    fun _ h => (nomatch h)⟩
  todo _ h := nomatch h
  stage := trivial
  calls _ h := nomatch h
  live := List.nodup_nil

theorem Base.rows (h : Base adapters t) (hrows : Rows adapters quiet t t') : Base adapters t' := by
  have hids := hrows.ids h.ids h.fresh
  refine ⟨hids, fun k hk => ?_, fun k hk => ?_, fun k hk k' hk' hactive hactive' hkind hres => ?_,
    fun n hn => ?_⟩
  · rcases hrows.back hk with ⟨j, hj, hgoes⟩ | ⟨hid, hnext, -⟩
    · rw [hgoes.id]
      exact (h.fresh j hj).trans_le hrows.nextID
    · omega
  · rcases hrows.back hk with ⟨j, hj, hgoes⟩ | ⟨-, -, hfit, -⟩
    · exact hgoes.fit (h.fit j hj)
    · exact hfit
  · have hwas : ∀ {j k : Job}, Goes adapters quiet j k → k.state.active = true →
        j.state.active = true := by
      intro j k hgoes hk
      by_contra hj
      rw [Bool.not_eq_true] at hj
      rw [hgoes.terminal hj, hj] at hk
      cases hk
    rcases hrows.back hk with ⟨j, hj, hgoes⟩ | ⟨hid, -, -, -, halone⟩ <;>
      rcases hrows.back hk' with ⟨j', hj', hgoes'⟩ | ⟨hid', -, -, -, halone'⟩
    · have heq := h.unique j hj j' hj' (hwas hgoes hactive) (hwas hgoes' hactive')
        (by rw [← hgoes.kind, ← hgoes'.kind, hkind])
        (by rw [← hgoes.resource, ← hgoes'.resource, hres])
      subst heq
      exact eq_of_key hids hk hk' (hgoes.id.trans hgoes'.id.symm)
    · exact absurd (hgoes.resource.symm.trans hres)
        (halone' j hj (hwas hgoes hactive) (hgoes.kind.symm.trans hkind))
    · exact absurd (hgoes'.resource.symm.trans hres.symm)
        (halone j' hj' (hwas hgoes' hactive') (hgoes'.kind.symm.trans hkind.symm))
    · exact eq_of_key hids hk hk' (hid.trans hid'.symm)
  · -- no row is deleted
    rcases Nat.lt_or_ge n t.nextID with hlt | hge
    · obtain ⟨j, hj, rfl⟩ := h.all n hlt
      obtain ⟨k, hk, hgoes⟩ := hrows.forward hj
      exact ⟨k, hk, hgoes.id⟩
    · cases hrows with
      | update _ _ _ hnext => omega
      | enter m hjobs hnext hid =>
        refine ⟨m, by rw [hjobs]; simp, ?_⟩
        omega

theorem isStep_congr (hkind : k.kind = j.kind) : IsStep adapters k ↔ IsStep adapters j := by
  unfold IsStep
  rw [hkind]

theorem isDomain_congr (hkind : k.kind = j.kind) : IsDomain adapters k ↔ IsDomain adapters j := by
  unfold IsDomain
  rw [hkind]

theorem CallSound.rows {running running' : List ℕ} {c : Callback}
    (h : CallSound adapters t running c) (hrows : Rows adapters quiet t t')
    (hrunning : c.stage.live = true → c.job.id ∈ running → c.job.id ∈ running') :
    CallSound adapters t' running' c where
  held := h.held.rows hrows
  registered hlive := hrunning hlive (h.registered hlive)
  async := h.async
  closing := h.closing
  cleanup hasync := by
    obtain ⟨hstep, huntouched⟩ := h.cleanup hasync
    refine ⟨hstep, fun k hk hid hk' => ?_⟩
    obtain ⟨j, hj, hgoes⟩ := hrows.old hk (hid ▸ h.held.old)
    rcases hgoes.untouched hk' with hj' | hj'
    · exact huntouched j hj (hgoes.id.symm.trans hid) hj'
    · have hkind := (h.held.row j hj (hgoes.id.symm.trans hid)).1
      exact hstep ((isStep_congr hkind).mp hj')

theorem StageSound.rows {ended ended' running running' : List ℕ} {calls calls' : List Callback}
    {stage : Stage} (h : StageSound adapters t ended running calls stage)
    (hrows : Rows adapters quiet t t') (hended : ∀ n ∈ ended, n ∈ ended')
    (hrunning : ∀ n ∈ running, (∀ c ∈ calls, c.stage.live = true → c.job.id ≠ n) → n ∈ running')
    (hcalls : ∀ c' ∈ calls', c'.stage.live = true →
      ∃ c ∈ calls, c.stage.live = true ∧ c.job.id = c'.job.id) :
    StageSound adapters t' ended' running' calls' stage := by
  cases stage with
  | cancelling j => exact ⟨h.1.rows hrows, h.2⟩
  | quiescing j => exact ⟨h.1.rows hrows, h.2.1, fun hd => hended _ (h.2.2 hd)⟩
  | observing j => exact ⟨h.1.rows hrows, h.2⟩
  | stepping j _ => exact ⟨h.1.rows hrows, h.2⟩
  | maintaining j _ =>
    obtain ⟨hheld, hreq, hstep, hdomain, hmem, hfree⟩ := h
    refine ⟨hheld.rows hrows, hreq, hstep, hdomain, hrunning _ hmem hfree, fun c' hc' hlive => ?_⟩
    obtain ⟨c, hc, hclive, hid⟩ := hcalls c' hc' hlive
    exact hid ▸ hfree c hc hclive
  | startingDomain j _ => exact ⟨h.1.rows hrows, h.2⟩
  | finishing j v _ _ => exact ⟨h.1.rows hrows, h.2⟩
  | idle => trivial
  | reading _ => trivial
  | looping => trivial
  | leaving _ _ _ => trivial

theorem Sound.moves (h : Sound adapters s) {store : Store} {stage : Stage} {todo : List Job}
    {ended : List ℕ} {holders : List (ℕ × Lane)} (hrows : Rows adapters quiet s.store store)
    (htodo : ∀ v ∈ todo, v ∈ s.todo)
    (hstage : StageSound adapters store ended s.running s.callbacks stage) :
    Sound adapters { s with store, stage, todo, ended, holders } where
  base := h.base.rows hrows
  todo v hv := (h.todo v (htodo v hv)).rows hrows
  stage := hstage
  calls c hc := (h.calls c hc).rows hrows fun _ hrunning => hrunning
  live := h.live

theorem Sound.waits (h : Sound adapters s) {store : Store} (hrows : Rows adapters quiet s.store store) :
    Sound adapters { s with store } :=
  h.moves hrows (fun _ => id)
    (h.stage.rows hrows (fun _ => id) (fun _ hn _ => hn) fun c hc hlive => ⟨c, hc, hlive, rfl⟩)

/-! ## Admissions and commands -/

theorem enqueue_cases {kind resource : String} {domainTrigger : Bool}
    (h : t.enqueue adapters kind resource domainTrigger = .ok t') :
    t' = t ∨ t' = { t with
        jobs := t.jobs ++ [newJob t.nextID kind resource domainTrigger t.now]
        nextID := t.nextID + 1 } ∧
      ∀ j ∈ t.jobs, j.state.active = true → j.kind = kind → j.resource ≠ resource := by
  unfold Store.enqueue at h
  split_ifs at h with hnone hexists hfull
  · exact Or.inl (Except.ok.inj h).symm
  · refine Or.inr ⟨(Except.ok.inj h).symm, fun j hj hactive hkind hres => ?_⟩
    apply hexists
    rw [List.any_eq_true]
    exact ⟨j, hj, by simp [hkind, hres, hactive]⟩

theorem enqueue_rows {kind resource : String} {domainTrigger : Bool}
    (h : t.enqueue adapters kind resource domainTrigger = .ok t') : Rows adapters quiet t t' := by
  rcases enqueue_cases h with rfl | ⟨rfl, halone⟩
  · exact Rows.refl t'
  · refine .enter _ rfl rfl rfl ⟨?_, ?_, ?_, fun _ => Or.inl rfl⟩ rfl halone
    · rintro (hstate | hstate) <;> cases hstate
    · exact fun hsome => nomatch hsome
    · exact fun hstate => nomatch hstate

/-- What a command asks of a job's state and of its adapter. -/
def Permits (a : Adapter) (j : Job) : Action → Prop
  | .cancel =>
    (j.state = .queued ∨ j.state = .running ∨ j.state = .reconciling ∨ j.state = .paused) ∧
      (a.work.cancels = true ∨ j.domainID = none)
  | .pause => a.work.controls = true ∧
      (j.state = .queued ∨ j.state = .running ∨ j.state = .reconciling)
  | .resume => a.work.controls = true ∧ j.state = .paused
  | .retry => j.state = .failed ∨ j.state = .cancelled

theorem mem_actions {a : Adapter} {action : Action} (h : action ∈ a.actions j) :
    a.work.isStep = false ∧ Permits a j action := by
  unfold Adapter.actions at h
  by_cases hstep : a.work.isStep = true
  · rw [if_pos hstep] at h
    cases h
  · rw [if_neg hstep] at h
    simp only [List.mem_append, List.mem_ite_nil_right, Bool.and_eq_true, Bool.or_eq_true,
      decide_eq_true_eq, Option.isNone_iff_eq_none] at h
    refine ⟨Bool.not_eq_true _ ▸ hstep, ?_⟩
    unfold Permits
    split_ifs at h <;> cases action <;> simp_all <;> tauto

theorem isDomain_of_controls {a : Adapter} (ha : adapters j.kind = some a)
    (h : a.work.controls = true) : IsDomain adapters j := by
  unfold IsDomain
  rw [ha]
  cases hwork : a.work with
  | domain c t x => exact ⟨c, t, x, by simp [hwork]⟩
  | step _ =>
    rw [hwork] at h
    cases h
  | maintenance =>
    rw [hwork] at h
    cases h

theorem goes_of_command {a : Adapter} {action : Action} (ha : adapters j.kind = some a)
    (hstep : a.work.isStep = false) (hpermits : Permits a j action) (hretry : action ≠ .retry)
    (hfit : Fit adapters j) :
    Goes adapters quiet j { j with
      state := j.commanded action, phase := (j.commanded action).name
      revision := j.revision + 1 } := by
  have hnostep : ¬ IsStep adapters j := by
    rintro ⟨b, hb⟩
    rw [ha] at hb
    rw [Option.some.inj hb] at hstep
    cases hstep
  cases action with
  | retry => exact absurd rfl hretry
  | pause =>
    obtain ⟨hcontrols, hstate⟩ := hpermits
    have hdomain := isDomain_of_controls ha hcontrols
    -- a job that runs has its domain worker
    have huntouched : j.domainID = none → j.Untouched := by
      intro hnone
      refine ⟨?_, hnone⟩
      rcases hstate with hq | hr
      · exact Or.inl hq
      · have := hfit.begun hr hdomain
        rw [hnone] at this
        cases this
    refine goes_of_change rfl rfl rfl rfl ?_ ?_ (fun _ => rfl) (fun hk => Or.inl (huntouched hk.2)) ?_
    · rcases hstate with hs | hs | hs <;> rw [hs] <;> rfl
    · rcases hstate with hs | hs | hs <;> rw [hs] <;> simp
    · intro _
      refine ⟨?_, hfit.owner, ?_, fun hk => hfit.fresh (huntouched hk.2)⟩
      · rintro (hs | hs) <;> cases hs
      · exact fun hs => nomatch hs
  | resume =>
    obtain ⟨-, hstate⟩ := hpermits
    refine goes_of_change rfl rfl rfl rfl (by rw [hstate]; rfl) (by rw [hstate]; simp) (fun _ => rfl)
      (fun hk => Or.inl ⟨Or.inr hstate, hk.2⟩) ?_
    intro _
    refine ⟨fun hs hd => ?_, hfit.owner, fun hs => ?_, fun hk => hfit.fresh ⟨Or.inr hstate, hk.2⟩⟩
    · change j.domainID.isSome = true
      by_contra hnone
      rw [Job.commanded, if_neg hnone] at hs
      rcases hs with hs | hs <;> cases hs
    · rw [Job.commanded] at hs
      split_ifs at hs
  | cancel =>
    obtain ⟨hstate, hcancels⟩ := hpermits
    refine goes_of_change rfl rfl rfl rfl ?_ ?_ (fun _ => rfl) (fun hk => ?_) ?_
    · rcases hstate with hs | hs | hs | hs <;> rw [hs] <;> rfl
    · rcases hstate with hs | hs | hs | hs <;> rw [hs] <;> simp
    · obtain ⟨hk, -⟩ := hk
      simp only [Job.commanded] at hk
      split_ifs at hk <;> rcases hk with hk | hk <;> cases hk
    · intro _
      refine ⟨fun hs => ?_, hfit.owner, fun _ hsome => ?_, fun hk => ?_⟩
      · simp only [Job.commanded] at hs
        split_ifs at hs <;> rcases hs with hs | hs <;> cases hs
      · change ((adapters j.kind).map Adapter.work).any Scheduler.hasCancel = true
        obtain ⟨c, t, x, hdomain⟩ := hfit.owner hsome
        rw [hdomain]
        rcases hcancels with hcancels | hnone
        · rw [ha] at hdomain
          rw [Option.some.inj hdomain] at hcancels
          exact hcancels
        · rw [hnone] at hsome
          cases hsome
      · obtain ⟨hk, -⟩ := hk
        simp only [Job.commanded] at hk
        split_ifs at hk <;> rcases hk with hk | hk <;> cases hk

theorem Store.command_cases {id expected : ℕ} {action : Action}
    (h : t.command adapters id action expected = .ok t') :
    ∃ j a, t.job id = some j ∧ j.revision = expected ∧ adapters j.kind = some a ∧
      a.work.isStep = false ∧ Permits a j action ∧
        (action = .retry ∧ t.enqueue adapters j.kind j.resource false = .ok t' ∨
          action ≠ .retry ∧ t' = t.move id (j.commanded action)) := by
  unfold Store.command at h
  obtain ⟨j, hj, h⟩ := bind_eq_ok.mp h
  obtain ⟨hrevision, h⟩ := guard_eq_ok.mp h
  obtain ⟨hallowed, h⟩ := guard_eq_ok.mp h
  rw [not_not] at hrevision hallowed
  cases ha : adapters j.kind with
  | none =>
    rw [ha] at hallowed
    cases hallowed
  | some a =>
    rw [ha] at hallowed
    obtain ⟨hstep, hpermits⟩ := mem_actions hallowed
    refine ⟨j, a, require_eq_ok.mp hj, hrevision, ha, hstep, hpermits, ?_⟩
    cases action with
    | retry => exact Or.inl ⟨rfl, h⟩
    | cancel => exact Or.inr ⟨by simp, (Except.ok.inj h).symm⟩
    | pause => exact Or.inr ⟨by simp, (Except.ok.inj h).symm⟩
    | resume => exact Or.inr ⟨by simp, (Except.ok.inj h).symm⟩

theorem command_rows {id expected : ℕ} {action : Action} (hbase : Base adapters t)
    (h : t.command adapters id action expected = .ok t') : Rows adapters quiet t t' := by
  obtain ⟨j, a, hrow, -, ha, hstep, hpermits, hretry | ⟨hretry, rfl⟩⟩ := Store.command_cases h
  · exact enqueue_rows hretry.2
  · refine .update _ _ rfl rfl fun k hk hid => ?_
    obtain rfl := eq_of_key hbase.ids hk (mem_of_rowOf hrow)
      ((of_decide_eq_true hid).trans (key_of_rowOf hrow).symm)
    exact goes_of_command ha hstep hpermits hretry (hbase.fit k hk)

/-! ## Outcomes -/

theorem Seen.state_ne (x : Seen) : x.state ≠ .cancellationRequested := by
  cases x <;> simp [Seen.state]

theorem Seen.state_terminal {x : Seen} (h : x.terminal = true) :
    x.state = .succeeded ∨ x.state = .failed ∨ x.state = .cancelled := by
  cases x <;> simp_all [Seen.terminal, Seen.state]

/-- An outcome is for a job that is done, that is made of steps, or whose domain worker was started. -/
theorem finish_rows {o : JobObservation} (hheld : HeldCall t v)
    (ho : o.state.terminal = true ∨ IsStep adapters v ∨
      IsDomain adapters v ∧ ∀ k ∈ t.jobs, k.id = v.id → k.revision = v.revision → k.domainID.isSome) :
    Rows adapters quiet t (t.finish v o) := by
  unfold Store.finish
  split_ifs with hcounted
  · refine .update _ _ rfl rfl fun k hk hp => ?_
    simp only [Bool.and_eq_true, decide_eq_true_eq] at hp
    obtain ⟨⟨hid, hrevision⟩, hrequested⟩ := hp
    obtain ⟨hkind, -, hactive⟩ := hheld.row k hk hid
    have hne := o.state.state_ne
    -- an outcome that isn't the end leaves no job untouched, but those made of steps
    have huntouched : ∀ x : Job, x.state = o.state.state → x.domainID = k.domainID →
        x.Untouched → IsStep adapters k := by
      intro x hx hd ⟨hstate, hnone⟩
      rcases ho with hterminal | hstep | ⟨-, hsome⟩
      · rw [hx] at hstate
        rcases Seen.state_terminal hterminal with h | h | h <;> rw [h] at hstate <;>
          rcases hstate with h | h <;> cases h
      · exact (isStep_congr hkind).mpr hstep
      · have := hsome k hk hid hrevision
        rw [← hd, hnone] at this
        cases this
    refine goes_of_change rfl rfl rfl rfl (hactive hrevision) hrequested (fun _ => rfl)
      (fun hx => Or.inr (huntouched _ (by rfl) (by rfl) hx)) fun hfit => ?_
    refine ⟨fun hs hdomain => ?_, hfit.owner, fun hs => absurd hs hne, fun hx => ?_⟩
    · change k.domainID.isSome = true
      rcases ho with hterminal | hstep | ⟨-, hsome⟩
      · rcases Seen.state_terminal hterminal with h | h | h <;> rw [h] at hs <;>
          rcases hs with h | h <;> cases h
      · exact absurd hdomain (not_isDomain ((isStep_congr hkind).mpr hstep))
      · exact hsome k hk hid hrevision
    · exact Or.inr (huntouched _ (by rfl) (by rfl) hx)
  · exact Rows.refl t

/-! ## The control loop -/

theorem tryAcquire_eq {lane : Lane} {job : ℕ} (h : s.tryAcquire lane job = some s') :
    s' = { s with holders := (job, lane) :: s.holders } := by
  unfold Scheduler.tryAcquire at h
  split_ifs at h
  exact (Option.some.inj h).symm

theorem ensure_eq {lane : Lane} {job : ℕ} (h : s.ensure lane job = some s') :
    ∃ holders, s' = { s with holders } := by
  unfold Scheduler.ensure at h
  split_ifs at h
  · exact ⟨_, (Option.some.inj h).symm⟩
  · exact ⟨_, tryAcquire_eq h⟩

theorem mem_due {lane : Lane} (h : v ∈ s.due adapters lane) :
    v ∈ s.store.jobs ∧ s.isDue adapters lane v = true := by
  unfold Scheduler.due at h
  have hmem := (List.mem_insertionSort _).mp (List.mem_of_mem_take h)
  exact List.mem_filter.mp hmem

theorem Sound.read (h : Sound adapters s) {ok : Bool} (hs : s.read adapters ok = some s') :
    Sound adapters s' ∧ s'.store = s.store := by
  unfold Scheduler.read at hs
  split at hs
  · rename_i lane rest hstage
    obtain rfl := Option.some.inj hs
    refine ⟨⟨h.base, fun v hv => ?_, trivial, h.calls, h.live⟩, rfl⟩
    rcases List.mem_append.mp hv with hv | hv
    · exact h.todo v hv
    · cases ok with
      | false => cases hv
      | true =>
        obtain ⟨hmem, hdue⟩ := mem_due hv
        unfold Scheduler.isDue at hdue
        simp only [Bool.and_eq_true] at hdue
        exact held_of_mem h.base.ids h.base.fresh hmem hdue.1.1.1 (h.base.fit v hmem)
  · obtain rfl := Option.some.inj hs
    refine ⟨⟨h.base, fun v hv => ?_, trivial, h.calls, h.live⟩, rfl⟩
    exact h.todo v ((List.mem_insertionSort _).mp hv)
  · cases hs

theorem startAsyncStep_cases {a : Adapter} :
    (∃ holders, s.startAsyncStep a j = { s with holders }) ∨
      j.id ∉ s.running ∧ ∃ holders, s.startAsyncStep a j = { s with
        holders, running := j.id :: s.running, callbacks := ⟨j, true, .working⟩ :: s.callbacks } := by
  unfold Scheduler.startAsyncStep
  split_ifs with hrunning
  · exact Or.inl ⟨_, rfl⟩
  · cases hensure : s.ensure a.resource j.id with
    | none => exact Or.inl ⟨_, rfl⟩
    | some t =>
      obtain ⟨holders, rfl⟩ := ensure_eq hensure
      exact Or.inr ⟨hrunning, holders, rfl⟩

theorem registerMaintenance_cases {a : Adapter} (h : s.registerMaintenance a j = some s') :
    j.id ∉ s.running ∧ ∃ holders, s' = { s with holders, running := j.id :: s.running } := by
  unfold Scheduler.registerMaintenance at h
  split_ifs at h with hrunning
  obtain ⟨t, ht, rfl⟩ := Option.map_eq_some_iff.mp h
  obtain ⟨holders, rfl⟩ := ensure_eq ht
  exact ⟨hrunning, holders, rfl⟩

/-- A callback that begins has no other that is registered for its job. -/
theorem Sound.fresh_call (h : Sound adapters s) (hrunning : j.id ∉ s.running) :
    ∀ c ∈ s.callbacks, c.stage.live = true → c.job.id ≠ j.id := by
  intro c hc hlive hid
  exact hrunning (hid ▸ (h.calls c hc).registered hlive)

theorem live_cons {c : Callback} {calls : List Callback} (hlive : c.stage.live = true)
    (hcalls : ((calls.filter fun c => c.stage.live).map fun c => c.job.id).Nodup)
    (hfree : ∀ c' ∈ calls, c'.stage.live = true → c'.job.id ≠ c.job.id) :
    (((c :: calls).filter fun c => c.stage.live).map fun c => c.job.id).Nodup := by
  rw [List.filter_cons_of_pos (p := fun c : Callback => c.stage.live) hlive, List.map_cons, List.nodup_cons]
  refine ⟨fun hmem => ?_, hcalls⟩
  obtain ⟨c', hc', hid⟩ := List.mem_map.mp hmem
  obtain ⟨hc', hlive'⟩ := List.mem_filter.mp hc'
  exact hfree c' hc' hlive' hid

theorem Sound.stay (h : Sound adapters s) {stage : Stage} {holders : List (ℕ × Lane)}
    {ended : List ℕ} (hstage : StageSound adapters s.store ended s.running s.callbacks stage) :
    Sound adapters { s with stage, holders, ended } :=
  h.moves (Rows.still _) (fun _ => id) hstage

theorem Sound.workOn {a : Adapter} {starting : Bool} (h : Sound adapters s)
    (hheld : Held adapters s.store j) (ha : adapters j.kind = some a) :
    Sound adapters (s.workOn a j starting) ∧ (s.workOn a j starting).store = s.store := by
  have hwork : (adapters j.kind).map Adapter.work = some a.work := by rw [ha, Option.map_some]
  unfold Scheduler.workOn
  by_cases hrequested : j.state = .cancellationRequested
  · rw [if_pos hrequested]
    split_ifs with hcancel
    · exact ⟨h.stay ⟨hheld, hrequested⟩, rfl⟩
    · refine ⟨h.stay ⟨hheld, hrequested, fun hsome => ?_⟩, rfl⟩
      -- what has a domain worker and is to be cancelled can be
      have hasked := hheld.fit.asked hrequested hsome
      rw [hwork] at hasked
      exact absurd (by simpa [hsome] using hasked) hcancel
  · rw [if_neg hrequested]
    by_cases hobserve : (j.domainID.isSome && Scheduler.hasObserve a.work) = true
    · rw [if_pos hobserve]
      rw [Bool.and_eq_true] at hobserve
      exact ⟨h.stay ⟨hheld, hobserve.1, hheld.fit.owner hobserve.1⟩, rfl⟩
    · rw [if_neg hobserve]
      cases hcase : a.work with
      | step b =>
        have hstep : IsStep adapters j := ⟨b, hwork.trans (congrArg some hcase)⟩
        cases b with
        | true =>
          rcases startAsyncStep_cases (s := s) (j := j) (a := a) with
            ⟨holders, heq⟩ | ⟨hrunning, holders, heq⟩
          · simp only [heq]
            exact ⟨h.stay trivial, trivial⟩
          · simp only [heq]
            refine ⟨⟨h.base, h.todo, trivial, fun c hc => ?_, ?_⟩, trivial⟩
            · rcases List.mem_cons.mp hc with rfl | hc
              · exact ⟨hheld.call, fun _ => List.mem_cons_self, fun _ => hstep, fun hf => (nomatch hf),
                  fun hf => nomatch hf⟩
              · exact (h.calls c hc).rows (Rows.still _)
                  fun _ hmem => List.mem_cons_of_mem _ hmem
            · exact live_cons rfl h.live (h.fresh_call hrunning)
        | false =>
          simp only
          split_ifs
          · exact ⟨h.stay ⟨hheld, hstep⟩, rfl⟩
          · cases hacquire : s.tryAcquire a.resource j.id with
            | none => exact ⟨h.stay trivial, rfl⟩
            | some t =>
              obtain rfl := tryAcquire_eq hacquire
              exact ⟨h.stay ⟨hheld, hstep⟩, rfl⟩
      | maintenance =>
        simp only
        cases hregister : s.registerMaintenance a j with
        | none => exact ⟨h.stay trivial, rfl⟩
        | some t =>
          obtain ⟨hrunning, holders, rfl⟩ := registerMaintenance_cases hregister
          refine ⟨⟨h.base, h.todo, ?_, fun c hc => ?_, h.live⟩, rfl⟩
          · refine ⟨hheld, hrequested, ?_, ?_, List.mem_cons_self, h.fresh_call hrunning⟩
            · rintro ⟨b, hb⟩
              exact nomatch (hb.symm.trans hwork).trans (congrArg some hcase)
            · rintro ⟨c, t, x, hb⟩
              exact nomatch (hb.symm.trans hwork).trans (congrArg some hcase)
          · exact (h.calls c hc).rows (Rows.still _)
              fun _ hmem => List.mem_cons_of_mem _ hmem
      | domain c t x =>
        have hdomain : IsDomain adapters j := ⟨c, t, x, hwork.trans (congrArg some hcase)⟩
        refine ⟨h.stay ⟨hheld, ?_, hdomain⟩, rfl⟩
        rw [hcase, Scheduler.hasObserve, Bool.and_true, Bool.not_eq_true,
          Option.isSome_eq_false_iff, Option.isNone_iff_eq_none] at hobserve
        exact hobserve

theorem Sound.advance (h : Sound adapters s) (hheld : Held adapters s.store j) :
    Sound adapters (s.advance adapters j) ∧ (s.advance adapters j).store = s.store := by
  unfold Scheduler.advance
  cases ha : adapters j.kind with
  | none => exact ⟨h.stay ⟨hheld, Or.inl rfl⟩, rfl⟩
  | some a =>
    simp only
    split_ifs with hstarting
    · cases hacquire : s.tryAcquire a.resource j.id with
      | none => exact ⟨h.stay trivial, rfl⟩
      | some t =>
        obtain rfl := tryAcquire_eq hacquire
        have ht : Sound adapters { s with holders := (j.id, a.resource) :: s.holders } :=
          ⟨h.base, h.todo, h.stage, h.calls, h.live⟩
        exact ht.workOn hheld ha
    · exact h.workOn hheld ha

theorem Sound.next (h : Sound adapters s) (hs : s.next adapters = some s') :
    Sound adapters s' ∧ s'.store = s.store := by
  unfold Scheduler.next at hs
  split at hs
  · obtain rfl := Option.some.inj hs
    exact ⟨h.stay trivial, rfl⟩
  · rename_i j todo hstage htodo
    obtain rfl := Option.some.inj hs
    have hheld := h.todo j (by rw [htodo]; exact List.mem_cons_self)
    have hrest : Sound adapters { s with todo } :=
      ⟨h.base, fun v hv => h.todo v (by rw [htodo]; exact List.mem_cons_of_mem _ hv), h.stage,
        h.calls, h.live⟩
    exact hrest.advance hheld
  · cases hs

theorem Sound.observed (h : Sound adapters s) {o : Option JobObservation}
    (hs : s.observed o = some s') : Sound adapters s' ∧ s'.store = s.store := by
  have hstage := h.stage
  unfold Scheduler.observed at hs
  split at hs
  · rename_i j v hat
    obtain rfl := Option.some.inj hs
    rw [hat] at hstage
    split_ifs
    · exact ⟨h.stay ⟨hstage.1, hstage.2, fun _ => List.mem_cons_self⟩, rfl⟩
    · exact ⟨h.stay trivial, rfl⟩
  · obtain rfl := Option.some.inj hs
    exact ⟨h.stay trivial, rfl⟩
  · rename_i j v hat
    obtain rfl := Option.some.inj hs
    rw [hat] at hstage
    obtain ⟨hheld, hsome, hdomain⟩ := hstage
    simp only
    split_ifs
    · exact ⟨h.stay ⟨hheld, Or.inr (Or.inr ⟨hdomain, hsome⟩)⟩, rfl⟩
    · exact ⟨h.stay trivial, rfl⟩
    · exact ⟨h.stay ⟨hheld, Or.inr (Or.inr ⟨hdomain, hsome⟩)⟩, rfl⟩
    · exact ⟨h.stay trivial, rfl⟩
  · obtain rfl := Option.some.inj hs
    exact ⟨h.stay trivial, rfl⟩
  · cases hs

/-- **A requested cancellation ends** when its job is quiet. -/
theorem Sound.quiesce (h : Sound adapters s) {saved : Bool} (hs : s.quiesce saved = some s') :
    Sound adapters s' ∧ Rows adapters (Quiet s) s.store s'.store := by
  have hstage := h.stage
  unfold Scheduler.quiesce at hs
  split at hs
  · rename_i j hat
    obtain rfl := Option.some.inj hs
    rw [hat] at hstage
    obtain ⟨hheld, hrequested, hended⟩ := hstage
    have hrows : Rows adapters (Quiet s) s.store
        (if j.id ∈ s.running || !saved then s.store
          else s.store.updateOperation (fun k => k.id = j.id && k.state = .cancellationRequested)
            fun k => { k with
              state := .cancelled, phase := "producer quiescent", revision := k.revision + 1 }) := by
      split_ifs with hbusy
      · exact Rows.refl _
      · simp only [Bool.or_eq_true, decide_eq_true_eq, not_or] at hbusy
        refine .update _ _ rfl rfl fun k hk hp => ?_
        simp only [Bool.and_eq_true, decide_eq_true_eq] at hp
        obtain ⟨hid, hstate⟩ := hp
        obtain ⟨hkind, -, hsame, hreq⟩ := hheld.row k hk hid
        have hquiet : Quiet s k := by
          refine ⟨fun c hc hcid hworking => ?_, fun hsome => ?_⟩
          · have hrunning := (h.calls c hc).registered (by rw [hworking]; rfl)
            rw [hcid, hid] at hrunning
            exact hbusy.1 hrunning
          · rcases hreq hrequested with heq | hcancelled
            · rw [(hsame heq).2] at hsome
              rw [hid]
              exact hended hsome
            · rw [hcancelled] at hstate
              cases hstate
        refine ⟨rfl, rfl, rfl, Nat.le_succ _, fun h => absurd h (Nat.succ_ne_self _), ?_, ?_,
          fun _ => rfl, ?_, fun hfit => ⟨?_, hfit.owner, ?_, ?_⟩⟩
        · intro hdead
          rw [hstate] at hdead
          cases hdead
        · exact fun _ => Or.inr ⟨rfl, hquiet⟩
        · rintro ⟨hk | hk, -⟩ <;> cases hk
        · rintro (hk | hk) <;> cases hk
        · exact fun hk => nomatch hk
        · rintro ⟨hk | hk, -⟩ <;> cases hk
    exact ⟨h.moves hrows (fun _ => id) trivial, hrows⟩
  · cases hs

theorem Sound.stepped (h : Sound adapters s) {o : Option JobObservation}
    (hs : s.stepped o = some s') : Sound adapters s' ∧ s'.store = s.store := by
  have hstage := h.stage
  unfold Scheduler.stepped at hs
  split at hs
  · rename_i j starting v hat
    obtain rfl := Option.some.inj hs
    rw [hat] at hstage
    exact ⟨h.stay ⟨hstage.1, Or.inr (Or.inl hstage.2)⟩, rfl⟩
  · obtain rfl := Option.some.inj hs
    exact ⟨h.stay trivial, rfl⟩
  · cases hs

theorem Sound.maintain (h : Sound adapters s) {saved : Bool} (hs : s.maintain saved = some s') :
    Sound adapters s' ∧ Rows adapters (Quiet s) s.store s'.store := by
  have hstage := h.stage
  unfold Scheduler.maintain at hs
  split at hs
  · rename_i j starting hat
    obtain rfl := Option.some.inj hs
    rw [hat] at hstage
    obtain ⟨hheld, hrequested, hstep, hdomain, hmem, hfree⟩ := hstage
    split_ifs with hmoved
    · simp only [Bool.and_eq_true, List.any_eq_true, decide_eq_true_eq] at hmoved
      obtain ⟨-, k₀, hk₀, hid₀, hrev₀⟩ := hmoved
      have hrows : Rows adapters (Quiet s) s.store
          (s.store.updateOperation (fun k => k.id = j.id && k.revision = j.revision) fun k =>
            { k with
              state := .running, phase := "maintenance", attempt := k.attempt + 1
              revision := k.revision + 1 }) := by
        refine .update _ _ rfl rfl fun k hk hp => ?_
        simp only [Bool.and_eq_true, decide_eq_true_eq] at hp
        obtain ⟨hkind, -, hsame, -⟩ := hheld.row k hk hp.1
        obtain ⟨hstate, -⟩ := hsame hp.2
        refine goes_of_change rfl rfl rfl rfl (hstate ▸ hheld.active) (hstate ▸ hrequested)
          (fun _ => rfl) ?_ fun hfit => ⟨fun _ hd => ?_, hfit.owner, fun hk => (nomatch hk), ?_⟩
        · rintro ⟨hk | hk, -⟩ <;> cases hk
        · exact absurd ((isDomain_congr hkind).mp hd) hdomain
        · rintro ⟨hk | hk, -⟩ <;> cases hk
      have hrow : ∀ k' ∈ (s.store.updateOperation (fun k => k.id = j.id && k.revision = j.revision)
          fun k => { k with
            state := .running, phase := "maintenance", attempt := k.attempt + 1
            revision := k.revision + 1 }).jobs, k'.id = j.id →
          k'.kind = j.kind ∧ k'.revision = j.revision + 1 ∧ k'.state = .running := by
        intro k' hk' hid
        obtain ⟨k, hk, rfl⟩ := mem_updateWhere.mp hk'
        have hid : k.id = j.id := by
          split_ifs at hid <;> exact hid
        obtain rfl := eq_of_key h.base.ids hk hk₀ (hid.trans hid₀.symm)
        rw [if_pos (by simp [hid, hrev₀])]
        exact ⟨(hheld.row k hk hid).1, congrArg (· + 1) hrev₀, rfl⟩
      refine ⟨⟨h.base.rows hrows, fun v hv => (h.todo v hv).rows hrows, trivial, fun c hc => ?_,
        live_cons rfl h.live hfree⟩, hrows⟩
      rcases List.mem_cons.mp hc with rfl | hc
      · refine ⟨⟨hheld.old.trans_le hrows.nextID, fun k' hk' hid => ?_⟩, fun _ => hmem,
          fun hf => (nomatch hf), fun _ => ⟨hstep, fun k' hk' hid => ?_⟩, fun _ => rfl⟩
        · obtain ⟨hkind, hrev, hstate⟩ := hrow k' hk' hid
          exact ⟨hkind, hrev.ge, fun _ => by rw [hstate]; rfl⟩
        · obtain ⟨-, -, hstate⟩ := hrow k' hk' hid
          rintro ⟨hk | hk, -⟩ <;> rw [hstate] at hk <;> cases hk
      · exact (h.calls c hc).rows hrows fun _ hrunning => hrunning
    · -- the callback isn't started
      refine ⟨⟨h.base, h.todo, trivial, fun c hc => ?_, h.live⟩, Rows.refl _⟩
      refine (h.calls c hc).rows (Rows.still _) fun hlive hrunning => ?_
      exact (List.mem_erase_of_ne (hfree c hc hlive)).mpr hrunning
  · cases hs

theorem Sound.startDomain (h : Sound adapters s) {o : Scheduler.Start}
    (hs : s.startDomain o = some s') :
    Sound adapters s' ∧ Rows adapters (Quiet s) s.store s'.store := by
  have hstage := h.stage
  unfold Scheduler.startDomain at hs
  split at hs
  · rename_i j starting hat
    obtain rfl := Option.some.inj hs
    rw [hat] at hstage
    obtain ⟨hheld, hnone, hdomain⟩ := hstage
    split_ifs with hstartable
    · cases o with
      | lost => exact ⟨h.stay trivial, Rows.refl _⟩
      | refused => exact ⟨h.stay ⟨hheld, Or.inl rfl⟩, Rows.refl _⟩
      | started domain =>
        unfold Scheduler.startable at hstartable
        simp only [Bool.and_eq_true, List.any_eq_true, decide_eq_true_eq] at hstartable
        obtain ⟨k₀, hk₀, ⟨hid₀, hrev₀⟩, hreq₀⟩ := hstartable
        have hrows : Rows adapters (Quiet s) s.store
            (s.store.updateOperation (fun k => k.id = j.id) fun k => { k with
              domainID := some domain, state := .running, phase := "domain worker"
              attempt := k.attempt + 1, revision := k.revision + 1 }) := by
          refine .update _ _ rfl rfl fun k hk hp => ?_
          have hid : k.id = j.id := of_decide_eq_true hp
          obtain rfl := eq_of_key h.base.ids hk hk₀ (hid.trans hid₀.symm)
          obtain ⟨hkind, -, hsame, -⟩ := hheld.row k hk hid
          obtain ⟨hstate, hdom⟩ := hsame hrev₀
          refine goes_of_change rfl rfl rfl rfl (hstate ▸ hheld.active) hreq₀ (fun hsome => ?_)
            (fun hk => (nomatch hk.2)) fun hfit => ⟨fun _ _ => rfl, fun _ => ?_, fun hk => (nomatch hk),
              fun hk => (nomatch hk.2)⟩
          · rw [hdom, hnone] at hsome
            cases hsome
          · exact (isDomain_congr hkind).mpr hdomain
        exact ⟨h.moves hrows (fun _ => id) trivial, hrows⟩
    · exact ⟨h.stay trivial, Rows.refl _⟩
  · cases hs

theorem Sound.finish (h : Sound adapters s) {saved : Bool} (hs : s.finish saved = some s') :
    Sound adapters s' ∧ Rows adapters (Quiet s) s.store s'.store := by
  have hstage := h.stage
  unfold Scheduler.finish at hs
  split at hs
  · rename_i j v starting stepped hat
    obtain rfl := Option.some.inj hs
    rw [hat] at hstage
    obtain ⟨hheld, ho⟩ := hstage
    have hrows : Rows adapters (Quiet s) s.store (if saved then s.store.finish j v else s.store) := by
      split_ifs
      · refine finish_rows hheld.call (ho.imp_right (Or.imp_right fun ⟨hd, hsome⟩ => ⟨hd, ?_⟩))
        intro k hk hid hrev
        rw [((hheld.row k hk hid).2.2.1 hrev).2]
        exact hsome
      · exact Rows.refl _
    exact ⟨h.moves hrows (fun _ => id) trivial, hrows⟩
  · cases hs

theorem goes_nextMS (j : Job) (next : ℤ) : Goes adapters quiet j { j with nextMS := next } where
  id := rfl
  kind := rfl
  resource := rfl
  revision := le_rfl
  same _ := ⟨rfl, rfl⟩
  terminal _ := rfl
  requested h := Or.inl ⟨h, rfl⟩
  domain _ := rfl
  untouched h := Or.inl h
  fit h := ⟨h.begun, h.owner, h.asked, h.fresh⟩

theorem Sound.leave (h : Sound adapters s) {readable saved : Bool}
    (hs : s.leave readable saved = some s') :
    Sound adapters s' ∧ Rows adapters (Quiet s) s.store s'.store := by
  unfold Scheduler.leave at hs
  split at hs
  · rename_i j starting stepped hat
    obtain rfl := Option.some.inj hs
    have hrows : Rows adapters (Quiet s) s.store (if saved then
        s.store.updateOperation (fun k => k.id = j.id) fun k =>
          { k with nextMS := s.store.now + Scheduler.pollMS } else s.store) := by
      split_ifs
      · exact .update _ _ rfl rfl fun k _ _ => goes_nextMS k _
      · exact Rows.refl _
    exact ⟨h.moves hrows (fun _ => id) trivial, hrows⟩
  · cases hs

/-! ## Callbacks -/

theorem callback_mem {job : ℕ} {p : CallStage → Bool} {c : Callback}
    (h : s.callback job p = some c) : c ∈ s.callbacks ∧ c.job.id = job ∧ p c.stage = true := by
  have hmem := List.mem_of_find?_eq_some h
  have hp := List.find?_some h
  simp only [Bool.and_eq_true, decide_eq_true_eq] at hp
  exact ⟨hmem, hp.1, hp.2⟩

theorem Sound.live_unique (h : Sound adapters s) {c c' : Callback} (hc : c ∈ s.callbacks)
    (hc' : c' ∈ s.callbacks.erase c) (hlive : c.stage.live = true) (hlive' : c'.stage.live = true) :
    c'.job.id ≠ c.job.id := by
  intro hid
  have hperm := List.perm_cons_erase hc
  have hnodup := ((hperm.filter fun c => c.stage.live).map fun c => c.job.id).nodup_iff.mp h.live
  rw [List.filter_cons_of_pos (p := fun c : Callback => c.stage.live) hlive, List.map_cons,
    List.nodup_cons] at hnodup
  exact hnodup.1 (List.mem_map.mpr ⟨c', List.mem_filter.mpr ⟨hc', hlive'⟩, hid⟩)

theorem Sound.erase (h : Sound adapters s) (c : Callback) :
    (((s.callbacks.erase c).filter fun c => c.stage.live).map fun c => c.job.id).Nodup :=
  h.live.sublist ((List.erase_sublist.filter _).map _)

/-- A callback goes on to another stage, in which it is still registered. -/
theorem Sound.setStage (h : Sound adapters s) {c : Callback} {stage : CallStage} {store : Store}
    {holders : List (ℕ × Lane)} (hc : c ∈ s.callbacks) (hlive : c.stage.live = true)
    (hlive' : stage.live = true) (hrows : Rows adapters quiet s.store store) :
    Sound adapters ({ s with store, holders }.setStage c stage) where
  base := h.base.rows hrows
  todo v hv := (h.todo v hv).rows hrows
  stage := by
    refine h.stage.rows hrows (fun _ => id) (fun _ hn _ => hn) fun c' hc' hl => ?_
    rcases List.mem_cons.mp hc' with rfl | hc'
    · exact ⟨c, hc, hlive, rfl⟩
    · exact ⟨c', List.mem_of_mem_erase hc', hl, rfl⟩
  calls c' hc' := by
    rcases List.mem_cons.mp hc' with rfl | hc'
    · obtain ⟨hheld, hreg, hasync, hcleanup, -⟩ := (h.calls c hc).rows hrows fun _ hr => hr
      refine ⟨hheld, fun _ => hreg hlive, hasync, hcleanup, fun hclosing => ?_⟩
      exact absurd (hlive'.symm.trans hclosing) Bool.noConfusion
    · exact (h.calls c' (List.mem_of_mem_erase hc')).rows hrows fun _ hr => hr
  live := live_cons hlive' (h.erase c) fun c' hc' hl => by
    exact h.live_unique (c := c) hc hc' hlive hl

theorem Sound.stepReturned (h : Sound adapters s) {job : ℕ} {o : Option JobObservation}
    {saved : Bool} (hs : s.stepReturned job o saved = some s') :
    Sound adapters s' ∧ Rows adapters (Quiet s) s.store s'.store := by
  unfold Scheduler.stepReturned at hs
  obtain ⟨c, hcall, hs⟩ := Option.bind_eq_some_iff.mp hs
  obtain ⟨hc, rfl, hworking⟩ := callback_mem hcall
  by_cases hasync : c.asyncStep = true
  · rw [if_pos hasync] at hs
    obtain rfl := Option.some.inj hs
    have hlive : c.stage.live = true := by
      cases hstage : c.stage <;> simp_all [Scheduler.isWorking, CallStage.live]
    cases o with
    | none => exact ⟨h.setStage hc hlive rfl (Rows.still _), Rows.refl _⟩
    | some v =>
      have hrows : Rows adapters (Quiet s) s.store
          (if saved then s.store.finish c.job v else s.store) := by
        split_ifs
        · exact finish_rows (h.calls c hc).held (Or.inr (Or.inl ((h.calls c hc).async hasync)))
        · exact Rows.refl _
      exact ⟨h.setStage hc hlive rfl hrows, hrows⟩
  · rw [if_neg hasync] at hs
    cases hs

theorem Sound.maintenanceReturned (h : Sound adapters s) {job : ℕ} {succeeded : Bool}
    (hs : s.maintenanceReturned job succeeded = some s') :
    Sound adapters s' ∧ s'.store = s.store := by
  unfold Scheduler.maintenanceReturned at hs
  obtain ⟨c, hcall, hs⟩ := Option.bind_eq_some_iff.mp hs
  obtain ⟨hc, rfl, hworking⟩ := callback_mem hcall
  split_ifs at hs with hasync
  obtain rfl := Option.some.inj hs
  have hlive : c.stage.live = true := by
    cases hstage : c.stage <;> simp_all [Scheduler.isWorking, CallStage.live]
  exact ⟨h.setStage hc hlive rfl (Rows.still _), rfl⟩

theorem Sound.dropped (h : Sound adapters s) {job : ℕ} (hs : s.dropped job = some s') :
    Sound adapters s' ∧ s'.store = s.store := by
  unfold Scheduler.dropped at hs
  obtain ⟨c, hcall, rfl⟩ := Option.map_eq_some_iff.mp hs
  obtain ⟨hc, rfl, hreleased⟩ := callback_mem hcall
  have hlive : c.stage.live = true := by
    cases hstage : c.stage <;> simp_all [CallStage.live]
  -- the other callbacks stay registered
  have hothers : ∀ c' ∈ s.callbacks.erase c, CallSound adapters s.store (s.running.erase c.job.id) c' := by
    intro c' hc'
    refine (h.calls c' (List.mem_of_mem_erase hc')).rows (Rows.still _) ?_
    intro hl hr
    exact (List.mem_erase_of_ne (h.live_unique hc hc' hlive hl)).mpr hr
  have hstage : ∀ calls, (∀ c' ∈ calls, c'.stage.live = true → c' ∈ s.callbacks) →
      StageSound adapters s.store s.ended (s.running.erase c.job.id) calls s.stage := by
    intro calls hcalls
    refine h.stage.rows (Rows.still _) (fun _ => id) (fun n hn hfree => ?_)
      fun c' hc' hl => ⟨c', hcalls c' hc' hl, hl, rfl⟩
    exact (List.mem_erase_of_ne (hfree c hc hlive).symm).mpr hn
  split
  · rename_i hfalse _
    refine ⟨⟨h.base, h.todo, hstage _ ?_, ?_, ?_⟩, rfl⟩
    · intro c' hc' hl
      rcases List.mem_cons.mp hc' with rfl | hc'
      · cases hl
      · exact List.mem_of_mem_erase hc'
    · intro c' hc'
      rcases List.mem_cons.mp hc' with rfl | hc'
      · obtain ⟨hheld, -, hasync, hcleanup, -⟩ := h.calls c hc
        exact ⟨hheld, fun hl => (nomatch hl), hasync, hcleanup, fun _ => hfalse⟩
      · exact hothers c' hc'
    · exact h.erase c
  · exact ⟨⟨h.base, h.todo, hstage _ fun c' hc' _ => List.mem_of_mem_erase hc', hothers, h.erase c⟩,
      rfl⟩

theorem Sound.closed (h : Sound adapters s) {job : ℕ} {saved : Bool}
    (hs : s.closed job saved = some s') :
    Sound adapters s' ∧ Rows adapters (Quiet s) s.store s'.store := by
  unfold Scheduler.closed at hs
  obtain ⟨c, hcall, rfl⟩ := Option.map_eq_some_iff.mp hs
  obtain ⟨hc, rfl, -⟩ := callback_mem hcall
  have hrows : Rows adapters (Quiet s) s.store (if saved then
      s.store.finish c.job (Scheduler.maintenanceOutcome c.job
        ((s.store.job c.job.id).bind Job.processed) (c.stage = .closing true)) else s.store) := by
    split_ifs
    · refine finish_rows (h.calls c hc).held (Or.inl ?_)
      unfold Scheduler.maintenanceOutcome
      split_ifs <;> rfl
    · exact Rows.refl _
  refine ⟨⟨h.base.rows hrows, fun v hv => (h.todo v hv).rows hrows, ?_, fun c' hc' => ?_,
    h.erase c⟩, hrows⟩
  · exact h.stage.rows hrows (fun _ => id) (fun _ hn _ => hn) fun c' hc' hl =>
      ⟨c', List.mem_of_mem_erase hc', hl, rfl⟩
  · exact (h.calls c' (List.mem_of_mem_erase hc')).rows hrows fun _ hr => hr

/-! ## Runs -/

theorem Sound.restart (h : Sound adapters s) (saved : Bool) :
    Sound adapters (s.restart saved) ∧ Rows adapters (Quiet s) s.store (s.restart saved).store := by
  have hrows : Rows adapters (Quiet s) s.store (s.restart saved).store := by
    unfold Scheduler.restart
    simp only
    split_ifs
    · refine .update _ _ rfl rfl fun k hk hp => ?_
      have hstate : k.state = .running := of_decide_eq_true hp
      refine goes_of_change rfl rfl rfl rfl (by rw [hstate]; rfl) (by rw [hstate]; simp) (fun _ => rfl)
        ?_ fun hfit => ⟨fun _ => hfit.begun (Or.inl hstate), hfit.owner, fun hk => (nomatch hk), ?_⟩
      · rintro ⟨hk | hk, -⟩ <;> cases hk
      · rintro ⟨hk | hk, -⟩ <;> cases hk
    · exact Rows.refl _
  exact ⟨⟨h.base.rows hrows, fun _ hv => (nomatch hv), trivial, fun _ hc => (nomatch hc),
    List.nodup_nil⟩, hrows⟩

/-- **Every event** keeps the invariant, and does to each row only what it may. -/
theorem Sound.step (h : Sound adapters s) {e : Event} (hs : step adapters s e = some s') :
    Sound adapters s' ∧ Rows adapters (Quiet s) s.store s'.store := by
  -- events that leave the rows
  have hstill : Sound adapters s' ∧ s'.store = s.store →
      Sound adapters s' ∧ Rows adapters (Quiet s) s.store s'.store := by
    rintro ⟨hsound, hstore⟩
    exact ⟨hsound, hstore ▸ Rows.refl _⟩
  cases e with
  | clock now =>
    change (if s.store.now ≤ now then some { s with store := { s.store with now } } else none) =
      some s' at hs
    split_ifs at hs
    obtain rfl := Option.some.inj hs
    have hrows : Rows adapters (Quiet s) s.store { s.store with now } := Rows.of_jobs rfl rfl
    exact ⟨h.waits hrows, hrows⟩
  | enqueue kind resource domainTrigger =>
    obtain ⟨store, hstore, rfl⟩ := Option.map_eq_some_iff.mp hs
    have hrows : Rows adapters (Quiet s) s.store store :=
      enqueue_rows (toOption_eq_some.mp hstore)
    exact ⟨h.waits hrows, hrows⟩
  | command id action expected =>
    obtain ⟨store, hstore, rfl⟩ := Option.map_eq_some_iff.mp hs
    have hrows : Rows adapters (Quiet s) s.store store :=
      command_rows h.base (toOption_eq_some.mp hstore)
    exact ⟨h.waits hrows, hrows⟩
  | tick =>
    change (if s.stage = .idle then some { s with stage := .reading lanes, todo := [] } else none) =
      some s' at hs
    split_ifs at hs
    obtain rfl := Option.some.inj hs
    exact ⟨⟨h.base, fun _ hv => (nomatch hv), trivial, h.calls, h.live⟩, Rows.refl _⟩
  | read ok => exact hstill (h.read hs)
  | next => exact hstill (h.next hs)
  | observed o => exact hstill (h.observed hs)
  | quiesce saved => exact h.quiesce hs
  | stepped o => exact hstill (h.stepped hs)
  | maintain saved => exact h.maintain hs
  | startDomain o => exact h.startDomain hs
  | finish saved => exact h.finish hs
  | leave readable saved => exact h.leave hs
  | stepReturned job o saved => exact h.stepReturned hs
  | maintenanceReturned job succeeded => exact hstill (h.maintenanceReturned hs)
  | dropped job => exact hstill (h.dropped hs)
  | closed job saved => exact h.closed hs
  | restart saved =>
    obtain rfl := Option.some.inj hs
    exact h.restart saved

/-- What a run does to a row. -/
structure Onward (j k : Job) : Prop where
  id : k.id = j.id
  terminal : j.state.active = false → k.state = j.state
  requested : j.state = .cancellationRequested →
    k.state = .cancellationRequested ∨ k.state = .cancelled

theorem Goes.onward {i : Job} (h : Onward i j) (hgoes : Goes adapters quiet j k) : Onward i k := by
  refine ⟨hgoes.id.trans h.id, fun hi => ?_, fun hi => ?_⟩
  · have hj := h.terminal hi
    exact (hgoes.terminal (hj ▸ hi)).trans hj
  · rcases h.requested hi with hj | hj
    · rcases hgoes.requested hj with ⟨hk, -⟩ | ⟨hk, -⟩
      · exact Or.inl hk
      · exact Or.inr hk
    · exact Or.inr ((hgoes.terminal (by rw [hj]; rfl)).trans hj)

theorem run_onward {es : List Event} (h : Sound adapters s)
    (hrun : run (step adapters) s es = some s') (hj : j ∈ s.store.jobs) :
    ∃ k ∈ s'.store.jobs, Onward j k := by
  have hall := run_invariant (P := fun s' => Sound adapters s' ∧ ∃ k ∈ s'.store.jobs, Onward j k)
    ?_ ⟨h, j, hj, rfl, fun _ => rfl, Or.inl⟩ hrun
  · exact hall.2
  · rintro t e t' ⟨ht, k, hk, honward⟩ hs
    obtain ⟨ht', hrows⟩ := ht.step hs
    obtain ⟨k', hk', hgoes⟩ := hrows.forward hk
    exact ⟨ht', k', hk', hgoes.onward honward⟩

/-- The job that an event starts a domain worker for. -/
def workerStarted (s : Scheduler) : Event → Option ℕ
  | .startDomain (.started _) =>
    match s.stage with
    | .startingDomain j _ => if s.startable j then some j.id else none
    | _ => none
  | _ => none

theorem workerStarted_eq_some {e : Event} {n : ℕ} (h : workerStarted s e = some n) :
    ∃ j starting domain, e = .startDomain (.started domain) ∧ s.stage = .startingDomain j starting ∧
      s.startable j = true ∧ j.id = n := by
  unfold workerStarted at h
  split at h
  · rename_i domain
    split at h
    · rename_i j starting hat
      split_ifs at h with hstartable
      exact ⟨j, starting, domain, rfl, hat, hstartable, Option.some.inj h⟩
    · cases h
  · cases h

/-- A domain worker is started for a job that has none, and the job has it then. -/
theorem Sound.workerStarted (h : Sound adapters s) {e : Event} {n : ℕ}
    (hn : workerStarted s e = some n) (hs : Operations.step adapters s e = some s') :
    (∃ k ∈ s.store.jobs, k.id = n ∧ k.domainID = none) ∧
      ∀ k ∈ s'.store.jobs, k.id = n → k.domainID.isSome := by
  obtain ⟨j, starting, domain, rfl, hat, hstartable, rfl⟩ := workerStarted_eq_some hn
  have hstage := h.stage
  rw [hat] at hstage
  obtain ⟨hheld, hnone, -⟩ := hstage
  have hfound := hstartable
  unfold Scheduler.startable at hfound
  simp only [Bool.and_eq_true, List.any_eq_true, decide_eq_true_eq] at hfound
  obtain ⟨k, hk, ⟨hid, hrev⟩, -⟩ := hfound
  refine ⟨⟨k, hk, hid, ((hheld.row k hk hid).2.2.1 hrev).2.trans hnone⟩, ?_⟩
  change s.startDomain (.started domain) = some s' at hs
  unfold Scheduler.startDomain at hs
  rw [hat] at hs
  simp only [hstartable, if_true] at hs
  obtain rfl := Option.some.inj hs
  intro k' hk' hid'
  obtain ⟨k₀, -, rfl⟩ := mem_updateWhere.mp hk'
  split_ifs at hid' ⊢ with hp
  · rfl
  · exact absurd (by simpa using hid') hp

/-- **No job has two domain workers** started for it. -/
theorem workers_nodup {now : ℤ} {es : List Event}
    (hrun : run (step adapters) (initial now) es = some s) :
    Sound adapters s ∧ (outputs (step adapters) workerStarted (initial now) es).Nodup := by
  have hall := run_history (Q := fun _ _ => True)
    (P := fun es t => run (step adapters) (initial now) es = some t ∧ Sound adapters t ∧
      (outputs (step adapters) workerStarted (initial now) es).Nodup ∧
        ∀ n ∈ outputs (step adapters) workerStarted (initial now) es, n < t.store.nextID ∧
          ∀ k ∈ t.store.jobs, k.id = n → k.domainID.isSome)
    ?_ ?_ hrun (each_of_kept (I := fun _ => True) (fun _ _ _ _ _ => trivial) (fun _ _ _ => trivial)
      trivial)
  · exact ⟨hall.2.1, hall.2.2.1⟩
  · exact ⟨rfl, initial_sound now, List.nodup_nil, fun _ hn => nomatch hn⟩
  · rintro es t e t' ⟨hes, ht, hnodup, hold⟩ - hs
    obtain ⟨ht', hrows⟩ := ht.step hs
    have hkept : ∀ n ∈ outputs (step adapters) workerStarted (initial now) es,
        n < t'.store.nextID ∧ ∀ k ∈ t'.store.jobs, k.id = n → k.domainID.isSome := by
      intro n hn
      obtain ⟨hlt, hsome⟩ := hold n hn
      refine ⟨hlt.trans_le hrows.nextID, fun k hk hid => ?_⟩
      obtain ⟨j, hj, hgoes⟩ := hrows.old hk (hid ▸ hlt)
      have hj := hsome j hj (hgoes.id.symm.trans hid)
      rw [hgoes.domain hj]
      exact hj
    refine ⟨run_concat.mpr ⟨t, hes, hs⟩, ht', ?_⟩
    rw [outputs_concat hes]
    cases hstarted : workerStarted t e with
    | none => simpa using ⟨hnodup, hkept⟩
    | some n =>
      obtain ⟨⟨k, hk, hid, hnone⟩, hsome⟩ := ht.workerStarted hstarted hs
      refine ⟨?_, fun m hm => ?_⟩
      · rw [Option.toList_some, List.nodup_append]
        refine ⟨hnodup, List.nodup_singleton _, ?_⟩
        rintro m hm m' hm' rfl
        obtain rfl := List.mem_singleton.mp hm'
        have := (hold m hm).2 k hk hid
        rw [hnone] at this
        cases this
      · rcases List.mem_append.mp hm with hm | hm
        · exact hkept m hm
        · obtain rfl := List.mem_singleton.mp hm
          exact ⟨hid ▸ (ht.base.fresh k hk).trans_le hrows.nextID, hsome⟩

/-- A job that nothing was ever started for. -/
def NeverStarted (s : Scheduler) (j : Job) : Prop :=
  j.attempt = 0 ∧ j.domainID = none ∧ ∀ c ∈ s.callbacks, c.job.id ≠ j.id

def Event.isCommand : Event → Bool
  | .command _ _ _ => true
  | _ => false

theorem Sound.cancelled_at_once (h : Sound adapters s) {e : Event} (he : e.isCommand = true)
    (hs : Operations.step adapters s e = some s') (hj : j ∈ s.store.jobs) (hk : k ∈ s'.store.jobs)
    (hid : k.id = j.id) (hcancelled : k.state = .cancelled) (hwas : j.state ≠ .cancelled) :
    NeverStarted s j := by
  cases e with
  | command id action expected =>
    obtain ⟨store, hstore, rfl⟩ := Option.map_eq_some_iff.mp hs
    obtain ⟨j₀, a, hrow, -, ha, hstep, -, ⟨rfl, hretry⟩ | ⟨hretry, rfl⟩⟩ :=
      Store.command_cases (toOption_eq_some.mp hstore)
    · -- an admission leaves the rows that are there
      rcases enqueue_cases hretry with rfl | ⟨rfl, -⟩
      · obtain rfl := eq_of_key h.base.ids hk hj hid
        exact absurd hcancelled hwas
      · rcases List.mem_append.mp hk with hk | hk
        · obtain rfl := eq_of_key h.base.ids hk hj hid
          exact absurd hcancelled hwas
        · obtain rfl := List.mem_singleton.mp hk
          cases hcancelled
    · obtain ⟨k₀, hk₀, rfl⟩ := mem_updateWhere.mp hk
      have hkj : k₀ = j := eq_of_key h.base.ids hk₀ hj (by split_ifs at hid <;> exact hid)
      subst hkj
      split_ifs at hcancelled with hp
      · obtain rfl := eq_of_key h.base.ids (mem_of_rowOf hrow) hk₀
          ((key_of_rowOf hrow).trans (of_decide_eq_true hp).symm)
        have huntouched : j₀.Untouched := by
          cases action with
          | retry => exact absurd rfl hretry
          | pause => cases hcancelled
          | resume =>
            simp only [Job.commanded] at hcancelled
            split_ifs at hcancelled
          | cancel =>
            simp only [Job.commanded] at hcancelled
            split_ifs at hcancelled with hfree
            simpa [Job.Untouched] using hfree
        have hnostep : ¬ IsStep adapters j₀ := by
          rintro ⟨b, hb⟩
          rw [ha] at hb
          rw [Option.some.inj hb] at hstep
          cases hstep
        refine ⟨((h.base.fit j₀ hk₀).fresh huntouched).resolve_right hnostep, huntouched.2, ?_⟩
        intro c hc hcid
        have hcall := h.calls c hc
        have hkind := (hcall.held.row j₀ hk₀ hcid.symm).1
        cases hasync : c.asyncStep with
        | true => exact hnostep ((isStep_congr hkind).mpr (hcall.async hasync))
        | false => exact (hcall.cleanup hasync).2 j₀ hk₀ hcid.symm huntouched
      · exact absurd hcancelled hwas
  | _ => cases he

/-- **The states of operations.** In every run, with commands, admissions, callbacks, failed writes and
restarts in between: no two active jobs are of one kind and resource; no job has two domain workers
started for it; a job that has ended keeps its state, and a requested cancellation is only followed by
the job being cancelled, when no callback of it works and its domain worker was seen at its end; each
change of state makes a new revision; and a command cancels at once only what was never started. -/
theorem operation_states {now : ℤ} {es : List Event}
    (hrun : run (step adapters) (initial now) es = some s) :
    (∀ j ∈ s.store.jobs, ∀ k ∈ s.store.jobs, j.state.active = true → k.state.active = true →
      j.kind = k.kind → j.resource = k.resource → j = k) ∧
    (outputs (step adapters) workerStarted (initial now) es).Nodup ∧
    (∀ es' t, run (step adapters) s es' = some t → ∀ j ∈ s.store.jobs, ∃ k ∈ t.store.jobs,
      k.id = j.id ∧ (j.state.active = false → k.state = j.state) ∧
        (j.state = .cancellationRequested →
          k.state = .cancellationRequested ∨ k.state = .cancelled)) ∧
    ∀ e t, step adapters s e = some t → ∀ j ∈ s.store.jobs, ∀ k ∈ t.store.jobs, k.id = j.id →
      (k.state ≠ j.state → j.revision < k.revision) ∧
      (j.state = .cancellationRequested → k.state = .cancelled → Quiet s j) ∧
      (e.isCommand = true → k.state = .cancelled → j.state ≠ .cancelled → NeverStarted s j) := by
  obtain ⟨hsound, hnodup⟩ := workers_nodup hrun
  refine ⟨hsound.base.unique, hnodup, fun es' t hrun' j hj => ?_, fun e t hs j hj k hk hid => ?_⟩
  · obtain ⟨k, hk, honward⟩ := run_onward hsound hrun' hj
    exact ⟨k, hk, honward.id, honward.terminal, honward.requested⟩
  · obtain ⟨-, hrows⟩ := hsound.step hs
    obtain ⟨j', hj', hgoes⟩ := hrows.old hk (hid ▸ hsound.base.fresh j hj)
    obtain rfl := eq_of_key hsound.base.ids hj' hj (hgoes.id.symm.trans hid)
    refine ⟨fun hne => ?_, fun hrequested hcancelled => ?_, fun he hcancelled hwas => ?_⟩
    · apply lt_of_le_of_ne hgoes.revision
      intro heq
      exact hne (hgoes.same heq.symm).1
    · rcases hgoes.requested hrequested with ⟨hstill, -⟩ | ⟨-, hquiet⟩
      · rw [hstill] at hcancelled
        cases hcancelled
      · exact hquiet
    · exact hsound.cancelled_at_once he hs hj hk hid hcancelled hwas

/-- The scanner of libraries. -/
def scanAdapters (kind : String) : Option Adapter :=
  if kind = "library-scan" then some ⟨.domain true true false, .writeHeavy, false⟩ else none

/-- One tick up to the first job. -/
def readAll : List Event := .tick :: List.replicate 7 (.read true)

/-- A scan is started, and cancelled while it runs. -/
def cancelledScan : List Event :=
  [.enqueue "library-scan" "films" false] ++ readAll ++
    [.next, .startDomain (.started "scan-1"), .leave true true, .next, .command 0 .cancel 2,
      .clock 1000] ++ readAll ++
    [.next, .observed (some ⟨.cancelled, "cancelled", none, none, ""⟩), .quiesce true]

theorem operation_states_scan :
    ∃ s, run (step scanAdapters) (initial 0) cancelledScan = some s ∧
      s.store.jobs.map Job.state = [.cancelled] ∧
      (outputs (step scanAdapters) workerStarted (initial 0) cancelledScan).Nodup := by
  have hrun : (run (step scanAdapters) (initial 0) cancelledScan).map
      (fun s => s.store.jobs.map Job.state) = some [.cancelled] := by decide +kernel
  obtain ⟨s, hs, hstates⟩ := Option.map_eq_some_iff.mp hrun
  exact ⟨s, hs, hstates, (operation_states hs).2.1⟩

end Portico.Operations
