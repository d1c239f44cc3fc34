import Portico.LiveChannels.Allocator

/-!
# Tuners within capacity

Allocations of one channel share a tuner, so what counts is how many channels are read. An acquisition
adds at most one, and looks whether there is room, unless it joins a channel that is read already. A
holder is recognised by its token, so an allocation that was replaced can't be renewed or released.

## Main results

* `step_cases`: what a transaction does to the rows
* `tuners_kept`: a run keeps its promises just when no acquisition crowds
-/

namespace Portico.LiveChannels

open Machine

/-- A row with the same holder, that is as it was or released. -/
structure Eased (r r' : Row) : Prop where
  id : r'.id = r.id
  sourceID : r'.sourceID = r.sourceID
  channelID : r'.channelID = r.channelID
  resource : r'.resource = r.resource
  token : r'.token = r.token
  generation : r'.generation = r.generation
  state : r'.state = r.state ∨ r'.state = .released

theorem Eased.refl (r : Row) : Eased r r := ⟨rfl, rfl, rfl, rfl, rfl, rfl, Or.inl rfl⟩

theorem Eased.tuner {r r' : Row} (h : Eased r r') : r'.tuner = r.tuner := by
  unfold Row.tuner
  rw [h.channelID, h.id]

/-- Some rows are removed, the others keep their holders. -/
structure Eases (s s' : Store) : Prop where
  rows : ∃ (keep : Row → Bool) (f : Row → Row),
    s'.allocations = (s.allocations.filter keep).map f ∧ ∀ r, Eased r (f r)
  nonces : s'.nonces = s.nonces

/-- The tables are sound: a resource has one row, ids are distinct, and ids and tokens were drawn. -/
structure Sound (s : Store) : Prop where
  ids : (s.allocations.map Row.id).Nodup
  resources : (s.allocations.map Row.resource).Nodup
  drawn : ∀ r ∈ s.allocations, r.id ∈ s.nonces ∧ r.token ∈ s.nonces

/-- An acquisition may be written: the resource isn't allocated. -/
def Free (want : Request) (s : Store) : Prop :=
  ∀ r ∈ s.allocations, r.resource = want.resource → r.state = .released

variable {sources : List Source} {s s' : Store} {e : Event} {es : List Event} {want : Request}
  {guide : List Reservation} {policy : Policy} {now : ℤ} {id token : ℕ} {a : Allocation} {r r' : Row}
  {preemptAt : Option ℤ} {sid : String} {t : Tuner} {cap : Capacity}

/-! ## What a transaction does -/

theorem Eases.refl (s : Store) : Eases s s :=
  ⟨⟨fun _ => true, id, by simp, Eased.refl⟩, rfl⟩

theorem eases_updateWhere {p : Row → Bool} {f : Row → Row}
    (hrows : s'.allocations = updateWhere p f s.allocations) (hnonces : s'.nonces = s.nonces)
    (hf : ∀ r, Eased r (f r)) : Eases s s' := by
  refine ⟨⟨fun _ => true, fun r => if p r then f r else r, ?_, fun r => ?_⟩, hnonces⟩
  · rw [hrows, List.filter_true]
    rfl
  · dsimp only
    split_ifs
    · exact hf r
    · exact Eased.refl r

theorem eases_preemptChannelTx {channel : String} {deadline : ℤ} :
    Eases s (s.preemptChannelTx sid channel deadline) :=
  eases_updateWhere rfl rfl fun _ => ⟨rfl, rfl, rfl, rfl, rfl, rfl, Or.inl rfl⟩

theorem eases_releaseAllocationTx : Eases s (s.releaseAllocationTx a) :=
  eases_updateWhere rfl rfl fun _ => ⟨rfl, rfl, rfl, rfl, rfl, rfl, Or.inr rfl⟩

theorem eases_renewAllocationTx : Eases s (s.renewAllocationTx a now).2 := by
  unfold Store.renewAllocationTx
  split
  · exact Eases.refl s
  · split
    · exact Eases.refl s
    · exact eases_updateWhere rfl rfl fun _ => ⟨rfl, rfl, rfl, rfl, rfl, rfl, Or.inl rfl⟩

theorem eases_reconcileExpired : Eases s (s.reconcileExpired r now) := by
  unfold Store.reconcileExpired
  dsimp only
  split_ifs
  · exact eases_releaseAllocationTx
  · exact Eases.refl s

theorem contend_cases : Eases s (s.contend want policy now).2 ∧
    ∀ a, (s.contend want policy now).1 ≠ .ok a := by
  unfold Store.contend
  split
  · split
    · exact ⟨Eases.refl s, nofun⟩
    · split
      · exact ⟨Eases.refl s, nofun⟩
      · exact ⟨eases_preemptChannelTx, nofun⟩
  · exact ⟨Eases.refl s, nofun⟩

theorem Sound.free_iff (h : Sound s) : ((rowOf Row.resource want.resource s.allocations).any fun r =>
    r.state ≠ .released) = false ↔ Free want s := by
  unfold Free
  cases hrow : rowOf Row.resource want.resource s.allocations with
  | none =>
    have hnone := rowOf_eq_none.mp hrow
    exact iff_of_true rfl fun r hr hres => absurd hres (hnone r hr)
  | some row =>
    obtain ⟨hmem, hres⟩ := (rowOf_eq_some h.resources).mp hrow
    rw [Option.any_some, decide_eq_false_iff_not, not_not]
    constructor
    · intro hreleased r hr hr'
      rwa [eq_of_key h.resources hr hmem (hr'.trans hres.symm)]
    · exact fun hfree => hfree row hmem hres

/-- Why an acquisition is written: it joins a channel, or finds a tuner, or nobody knows how many
there are. -/
def Room (sources : List Source) (s : Store) (want : Request) (now : ℤ) : Prop :=
  ∃ cap, capacityTx sources want.sourceID = .ok cap ∧
    (s.shared want now = true ∨ cap.known = false ∨
      ((s.tuners want.sourceID).card : ℤ) < cap.effective)

theorem Sound.acquireTx_cases (h : Sound s) (sources : List Source)
    (guide : List Reservation) (policy : Policy) (want : Request) (now : ℤ) (id token : ℕ) :
    Eases s (s.acquireTx sources guide policy want now id token).2 ∧
        (∀ a, (s.acquireTx sources guide policy want now id token).1 ≠ .ok a) ∨
      want.valid = true ∧ Free want s ∧ Room sources s want now ∧
        ∃ preemptAt, s.acquireTx sources guide policy want now id token =
          s.grant want preemptAt now id token := by
  have hrefused : ∀ f : Fault, Eases s ((.error f, s) : Except Fault Allocation × Store).2 ∧
      ∀ a, ((.error f, s) : Except Fault Allocation × Store).1 ≠ .ok a :=
    fun f => ⟨Eases.refl s, nofun⟩
  unfold Store.acquireTx
  split
  · exact Or.inl (hrefused _)
  rename_i hvalid
  replace hvalid : want.valid = true := by simpa using hvalid
  split
  · exact Or.inl (hrefused _)
  rename_i cap hcap
  split
  · exact Or.inl (hrefused _)
  rename_i hheld
  have hfree := h.free_iff.mp (Bool.eq_false_iff.mpr hheld)
  split
  · rename_i hshared
    exact Or.inr ⟨hvalid, hfree, ⟨cap, hcap, Or.inl hshared⟩, _, rfl⟩
  split
  · rename_i hknown
    exact Or.inr ⟨hvalid, hfree, ⟨cap, hcap, Or.inr (Or.inl (by simpa using hknown))⟩, _, rfl⟩
  split
  · exact Or.inl contend_cases
  rename_i hfull
  have hroom : Room sources s want now := ⟨cap, hcap, Or.inr (Or.inr (not_le.mp hfull))⟩
  split
  · exact Or.inr ⟨hvalid, hfree, hroom, _, rfl⟩
  split
  · exact Or.inl (hrefused _)
  · exact Or.inr ⟨hvalid, hfree, hroom, _, rfl⟩

theorem Sound.acquireTx_shared (h : Sound s) (guide : List Reservation) (policy : Policy)
    (id token : ℕ) (hvalid : want.valid = true) (hfree : Free want s)
    (hcap : capacityTx sources want.sourceID = .ok cap) (hshared : s.shared want now = true) :
    ∃ preemptAt, s.acquireTx sources guide policy want now id token =
      s.grant want preemptAt now id token := by
  unfold Store.acquireTx
  rw [if_neg (by simp [hvalid]), hcap]
  dsimp only
  rw [if_neg (Bool.eq_false_iff.mp (h.free_iff.mpr hfree)), if_pos hshared]
  exact ⟨_, rfl⟩

/-- **What a transaction does**: rows keep their holders, or an acquisition is written. -/
theorem Sound.step_cases (h : Sound s) (hs : step sources s e = some s') :
    Eases s s' ∨ ∃ want guide policy now id token preemptAt,
      e = .acquire want guide policy now id token ∧ id ∉ s.nonces ∧ token ∉ s.nonces ∧
        want.valid = true ∧ Free want s ∧ Room sources s want now ∧
        s' = (s.grant want preemptAt now id token).2 := by
  cases e with
  | acquire want guide policy now id token =>
    simp only [step] at hs
    split_ifs at hs with hfresh
    cases hs
    rcases h.acquireTx_cases sources guide policy want now id token with ⟨heases, -⟩ | ⟨hvalid, hfree, hroom, p, hgrant⟩
    · exact Or.inl heases
    · exact Or.inr ⟨want, guide, policy, now, id, token, p, rfl, hfresh.1, hfresh.2, hvalid, hfree,
        hroom, by rw [hgrant]⟩
  | renew a now =>
    cases hs
    exact Or.inl eases_renewAllocationTx
  | release a =>
    cases hs
    exact Or.inl eases_releaseAllocationTx
  | reconcile row now =>
    cases hs
    exact Or.inl eases_reconcileExpired
  | retain keep =>
    cases hs
    exact Or.inl ⟨⟨_, id, (List.map_id _).symm, Eased.refl⟩, rfl⟩

/-! ## The tables stay sound -/

theorem Eases.sound (h : Eases s s') (hs : Sound s) : Sound s' := by
  obtain ⟨⟨keep, f, hrows, hf⟩, hnonces⟩ := h
  have hids : Row.id ∘ f = Row.id := funext fun r => (hf r).id
  have hresources : Row.resource ∘ f = Row.resource := funext fun r => (hf r).resource
  refine ⟨?_, ?_, fun r hr => ?_⟩
  · rw [hrows, List.map_map, hids]
    exact hs.ids.sublist (List.filter_sublist.map _)
  · rw [hrows, List.map_map, hresources]
    exact hs.resources.sublist (List.filter_sublist.map _)
  · rw [hrows] at hr
    obtain ⟨r₀, hr₀, rfl⟩ := List.mem_map.mp hr
    rw [(hf r₀).id, (hf r₀).token, hnonces]
    exact hs.drawn r₀ (List.mem_of_mem_filter hr₀)

/-- The id of an acquisition is that of the row it uses again, or a new one. -/
theorem Sound.granted_id (h : Sound s) (hr : r ∈ s.allocations) (hres : r.resource = want.resource) :
    (s.granted want preemptAt now id token).id = r.id := by
  have hrow : rowOf Row.resource want.resource s.allocations = some r :=
    (rowOf_eq_some h.resources).mpr ⟨hr, hres⟩
  unfold Store.granted
  rw [hrow]
  rfl

theorem granted_id_of_new (hnew : ∀ r ∈ s.allocations, r.resource ≠ want.resource) :
    (s.granted want preemptAt now id token).id = id := by
  unfold Store.granted
  rw [rowOf_eq_none.mpr hnew]
  rfl

theorem allocations_upsert {row : Row}
    (hid : ∀ r ∈ s.allocations, r.resource = row.resource → row.id = r.id) :
    (s.upsert row).allocations =
      if ∃ r ∈ s.allocations, r.resource = row.resource then
        s.allocations.map fun r => if r.resource = row.resource then row else r
      else s.allocations ++ [row] := by
  unfold Store.upsert
  simp only [List.any_eq_true, decide_eq_true_eq]
  split_ifs
  · unfold updateWhere
    apply List.map_congr_left
    intro r hr
    simp only [decide_eq_true_eq]
    split_ifs with hres
    · rw [← hid r hr hres]
    · rfl
  · rfl

/-- The rows after an acquisition was written: its own in place of the one of its resource. -/
theorem Sound.allocations_grant (h : Sound s) :
    (s.grant want preemptAt now id token).2.allocations =
      if ∃ r ∈ s.allocations, r.resource = want.resource then
        s.allocations.map fun r =>
          if r.resource = want.resource then s.granted want preemptAt now id token else r
      else s.allocations ++ [s.granted want preemptAt now id token] :=
  allocations_upsert fun _ hr hres => h.granted_id hr hres

theorem Sound.mem_grant (h : Sound s) :
    r ∈ (s.grant want preemptAt now id token).2.allocations ↔
      r = s.granted want preemptAt now id token ∨ r ∈ s.allocations ∧ r.resource ≠ want.resource := by
  rw [h.allocations_grant]
  split_ifs with hold
  · rw [List.mem_map]
    constructor
    · rintro ⟨r₀, hr₀, rfl⟩
      split_ifs with hres
      · exact Or.inl rfl
      · exact Or.inr ⟨hr₀, hres⟩
    · rintro (rfl | ⟨hr, hres⟩)
      · obtain ⟨r₀, hr₀, hres⟩ := hold
        exact ⟨r₀, hr₀, if_pos hres⟩
      · exact ⟨r, hr, if_neg hres⟩
  · rw [List.mem_append, List.mem_singleton, or_comm]
    refine or_congr_right (iff_self_and.mpr fun hr hres => hold ⟨r, hr, hres⟩)

theorem Sound.id_ne_granted (h : Sound s) (hid : id ∉ s.nonces) (hr : r ∈ s.allocations)
    (hres : r.resource ≠ want.resource) : r.id ≠ (s.granted want preemptAt now id token).id := by
  intro heq
  by_cases hold : ∃ r₀ ∈ s.allocations, r₀.resource = want.resource
  · obtain ⟨r₀, hr₀, hres₀⟩ := hold
    rw [h.granted_id hr₀ hres₀] at heq
    exact hres (eq_of_key h.ids hr hr₀ heq ▸ hres₀)
  · push Not at hold
    rw [granted_id_of_new hold] at heq
    exact hid (heq ▸ (h.drawn r hr).1)

theorem Sound.grant (h : Sound s) (hid : id ∉ s.nonces) :
    Sound (s.grant want preemptAt now id token).2 := by
  have hnonces : (s.grant want preemptAt now id token).2.nonces = id :: token :: s.nonces := rfl
  refine ⟨?_, ?_, fun r hr => ?_⟩
  · rw [h.allocations_grant]
    split_ifs with hold
    · have hkeys : (s.allocations.map fun r =>
          if r.resource = want.resource then s.granted want preemptAt now id token else r).map Row.id =
            s.allocations.map Row.id := by
        rw [List.map_map]
        apply List.map_congr_left
        intro r hr
        rw [Function.comp_apply]
        split_ifs with hres
        · exact h.granted_id hr hres
        · rfl
      rw [hkeys]
      exact h.ids
    · push Not at hold
      exact nodup_append_row h.ids fun r hr => h.id_ne_granted hid hr (hold r hr)
  · rw [h.allocations_grant]
    split_ifs with hold
    · have hkeys : (s.allocations.map fun r =>
          if r.resource = want.resource then s.granted want preemptAt now id token else r).map
            Row.resource = s.allocations.map Row.resource := by
        rw [List.map_map]
        apply List.map_congr_left
        intro r hr
        rw [Function.comp_apply]
        split_ifs with hres
        · exact hres.symm
        · rfl
      rw [hkeys]
      exact h.resources
    · push Not at hold
      exact nodup_append_row h.resources fun r hr => hold r hr
  · rw [hnonces]
    rcases h.mem_grant.mp hr with rfl | ⟨hr, -⟩
    · refine ⟨?_, List.mem_cons_of_mem _ List.mem_cons_self⟩
      by_cases hold : ∃ r₀ ∈ s.allocations, r₀.resource = want.resource
      · obtain ⟨r₀, hr₀, hres₀⟩ := hold
        rw [h.granted_id hr₀ hres₀]
        exact List.mem_cons_of_mem _ (List.mem_cons_of_mem _ (h.drawn r₀ hr₀).1)
      · push Not at hold
        rw [granted_id_of_new hold]
        exact List.mem_cons_self
    · obtain ⟨hid, htoken⟩ := h.drawn r hr
      exact ⟨List.mem_cons_of_mem _ (List.mem_cons_of_mem _ hid),
        List.mem_cons_of_mem _ (List.mem_cons_of_mem _ htoken)⟩

theorem Sound.next (h : Sound s) (hs : step sources s e = some s') : Sound s' := by
  rcases h.step_cases hs with heases | ⟨want, guide, policy, now, id, token, p, -, hid, -, -, -, -, rfl⟩
  · exact heases.sound h
  · exact h.grant hid

/-! ## Capacity -/

/-- No source's allocations use more tuners than it has. -/
def Within (sources : List Source) (s : Store) : Prop :=
  ∀ sid cap, capacityTx sources sid = .ok cap → cap.known = true →
    ((s.tuners sid).card : ℤ) ≤ cap.effective

/-- An acquisition that joins the readers without a channel finds a tuner free all the same. -/
def NoCrowding (sources : List Source) (s : Store) : Event → Prop
  | .acquire want _ _ now _ _ => want.valid = true → Free want s → want.channelID = "" →
      s.shared want now = true → ∀ cap, capacityTx sources want.sourceID = .ok cap →
        cap.known = true → ((s.tuners want.sourceID).card : ℤ) < cap.effective
  | _ => True

theorem mem_tuners : t ∈ s.tuners sid ↔
    ∃ r ∈ s.allocations, r.sourceID = sid ∧ r.state ≠ .released ∧ r.tuner = t := by
  unfold Store.tuners Store.unreleased
  simp only [List.mem_toFinset, List.mem_map, List.mem_filter, decide_eq_true_eq, and_assoc]

theorem Eases.tuners_subset (h : Eases s s') (sid : String) : s'.tuners sid ⊆ s.tuners sid := by
  obtain ⟨⟨keep, f, hrows, hf⟩, -⟩ := h
  intro t ht
  obtain ⟨r', hr', hsource, hstate, rfl⟩ := mem_tuners.mp ht
  rw [hrows] at hr'
  obtain ⟨r, hr, rfl⟩ := List.mem_map.mp hr'
  refine mem_tuners.mpr ⟨r, List.mem_of_mem_filter hr, (hf r).sourceID.symm.trans hsource, ?_,
    (hf r).tuner.symm⟩
  rwa [← (hf r).state.resolve_right hstate]

theorem Eases.within (h : Eases s s') (hwithin : Within sources s) : Within sources s' := by
  intro sid cap hcap hknown
  have hcard := Finset.card_le_card (h.tuners_subset sid)
  exact (Nat.cast_le.mpr hcard).trans (hwithin sid cap hcap hknown)

/-- **An acquisition adds its own tuner** to those of its source. -/
theorem Sound.mem_tuners_grant (h : Sound s) (hfree : Free want s) :
    t ∈ (s.grant want preemptAt now id token).2.tuners sid ↔
      sid = want.sourceID ∧ t = (s.granted want preemptAt now id token).tuner ∨ t ∈ s.tuners sid := by
  simp only [mem_tuners, h.mem_grant]
  constructor
  · rintro ⟨r, rfl | ⟨hr, -⟩, hsource, hstate, rfl⟩
    · exact Or.inl ⟨hsource.symm, rfl⟩
    · exact Or.inr ⟨r, hr, hsource, hstate, rfl⟩
  · rintro (⟨rfl, rfl⟩ | ⟨r, hr, hsource, hstate, rfl⟩)
    · exact ⟨_, Or.inl rfl, rfl, by simp [Store.granted], rfl⟩
    · -- the row whose place it takes was released
      exact ⟨r, Or.inr ⟨hr, fun hres => hstate (hfree r hr hres)⟩, hsource, hstate, rfl⟩

theorem Sound.tuners_grant_self (h : Sound s) (hfree : Free want s) :
    (s.grant want preemptAt now id token).2.tuners want.sourceID =
      insert (s.granted want preemptAt now id token).tuner (s.tuners want.sourceID) := by
  ext t
  rw [h.mem_tuners_grant hfree, Finset.mem_insert]
  simp

theorem Sound.tuners_grant_other (h : Sound s) (hfree : Free want s) (hsid : sid ≠ want.sourceID) :
    (s.grant want preemptAt now id token).2.tuners sid = s.tuners sid := by
  ext t
  rw [h.mem_tuners_grant hfree]
  simp [hsid]

theorem tuner_mem_of_shared (hshared : s.shared want now = true) (hchannel : want.channelID ≠ "") :
    (s.granted want preemptAt now id token).tuner ∈ s.tuners want.sourceID := by
  unfold Store.shared at hshared
  obtain ⟨r, hr, hmatch⟩ := List.any_eq_true.mp hshared
  simp only [Bool.and_eq_true, decide_eq_true_eq] at hmatch
  obtain ⟨⟨⟨hsource, hsame⟩, hactive⟩, -⟩ := hmatch
  refine mem_tuners.mpr ⟨r, hr, hsource, by simp [hactive], ?_⟩
  unfold Row.tuner
  rw [hsame]
  change (if want.channelID = "" then _ else _) = if want.channelID = "" then _ else _
  rw [if_neg hchannel, if_neg hchannel]
  rfl

theorem Sound.tuner_notMem (h : Sound s) (hid : id ∉ s.nonces) (hfree : Free want s)
    (hchannel : want.channelID = "") :
    (s.granted want preemptAt now id token).tuner ∉ s.tuners want.sourceID := by
  intro hmem
  obtain ⟨r, hr, -, hstate, htuner⟩ := mem_tuners.mp hmem
  have hres : r.resource ≠ want.resource := fun hres => hstate (hfree r hr hres)
  have halone : (s.granted want preemptAt now id token).tuner =
      .alone (s.granted want preemptAt now id token).id := if_pos hchannel
  rw [halone, Row.tuner] at htuner
  split_ifs at htuner
  exact h.id_ne_granted hid hr hres (Tuner.alone.inj htuner)

/-- A transaction that doesn't crowd keeps the allocations within capacity. -/
theorem Sound.within_step (h : Sound s) (hwithin : Within sources s) (hroom : NoCrowding sources s e)
    (hs : step sources s e = some s') : Within sources s' := by
  rcases h.step_cases hs with heases | ⟨want, guide, policy, now, id, token, p, rfl, hid, -, hvalid,
    hfree, ⟨cap, hcap, hreason⟩, rfl⟩
  · exact heases.within hwithin
  intro sid cap' hcap' hknown
  by_cases hsid : sid = want.sourceID
  · subst hsid
    obtain rfl : cap = cap' := by
      rw [hcap] at hcap'
      exact Except.ok.inj hcap'
    rw [h.tuners_grant_self hfree]
    have hinsert := Finset.card_insert_le (s.granted want p now id token).tuner (s.tuners want.sourceID)
    rcases hreason with hshared | hunknown | hless
    · by_cases hchannel : want.channelID = ""
      · have := hroom hvalid hfree hchannel hshared cap hcap hknown
        omega
      · rw [Finset.insert_eq_of_mem (tuner_mem_of_shared hshared hchannel)]
        exact hwithin _ cap hcap hknown
    · rw [hknown] at hunknown
      cases hunknown
    · omega
  · rw [h.tuners_grant_other hfree hsid]
    exact hwithin sid cap' hcap' hknown

theorem Sound.crowded_step (h : Sound s) (hcrowd : ¬ NoCrowding sources s e)
    (hs : step sources s e = some s') : ¬ Within sources s' := by
  cases e with
  | acquire want guide policy now id token =>
    simp only [NoCrowding] at hcrowd
    push Not at hcrowd
    obtain ⟨hvalid, hfree, hchannel, hshared, cap, hcap, hknown, hfull⟩ := hcrowd
    obtain ⟨p, hgrant⟩ := h.acquireTx_shared guide policy id token hvalid hfree hcap hshared
    simp only [step] at hs
    split_ifs at hs with hfresh
    obtain rfl := Option.some.inj hs
    intro hwithin
    have hcard := hwithin want.sourceID cap hcap hknown
    rw [hgrant, h.tuners_grant_self hfree,
      Finset.card_insert_of_notMem (h.tuner_notMem hfresh.1 hfree hchannel)] at hcard
    omega
  | renew a now => exact absurd trivial hcrowd
  | release a => exact absurd trivial hcrowd
  | reconcile row now => exact absurd trivial hcrowd
  | retain keep => exact absurd trivial hcrowd

/-! ## Holders -/

/-- A renewed row's lease ends by its deadline. -/
def RenewsInTime (s : Store) : Event → Prop
  | .renew a now => ∀ r ∈ (s.renewAllocationTx a now).2.allocations,
      r ∈ s.allocations ∨ (0 < r.preemptAtMS → r.leaseUntilMS ≤ r.preemptAtMS)
  | _ => True

/-- A holder touches no row but its own. -/
def Apart (s : Store) : Event → Prop
  | .renew a now => ∀ r ∈ s.allocations, Store.holds a r = false →
      r ∈ (s.renewAllocationTx a now).2.allocations
  | .release a => ∀ r ∈ s.allocations, Store.holds a r = false →
      r ∈ (s.releaseAllocationTx a).allocations
  | _ => True

theorem mem_updateWhere_of_not {p : Row → Bool} {f : Row → Row} {rows : List Row} (hr : r ∈ rows)
    (hp : p r = false) : r ∈ updateWhere p f rows :=
  mem_updateWhere.mpr ⟨r, hr, by simp [hp]⟩

/-- **Deadlines**: a renewal never extends a lease past its row's deadline. -/
theorem Sound.renewsInTime (h : Sound s) (e : Event) : RenewsInTime s e := by
  cases e with
  | renew a now =>
    intro r hr
    unfold Store.renewAllocationTx at hr
    split at hr
    · exact Or.inl hr
    rename_i row hrow
    split at hr
    · exact Or.inl hr
    obtain ⟨r₀, hr₀, rfl⟩ := mem_updateWhere.mp hr
    by_cases hmatch : (Store.holds a r₀ && r₀.state = .active && now < r₀.leaseUntilMS) = true
    · -- only one row has the id, so it is the one whose deadline was read
      have hfound := List.find?_some hrow
      have hid : r₀.id = row.id := by
        simp only [Store.holds, Bool.and_eq_true, decide_eq_true_eq] at hfound hmatch
        exact hmatch.1.1.1.1.trans hfound.1.1.1.1.symm
      obtain rfl := eq_of_key h.ids hr₀ (List.mem_of_find?_eq_some hrow) hid
      rw [if_pos hmatch]
      refine Or.inr fun hdeadline => ?_
      dsimp only at hdeadline ⊢
      rw [if_pos hdeadline]
      exact min_le_right _ _
    · rw [if_neg hmatch]
      exact Or.inl hr₀
  | acquire => trivial
  | release => trivial
  | reconcile => trivial
  | retain => trivial

theorem apart (s : Store) (e : Event) : Apart s e := by
  cases e with
  | renew a now =>
    intro r hr hother
    unfold Store.renewAllocationTx
    split
    · exact hr
    · split
      · exact hr
      · exact mem_updateWhere_of_not hr (by simp [hother])
  | release a => exact fun r hr hother => mem_updateWhere_of_not hr hother
  | acquire => trivial
  | reconcile => trivial
  | retain => trivial

/-! ## Fencing -/

/-- An acquisition of a resource is granted. -/
def Grants (sources : List Source) (s : Store) (e : Event) (resource : Kind × String)
    (a : Allocation) : Prop :=
  ∃ want guide policy now id token, e = .acquire want guide policy now id token ∧
    want.resource = resource ∧ (s.acquireTx sources guide policy want now id token).1 = .ok a

/-- A drawn token is only on rows of certain resources. -/
def Only (token : ℕ) (P : Kind × String → Prop) (s : Store) : Prop :=
  token ∈ s.nonces ∧ ∀ r ∈ s.allocations, r.token = token → P r.resource

variable {P : Kind × String → Prop} {resource : Kind × String} {b : Allocation}

theorem Sound.only_step (h : Sound s) (honly : Only token P s) (hs : step sources s e = some s') :
    Only token P s' := by
  obtain ⟨hdrawn, honly⟩ := honly
  rcases h.step_cases hs with ⟨⟨keep, f, hrows, hf⟩, hnonces⟩ | ⟨want, _, _, now, id, fresh, p, -, -,
    hfresh, -, -, -, rfl⟩
  · refine ⟨hnonces ▸ hdrawn, fun r hr htoken => ?_⟩
    rw [hrows] at hr
    obtain ⟨r₀, hr₀, rfl⟩ := List.mem_map.mp hr
    rw [(hf r₀).resource]
    exact honly r₀ (List.mem_of_mem_filter hr₀) ((hf r₀).token.symm.trans htoken)
  · refine ⟨List.mem_cons_of_mem _ (List.mem_cons_of_mem _ hdrawn), fun r hr htoken => ?_⟩
    rcases h.mem_grant.mp hr with rfl | ⟨hr, -⟩
    · exact absurd (show fresh = token from htoken) fun heq => hfresh (heq ▸ hdrawn)
    · exact honly r hr htoken

theorem Sound.grants (h : Sound s) (hs : step sources s e = some s')
    (hgrants : Grants sources s e resource a) :
    ∃ want now id p, want.resource = resource ∧ a.token ∉ s.nonces ∧
      s' = (s.grant want p now id a.token).2 := by
  obtain ⟨want, guide, policy, now, id, token, rfl, hres, hok⟩ := hgrants
  simp only [step] at hs
  split_ifs at hs with hfresh
  obtain rfl := Option.some.inj hs
  rcases h.acquireTx_cases sources guide policy want now id token with ⟨-, hrefused⟩ | ⟨-, -, -, p, hgrant⟩
  · exact absurd hok (hrefused a)
  · rw [hgrant] at hok ⊢
    obtain rfl := Except.ok.inj hok
    exact ⟨want, now, id, p, hres, hfresh.2, rfl⟩

theorem Sound.only_grants (h : Sound s) (hs : step sources s e = some s')
    (hgrants : Grants sources s e resource a) : Only a.token (· = resource) s' := by
  obtain ⟨want, now, id, p, rfl, hfresh, rfl⟩ := h.grants hs hgrants
  refine ⟨List.mem_cons_of_mem _ List.mem_cons_self, fun r hr htoken => ?_⟩
  rcases h.mem_grant.mp hr with rfl | ⟨hr, -⟩
  · rfl
  · exact absurd (htoken ▸ (h.drawn r hr).2) hfresh

/-- The next acquisition of the resource leaves the token on no row. -/
theorem Sound.only_replaced (h : Sound s) (honly : Only a.token (· = resource) s)
    (hs : step sources s e = some s') (hgrants : Grants sources s e resource b) :
    Only a.token (fun _ => False) s' := by
  obtain ⟨want, now, id, p, rfl, hfresh, rfl⟩ := h.grants hs hgrants
  refine ⟨List.mem_cons_of_mem _ (List.mem_cons_of_mem _ honly.1), fun r hr htoken => ?_⟩
  rcases h.mem_grant.mp hr with rfl | ⟨hr, hres⟩
  · exact hfresh ((show b.token = a.token from htoken) ▸ honly.1)
  · exact hres (honly.2 r hr htoken)

theorem Only.powerless (h : Only a.token (fun _ => False) s) :
    (∀ now, s.renewAllocationTx a now = (.error .lease, s)) ∧ s.releaseAllocationTx a = s := by
  have hholds : ∀ r ∈ s.allocations, Store.holds a r = false := by
    intro r hr
    simp only [Store.holds, Bool.and_eq_false_iff, decide_eq_false_iff_not]
    exact Or.inl (Or.inr (h.2 r hr))
  constructor
  · intro now
    unfold Store.renewAllocationTx
    rw [List.find?_eq_none.mpr fun r hr => by simp [hholds r hr]]
  · unfold Store.releaseAllocationTx
    rw [updateWhere_of_not hholds, if_neg]
    rw [List.any_eq_true]
    rintro ⟨r, hr, hmatch⟩
    rw [hholds r hr] at hmatch
    cases hmatch

/-! ## Runs -/

theorem capacityTx_pos (hcap : capacityTx sources sid = .ok cap) (hknown : cap.known = true) :
    0 < cap.effective := by
  unfold capacityTx at hcap
  split at hcap
  · cases hcap
  · split at hcap <;> obtain rfl := Except.ok.inj hcap
    · have hpos := of_decide_eq_true hknown
      rwa [if_pos hpos]
    · exact of_decide_eq_true hknown

theorem sound_empty : Sound Store.empty := ⟨List.nodup_nil, List.nodup_nil, nofun⟩

/-- **A run keeps its promises**: every source's allocations stay within its tuners, a renewal ends by
its row's deadline, a holder touches its own row only, and one whose resource was acquired again since
can neither renew nor release. -/
structure Kept (sources : List Source) (es : List Event) (s : Store) : Prop where
  capacity : Along (step sources) (Within sources) Store.empty es
  renewal : Each (step sources) RenewsInTime Store.empty es
  apart : Each (step sources) Apart Store.empty es
  fenced : ∀ before first mid second after, es = before ++ first :: (mid ++ second :: after) →
    ∀ t u resource a b, run (step sources) Store.empty before = some t →
      run (step sources) Store.empty (before ++ first :: mid) = some u →
      Grants sources t first resource a → Grants sources u second resource b →
      (∀ now, s.renewAllocationTx a now = (.error .lease, s)) ∧ s.releaseAllocationTx a = s

theorem sound_run (h : Sound s) (hrun : run (step sources) s es = some s') : Sound s' :=
  run_invariant (fun _ _ _ h hs => h.next hs) h hrun

theorem only_run (h : Sound s) (honly : Only token P s) (hrun : run (step sources) s es = some s') :
    Only token P s' := by
  have hboth : Sound s' ∧ Only token P s' :=
    run_invariant (P := fun s => Sound s ∧ Only token P s)
      (fun _ _ _ h hs => ⟨h.1.next hs, h.1.only_step h.2 hs⟩) ⟨h, honly⟩ hrun
  exact hboth.2

theorem fenced_run {before mid after : List Event} {first second : Event} {t u : Store}
    (hrun : run (step sources) Store.empty (before ++ first :: (mid ++ second :: after)) = some s)
    (ht : run (step sources) Store.empty before = some t)
    (hu : run (step sources) Store.empty (before ++ first :: mid) = some u)
    (hfirst : Grants sources t first resource a) (hsecond : Grants sources u second resource b) :
    Only a.token (fun _ => False) s := by
  have hsound := sound_run sound_empty ht
  obtain ⟨t', ht', hrest⟩ := run_append.mp hu
  obtain rfl := Option.some.inj (ht.symm.trans ht')
  obtain ⟨v, hv, hmid⟩ := run_cons.mp hrest
  have honly : Only a.token (· = resource) u :=
    only_run (hsound.next hv) (hsound.only_grants hv hfirst) hmid
  rw [← List.cons_append, ← List.append_assoc] at hrun
  obtain ⟨u', hu', hlast⟩ := run_append.mp hrun
  obtain rfl := Option.some.inj (hu.symm.trans hu')
  obtain ⟨w, hw, hafter⟩ := run_cons.mp hlast
  have husound := sound_run sound_empty hu
  exact only_run (husound.next hw) (husound.only_replaced honly hw hsecond) hafter

/-- **Tuners**: a run keeps its promises exactly when none of its acquisitions joins readers without a
channel while every tuner is taken. -/
theorem tuners_kept (hrun : run (step sources) Store.empty es = some s) :
    Kept sources es s ↔ Each (step sources) (NoCrowding sources) Store.empty es := by
  have hempty : Within sources Store.empty := by
    intro sid cap hcap hknown
    exact (capacityTx_pos hcap hknown).le
  have hcapacity : Along (step sources) (Within sources) Store.empty es ↔
      Each (step sources) (NoCrowding sources) Store.empty es :=
    along_iff_each (I := fun s => Sound s ∧ Within sources s) (fun _ h => h.2)
      (fun _ _ _ h hQ hs => ⟨h.1.next hs, h.1.within_step h.2 hQ hs⟩)
      (fun _ _ _ h hQ hs => h.1.crowded_step hQ hs) ⟨sound_empty, hempty⟩ hrun
  have hlaw : ∀ {L : Store → Event → Prop}, (∀ s e, Sound s → L s e) →
      Each (step sources) L Store.empty es :=
    fun hL => each_of_kept (fun _ _ _ h hs => h.next hs) hL sound_empty
  refine ⟨fun h => hcapacity.mp h.capacity, fun h => ⟨hcapacity.mpr h, ?_, ?_, ?_⟩⟩
  · exact hlaw fun _ e h => h.renewsInTime e
  · exact hlaw fun s e _ => apart s e
  · rintro before first mid second after rfl t u resource a b ht hu hfirst hsecond
    exact (fenced_run hrun ht hu hfirst hsecond).powerless

/-- A source with one tuner. -/
def lone : List Source := [⟨"lone", true, 1, none⟩]

/-- Someone asks for a channel of it. -/
def ask (channel resource : String) (id : ℕ) : Event :=
  .acquire ⟨"lone", channel, resource, .live, ⟨"local", "account", "profile"⟩⟩ [] .keepWatching 0 id
    (id + 1)

/-- Two viewers of one channel share the tuner. -/
theorem tuners_kept_shared : ∃ s, run (step lone) Store.empty [ask "one" "a" 0, ask "one" "b" 2] =
    some s ∧ s.allocations.length = 2 ∧ Kept lone [ask "one" "a" 0, ask "one" "b" 2] s := by
  have hrun : ((run (step lone) Store.empty [ask "one" "a" 0, ask "one" "b" 2]).map fun s =>
      s.allocations.length) = some 2 := by
    decide +kernel
  obtain ⟨s, hs, hlength⟩ := Option.map_eq_some_iff.mp hrun
  refine ⟨s, hs, hlength, (tuners_kept hs).mpr ?_⟩
  exact ⟨fun _ _ h => absurd h (by decide), fun t _ => ⟨fun _ _ h => absurd h (by decide), fun _ _ =>
    trivial⟩⟩

/-- **Two viewers without a channel** are both given the one tuner. -/
theorem tuners_crowded : ¬ ∀ sources es s, run (step sources) Store.empty es = some s →
    Kept sources es s := by
  intro hclaim
  have hrun : ((run (step lone) Store.empty [ask "" "a" 0, ask "" "b" 2]).map fun s =>
      (s.tuners "lone").card) = some 2 := by
    decide +kernel
  obtain ⟨s, hs, hcard⟩ := Option.map_eq_some_iff.mp hrun
  have hwithin := (hclaim lone _ s hs).capacity.last hs
  have hone := hwithin "lone" ⟨true, 1⟩ (by decide +kernel) rfl
  rw [hcard] at hone
  exact absurd hone (by decide)

end Portico.LiveChannels
