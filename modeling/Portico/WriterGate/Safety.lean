import Portico.WriterGate.Callers

/-!
# Writer-gate safety

Arrivals, releases, the checkpoint owner's sections and the ledgers' changes keep the gate's
invariant too, so every reachable state has it: one holder at most, a grant only for a waiting
ticket, and counters that count.

## Main results

* `Inv.acquire`, `Inv.release`, `Inv.endRecovery` and the like: each section keeps the invariant
* `Reachable.inv`: every reachable state has it
* `gate_safe`: the safety of the gate in terms of its callers and queues
-/

open scoped List

namespace Portico.WriterGate

open Machine Gate

namespace System

variable {s s' : System} {g g' : Gate} {t u : Ticket} {w : Caller} {clock : Clock} {e : Event}

/-! ## An arrival -/

/-- What an arrival finds after room was made for it: at most one ticket was refused. -/
structure Roomed (s : System) (t : Ticket) (g : Gate) : Prop where
  sound : g.Sound
  active : g.active = s.gate.active
  nextID : g.nextID = s.gate.nextID + 1
  holderProbe : g.holderProbe = s.gate.holderProbe
  recoveryEpoch : g.recoveryEpoch = s.gate.recoveryEpoch
  holdEpoch : g.holdEpoch = s.gate.holdEpoch
  notify : s.gate.notify ≤ g.notify
  grant : g.grant = s.gate.grant
  waits : ∀ u, g.Waits u → s.gate.Waits u
  left : ∀ u, s.gate.Waits u → g.Waits u ∨ g.isRefused u = true
  refused : ∀ u, s.gate.isRefused u = true → g.isRefused u = true
  unmarked : g.isRefused t = false ∧ g.isDeferred t = false
  writeGeneration : g.writeGeneration = s.gate.writeGeneration
  holdSecurity : g.holdSecurity = s.gate.holdSecurity
  queued : ∀ c u, u ∈ (s.gate.queues c).items → g.Waits u → u ∈ (g.queues c).items
  keeps : ∀ c, ∀ u ∈ (s.gate.queues c).items, g.Waits u →
    (g.queues c).ahead u.owner ⊆ (s.gate.queues c).ahead u.owner
  room : t.user = true → g.userQueued < writerQueueCapacity

theorem Inv.numbered (h : s.Inv) : Sound { s.gate with nextID := s.gate.nextID + 1 } :=
  h.sound.congr rfl rfl rfl rfl (Nat.le_succ _) rfl rfl rfl rfl rfl rfl

theorem Inv.unmarked (h : s.Inv) (ht : t.id = s.gate.nextID + 1) :
    s.gate.isRefused t = false ∧ s.gate.isDeferred t = false := by
  have hmarks := h.sound.marks t
  constructor
  · rw [← Bool.not_eq_true]
    intro hr
    have := hmarks (Or.inr hr)
    omega
  · rw [← Bool.not_eq_true]
    intro hd
    have := hmarks (Or.inl hd)
    omega

theorem Inv.not_waits (h : s.Inv) (ht : t.id = s.gate.nextID + 1) : ¬ s.gate.Waits t := by
  intro hw
  have := h.sound.id_le hw
  omega

theorem Inv.roomed (h : s.Inv) (ht : t.id = s.gate.nextID + 1)
    (hg : (if t.user ∧ (writerQueueCapacity : ℤ) ≤ s.gate.userQueued then
        makeRoomLocked t { s.gate with nextID := s.gate.nextID + 1 }
      else some { s.gate with nextID := s.gate.nextID + 1 }) = some g) :
    Roomed s t g := by
  obtain ⟨hrefused, hdeferred⟩ := h.unmarked ht
  split_ifs at hg with hfull
  · obtain ⟨v, hv, hmem, hgrant, rfl⟩ := h.numbered.makeRoomLocked hg
    have hremove := h.numbered.removeWaiterLocked v false
    set g₀ : Gate := { s.gate with nextID := s.gate.nextID + 1 }
    have hcontrol : (g₀.removeWaiterLocked v false).control = g₀.control :=
      removeWaiterLocked_control
    have hwaits : ∀ u, (g₀.removeWaiterLocked v false).Waits u ↔ s.gate.Waits u ∧ u ≠ v :=
      fun u => h.numbered.waits_removeWaiterLocked
    have hwait : s.gate.Waits v := Or.inl hmem
    have hid : v.id ≤ (g₀.removeWaiterLocked v false).nextID := by
      rw [control_nextID hcontrol]
      exact (h.sound.id_le hwait).trans (Nat.le_succ _)
    have hout : ¬ (g₀.removeWaiterLocked v false).Waits v := fun hw => ((hwaits v).mp hw).2 rfl
    have hrefuse : ∀ u, ((g₀.removeWaiterLocked v false).refuseLocked v).isRefused u = true ↔
        u = v ∨ s.gate.isRefused u = true := fun u => by
      rw [isRefused_refuseLocked, removeWaiterLocked_isRefused]
    refine ⟨(hremove.refuseLocked hid hout).congr rfl rfl rfl rfl le_rfl rfl rfl rfl rfl rfl rfl,
      (control_active hcontrol :), (control_nextID hcontrol :),
      (congrArg Gate.holderProbe hcontrol :), (control_recoveryEpoch hcontrol :),
      (control_holdEpoch hcontrol :), ?_, removeWaiterLocked_grant,
      fun u hu => ((hwaits u).mp hu).1, fun u hu => ?_, fun u hu => (hrefuse u).mpr (Or.inr hu),
      ⟨?_, ?_⟩, (control_writeGeneration hcontrol :), (control_holdSecurity hcontrol :),
      fun c u hu hw => (h.numbered.keeps_removeWaiterLocked hu hw).1,
      fun c u hu hw => (h.numbered.keeps_removeWaiterLocked hu hw).2, fun _ => ?_⟩
    · exact (control_notify hcontrol).ge.trans (Nat.le_succ _)
    · by_cases huv : u = v
      · exact Or.inr ((hrefuse u).mpr (Or.inl huv))
      · exact Or.inl ((hwaits u).mpr ⟨hu, huv⟩)
    · rw [← Bool.not_eq_true]
      intro hr
      rcases (hrefuse t).mp hr with rfl | hr
      · exact h.not_waits ht hwait
      · rw [hrefused] at hr
        cases hr
    · exact (congrFun removeWaiterLocked_isDeferred t).trans hdeferred
    · have hcount := h.numbered.userQueued_removeWaiterLocked false hmem
      rw [if_pos hv] at hcount
      have hroom := h.sound.room
      have : (g₀.removeWaiterLocked v false).userQueued < writerQueueCapacity := by
        rw [hcount]
        show s.gate.userQueued - 1 < _
        omega
      exact this
  · obtain rfl := Option.some.inj hg
    refine ⟨h.numbered, rfl, rfl, rfl, rfl, rfl, le_rfl, rfl, fun _ => id, fun _ => Or.inl,
      fun _ => id, ⟨hrefused, hdeferred⟩, rfl, rfl, fun _ _ hu _ => hu,
      fun _ _ _ _ => List.Subset.refl _, fun hu => ?_⟩
    by_contra hroom
    exact hfull ⟨hu, not_lt.mp hroom⟩

/-- What an arrival leaves before the gate chooses anew. -/
structure Entered (s : System) (t : Ticket) (g : Gate) : Prop where
  sound : g.Sound
  active : g.active = s.gate.active
  nextID : g.nextID = s.gate.nextID + 1
  holderProbe : g.holderProbe = s.gate.holderProbe
  recoveryEpoch : g.recoveryEpoch = s.gate.recoveryEpoch
  holdEpoch : g.holdEpoch = s.gate.holdEpoch
  notify : s.gate.notify ≤ g.notify
  grant : ∀ u, g.grant = some u → s.gate.grant = some u
  waits : ∀ u, g.Waits u → s.gate.Waits u ∨ u = t
  left : ∀ u, s.gate.Waits u ∨ u = t → g.Waits u ∨ g.isRefused u = true
  refused : ∀ u, s.gate.isRefused u = true → g.isRefused u = true
  writeGeneration : g.writeGeneration = s.gate.writeGeneration
  holdSecurity : g.holdSecurity = s.gate.holdSecurity

theorem Admits.entered {g₁ : Gate} (h : Entered s t g) (ha : Admits g g₁) : Entered s t g₁ where
  sound := ha.sound
  active := (control_active ha.control).trans h.active
  nextID := (control_nextID ha.control).trans h.nextID
  holderProbe := (congrArg Gate.holderProbe ha.control :).trans h.holderProbe
  recoveryEpoch := (control_recoveryEpoch ha.control).trans h.recoveryEpoch
  holdEpoch := (control_holdEpoch ha.control).trans h.holdEpoch
  notify := h.notify.trans (control_notify ha.control).ge
  grant u hu := h.grant u (ha.grant ▸ hu)
  waits u hu := h.waits u ((ha.waits u).mp hu)
  left u hu := by
    rw [ha.waits, ha.isRefused]
    exact h.left u hu
  refused u hu := by
    rw [ha.isRefused]
    exact h.refused u hu
  writeGeneration := (control_writeGeneration ha.control).trans h.writeGeneration
  holdSecurity := (control_holdSecurity ha.control).trans h.holdSecurity

theorem Inv.entered_background (h : s.Inv) (ht : t.id = s.gate.nextID + 1)
    (hr : t.recovery = false) (hb : t.workClass.background = true) (hg : Roomed s t g) :
    Entered s t (enqueueLocked t { g with isDeferred := Function.update g.isDeferred t true }) := by
  have hout : ¬ g.Waits t := fun hw => h.not_waits ht (hg.waits t hw)
  have hid : t.id ≤ g.nextID := by rw [ht, hg.nextID]
  have hmarked := hg.sound.mark (b := true) hid (fun hx => hout (Or.inl hx))
    fun hx => hout (Or.inr (Or.inl hx))
  have hmark : ({ g with isDeferred := Function.update g.isDeferred t true } : Gate).isDeferred t =
      true := Function.update_self ..
  have hbefore : ∀ x ∈ (g.queues t.workClass).line t.owner ++ (g.deferred t.workClass).line t.owner,
      x.id < t.id := by
    intro x hx
    have hwait : s.gate.Waits x := by
      refine hg.waits x ?_
      rcases List.mem_append.mp hx with hx | hx
      · exact Or.inl (hg.sound.queued_iff.mp hx).2.2
      · exact Or.inr (Or.inl (hg.sound.deferred_iff.mp hx).2.2)
    have := h.sound.id_le hwait
    omega
  have hsound := hmarked.enqueueDeferred ⟨hg.unmarked.1, hr, hid⟩ hmark hb hbefore
  have hmem : ∀ u, (enqueueLocked t
      { g with isDeferred := Function.update g.isDeferred t true }).Waits u ↔
      g.Waits u ∨ u = t := fun u => hmarked.waits_enqueueDeferred hmark hb
  rw [enqueueDeferred_eq hmark hb] at hsound hmem ⊢
  exact
    { sound := hsound
      active := hg.active
      nextID := hg.nextID
      holderProbe := hg.holderProbe
      recoveryEpoch := hg.recoveryEpoch
      holdEpoch := hg.holdEpoch
      notify := hg.notify
      grant := fun u hu => hg.grant ▸ hu
      waits := fun u hu => ((hmem u).mp hu).imp_left (hg.waits u)
      left := fun u hu => by
        rcases hu with hu | hu
        · exact (hg.left u hu).imp_left fun h => (hmem u).mpr (Or.inl h)
        · exact Or.inl ((hmem u).mpr (Or.inr hu))
      refused := hg.refused
      writeGeneration := hg.writeGeneration
      holdSecurity := hg.holdSecurity }

theorem Inv.entered_user (h : s.Inv) (ht : t.id = s.gate.nextID + 1)
    (hr : t.recovery = false) (hu : t.user = true) (hg : Roomed s t g) :
    Entered s t (g.makeBackgroundRoomLocked.enqueueLocked t) := by
  obtain ⟨hw, hpool⟩ := hg.sound.makeBackgroundRoomLocked
  have hout : ¬ g.Waits t := fun hw => h.not_waits ht (hg.waits t hw)
  have hid : t.id ≤ g.nextID := by rw [ht, hg.nextID]
  have hmark : g.makeBackgroundRoomLocked.isDeferred t = false := by
    rw [← Bool.not_eq_true]
    intro hm
    rcases hw.marks t hm with hm | hm
    · rw [hg.unmarked.2] at hm
      cases hm
    · exact hout hm
  have hback : t.workClass.background = false := user_iff.mp hu
  have hdeferred : ∀ x, x ∉ (g.makeBackgroundRoomLocked.deferred t.workClass).line t.owner := by
    intro x hx
    have := (hw.sound.waiting _ x ((hw.sound.deferred _).mem_items_of_line hx)).2.1
    rw [hback] at this
    cases this
  have hroom := hg.room hu
  have hcontrol : (g.makeBackgroundRoomLocked.enqueueLocked t).control = g.control := by
    rw [enqueueLocked_eq hmark, countUser_control]
    exact hw.control
  have hrefused : (g.makeBackgroundRoomLocked.enqueueLocked t).isRefused = g.isRefused := by
    rw [enqueueLocked_eq hmark, countUser_isRefused]
    exact hw.isRefused
  have hsound : Sound (g.makeBackgroundRoomLocked.enqueueLocked t) := by
    refine hw.sound.enqueueLocked ⟨?_, hr, ?_⟩ hmark ?_ (fun x hx => absurd hx (hdeferred x)) ?_
      (hpool hroom) (fun hb => by rw [hback] at hb; cases hb)
    · rw [hw.isRefused]
      exact hg.unmarked.1
    · rwa [control_nextID hw.control]
    · intro x hx
      have hwait : s.gate.Waits x :=
        hg.waits x ((hw.waits x).mp (Or.inl (hw.sound.queued_iff.mp hx).2.2))
      have := h.sound.id_le hwait
      omega
    · intro _
      rwa [hw.userQueued]
  have hmem : ∀ u, (g.makeBackgroundRoomLocked.enqueueLocked t).Waits u ↔ g.Waits u ∨ u = t := by
    intro u
    rw [hw.sound.waits_enqueueLocked hmark, hw.waits]
  exact
    { sound := hsound
      active := (control_active hcontrol).trans hg.active
      nextID := (control_nextID hcontrol).trans hg.nextID
      holderProbe := (congrArg Gate.holderProbe hcontrol :).trans hg.holderProbe
      recoveryEpoch := (control_recoveryEpoch hcontrol).trans hg.recoveryEpoch
      holdEpoch := (control_holdEpoch hcontrol).trans hg.holdEpoch
      notify := hg.notify.trans (control_notify hcontrol).ge
      grant := fun u hu => by
        rw [enqueueLocked_eq hmark, countUser_grant] at hu
        exact hg.grant ▸ (hw.grant u hu).1
      waits := fun u hu => ((hmem u).mp hu).imp_left (hg.waits u)
      left := fun u hu => by
        rw [hrefused]
        rcases hu with hu | hu
        · exact (hg.left u hu).imp_left fun h => (hmem u).mpr (Or.inl h)
        · exact Or.inl ((hmem u).mpr (Or.inr hu))
      refused := fun u hu => by
        rw [hrefused]
        exact hg.refused u hu
      writeGeneration := (control_writeGeneration hcontrol).trans hg.writeGeneration
      holdSecurity := (control_holdSecurity hcontrol).trans hg.holdSecurity }

/-- **An arrival** that joined its queue, once the gate has chosen anew. -/
theorem Inv.enter (h : s.Inv) (ht : t.id = s.gate.nextID + 1) {probe : Bool}
    (hg : Entered s t g) (hsound : g'.Sound) (hgranted : g'.Granted)
    (hcontrol : { g'.control with notify := 0 } = { g.control with notify := 0 })
    (hrefused : g'.isRefused = g.isRefused) (hwaits : ∀ u, g'.Waits u ↔ g.Waits u)
    (hnotify : g.notify ≤ g'.notify)
    (hawake : ∀ u, g'.grant = some u → s.gate.notify < g'.notify)
    (hdecided : g'.active = false → g'.holdEpoch = 0 → g'.pauseEpoch = 0 →
      ∀ t, g'.Selectable s.ready t → g'.grant ≠ none) :
    Inv { s with
      gate := g'
      waiters := s.waiters ++ [⟨t, probe⟩]
      asleep := Function.update s.asleep t none } := by
  have hactive : g'.active = g.active := (congrArg Gate.active hcontrol :)
  have hid : g'.nextID = g.nextID := (congrArg Gate.nextID hcontrol :)
  exact
    { sound := hsound
      granted := hgranted
      active := by
        show g'.active = true ↔ _
        rw [hactive, hg.active]
        exact h.active
      single := h.single
      probes := fun v hv =>
        ((congrArg Gate.holderProbe hcontrol :).trans hg.holderProbe).trans (h.probes v hv)
      epochs := by
        have h₁ : g'.recoveryEpoch = g.recoveryEpoch := (congrArg Gate.recoveryEpoch hcontrol :)
        have h₂ : g'.holdEpoch = g.holdEpoch := (congrArg Gate.holdEpoch hcontrol :)
        show g'.recoveryEpoch = g'.holdEpoch
        rw [h₁, h₂, hg.recoveryEpoch, hg.holdEpoch, h.epochs]
      called := fun u hu => by
        rcases hg.waits u ((hwaits u).mp hu) with hu | rfl
        · obtain ⟨v, hv, rfl⟩ := h.called u hu
          exact ⟨v, List.mem_append_left _ hv, rfl⟩
        · exact ⟨⟨u, probe⟩, by simp, rfl⟩
      kept := fun v hv => by
        show g'.Waits v.ticket ∨ g'.isRefused v.ticket = true
        rw [hwaits, hrefused]
        rcases List.mem_append.mp hv with hv | hv
        · rcases h.kept v hv with hv | hv
          · exact hg.left _ (Or.inl hv)
          · exact Or.inr (hg.refused _ hv)
        · rw [List.mem_singleton.mp hv]
          exact hg.left _ (Or.inr rfl)
      distinct := by
        rw [List.map_append]
        refine h.distinct.append (List.nodup_singleton _) (List.disjoint_singleton.mpr ?_)
        rintro hmem
        obtain ⟨v, hv, hvt⟩ := List.mem_map.mp hmem
        have := h.fresh v hv
        rw [hvt] at this
        dsimp only at this
        omega
      fresh := fun v hv => by
        show v.ticket.id ≤ g'.nextID
        rw [hid, hg.nextID]
        rcases List.mem_append.mp hv with hv | hv
        · exact (h.fresh v hv).trans (Nat.le_succ _)
        · rw [List.mem_singleton.mp hv, ht]
      channels := fun u n hn => by
        dsimp only at hn ⊢
        by_cases hut : u = t
        · subst hut
          rw [Function.update_self] at hn
          cases hn
        · rw [Function.update_of_ne hut] at hn
          exact (h.channels u n hn).trans (hg.notify.trans hnotify)
      signalled := fun u hu hn => by
        dsimp only at hn
        by_cases hut : u = t
        · subst hut
          rw [Function.update_self] at hn
          cases hn
        · rw [Function.update_of_ne hut] at hn
          have hle := h.channels u _ hn
          have hlt := hawake u hu
          omega
      decided := fun _ => hdecided }

theorem Inv.refuse (h : s.Inv) (ht : t.id = s.gate.nextID + 1) :
    Inv { s with gate := refuseLocked t { s.gate with nextID := s.gate.nextID + 1 } } :=
  { h with
    sound := h.numbered.refuseLocked ht.le (h.not_waits ht)
    kept := fun v hv => (h.kept v hv).imp_right fun hr => isRefused_refuseLocked.mpr (Or.inr hr)
    fresh := fun v hv => (h.fresh v hv).trans (Nat.le_succ _) }

theorem Inv.entered (h : s.Inv) (clock : Clock) (ht : t.id = s.gate.nextID + 1) (hr : t.recovery = false)
    (hg : Roomed s t g) : Entered s t (joined t clock g) := by
  unfold joined
  split_ifs with hb
  · have he := h.entered_background ht hr hb hg
    exact Admits.entered he (he.sound.admitBackgroundLocked clock.admission)
  · have he := h.entered_user ht hr (user_iff.mpr (by simpa using hb)) hg
    exact Admits.entered he (he.sound.admitBackgroundLocked clock.admission)

/-- **An arrival** keeps the invariant, whether it joins or is refused. -/
theorem Inv.acquire (h : s.Inv) {c : ℤ} {ctx : Context} {start : ℤ} :
    (s.acquire c ctx start clock).Inv := by
  unfold System.acquire
  extract_lets workClass src g t room
  have ht : t.id = s.gate.nextID + 1 := rfl
  have hr : t.recovery = false := rfl
  match hroom : room with
  | none => exact h.refuse ht
  | some g₁ =>
    have hentered := h.entered clock ht hr (h.roomed ht hroom)
    show Inv { s with
      gate := if (joined t clock g₁).active then joined t clock g₁
        else ((joined t clock g₁).regrant s.ready clock).signalLocked
      waiters := s.waiters ++ [⟨t, ctx.probe⟩]
      asleep := Function.update s.asleep t none }
    cases ha : (joined t clock g₁).active with
    | true =>
      rw [if_pos rfl]
      have hnone : ∀ u, (joined t clock g₁).grant ≠ some u := by
        intro u hu
        have := hentered.grant u hu
        rw [h.grant_eq_none (hentered.active ▸ ha)] at this
        cases this
      exact h.enter ht hentered hentered.sound (fun u hu => absurd hu (hnone u)) rfl rfl
        (fun _ => Iff.rfl) le_rfl (fun u hu => absurd hu (hnone u))
        fun hf => by rw [ha] at hf; cases hf
    | false =>
      rw [if_neg (by simp)]
      have hsettled := settled_regrant s.ready clock hentered.sound fun hf => by
        rw [ha] at hf
        cases hf
      have hre := (hentered.sound.regrant s.ready clock).1
      refine h.enter ht hentered hsettled.sound hsettled.granted ?_ hsettled.isRefused
        hsettled.waits ?_ (fun u _ => ?_) hsettled.decided
      · exact congrArg (fun g : Gate => { g with notify := 0 }) hre.control
      · rw [hsettled.notify]
        exact Nat.le_succ _
      · rw [hsettled.notify]
        exact Nat.lt_succ_of_le hentered.notify

/-! ## A turn ends -/

/-- **A release** keeps the invariant. -/
theorem Inv.release (h : s.Inv) (hw : w ∈ s.holders) : (s.release w clock).Inv := by
  have hholders : s.holders = [w] := by
    obtain ⟨v, hv⟩ := List.length_eq_one_iff.mp
      (Nat.le_antisymm h.single (List.length_pos_of_mem hw))
    rw [hv] at hw ⊢
    rw [List.mem_singleton.mp hw]
  set g : Gate :=
    { s.gate with
      active := false
      holderProbe := false
      holderClass := none
      heldSince := 0
      holderOwner := "" }
  have hsound : g.Sound :=
    h.sound.congr rfl rfl rfl rfl le_rfl rfl rfl rfl rfl rfl rfl
  have hsettled := settled_regrant s.ready clock hsound fun hf => by cases hf
  exact
    { sound := hsettled.sound
      granted := hsettled.granted
      active := by
        have ha : (s.release w clock).gate.active = false := hsettled.active
        have hnil : (s.release w clock).holders = [] := by simp [System.release, hholders]
        rw [ha, hnil]
        simp
      single := by simp [System.release, hholders]
      probes := by simp [System.release, hholders]
      epochs := (hsettled.recoveryEpoch.trans h.epochs).trans hsettled.holdEpoch.symm
      called := fun u hu => h.called u ((hsettled.waits u).mp hu)
      kept := fun v hv => (h.kept v hv).imp ((hsettled.waits _).mpr ·)
        fun hr => (congrFun hsettled.isRefused v.ticket).trans hr
      distinct := h.distinct
      fresh := fun v hv => (h.fresh v hv).trans hsettled.nextID.ge
      channels := fun u n hn => (h.channels u n hn).trans (by
        rw [show (s.release w clock).gate.notify = s.gate.notify + 1 from hsettled.notify]
        exact Nat.le_succ _)
      signalled := fun u _ hn => by
        have := h.channels u _ hn
        rw [show (s.release w clock).gate.notify = s.gate.notify + 1 from hsettled.notify] at this
        omega
      decided := fun _ => hsettled.decided }

/-! ## The checkpoint owner -/

/-- A section that keeps the tickets and their callers, and then chooses anew. -/
theorem Inv.chooseAnew (h : s.Inv) {probed : Bool} (hactive : g.active = s.gate.active)
    (hid : g.nextID = s.gate.nextID ∨ g.nextID = s.gate.nextID + 1)
    (hprobe : g.holderProbe = s.gate.holderProbe) (hepochs : g.recoveryEpoch = g.holdEpoch)
    (hnotify : g.notify = s.gate.notify) (hwaits : ∀ u, g.Waits u → s.gate.Waits u)
    (hleft : ∀ u, s.gate.Waits u → g.Waits u ∨ g.isRefused u = true)
    (hrefused : ∀ u, s.gate.isRefused u = true → g.isRefused u = true)
    (hsettled : Settled s.ready g g') : Inv { s with gate := g', probed := probed } where
  sound := hsettled.sound
  granted := hsettled.granted
  active := by
    show g'.active = true ↔ _
    rw [hsettled.active, hactive]
    exact h.active
  single := h.single
  probes v hv := (hsettled.holderProbe.trans hprobe).trans (h.probes v hv)
  epochs := (hsettled.recoveryEpoch.trans hepochs).trans hsettled.holdEpoch.symm
  called u hu := h.called u (hwaits u ((hsettled.waits u).mp hu))
  kept v hv := by
    show g'.Waits v.ticket ∨ g'.isRefused v.ticket = true
    rw [hsettled.waits, hsettled.isRefused]
    rcases h.kept v hv with hv | hv
    · exact hleft _ hv
    · exact Or.inr (hrefused _ hv)
  distinct := h.distinct
  fresh v hv := by
    have := h.fresh v hv
    show v.ticket.id ≤ g'.nextID
    rw [hsettled.nextID]
    omega
  channels u n hn := by
    have := h.channels u n hn
    show n ≤ g'.notify
    rw [hsettled.notify]
    omega
  signalled u _ hn := by
    have := h.channels u _ hn
    dsimp only at this
    rw [hsettled.notify] at this
    omega
  decided _ := hsettled.decided

/-- **A hold starts.** -/
theorem Inv.enterPressureHold (h : s.Inv) : (s.enterPressureHold clock).Inv := by
  unfold System.enterPressureHold
  split_ifs with hr
  · exact h
  rw [not_not] at hr
  have hhold : s.gate.holdEpoch = 0 := h.epochs.symm.trans hr
  have hpause : s.gate.pauseEpoch = 0 := by
    by_contra hp
    exact h.sound.paused hp hhold
  extract_lets n src g g₁
  have hsound : g.Sound :=
    { h.numbered with
      paused := fun hp => absurd hpause hp
      fences := Nat.zero_le _ }
  have hgranted : g.Granted := by
    intro t ht
    obtain ⟨ht, hc⟩ := Option.filter_eq_some_iff.mp ht
    rw [decide_eq_true_eq] at hc
    obtain ⟨hidle, heligible⟩ := h.granted t ht
    refine ⟨hidle, Or.inr ?_⟩
    rcases heligible with ⟨-, hrec⟩ | ⟨hrec, hfront, hp, -, hb⟩
    · rw [(h.sound.reserved t hrec).2.2.2.2] at hc
      cases hc
    · exact ⟨hrec, hfront, hp, fun _ => ⟨hc, Nat.succ_pos _⟩, hb⟩
  by_cases hc : g.active = false ∧ g.grant = none
  · have hg₁ : g₁ = (g.regrant s.ready clock).signalLocked := if_pos hc
    rw [hg₁]
    refine h.chooseAnew (g := g) rfl (Or.inr rfl) rfl rfl rfl (fun _ => id)
      (fun _ => Or.inl) (fun _ => id) (settled_regrant s.ready clock hsound fun _ => hc.2)
  · have hg₁ : g₁ = g := if_neg hc
    rw [hg₁]
    exact
      { h with
        sound := hsound
        granted := hgranted
        epochs := rfl
        fresh := fun v hv => (h.fresh v hv).trans (Nat.le_succ _)
        signalled := fun t ht => h.signalled t (Option.filter_eq_some_iff.mp ht).1
        decided := fun _ _ hf => by cases hf }

/-- **A pause starts.** -/
theorem Inv.enterBeginPause (h : s.Inv) {epoch : ℕ} : (s.enterBeginPause epoch).Inv := by
  unfold System.enterBeginPause
  split_ifs with he
  · exact h
  push Not at he
  obtain ⟨hne, heq⟩ := he
  have hhold : s.gate.holdEpoch ≠ 0 := by rw [← h.epochs, heq]; exact hne
  exact
    { h with
      sound :=
        { h.sound with
          reserved := fun t ht => by
            obtain ⟨h₁, h₂, h₃, -, h₅⟩ := h.sound.reserved t ht
            exact ⟨h₁, h₂, h₃, hne, h₅⟩
          paused := fun _ => hhold }
      granted := fun t ht => by
        obtain ⟨ht, hrec⟩ := Option.filter_eq_some_iff.mp ht
        obtain ⟨hidle, heligible⟩ := h.granted t ht
        refine ⟨hidle, Or.inl ?_⟩
        rcases heligible with hr | ⟨hr, -⟩
        · exact hr
        · rw [hr] at hrec
          cases hrec
      signalled := fun t ht => h.signalled t (Option.filter_eq_some_iff.mp ht).1
      decided := fun _ _ _ hf => absurd hf hne }

theorem isRefused_clearRecovery :
    (clearRecovery g).isRefused u = true ↔ g.recoveryTicket = some u ∨ g.isRefused u = true := by
  unfold clearRecovery
  cases hrec : g.recoveryTicket with
  | none => simp
  | some t =>
    by_cases hut : u = t
    · subst hut
      simp
    · simp [Function.update_of_ne hut, Ne.symm hut]

/-- The end of a recovery attempt keeps the gate sound: the reserved ticket is in no queue. -/
theorem Sound.clearRecovery (h : g.Sound) : (clearRecovery g).Sound := by
  have hnone : Sound { g with
      recoveryEpoch := 0, holdEpoch := 0, pauseEpoch := 0, holdSecurity := 0
      recoveryTicket := none } :=
    { h with
      reserved := fun t ht => by cases ht
      paused := fun hp => absurd rfl hp
      fences := Nat.zero_le _ }
  cases hrec : g.recoveryTicket with
  | none =>
    refine hnone.congr rfl rfl rfl ?_ le_rfl rfl rfl rfl rfl rfl rfl
    simp [System.clearRecovery, hrec]
  | some t =>
    obtain ⟨hr, -, hid, -⟩ := h.reserved t hrec
    have hout : ¬ Waits t { g with
        recoveryEpoch := 0, holdEpoch := 0, pauseEpoch := 0, holdSecurity := 0
        recoveryTicket := none } := by
      rintro (ht | ht | ht)
      · rw [(h.queued _ _ ht).2.2.2.1] at hr
        cases hr
      · rw [(h.waiting _ _ ht).2.2.2.2.1] at hr
        cases hr
      · cases ht
    refine (hnone.refuseLocked hid hout).congr rfl rfl rfl ?_ le_rfl rfl rfl rfl rfl rfl rfl
    simp [System.clearRecovery, hrec, Gate.refuseLocked]

/-- **A hold and its pause end.** -/
theorem Inv.endRecovery (h : s.Inv) {epoch : ℕ} : (s.endRecovery epoch clock).Inv := by
  unfold System.endRecovery
  split_ifs with he
  · exact h
  refine h.chooseAnew (g := clearRecovery s.gate) rfl (Or.inl rfl) rfl rfl rfl ?_ ?_
    (fun u hu => isRefused_clearRecovery.mpr (Or.inr hu))
    (settled_regrant s.ready clock (Sound.clearRecovery h.sound) fun ha => h.grant_eq_none ha)
  · rintro u (hu | hu | hu)
    · exact Or.inl hu
    · exact Or.inr (Or.inl hu)
    · cases hu
  · rintro u (hu | hu | hu)
    · exact Or.inl (Or.inl hu)
    · exact Or.inl (Or.inr (Or.inl hu))
    · exact Or.inr (isRefused_clearRecovery.mpr (Or.inl hu))

/-- **The recovery turn is asked for.** -/
theorem Inv.acquireRecoveryTurn (h : s.Inv) {epoch : ℕ} {start : ℤ} :
    (s.acquireRecoveryTurn epoch start).Inv := by
  unfold System.acquireRecoveryTurn
  split_ifs with he
  · exact h
  push Not at he
  obtain ⟨hne, hepoch, hnone⟩ := he
  extract_lets src g t g₁ g₂
  have ht : t.id = s.gate.nextID + 1 := rfl
  have hpause : s.gate.pauseEpoch ≠ 0 := by rw [hepoch]; exact hne
  obtain ⟨hrefused, -⟩ := h.unmarked ht
  have hsound : g₁.Sound :=
    { h.numbered with
      reserved := fun u hu => by
        obtain rfl := Option.some.inj hu
        exact ⟨rfl, hrefused, le_rfl, hpause, rfl⟩ }
  have hentered : Entered s t g₁ :=
    { sound := hsound
      active := rfl
      nextID := rfl
      holderProbe := rfl
      recoveryEpoch := rfl
      holdEpoch := rfl
      notify := le_rfl
      grant := fun _ => id
      waits := fun u hu => by
        rcases hu with hu | hu | hu
        · exact Or.inl (Or.inl hu)
        · exact Or.inl (Or.inr (Or.inl hu))
        · exact Or.inr (Option.some.inj hu).symm
      left := fun u hu => by
        rcases hu with (hu | hu | hu) | rfl
        · exact Or.inl (Or.inl hu)
        · exact Or.inl (Or.inr (Or.inl hu))
        · rw [hnone] at hu
          cases hu
        · exact Or.inl (Or.inr (Or.inr rfl))
      refused := fun _ => id
      writeGeneration := rfl
      holdSecurity := rfl }
  have hholds : g₁.holdEpoch ≠ 0 := h.sound.paused hpause
  by_cases hc : g₁.active = false ∧ g₁.grant = none
  · have hg₂ : g₂ = signalLocked { g₁ with grant := some t } := if_pos hc
    rw [hg₂]
    refine h.enter ht hentered (hsound.congr rfl rfl rfl rfl le_rfl rfl rfl rfl rfl rfl rfl) ?_
      rfl rfl (fun _ => Iff.rfl) (Nat.le_succ _) (fun _ _ => Nat.lt_succ_self _)
      fun _ hf => absurd hf hholds
    intro u hu
    obtain rfl := Option.some.inj hu
    exact ⟨hc.1, Or.inl ⟨rfl, rfl⟩⟩
  · have hg₂ : g₂ = g₁ := if_neg hc
    have hgrant : g₁.grant = none := by
      by_contra hg
      obtain ⟨u, hu⟩ := Option.ne_none_iff_exists'.mp hg
      obtain ⟨-, heligible⟩ := h.granted u hu
      rcases heligible with ⟨-, hr⟩ | ⟨-, -, hp, -⟩
      · rw [hnone] at hr
        cases hr
      · exact hpause hp
    rw [hg₂]
    refine h.enter ht hentered hsound (fun u hu => ?_) rfl rfl (fun _ => Iff.rfl) le_rfl
      (fun u hu => ?_) fun _ hf => absurd hf hholds
    · rw [hgrant] at hu
      cases hu
    · rw [hgrant] at hu
      cases hu

/-- **A wake** after a probe. -/
theorem Inv.wakeWALWaiters (h : s.Inv) : (s.wakeWALWaiters clock).Inv :=
  h.chooseAnew rfl (Or.inl rfl) rfl h.epochs rfl (fun _ => id) (fun _ => Or.inl) (fun _ => id)
    (settled_regrant s.ready clock h.sound fun ha => h.grant_eq_none ha)

/-! ## The invariant -/

theorem Inv.setLedger (h : s.Inv) (hturn : s.holders ≠ []) {l : ℕ} {f : WALLedger → WALLedger} :
    (s.setLedger l f).Inv :=
  { h with
    decided := fun _ ha => by
      rw [show (s.setLedger l f).gate.active = s.gate.active from rfl, h.active.mpr hturn] at ha
      cases ha }

/-- **Every section keeps the invariant.** -/
theorem Inv.step (h : s.Inv) (hs : s.step e = some s') : s'.Inv := by
  cases e with
  | acquire c ctx start clock =>
    obtain rfl := Option.some.inj hs
    exact h.acquire
  | poll w done held clock =>
    simp only [System.step] at hs
    split_ifs at hs with hw
    obtain rfl := Option.some.inj hs
    exact h.poll hw
  | capacity w done held clock =>
    simp only [System.step] at hs
    split_ifs at hs with hw hc
    · obtain rfl := Option.some.inj hs
      exact h.poll hw.1
    · obtain rfl := Option.some.inj hs
      exact h.capacityTimeout hw.1
  | stuck w done now held clock =>
    simp only [System.step] at hs
    split_ifs at hs with hw hc
    · obtain rfl := Option.some.inj hs
      exact h.abandon hw
    · obtain rfl := Option.some.inj hs
      exact h.poll hw
  | release w clock =>
    simp only [System.step] at hs
    split_ifs at hs with hw
    obtain rfl := Option.some.inj hs
    exact h.release hw
  | enterPressureHold clock =>
    obtain rfl := Option.some.inj hs
    exact h.enterPressureHold
  | enterBeginPause epoch =>
    obtain rfl := Option.some.inj hs
    exact h.enterBeginPause
  | endRecovery epoch clock =>
    obtain rfl := Option.some.inj hs
    exact h.endRecovery
  | acquireRecoveryTurn epoch start =>
    obtain rfl := Option.some.inj hs
    exact h.acquireRecoveryTurn
  | wakeWALWaiters clock =>
    obtain rfl := Option.some.inj hs
    exact h.wakeWALWaiters
  | probeLedger l physical free spent =>
    obtain rfl := Option.some.inj hs
    exact { h with decided := fun hf => by cases hf }
  | measured r attempted known =>
    simp only [System.step] at hs
    split_ifs at hs with hturn
    obtain rfl := Option.some.inj hs
    exact h.setLedger hturn
  | retained r fileEnd =>
    simp only [System.step] at hs
    split_ifs at hs with hturn
    obtain rfl := Option.some.inj hs
    exact h.setLedger hturn
  | resetLedger l size =>
    simp only [System.step] at hs
    split_ifs at hs with hturn
    obtain rfl := Option.some.inj hs
    exact h.setLedger hturn

/-- **Every reachable state has the invariant.** -/
theorem Reachable.inv (h : s.Reachable) : s.Inv := by
  obtain ⟨ledgers, hreach⟩ := h
  exact hreach.invariant (inv_init ledgers) fun _ _ _ h hs => h.step hs

/-! ## Safety -/

/-- **Writer-gate safety**: one turn at most, a grant only while no turn is active and only for a
ticket that is queued (or reserved for the recovery turn), has not been refused and whose caller has
not given up, counters equal to what the queues hold, and totals within the gate's limits. -/
structure Safe (s : System) : Prop where
  single : s.holders.length ≤ 1
  active : s.gate.active = true ↔ s.holders ≠ []
  grant_idle : ∀ t, s.gate.grant = some t → s.gate.active = false ∧ s.holders = []
  grant_queued : ∀ t, s.gate.grant = some t →
    t ∈ (s.gate.queues t.workClass).items ∨ s.gate.recoveryTicket = some t
  grant_kept : ∀ t, s.gate.grant = some t →
    s.gate.isRefused t = false ∧ ∃ w ∈ s.waiters, w.ticket = t
  users : s.gate.userQueued = s.gate.userTickets.length
  owners : ∀ o ≠ "", s.gate.ownerQueued o = s.gate.userTickets.countP fun t => t.owner = o
  counts : ∀ c, (s.gate.queues c).count = (s.gate.queues c).items.length ∧
    (s.gate.deferred c).count = (s.gate.deferred c).items.length
  rotations : ∀ c o, (s.gate.queues c).rotation.count o =
      (if ∃ t ∈ (s.gate.queues c).items, t.owner = o then 1 else 0) ∧
    (s.gate.deferred c).rotation.count o =
      if ∃ t ∈ (s.gate.deferred c).items, t.owner = o then 1 else 0
  background : s.gate.backgroundQueuedLocked =
    (s.gate.queues .backgroundMedia).items.length + (s.gate.queues .maintenance).items.length
  room : s.gate.userQueued ≤ writerQueueCapacity
  pool : s.gate.userQueued + s.gate.backgroundQueuedLocked ≤ writerQueueCapacity
  share : ∀ c, c.background = true → ∀ o,
    ((s.gate.queues c).items.countP fun t => t.owner = o) ≤ backgroundTicketLimit c

/-- **The gate is safe** in every reachable state. -/
theorem gate_safe (h : s.Reachable) : s.Safe := by
  have hinv := h.inv
  refine ⟨hinv.single, hinv.active, fun t ht => ⟨(hinv.granted t ht).1, ?_⟩, fun t ht => ?_,
    fun t ht => ?_, hinv.sound.users, hinv.sound.owners,
    fun c => ⟨(hinv.sound.queues c).counted, (hinv.sound.deferred c).counted⟩,
    fun c o => ⟨(hinv.sound.queues c).toLined.count_rotation o,
      (hinv.sound.deferred c).toLined.count_rotation o⟩, ?_, hinv.sound.room, hinv.sound.pool,
    fun c hc o => ?_⟩
  · by_contra hne
    have := (hinv.granted t ht).1
    rw [hinv.active.mpr hne] at this
    cases this
  · rcases (hinv.granted t ht).2 with ⟨-, hr⟩ | ⟨-, hfront, -⟩
    · exact Or.inr hr
    · exact Or.inl ((hinv.sound.queues _).mem_of_front hfront)
  · have hwaits := (hinv.granted t ht).2.waits hinv.sound
    refine ⟨?_, hinv.called t hwaits⟩
    rcases hwaits with hw | hw | hw
    · exact (hinv.sound.queued _ _ hw).2.2.1
    · exact (hinv.sound.waiting _ _ hw).2.2.2.1
    · exact (hinv.sound.reserved _ hw).2.1
  · unfold backgroundQueuedLocked
    rw [(hinv.sound.queues _).counted, (hinv.sound.queues _).counted]
  · rw [(hinv.sound.queues c).toLined.countP_items]
    exact hinv.sound.share c hc o

/-- A ledger whose disk has room. -/
def roomyLedger : WALLedger := ⟨2 ^ 40, 0, 0, true, 0, fun _ => false⟩

/-- A clock that stands still. -/
def stillClock : Clock := ⟨fun _ => 0, fun _ => 0, 0⟩

/-- After one interactive arrival the arrival is granted, and the gate is safe. -/
theorem gate_safe_arrival :
    ((init fun _ => roomyLedger).acquire 5 ⟨"", "", none, false⟩ 0 stillClock).gate.grant ≠ none ∧
      ((init fun _ => roomyLedger).acquire 5 ⟨"", "", none, false⟩ 0 stillClock).Safe :=
  ⟨by decide +kernel, gate_safe ⟨_, [.acquire 5 ⟨"", "", none, false⟩ 0 stillClock], rfl⟩⟩

end System

end Portico.WriterGate
