import Portico.WriterGate.Grants

/-!
# The gate's invariant and the waiting callers

Whatever the interleaving, at most one caller holds the write turn, a pending grant names a waiting
ticket, the gate's counters count its queues, and a waiting ticket has a caller that is awake when
the ticket is granted. The sections of a waiting caller keep all of it.

## Main results

* `settled_regrant`: a choice and a wake settle a sound gate
* `Inv.poll`, `Inv.abandon`, `Inv.capacityTimeout`: a waiting caller keeps the invariant
-/

open scoped List

namespace Portico.WriterGate

open Machine Gate

namespace System

/-- **The invariant.** The gate is sound and its grant eligible; `active` says whether a caller holds
the turn, and at most one does; each waiting ticket has a caller, each caller's ticket waits or was
refused, and the caller of a granted ticket doesn't sleep on the open channel. Unless a ledger was
probed since the last choice, an idle and unhindered gate with a selectable ticket has a grant. -/
structure Inv (s : System) : Prop where
  sound : s.gate.Sound
  granted : s.gate.Granted
  active : s.gate.active = true ↔ s.holders ≠ []
  single : s.holders.length ≤ 1
  probes : ∀ w ∈ s.holders, s.gate.holderProbe = w.probe
  epochs : s.gate.recoveryEpoch = s.gate.holdEpoch
  called : ∀ t, s.gate.Waits t → ∃ w ∈ s.waiters, w.ticket = t
  kept : ∀ w ∈ s.waiters, s.gate.Waits w.ticket ∨ s.gate.isRefused w.ticket = true
  distinct : (s.waiters.map Caller.ticket).Nodup
  fresh : ∀ w ∈ s.waiters, w.ticket.id ≤ s.gate.nextID
  channels : ∀ t n, s.asleep t = some n → n ≤ s.gate.notify
  signalled : ∀ t, s.gate.grant = some t → s.asleep t ≠ some s.gate.notify
  decided : s.probed = false → s.gate.active = false → s.gate.holdEpoch = 0 →
    s.gate.pauseEpoch = 0 → ∀ t, s.gate.Selectable s.ready t → s.gate.grant ≠ none

variable {s s' : System} {g g' : Gate} {t u : Ticket} {w : Caller} {clock : Clock} {e : Event}

theorem inv_init (ledgers : ℕ → WALLedger) : (init ledgers).Inv where
  sound := by
    have hnil : (init ledgers).gate.userTickets = [] := by
      refine List.eq_nil_of_length_eq_zero ?_
      simp [init, Gate.new, userTickets, Rotor.items, Rotor.empty]
    refine ⟨fun _ => Rotor.sound_empty, fun _ => Rotor.sound_empty, ?_, ?_, ?_, ?_, ?_, ?_, ?_, ?_,
      ?_, ?_, ?_, ?_⟩
    · intro c t ht
      cases ht
    · intro c t ht
      cases ht
    · intro c o
      exact List.Pairwise.nil
    · rw [hnil]
      rfl
    · intro o _
      rw [hnil]
      rfl
    · simp [init, Gate.new]
    · simp [init, Gate.new, backgroundQueuedLocked, Rotor.empty]
    · simp [init, Gate.new, Rotor.line, Rotor.empty]
    · intro t ht
      cases ht
    · intro t ht
      simp [init, Gate.new] at ht
    · intro hp
      exact absurd rfl hp
    · exact Nat.zero_le _
  granted := fun t ht => by cases ht
  active := by simp [init, Gate.new]
  single := by simp [init]
  probes := by simp [init]
  epochs := rfl
  called := by
    intro t ht
    rcases ht with ht | ht | ht <;> cases ht
  kept := by simp [init]
  distinct := List.nodup_nil
  fresh := by simp [init]
  channels := by simp [init]
  signalled := fun t ht => by cases ht
  decided := by
    intro _ _ _ _ t ht
    rcases ht.2.1 with hf | ⟨-, hf, -⟩ <;> cases hf

/-! ## A section that ends with a choice -/

/-- What a section that ends with a choice and a wake makes of a sound gate. -/
structure Settled (ready : Ticket → Bool) (g g' : Gate) : Prop where
  sound : g'.Sound
  granted : g'.Granted
  notify : g'.notify = g.notify + 1
  active : g'.active = g.active
  nextID : g'.nextID = g.nextID
  holderProbe : g'.holderProbe = g.holderProbe
  recoveryEpoch : g'.recoveryEpoch = g.recoveryEpoch
  holdEpoch : g'.holdEpoch = g.holdEpoch
  pauseEpoch : g'.pauseEpoch = g.pauseEpoch
  writeGeneration : g'.writeGeneration = g.writeGeneration
  isRefused : g'.isRefused = g.isRefused
  waits : ∀ u, g'.Waits u ↔ g.Waits u
  decided : g'.active = false → g'.holdEpoch = 0 → g'.pauseEpoch = 0 →
    ∀ t, g'.Selectable ready t → g'.grant ≠ none

/-- **A choice and a wake.** -/
theorem settled_regrant (ready : Ticket → Bool) (clock : Clock) (h : g.Sound)
    (hidle : g.active = true → g.grant = none) :
    Settled ready g (g.regrant ready clock).signalLocked := by
  obtain ⟨hre, hgranted⟩ := h.regrant ready clock
  have hactive := control_active hre.control
  have hhold := control_holdEpoch hre.control
  have hpause := control_pauseEpoch hre.control
  refine ⟨hre.sound.congr rfl rfl rfl rfl le_rfl rfl rfl rfl rfl rfl rfl, ?_,
    congrArg (· + 1) (control_notify hre.control), hactive, (control_nextID hre.control :),
    (congrArg Gate.holderProbe hre.control :), (control_recoveryEpoch hre.control :), hhold, hpause,
    (control_writeGeneration hre.control :), hre.isRefused, hre.waits, ?_⟩
  · cases ha : g.active with
    | false => exact hgranted ha
    | true =>
      rw [regrant_active ha]
      intro t ht
      rw [show g.signalLocked.grant = g.grant from rfl, hidle ha] at ht
      cases ht
  · intro ha hh hp t ht
    exact h.regrant_ne_none (hactive.symm.trans ha) (hhold.symm.trans hh) (hpause.symm.trans hp) ht

theorem Inv.grant_eq_none (h : s.Inv) (ha : s.gate.active = true) : s.gate.grant = none := by
  refine Option.eq_none_iff_forall_ne_some.mpr fun t ht => ?_
  have := (h.granted t ht).1
  rw [ha] at this
  cases this

theorem Inv.mem_erase_of_ne (h : s.Inv) (hw : w ∈ s.waiters) {v : Caller} (hv : v ∈ s.waiters) :
    v ∈ s.waiters.erase w ↔ v.ticket ≠ w.ticket := by
  have hnodup : s.waiters.Nodup := h.distinct.of_map
  rw [hnodup.mem_erase_iff]
  constructor
  · rintro ⟨hne, -⟩ heq
    exact hne (List.inj_on_of_nodup_map h.distinct hv hw heq)
  · intro hne
    exact ⟨fun heq => hne (by rw [heq]), hv⟩

theorem Inv.distinct_erase (h : s.Inv) (w : Caller) :
    ((s.waiters.erase w).map Caller.ticket).Nodup :=
  h.distinct.sublist (List.erase_sublist.map _)

/-- What a caller that gives up its ticket leaves before the gate chooses anew. -/
structure Departed (s : System) (t : Ticket) (g : Gate) : Prop where
  sound : g.Sound
  control : g.control = s.gate.control
  grant : g.grant = s.gate.grant
  waits : ∀ u, g.Waits u ↔ s.gate.Waits u ∧ u ≠ t
  refused : ∀ u, s.gate.isRefused u = true → g.isRefused u = true
  queued : ∀ c u, u ∈ (s.gate.queues c).items → g.Waits u → u ∈ (g.queues c).items
  keeps : ∀ c, ∀ u ∈ (s.gate.queues c).items, g.Waits u →
    (g.queues c).ahead u.owner ⊆ (s.gate.queues c).ahead u.owner

/-- **A caller's ticket leaves**: the rest of a section that removed it and chose anew. -/
theorem Inv.leave (h : s.Inv) (hw : w ∈ s.waiters) (hg : Departed s w.ticket g) :
    Inv { s with
      gate := (g.regrant s.ready clock).signalLocked, waiters := s.waiters.erase w } := by
  have hactive := control_active hg.control
  have hsettled := settled_regrant s.ready clock hg.sound fun ha => by
    rw [hg.grant]
    exact h.grant_eq_none (hactive.symm.trans ha)
  exact
    { sound := hsettled.sound
      granted := hsettled.granted
      active := by
        rw [← h.active, ← hactive, ← hsettled.active]
      single := h.single
      probes := fun v hv =>
        (hsettled.holderProbe.trans (congrArg Gate.holderProbe hg.control :)).trans (h.probes v hv)
      epochs := by
        rw [hsettled.recoveryEpoch, hsettled.holdEpoch, control_recoveryEpoch hg.control,
          control_holdEpoch hg.control, h.epochs]
      called := fun u hu => by
        obtain ⟨hu, hne⟩ := (hg.waits u).mp ((hsettled.waits u).mp hu)
        obtain ⟨v, hv, rfl⟩ := h.called u hu
        exact ⟨v, (h.mem_erase_of_ne hw hv).mpr hne, rfl⟩
      kept := fun v hv => by
        have hv' := List.mem_of_mem_erase hv
        have hne := (h.mem_erase_of_ne hw hv').mp hv
        rcases h.kept v hv' with hv | hv
        · exact Or.inl ((hsettled.waits _).mpr ((hg.waits _).mpr ⟨hv, hne⟩))
        · exact Or.inr (hsettled.isRefused ▸ hg.refused _ hv)
      distinct := h.distinct_erase w
      fresh := fun v hv => (h.fresh v (List.mem_of_mem_erase hv)).trans
        (hsettled.nextID.trans (control_nextID hg.control)).ge
      channels := fun u n hu => by
        have hle := h.channels u n hu
        have hnotify := hsettled.notify
        rw [control_notify hg.control] at hnotify
        dsimp only
        omega
      signalled := fun u _ hu => by
        have hle := h.channels u _ hu
        have hnotify := hsettled.notify
        rw [control_notify hg.control] at hnotify
        dsimp only at hle
        omega
      decided := fun _ => hsettled.decided }

/-! ## The sections of a waiting caller -/

theorem Departed.admitted (hg : Departed s t g) (clock : ℕ → ℤ) :
    Departed s t (g.admitBackgroundLocked clock) := by
  have hadmits := hg.sound.admitBackgroundLocked clock
  refine ⟨hadmits.sound, hadmits.control.trans hg.control, hadmits.grant.trans hg.grant,
    fun u => (hadmits.waits u).trans (hg.waits u), fun u hu => hadmits.isRefused ▸ hg.refused u hu,
    fun c u hu hw => hadmits.queued c u (hg.queued c u hu ((hadmits.waits u).mp hw)),
    fun c u hu hw => ?_⟩
  have hw := (hadmits.waits u).mp hw
  have hmem := hg.queued c u hu hw
  exact List.Subset.trans (Rotor.keeps_of_prefix (hg.sound.queues c).toLined (hadmits.rotation c)
    u hmem (hadmits.queued c u hmem)) (hg.keeps c u hu hw)

theorem Inv.departed (h : s.Inv) (w : Caller) :
    Departed s w.ticket (s.gate.removeWaiterLocked w.ticket false) :=
  ⟨h.sound.removeWaiterLocked _ _, removeWaiterLocked_control, removeWaiterLocked_grant,
    fun _ => h.sound.waits_removeWaiterLocked, fun u hu => by rwa [removeWaiterLocked_isRefused],
    fun _ _ hu hw => (h.sound.keeps_removeWaiterLocked hu hw).1,
    fun _ _ hu hw => (h.sound.keeps_removeWaiterLocked hu hw).2⟩

theorem Departed.refuse (hg : Departed s t g) (hid : t.id ≤ s.gate.nextID) :
    Departed s t (g.refuseLocked t) := by
  refine ⟨hg.sound.refuseLocked (hid.trans (control_nextID hg.control).ge) fun hw => ?_,
    hg.control, hg.grant, hg.waits, fun u hu => ?_, hg.queued, hg.keeps⟩
  · exact ((hg.waits t).mp hw).2 rfl
  · rw [isRefused_refuseLocked]
    exact Or.inr (hg.refused u hu)

/-- **A caller gives up.** -/
theorem Inv.abandon (h : s.Inv) (hw : w ∈ s.waiters) : (s.abandon w clock).Inv :=
  h.leave hw ((h.departed w).admitted clock.admission)

/-- **A caller's capacity timer ends.** -/
theorem Inv.capacityTimeout (h : s.Inv) (hw : w ∈ s.waiters) :
    (s.capacityTimeout w clock).Inv :=
  h.leave hw (((h.departed w).refuse (h.fresh w hw)).admitted clock.admission)

theorem Inv.leaveRefused (h : s.Inv) (hw : w ∈ s.waiters)
    (hrefused : s.gate.isRefused w.ticket = true) :
    Inv { s with waiters := s.waiters.erase w } :=
  { h with
    called := by
      intro u hu
      obtain ⟨v, hv, rfl⟩ := h.called u hu
      refine ⟨v, (h.mem_erase_of_ne hw hv).mpr ?_, rfl⟩
      intro heq
      rw [← heq] at hrefused
      rcases hu with hu | hu | hu
      · simp [(h.sound.queued _ _ hu).2.2.1] at hrefused
      · simp [(h.sound.waiting _ _ hu).2.2.2.1] at hrefused
      · simp [(h.sound.reserved _ hu).2.1] at hrefused
    kept := fun v hv => h.kept v (List.mem_of_mem_erase hv)
    distinct := h.distinct_erase w
    fresh := fun v hv => h.fresh v (List.mem_of_mem_erase hv) }

/-- **A caller takes the turn granted to it.** -/
theorem Inv.takeTurn (h : s.Inv) (hw : w ∈ s.waiters) (hgrant : s.gate.grant = some w.ticket)
    {held : ℤ} : (s.takeTurn w held).Inv := by
  obtain ⟨hidle, heligible⟩ := h.granted _ hgrant
  have hremove := h.sound.removeWaiterLocked w.ticket true
  have hcontrol : (s.gate.removeWaiterLocked w.ticket true).control = s.gate.control :=
    removeWaiterLocked_control
  have hnone : s.holders = [] := by
    by_contra hne
    rw [h.active.mpr hne] at hidle
    cases hidle
  have hfences : (if (s.gate.removeWaiterLocked w.ticket true).holdEpoch ≠ 0 ∧
        w.ticket.workClass = .securityFence then
      (s.gate.removeWaiterLocked w.ticket true).holdSecurity + 1
      else (s.gate.removeWaiterLocked w.ticket true).holdSecurity) ≤ recoverySecurityReserve := by
    rw [control_holdEpoch hcontrol, control_holdSecurity hcontrol]
    split_ifs with hc
    · rcases heligible with ⟨-, hr⟩ | ⟨-, -, -, hf, -⟩
      · rw [(h.sound.reserved _ hr).2.2.2.2] at hc
        cases hc.2
      · exact (hf hc.1).2
    · exact h.sound.fences
  have hsound : Sound (s.takeTurn w held).gate :=
    { hremove with fences := hfences }
  have hwaits : ∀ u, (s.takeTurn w held).gate.Waits u ↔ s.gate.Waits u ∧ u ≠ w.ticket :=
    fun u => h.sound.waits_removeWaiterLocked
  exact
    { sound := hsound
      granted := fun t ht => by cases ht
      active := by simp [System.takeTurn]
      single := by simp [System.takeTurn, hnone]
      probes := by simp [System.takeTurn, hnone]
      epochs := by
        show (s.gate.removeWaiterLocked w.ticket true).recoveryEpoch =
          (s.gate.removeWaiterLocked w.ticket true).holdEpoch
        rw [control_recoveryEpoch hcontrol, control_holdEpoch hcontrol, h.epochs]
      called := fun u hu => by
        obtain ⟨hu, hne⟩ := (hwaits u).mp hu
        obtain ⟨v, hv, rfl⟩ := h.called u hu
        exact ⟨v, (h.mem_erase_of_ne hw hv).mpr hne, rfl⟩
      kept := fun v hv => by
        have hv' := List.mem_of_mem_erase hv
        have hne := (h.mem_erase_of_ne hw hv').mp hv
        rcases h.kept v hv' with hv | hv
        · exact Or.inl ((hwaits _).mpr ⟨hv, hne⟩)
        · exact Or.inr ((congrFun (removeWaiterLocked_isRefused (g := s.gate)) v.ticket).trans hv)
      distinct := h.distinct_erase w
      fresh := fun v hv => by
        show v.ticket.id ≤ (s.gate.removeWaiterLocked w.ticket true).nextID
        rw [control_nextID hcontrol]
        exact h.fresh v (List.mem_of_mem_erase hv)
      channels := fun t n hn => by
        show n ≤ (s.gate.removeWaiterLocked w.ticket true).notify
        rw [control_notify hcontrol]
        exact h.channels t n hn
      signalled := fun t ht => by cases ht
      decided := fun _ ha => by cases ha }

theorem Inv.sleep (h : s.Inv)
    (hturn : ¬ (s.gate.active = false ∧ s.gate.grant = some w.ticket)) :
    Inv { s with asleep := Function.update s.asleep w.ticket (some s.gate.notify) } :=
  { h with
    channels := by
      intro t n hn
      by_cases ht : t = w.ticket
      · subst ht
        dsimp only at hn
        rw [Function.update_self] at hn
        exact (Option.some.inj hn).ge
      · dsimp only at hn
        rw [Function.update_of_ne ht] at hn
        exact h.channels t n hn
    signalled := by
      intro t ht
      by_cases htw : t = w.ticket
      · subst htw
        exact absurd ⟨(h.granted _ ht).1, ht⟩ hturn
      · dsimp only
        rw [Function.update_of_ne htw]
        exact h.signalled t ht }

/-- **The top of a waiting caller's loop.** -/
theorem Inv.poll (h : s.Inv) (hw : w ∈ s.waiters) {done : Bool} {held : ℤ} :
    (s.poll w done held clock).Inv := by
  unfold System.poll
  split_ifs with hrefused hdone hturn
  · exact h.leaveRefused hw hrefused
  · exact h.abandon hw
  · exact h.takeTurn hw hturn.2
  · exact h.sleep (by simpa using hturn)

end System

end Portico.WriterGate
