import Portico.WriterGate.Queues

/-!
# Arrivals, marks and admissions

A ticket that joins a line in arrival order, within the limits, keeps the gate sound. Admission
moves deferred tickets to the pool one at a time, oldest first for each supervisor, and goes on
until the pool is full or every supervisor is at its limit.

## Main results

* `Sound.enqueueLocked`, `Sound.enqueueDeferred`: an arrival keeps the gate sound
* `Sound.admitBackgroundLocked`: so do the admissions, and no ticket starts or stops waiting
* `Sound.admitBackgroundLocked_done`: after them no further admission is possible
-/

open scoped List

namespace Portico.WriterGate

namespace Gate

variable {g g' : Gate} {t u : Ticket} {c : Class} {o : String} {b : Bool}

/-! ## Marks -/

theorem Sound.mark (h : Sound g) (hid : t.id ≤ g.nextID)
    (hq : t ∉ (g.queues t.workClass).items) (hd : t ∉ (g.deferred t.workClass).items) :
    Sound { g with isDeferred := Function.update g.isDeferred t b } := by
  refine { h with
    queued := fun c x hx => ?_, waiting := fun c x hx => ?_, marks := fun x hx => ?_ }
  · obtain ⟨rfl, h₂, h₃⟩ := h.queued c x hx
    have hne : x ≠ t := by
      rintro rfl
      exact hq hx
    exact ⟨rfl, (Function.update_of_ne hne _ _).trans h₂, h₃⟩
  · obtain ⟨rfl, h₂, h₃, h₄⟩ := h.waiting c x hx
    have hne : x ≠ t := by
      rintro rfl
      exact hd hx
    exact ⟨rfl, h₂, (Function.update_of_ne hne _ _).trans h₃, h₄⟩
  · by_cases hxt : x = t
    · exact hxt ▸ hid
    · exact h.marks x (by simpa [Function.update_of_ne hxt] using hx)

theorem Sound.refuseLocked (h : Sound g) (hid : t.id ≤ g.nextID) (ht : ¬ g.Waits t) :
    Sound (g.refuseLocked t) := by
  have hne : ∀ x, g.Waits x → (g.refuseLocked t).isRefused x = g.isRefused x := by
    intro x hx
    refine Function.update_of_ne ?_ _ _
    rintro rfl
    exact ht hx
  refine { h with
    queued := fun c x hx => ?_, waiting := fun c x hx => ?_, reserved := fun x hx => ?_
    marks := fun x hx => ?_ }
  · obtain ⟨rfl, h₂, h₃⟩ := h.queued c x hx
    exact ⟨rfl, h₂, (hne x (Or.inl hx)).trans h₃.1, h₃.2⟩
  · obtain ⟨rfl, h₂, h₃, h₄⟩ := h.waiting c x hx
    exact ⟨rfl, h₂, h₃, (hne x (Or.inr (Or.inl hx))).trans h₄.1, h₄.2⟩
  · obtain ⟨h₁, h₂, h₃⟩ := h.reserved x hx
    exact ⟨h₁, (hne x (Or.inr (Or.inr hx))).trans h₂, h₃⟩
  · by_cases hxt : x = t
    · exact hxt ▸ hid
    · exact h.marks x (by simpa [Gate.refuseLocked, Function.update_of_ne hxt] using hx)

theorem isRefused_refuseLocked :
    (g.refuseLocked t).isRefused u = true ↔ u = t ∨ g.isRefused u = true := by
  unfold Gate.refuseLocked
  by_cases hut : u = t
  · subst hut
    simp
  · simp [hut]

@[simp] theorem waits_refuseLocked : (g.refuseLocked t).Waits u ↔ g.Waits u := Iff.rfl

/-! ## An arrival -/

theorem enqueueLocked_eq (hmark : g.isDeferred t = false) :
    g.enqueueLocked t =
      countUser t 1
        { g with
          queues :=
            Function.update g.queues t.workClass
              ((g.queues t.workClass).push Ticket.owner t) } := by
  simp [enqueueLocked, queueOf, setQueue, hmark]

theorem enqueueDeferred_eq (hmark : g.isDeferred t = true)
    (hback : t.workClass.background = true) :
    g.enqueueLocked t =
      { g with
        deferred :=
          Function.update g.deferred t.workClass
            ((g.deferred t.workClass).push Ticket.owner t) } := by
  simp [enqueueLocked, queueOf, setQueue, hmark, countUser_of_background hback]

/-- A reading of one class's queue after that of a ticket's class changed. -/
theorem update_queue {α : Sort*} (f : ClassQueue → α) {queues : Class → ClassQueue}
    {q : ClassQueue} :
    f (Function.update queues t.workClass q c) =
      if c = t.workClass then f q else f (queues c) := by
  by_cases hc : c = t.workClass
  · subst hc
    simp
  · rw [Function.update_of_ne hc, if_neg hc]

theorem line_enqueueLocked (hmark : g.isDeferred t = false) :
    ((g.enqueueLocked t).queues c).line o =
      if c = t.workClass ∧ o = t.owner then (g.queues c).line o ++ [t]
      else (g.queues c).line o := by
  rw [enqueueLocked_eq hmark, countUser_queues]
  simp only
  rw [update_queue fun q => q.line o, Rotor.line_push]
  by_cases hc : c = t.workClass
  · subst hc
    simp
  · simp [hc]

theorem deferred_enqueueLocked (hmark : g.isDeferred t = false) :
    (g.enqueueLocked t).deferred = g.deferred := by
  rw [enqueueLocked_eq hmark, countUser_deferred]

theorem Sound.mem_enqueueLocked (h : Sound g) (hmark : g.isDeferred t = false) :
    u ∈ ((g.enqueueLocked t).queues c).items ↔
      u ∈ (g.queues c).items ∨ (u = t ∧ c = t.workClass) := by
  rw [enqueueLocked_eq hmark, countUser_queues]
  simp only
  rw [update_queue fun q => u ∈ q.items]
  split_ifs with hc
  · rw [((h.queues _).toLined.items_push).mem_iff, List.mem_cons, hc]
    tauto
  · simp [hc]

/-- **An arrival in the pool** keeps the gate sound. -/
theorem Sound.enqueueLocked (h : Sound g) (hlive : g.Live t) (hmark : g.isDeferred t = false)
    (hbefore : ∀ x ∈ (g.queues t.workClass).line t.owner, x.id < t.id)
    (hafter : ∀ x ∈ (g.deferred t.workClass).line t.owner, t.id < x.id)
    (hroom : t.user = true → g.userQueued < writerQueueCapacity)
    (hpool : g.userQueued + g.backgroundQueuedLocked < writerQueueCapacity)
    (hshare : t.workClass.background = true →
      ((g.queues t.workClass).line t.owner).length < backgroundTicketLimit t.workClass) :
    Sound (g.enqueueLocked t) := by
  have hdeferred := deferred_enqueueLocked hmark
  have hqueues₁ :
      ({ g with
        queues :=
          Function.update g.queues t.workClass
            ((g.queues t.workClass).push Ticket.owner t) } : Gate).queues =
      Function.update g.queues t.workClass ((g.queues t.workClass).push Ticket.owner t) := rfl
  have hcount := h.counters (n := 1) hqueues₁ rfl rfl [] [t] (by simp) rfl (h.queues _).items_push
  rw [← enqueueLocked_eq hmark] at hcount
  have hcontrol : (g.enqueueLocked t).control = g.control := by
    rw [enqueueLocked_eq hmark, countUser_control]
    rfl
  have hisDeferred : (g.enqueueLocked t).isDeferred = g.isDeferred := by
    rw [enqueueLocked_eq hmark, countUser_isDeferred]
  have hlive' : ∀ x, g.Live x → (g.enqueueLocked t).Live x := by
    intro x hx
    refine ⟨?_, hx.2.1, hx.2.2.trans (control_nextID hcontrol).ge⟩
    rw [enqueueLocked_eq hmark, countUser_isRefused]
    exact hx.1
  have hbackground : (g.enqueueLocked t).backgroundQueuedLocked =
      if t.workClass.background then g.backgroundQueuedLocked + 1
      else g.backgroundQueuedLocked := by
    rw [enqueueLocked_eq hmark, countUser_backgroundQueuedLocked]
    simp only [backgroundQueuedLocked, update_queue Rotor.count, Rotor.count_push]
    cases t.workClass <;> simp [Class.background, Class.priority] <;> omega
  have husers : (g.enqueueLocked t).userQueued =
      if t.workClass.background then g.userQueued else g.userQueued + 1 := by
    rw [enqueueLocked_eq hmark, countUser_userQueued]
    cases hb : t.workClass.background <;> simp [Ticket.user, hb]
  have hreserved : (g.enqueueLocked t).recoveryTicket = g.recoveryTicket := by
    rw [enqueueLocked_eq hmark, countUser_recoveryTicket]
  have hisRefused : (g.enqueueLocked t).isRefused = g.isRefused := by
    rw [enqueueLocked_eq hmark, countUser_isRefused]
  refine ⟨?_, by rw [hdeferred]; exact h.deferred, ?_, ?_, ?_, hcount.1, hcount.2, ?_, ?_, ?_, ?_,
    ?_, ?_, ?_⟩
  · intro c
    rw [enqueueLocked_eq hmark, countUser_queues]
    simp only
    rw [update_queue fun q => q.Sound Ticket.owner]
    split_ifs
    · exact (h.queues _).push t
    · exact h.queues c
  · intro c x hx
    rw [hisDeferred]
    rcases (h.mem_enqueueLocked hmark).mp hx with hx | ⟨rfl, rfl⟩
    · obtain ⟨h₁, h₂, h₃⟩ := h.queued c x hx
      exact ⟨h₁, h₂, hlive' x h₃⟩
    · exact ⟨rfl, hmark, hlive' x hlive⟩
  · intro c x hx
    rw [hdeferred] at hx
    rw [hisDeferred]
    obtain ⟨h₁, h₂, h₃, h₄⟩ := h.waiting c x hx
    exact ⟨h₁, h₂, h₃, hlive' x h₄⟩
  · intro c o
    rw [line_enqueueLocked hmark, hdeferred]
    split_ifs with hc
    · obtain ⟨rfl, rfl⟩ := hc
      have horder := h.order t.workClass t.owner
      rw [List.pairwise_append] at horder ⊢
      obtain ⟨hq, hd, hqd⟩ := horder
      refine ⟨List.pairwise_append.mpr ⟨hq, List.pairwise_singleton _ _, ?_⟩, hd, ?_⟩
      · intro x hx y hy
        rw [List.mem_singleton.mp hy]
        exact hbefore x hx
      · intro x hx y hy
        rcases List.mem_append.mp hx with hx | hx
        · exact hqd x hx y hy
        · rw [List.mem_singleton.mp hx]
          exact hafter y hy
    · exact h.order c o
  · rw [husers]
    split_ifs with hb
    · exact h.room
    · have := hroom (user_iff.mpr (by simpa using hb))
      omega
  · rw [husers, hbackground]
    split_ifs <;> omega
  · intro c hc o
    rw [line_enqueueLocked hmark]
    split_ifs with hco
    · obtain ⟨rfl, rfl⟩ := hco
      have := hshare hc
      simp only [List.length_append, List.length_singleton]
      omega
    · exact h.share c hc o
  · intro x hx
    rw [hreserved] at hx
    obtain ⟨h₁, h₂, h₃, h₄⟩ := h.reserved x hx
    refine ⟨h₁, ?_, h₃.trans (control_nextID hcontrol).ge, ?_⟩
    · rw [hisRefused]
      exact h₂
    · rwa [control_pauseEpoch hcontrol]
  · rw [hisDeferred, hisRefused, control_nextID hcontrol]
    exact h.marks
  · rw [control_pauseEpoch hcontrol, control_holdEpoch hcontrol]
    exact h.paused
  · rw [control_holdSecurity hcontrol]
    exact h.fences

/-- A deferred ticket of a supervisor joins behind its admitted ones, in arrival order. -/
theorem Sound.updateDeferred (h : Sound g) {q : ClassQueue} (hq : q.Sound Ticket.owner)
    (hlive : g.Live t) (hmark : g.isDeferred t = true) (hback : t.workClass.background = true)
    (hmem : ∀ x ∈ q.items, x = t ∨ x ∈ (g.deferred t.workClass).items)
    (hline : ∀ o ≠ t.owner, q.line o = (g.deferred t.workClass).line o)
    (horder : ((g.queues t.workClass).line t.owner ++ q.line t.owner).Pairwise
      fun t u => t.id < u.id) :
    Sound { g with deferred := Function.update g.deferred t.workClass q } := by
  refine { h with deferred := fun c => ?_, waiting := fun c x hx => ?_, order := fun c o => ?_ }
  · rw [update_queue fun q => q.Sound Ticket.owner]
    split_ifs
    · exact hq
    · exact h.deferred c
  · rw [update_queue fun q => x ∈ q.items] at hx
    split_ifs at hx with hc
    · subst hc
      rcases hmem x hx with rfl | hx
      · exact ⟨rfl, hback, hmark, hlive⟩
      · exact h.waiting _ x hx
    · exact h.waiting c x hx
  · rw [update_queue fun q => q.line o]
    split_ifs with hc
    · subst hc
      by_cases ho : o = t.owner
      · subst ho
        exact horder
      · rw [hline o ho]
        exact h.order _ o
    · exact h.order c o

/-- **An arrival among the deferred** keeps the gate sound. -/
theorem Sound.enqueueDeferred (h : Sound g) (hlive : g.Live t) (hmark : g.isDeferred t = true)
    (hback : t.workClass.background = true)
    (hbefore : ∀ x ∈ (g.queues t.workClass).line t.owner ++ (g.deferred t.workClass).line t.owner,
      x.id < t.id) :
    Sound (g.enqueueLocked t) := by
  rw [enqueueDeferred_eq hmark hback]
  refine h.updateDeferred ((h.deferred _).push t) hlive hmark hback ?_ ?_ ?_
  · intro x hx
    exact List.mem_cons.mp ((h.deferred _).items_push.mem_iff.mp hx)
  · intro o ho
    rw [Rotor.line_push, if_neg ho]
  · rw [Rotor.line_push, if_pos rfl, ← List.append_assoc]
    refine List.pairwise_append.mpr ⟨h.order _ _, List.pairwise_singleton _ _, ?_⟩
    intro x hx y hy
    rw [List.mem_singleton.mp hy]
    exact hbefore x hx

theorem Sound.waits_enqueueDeferred (h : Sound g) (hmark : g.isDeferred t = true)
    (hback : t.workClass.background = true) :
    (g.enqueueLocked t).Waits u ↔ g.Waits u ∨ u = t := by
  rw [enqueueDeferred_eq hmark hback]
  unfold Waits
  dsimp only
  rw [update_queue fun q => u ∈ q.items]
  split_ifs with hu
  · rw [(h.deferred _).toLined.items_push.mem_iff, List.mem_cons, hu]
    tauto
  · have : u ≠ t := fun h => hu (by rw [h])
    tauto

theorem Sound.waits_enqueueLocked (h : Sound g) (hmark : g.isDeferred t = false) :
    (g.enqueueLocked t).Waits u ↔ g.Waits u ∨ u = t := by
  have hreserved : (g.enqueueLocked t).recoveryTicket = g.recoveryTicket := by
    rw [enqueueLocked_eq hmark, countUser_recoveryTicket]
  unfold Waits
  rw [h.mem_enqueueLocked hmark, deferred_enqueueLocked hmark, hreserved]
  constructor
  · rintro ((hu | ⟨hu, -⟩) | hu | hu)
    · exact Or.inl (Or.inl hu)
    · exact Or.inr hu
    · exact Or.inl (Or.inr (Or.inl hu))
    · exact Or.inl (Or.inr (Or.inr hu))
  · rintro ((hu | hu | hu) | hu)
    · exact Or.inl (Or.inl hu)
    · exact Or.inr (Or.inl hu)
    · exact Or.inr (Or.inr hu)
    · exact Or.inl (Or.inr ⟨hu, by rw [hu]⟩)

theorem Sound.keeps_enqueueLocked (h : Sound g) (hmark : g.isDeferred t = false) :
    (g.queues c).Keeps Ticket.owner ((g.enqueueLocked t).queues c) := by
  rw [enqueueLocked_eq hmark, countUser_queues]
  dsimp only
  rw [update_queue fun q => (g.queues c).Keeps Ticket.owner q]
  split_ifs with hc
  · rw [hc]
    exact Rotor.keeps_push (h.queues _).toLined t
  · exact Rotor.Keeps.refl _

/-! ## Admissions -/

/-- The gates differ by admissions only: no ticket starts or stops waiting, and rotations grow at
the back. -/
structure Admits (g g' : Gate) : Prop where
  sound : g'.Sound
  control : g'.control = g.control
  grant : g'.grant = g.grant
  isRefused : g'.isRefused = g.isRefused
  userQueued : g'.userQueued = g.userQueued
  recoveryTicket : g'.recoveryTicket = g.recoveryTicket
  waits : ∀ u, g'.Waits u ↔ g.Waits u
  users : ∀ c, c.background = false → g'.queues c = g.queues c
  rotation : ∀ c, (g.queues c).rotation <+: (g'.queues c).rotation
  queued : ∀ c u, u ∈ (g.queues c).items → u ∈ (g'.queues c).items

theorem Admits.refl (h : Sound g) : Admits g g :=
  ⟨h, rfl, rfl, rfl, rfl, rfl, fun _ => Iff.rfl, fun _ _ => rfl, fun _ => List.prefix_rfl,
    fun _ _ => id⟩

theorem Admits.trans {g₁ g₂ g₃ : Gate} (h : Admits g₁ g₂) (h' : Admits g₂ g₃) : Admits g₁ g₃ :=
  ⟨h'.sound, h'.control.trans h.control, h'.grant.trans h.grant, h'.isRefused.trans h.isRefused,
    h'.userQueued.trans h.userQueued, h'.recoveryTicket.trans h.recoveryTicket,
    fun u => (h'.waits u).trans (h.waits u), fun c hc => (h'.users c hc).trans (h.users c hc),
    fun c => (h.rotation c).trans (h'.rotation c), fun c u hu => h'.queued c u (h.queued c u hu)⟩

theorem prefer_eq_some {now : ℤ} {s r : Option Ticket} (h : prefer now s r = some t) :
    s = some t ∨ r = some t := by
  unfold prefer at h
  split at h
  · exact Or.inr h
  · exact Or.inl h
  · split_ifs at h
    · exact Or.inr h
    · exact Or.inl h

theorem prefer_eq_none {now : ℤ} {s r : Option Ticket} :
    prefer now s r = none ↔ s = none ∧ r = none := by
  unfold prefer
  split
  · simp
  · simp
  · split_ifs <;> simp

/-- A candidate is the oldest deferred ticket of a supervisor within its limit. -/
theorem Sound.candidate_eq_some (h : Sound g) (ht : g.candidate c = some t) :
    t.workClass = c ∧ t ∈ (g.deferred c).items ∧
      ((g.deferred c).line t.owner).head? = some t ∧
      g.outstanding c t.owner < backgroundTicketLimit c := by
  obtain ⟨o, ho, hhead⟩ := Option.bind_eq_some_iff.mp ht
  have hmem := List.mem_of_mem_head? hhead
  obtain ⟨rfl, rfl, -⟩ := h.deferred_iff.mp hmem
  have hlimit := List.find?_some ho
  exact ⟨rfl, (h.deferred _).mem_items_of_line hmem, hhead, of_decide_eq_true hlimit⟩

theorem nextAdmission_eq_some {now : ℤ} (ht : g.nextAdmission now = some t) :
    ∃ c, c.background = true ∧ g.candidate c = some t := by
  rcases prefer_eq_some ht with ht | ht
  · rcases prefer_eq_some ht with ht | ht
    · cases ht
    · exact ⟨.backgroundMedia, rfl, ht⟩
  · exact ⟨.maintenance, rfl, ht⟩

theorem nextAdmission_eq_none {now : ℤ} (ht : g.nextAdmission now = none)
    (hc : c.background = true) : g.candidate c = none := by
  obtain ⟨h₁, h₂⟩ := prefer_eq_none.mp ht
  obtain ⟨-, h₁⟩ := prefer_eq_none.mp h₁
  cases c
  case backgroundMedia => exact h₁
  case maintenance => exact h₂
  all_goals cases hc

theorem backgroundQueuedLocked_update {q : ClassQueue} {g' : Gate}
    (hqueues : g'.queues = Function.update g.queues t.workClass q)
    (hback : t.workClass.background = true) :
    g'.backgroundQueuedLocked =
      g.backgroundQueuedLocked + (q.count - (g.queues t.workClass).count) := by
  simp only [backgroundQueuedLocked, hqueues, update_queue Rotor.count]
  revert hback
  cases t.workClass <;> simp [Class.background, Class.priority]
  all_goals omega

/-- **One admission** moves the oldest deferred ticket of a supervisor behind its admitted ones. -/
theorem Sound.admitOne (h : Sound g) (hc : c.background = true) (ht : g.candidate c = some t)
    (husers : g.userQueued = 0) (hpool : g.backgroundQueuedLocked < writerQueueCapacity) :
    Admits g (g.admitOne t) ∧
      (g.admitOne t).backgroundQueuedLocked = g.backgroundQueuedLocked + 1 := by
  obtain ⟨rfl, hd, hhead, hlimit⟩ := h.candidate_eq_some ht
  have hlive := (h.waiting _ t hd).2.2.2
  have hq : t ∉ (g.queues t.workClass).items := fun hq => h.not_deferred hq hd
  obtain ⟨q, hrem, heq⟩ : ∃ q,
      (g.deferred t.workClass).remove Ticket.owner t true = some q ∧
      g.removeWaiterLocked t true =
        { g with deferred := Function.update g.deferred t.workClass q } := by
    rcases h.removeWaiterLocked_cases hlive.2.1 true with
      ⟨-, hd', -⟩ | ⟨hq', -⟩ | ⟨-, q, hrem, heq⟩
    · exact absurd hd hd'
    · exact absurd hq' hq
    · exact ⟨q, hrem, heq⟩
  have hsound := h.removeWaiterLocked t true
  have hout : ¬ (g.removeWaiterLocked t true).Waits t := by
    rw [h.waits_removeWaiterLocked]
    simp
  have hone : g.admitOne t =
      { g with
        deferred := Function.update g.deferred t.workClass q
        isDeferred := Function.update g.isDeferred t false }.enqueueLocked t := by
    simp only [Gate.admitOne, heq]
  rw [heq] at hsound hout
  have hout' : t ∉ q.items := by
    intro hx
    refine hout (Or.inr (Or.inl ?_))
    simpa using hx
  have hmarked := hsound.mark (b := false) hlive.2.2 (fun hx => hout (Or.inl hx))
    fun hx => hout (Or.inr (Or.inl hx))
  set g₂ : Gate :=
    { g with
      deferred := Function.update g.deferred t.workClass q
      isDeferred := Function.update g.isDeferred t false }
  have hmark : g₂.isDeferred t = false := Function.update_self ..
  have hqueues₂ : g₂.queues = g.queues := rfl
  have hdeferred₂ : g₂.deferred = Function.update g.deferred t.workClass q := rfl
  have hline : (g.deferred t.workClass).line t.owner = t :: q.line t.owner := by
    obtain ⟨rest, hrest⟩ := List.head?_eq_some_iff.mp hhead
    rw [Rotor.line_remove hrem, if_pos rfl, hrest, List.erase_cons_head]
  have horder := h.order t.workClass t.owner
  rw [hline, List.pairwise_append, List.pairwise_cons] at horder
  have hsound₂ : Sound (g₂.enqueueLocked t) := by
    refine hmarked.enqueueLocked hlive hmark ?_ ?_ ?_ ?_ ?_
    · intro x hx
      exact horder.2.2 x hx t List.mem_cons_self
    · intro x hx
      rw [hdeferred₂, Function.update_self] at hx
      exact horder.2.1.1 x hx
    · intro hu
      rw [user_iff, hc] at hu
      cases hu
    · have : g₂.userQueued + g₂.backgroundQueuedLocked =
          g.userQueued + g.backgroundQueuedLocked := rfl
      omega
    · intro _
      unfold outstanding at hlimit
      rw [hqueues₂]
      omega
  have hcontrol : (g₂.enqueueLocked t).control = g.control := by
    rw [enqueueLocked_eq hmark, countUser_control]
    rfl
  rw [hone]
  refine ⟨⟨hsound₂, hcontrol, ?_, ?_, ?_, ?_, fun u => ?_, fun c hc' => ?_, fun c => ?_,
    fun c u hu => ?_⟩, ?_⟩
  · rw [enqueueLocked_eq hmark, countUser_grant]
  · rw [enqueueLocked_eq hmark, countUser_isRefused]
  · rw [enqueueLocked_eq hmark, countUser_of_background hc]
  · rw [enqueueLocked_eq hmark, countUser_recoveryTicket]
  · have hrec : (g₂.enqueueLocked t).recoveryTicket = g.recoveryTicket := by
      rw [enqueueLocked_eq hmark, countUser_recoveryTicket]
    have hitems : u ∈ (g₂.deferred u.workClass).items ↔
        u ∈ (g.deferred u.workClass).items ∧ u ≠ t := by
      rw [hdeferred₂, update_queue fun q => u ∈ q.items]
      split_ifs with hu
      · rw [hu, ← ((h.deferred _).items_remove hrem).mem_iff, List.mem_cons]
        constructor
        · rintro hx
          refine ⟨Or.inr hx, ?_⟩
          rintro rfl
          exact hout' hx
        · rintro ⟨rfl | hx, hne⟩
          · exact absurd rfl hne
          · exact hx
      · simp only [iff_self_and]
        rintro - rfl
        exact hu rfl
    unfold Waits
    rw [hrec, hmarked.mem_enqueueLocked hmark, deferred_enqueueLocked hmark, hitems, hqueues₂]
    constructor
    · rintro ((hu | ⟨rfl, -⟩) | ⟨hu, -⟩ | hu)
      · exact Or.inl hu
      · exact Or.inr (Or.inl hd)
      · exact Or.inr (Or.inl hu)
      · exact Or.inr (Or.inr hu)
    · rintro (hu | hu | hu)
      · exact Or.inl (Or.inl hu)
      · by_cases hut : u = t
        · exact Or.inl (Or.inr ⟨hut, by rw [hut]⟩)
        · exact Or.inr (Or.inl ⟨hu, hut⟩)
      · exact Or.inr (Or.inr hu)
  · rw [enqueueLocked_eq hmark, countUser_queues]
    simp only [hqueues₂]
    rw [Function.update_of_ne]
    rintro rfl
    rw [hc] at hc'
    cases hc'
  · rw [enqueueLocked_eq hmark, countUser_queues]
    simp only [hqueues₂]
    rw [update_queue Rotor.rotation]
    split_ifs with hct
    · rw [hct, (h.queues _).toLined.rotation_push]
      split_ifs
      · exact List.prefix_append _ _
      · exact List.prefix_rfl
    · exact List.prefix_rfl
  · exact (hmarked.mem_enqueueLocked hmark).mpr (Or.inl hu)
  · rw [enqueueLocked_eq hmark, countUser_backgroundQueuedLocked,
      backgroundQueuedLocked_update (g := g) (t := t)
        (q := (g.queues t.workClass).push Ticket.owner t) rfl hc, Rotor.count_push]
    omega

theorem Sound.admissions (h : Sound g) (husers : g.userQueued = 0) (clock : ℕ → ℤ) (n : ℕ) :
    Admits g (g.admissions clock n) ∧
      ((writerQueueCapacity : ℤ) ≤ g.backgroundQueuedLocked + n →
        (writerQueueCapacity : ℤ) ≤ (g.admissions clock n).backgroundQueuedLocked ∨
        ∀ c, c.background = true → (g.admissions clock n).candidate c = none) := by
  induction n generalizing g with
  | zero => exact ⟨Admits.refl h, fun hn => Or.inl (by simpa [Gate.admissions] using hn)⟩
  | succ n ih =>
    unfold Gate.admissions
    split_ifs with hpool
    · split
      next hnone => exact ⟨Admits.refl h, fun _ => Or.inr fun c hc => nextAdmission_eq_none hnone hc⟩
      next t hsome =>
        obtain ⟨c, hc, ht⟩ := nextAdmission_eq_some hsome
        obtain ⟨hone, hcount⟩ := h.admitOne hc ht husers hpool
        obtain ⟨hrest, hdone⟩ := ih hone.sound (hone.userQueued.trans husers)
        refine ⟨hone.trans hrest, fun hn => hdone ?_⟩
        push_cast at hn
        omega
    · exact ⟨Admits.refl h, fun _ => Or.inl (not_lt.mp hpool)⟩

/-- **Admissions** keep the gate sound, and no ticket starts or stops waiting. -/
theorem Sound.admitBackgroundLocked (h : Sound g) (clock : ℕ → ℤ) :
    Admits g (g.admitBackgroundLocked clock) := by
  unfold Gate.admitBackgroundLocked
  split_ifs with hc
  · exact Admits.refl h
  · push Not at hc
    exact (h.admissions hc.1 clock _).1

/-- After the admissions of an unhindered gate the pool is full or every supervisor with deferred
work is at its limit. -/
theorem Sound.admitBackgroundLocked_done (h : Sound g) (clock : ℕ → ℤ) (husers : g.userQueued = 0)
    (hhold : g.holdEpoch = 0) (hpause : g.pauseEpoch = 0) :
    (writerQueueCapacity : ℤ) ≤ (g.admitBackgroundLocked clock).backgroundQueuedLocked ∨
      ∀ c, c.background = true → (g.admitBackgroundLocked clock).candidate c = none := by
  unfold Gate.admitBackgroundLocked
  rw [if_neg (by simp [husers, hhold, hpause])]
  refine (h.admissions husers clock _).2 ?_
  have h₁ := (h.queues .backgroundMedia).counted
  have h₂ := (h.queues .maintenance).counted
  unfold backgroundQueuedLocked
  omega

end Gate

end Portico.WriterGate
