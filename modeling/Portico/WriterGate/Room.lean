import Portico.WriterGate.Arrivals

/-!
# Making room

A user ticket that meets a full pool takes another user ticket's place, or else a background
ticket's. The first is refused; the second returns to the front of its supervisor's deferred work,
so that it is still the supervisor's next.

## Main results

* `Sound.makeRoomLocked`: the victim is a queued user ticket without a grant, and only it leaves
* `Sound.makeBackgroundRoomLocked`: no ticket starts or stops waiting, and there is room after it
-/

open scoped List

namespace Portico.WriterGate

namespace Gate

variable {g g' : Gate} {t u v arrival : Ticket} {c : Class} {p : Ticket → Bool}
  {chosen : Option Ticket} {ts : List Ticket}

/-! ## The newest ticket -/

theorem newest_nil : newest p chosen [] = chosen := rfl

theorem newest_cons :
    newest p chosen (t :: ts) = newest p (if p t then newer chosen t else chosen) ts := by
  unfold newest
  rw [List.filter_cons]
  split_ifs <;> rfl

theorem newer_eq_some (h : newer chosen t = some v) :
    (chosen = some v ∨ v = t) ∧ t.id ≤ v.id ∧ ∀ s, chosen = some s → s.id ≤ v.id := by
  cases chosen with
  | none =>
    obtain rfl : t = v := Option.some.inj h
    simp
  | some s =>
    unfold newer at h
    dsimp only at h
    split_ifs at h with hlt
    · obtain rfl : t = v := Option.some.inj h
      exact ⟨Or.inr rfl, le_rfl, fun s' hs => (Option.some.inj hs) ▸ hlt.le⟩
    · obtain rfl : s = v := Option.some.inj h
      exact ⟨Or.inl rfl, not_lt.mp hlt, fun s' hs => ((Option.some.inj hs) ▸ le_rfl)⟩

theorem newest_eq_some (h : newest p chosen ts = some v) :
    (chosen = some v ∨ (v ∈ ts ∧ p v = true)) ∧ (∀ x ∈ ts, p x = true → x.id ≤ v.id) ∧
      ∀ s, chosen = some s → s.id ≤ v.id := by
  induction ts generalizing chosen with
  | nil =>
    rw [newest_nil] at h
    exact ⟨Or.inl h, by simp, fun s hs => by rw [h] at hs; cases hs; exact le_rfl⟩
  | cons t ts ih =>
    rw [newest_cons] at h
    obtain ⟨hv, hmax, hchosen⟩ := ih h
    by_cases hp : p t = true
    · rw [if_pos hp] at hv hchosen
      obtain ⟨s, hs⟩ : ∃ s, newer chosen t = some s := by
        unfold newer
        cases chosen with
        | none => exact ⟨t, rfl⟩
        | some s =>
          dsimp only
          split_ifs
          · exact ⟨t, rfl⟩
          · exact ⟨s, rfl⟩
      obtain ⟨hs₁, hs₂, hs₃⟩ := newer_eq_some hs
      have hsv := hchosen s hs
      refine ⟨?_, ?_, fun s' hs' => (hs₃ s' hs').trans hsv⟩
      · rcases hv with hv | ⟨hv, hpv⟩
        · rw [hs] at hv
          obtain rfl : s = v := Option.some.inj hv
          rcases hs₁ with hs₁ | rfl
          · exact Or.inl hs₁
          · exact Or.inr ⟨List.mem_cons_self, hp⟩
        · exact Or.inr ⟨List.mem_cons_of_mem _ hv, hpv⟩
      · intro x hx hpx
        rcases List.mem_cons.mp hx with rfl | hx
        · exact hs₂.trans hsv
        · exact hmax x hx hpx
    · rw [if_neg hp] at hv hchosen
      refine ⟨?_, ?_, hchosen⟩
      · rcases hv with hv | ⟨hv, hpv⟩
        · exact Or.inl hv
        · exact Or.inr ⟨List.mem_cons_of_mem _ hv, hpv⟩
      · intro x hx hpx
        rcases List.mem_cons.mp hx with rfl | hx
        · exact absurd hpx hp
        · exact hmax x hx hpx

theorem newest_eq_none (h : newest p chosen ts = none) :
    chosen = none ∧ ∀ x ∈ ts, p x = false := by
  induction ts generalizing chosen with
  | nil => exact ⟨h, by simp⟩
  | cons t ts ih =>
    rw [newest_cons] at h
    obtain ⟨hnone, hts⟩ := ih h
    by_cases hp : p t = true
    · rw [if_pos hp] at hnone
      unfold newer at hnone
      cases chosen with
      | none => cases hnone
      | some s =>
        dsimp only at hnone
        split_ifs at hnone
    · rw [if_neg hp] at hnone
      refine ⟨hnone, fun x hx => ?_⟩
      rcases List.mem_cons.mp hx with rfl | hx
      · simpa using hp
      · exact hts x hx

/-! ## A user ticket's place -/

/-- What a choice over a list of classes picks is picked in one of them. -/
theorem foldl_choice {cs : List Class} {f : Option Ticket → Class → Option Ticket}
    {P : Ticket → Prop} (hf : ∀ s c, c ∈ cs → ∀ v, f s c = some v → s = some v ∨ P v)
    (h : cs.foldl f chosen = some v) : chosen = some v ∨ P v := by
  induction cs generalizing chosen with
  | nil => exact Or.inl h
  | cons c cs ih =>
    rcases ih (fun s d hd => hf s d (List.mem_cons_of_mem _ hd)) h with h | h
    · exact hf chosen c List.mem_cons_self v h
    · exact Or.inr h

/-- **The victim** is a queued user ticket that has no grant. -/
theorem victim_eq_some (h : g.victim arrival = some v) :
    g.grant ≠ some v ∧ ∃ c, c.background = false ∧ v ∈ (g.queues c).items := by
  have hover : ∀ v, g.overShare arrival = some v →
      g.grant ≠ some v ∧ ∃ c, c.background = false ∧ v ∈ (g.queues c).items := by
    intro v hv
    unfold overShare at hv
    split_ifs at hv
    refine (foldl_choice (P := fun v => g.grant ≠ some v ∧
      ∃ c, c.background = false ∧ v ∈ (g.queues c).items) ?_ hv).resolve_left (by simp)
    intro s c hc v hv
    rcases (newest_eq_some hv).1 with hs | ⟨hmem, hp⟩
    · exact Or.inl hs
    · simp only [ne_eq, decide_eq_true_eq] at hp
      refine Or.inr ⟨hp.1, c, ?_, hmem⟩
      have := (List.mem_filter.mp hc).2
      simp only [Bool.not_eq_true', Bool.or_eq_false_iff] at this
      exact this.1
  have hlower : ∀ v, g.lowerClass arrival = some v →
      g.grant ≠ some v ∧ ∃ c, c.background = false ∧ v ∈ (g.queues c).items := by
    intro v hv
    unfold lowerClass at hv
    refine (foldl_choice (P := fun v => g.grant ≠ some v ∧
      ∃ c, c.background = false ∧ v ∈ (g.queues c).items) ?_ hv).resolve_left (by simp)
    intro s c hc v hv
    cases s with
    | some s => exact Or.inl hv
    | none =>
      rcases (newest_eq_some hv).1 with hs | ⟨hmem, hp⟩
      · cases hs
      · simp only [ne_eq, decide_eq_true_eq] at hp
        refine Or.inr ⟨hp, c, ?_, hmem⟩
        have := (List.mem_filter.mp hc).2
        simp only [Bool.not_eq_true', Bool.or_eq_false_iff] at this
        exact this.1
  unfold victim at h
  split at h
  · obtain rfl := Option.some.inj h
    exact hover _ ‹_›
  · exact hlower v h

theorem Sound.userQueued_removeWaiterLocked (served : Bool) (h : Sound g)
    (ht : t ∈ (g.queues t.workClass).items) :
    (g.removeWaiterLocked t served).userQueued =
      if t.user then g.userQueued - 1 else g.userQueued := by
  have hlive := (h.queued _ t ht).2.2
  rcases h.removeWaiterLocked_cases hlive.2.1 served with
    ⟨hq, -, -⟩ | ⟨-, q, -, heq⟩ | ⟨hd, -⟩
  · exact absurd ht hq
  · rw [heq, countUser_userQueued]
    rfl
  · exact absurd hd (h.not_deferred ht)

/-- **Room among user tickets**: one queued user ticket without a grant leaves, refused. -/
theorem Sound.makeRoomLocked (h : Sound g) (hg : g.makeRoomLocked arrival = some g') :
    ∃ v, v.user = true ∧ v ∈ (g.queues v.workClass).items ∧ g.grant ≠ some v ∧
      g' = ((g.removeWaiterLocked v false).refuseLocked v).signalLocked := by
  obtain ⟨v, hv, rfl⟩ := Option.map_eq_some_iff.mp hg
  obtain ⟨hgrant, c, hc, hmem⟩ := victim_eq_some hv
  obtain ⟨rfl, -⟩ := h.queued c v hmem
  exact ⟨v, user_iff.mpr hc, hmem, hgrant, rfl⟩

/-! ## A background ticket's place -/

/-- The ticket a full pool gives back: the newest admitted background ticket. -/
theorem newest_background {t : Ticket}
    (ht : newest (fun _ => true) (newest (fun _ => true) none (g.queues .backgroundMedia).items)
      (g.queues .maintenance).items = some t) :
    (∃ c, c.background = true ∧ t ∈ (g.queues c).items) ∧
      ∀ c, c.background = true → ∀ x ∈ (g.queues c).items, x.id ≤ t.id := by
  obtain ⟨hv, hmax, hchosen⟩ := newest_eq_some ht
  have hmedia : ∀ x ∈ (g.queues .backgroundMedia).items, x.id ≤ t.id := by
    intro x hx
    cases hs : newest (fun _ => true) none (g.queues .backgroundMedia).items with
    | none => exact absurd ((newest_eq_none hs).2 x hx) (by simp)
    | some s => exact ((newest_eq_some hs).2.1 x hx rfl).trans (hchosen s hs)
  constructor
  · rcases hv with hv | ⟨hv, -⟩
    · rcases (newest_eq_some hv).1 with hv | ⟨hv, -⟩
      · cases hv
      · exact ⟨.backgroundMedia, rfl, hv⟩
    · exact ⟨.maintenance, rfl, hv⟩
  · intro c hc x hx
    cases c
    case backgroundMedia => exact hmedia x hx
    case maintenance => exact hmax x hx rfl
    all_goals cases hc

theorem erase_append_of_newest {l : List Ticket} (hl : l.Pairwise fun t u => t.id < u.id)
    (ht : t ∈ l) (hmax : ∀ x ∈ l, x.id ≤ t.id) : l.erase t ++ [t] = l := by
  obtain ⟨l₁, l₂, rfl⟩ := List.append_of_mem ht
  have hnil : l₂ = [] := by
    refine List.eq_nil_iff_forall_not_mem.mpr fun x hx => ?_
    have hlt := (List.pairwise_cons.mp (List.pairwise_append.mp hl).2.1).1 x hx
    have hle := hmax x (by simp [hx])
    omega
  subst hnil
  have hout : t ∉ l₁ := by
    intro h
    have := (List.pairwise_append.mp hl).2.2 t h t List.mem_cons_self
    omega
  rw [List.erase_append_right _ hout]
  simp

/-- What making background room changes: no ticket starts or stops waiting. -/
structure Withdraws (g g' : Gate) : Prop where
  sound : g'.Sound
  control : g'.control = g.control
  isRefused : g'.isRefused = g.isRefused
  userQueued : g'.userQueued = g.userQueued
  recoveryTicket : g'.recoveryTicket = g.recoveryTicket
  waits : ∀ u, g'.Waits u ↔ g.Waits u
  users : ∀ c, c.background = false → g'.queues c = g.queues c
  queued : ∀ c u, u ∈ (g'.queues c).items → u ∈ (g.queues c).items
  grant : ∀ t, g'.grant = some t → g.grant = some t ∧
    (t ∈ (g.queues t.workClass).items → t ∈ (g'.queues t.workClass).items)
  keeps : ∀ c, (g.queues c).Keeps Ticket.owner (g'.queues c)
  marks : ∀ u, g'.isDeferred u = true → g.isDeferred u = true ∨ g.Waits u

/-- **Room among all tickets**: the newest admitted background ticket returns to the front of its
supervisor's deferred work. -/
theorem Sound.makeBackgroundRoomLocked (h : Sound g) :
    Withdraws g g.makeBackgroundRoomLocked ∧ (g.userQueued < writerQueueCapacity →
      g.makeBackgroundRoomLocked.userQueued + g.makeBackgroundRoomLocked.backgroundQueuedLocked <
        writerQueueCapacity) := by
  have hsame : Withdraws g g :=
    ⟨h, rfl, rfl, rfl, rfl, fun _ => Iff.rfl, fun _ _ => rfl, fun _ _ => id,
      fun _ ht => ⟨ht, id⟩, fun _ => Rotor.Keeps.refl _, fun _ => Or.inl⟩
  unfold Gate.makeBackgroundRoomLocked
  split_ifs with hroom
  · exact ⟨hsame, fun _ => hroom⟩
  split
  next hnone =>
    refine ⟨hsame, fun husers => ?_⟩
    obtain ⟨hmedia, hmaint⟩ := newest_eq_none hnone
    have hempty : ∀ c, (∀ x ∈ (g.queues c).items, (fun _ : Ticket => true) x = false) →
        (g.queues c).count = 0 := by
      intro c hc
      rw [(h.queues c).count_eq_zero, List.eq_nil_iff_forall_not_mem]
      exact fun x hx => by simpa using hc x hx
    rw [backgroundQueuedLocked, hempty _ (newest_eq_none hmedia).2, hempty _ hmaint]
    simpa using husers
  next t hsome =>
    obtain ⟨⟨c, hc, ht⟩, hmax⟩ := newest_background hsome
    obtain ⟨rfl, hmark, hlive⟩ := h.queued c t ht
    obtain ⟨q, hrem, heq⟩ : ∃ q,
        (g.queues t.workClass).remove Ticket.owner t false = some q ∧
        g.removeWaiterLocked t false =
          { g with queues := Function.update g.queues t.workClass q } := by
      rcases h.removeWaiterLocked_cases hlive.2.1 false with
        ⟨hq, -, -⟩ | ⟨-, q, hrem, heq⟩ | ⟨hd, -⟩
      · exact absurd ht hq
      · exact ⟨q, hrem, by rw [heq, countUser_of_background hc]⟩
      · exact absurd hd (h.not_deferred ht)
    have hsound := h.removeWaiterLocked t false
    have hout : ¬ (g.removeWaiterLocked t false).Waits t := by
      rw [h.waits_removeWaiterLocked]
      simp
    rw [heq] at hsound hout ⊢
    dsimp only
    have hmarked := hsound.mark (b := true) hlive.2.2 (fun hx => hout (Or.inl hx))
      fun hx => hout (Or.inr (Or.inl hx))
    set g₂ : Gate :=
      { g with
        grant := if g.grant = some t then none else g.grant
        queues := Function.update g.queues t.workClass q
        isDeferred := Function.update g.isDeferred t true } with hg₂
    have hsound₂ : Sound g₂ :=
      hmarked.congr rfl rfl rfl rfl le_rfl rfl rfl rfl rfl rfl rfl
    have hmark₂ : g₂.isDeferred t = true := Function.update_self ..
    set r : ClassQueue := ((g.deferred t.workClass).push Ticket.owner t).requeue Ticket.owner t
    have hlast : (((g.deferred t.workClass).push Ticket.owner t).line t.owner).getLast? = some t := by
      rw [Rotor.line_push, if_pos rfl, List.getLast?_concat]
    have hitems : r.items ~ (t :: (g.deferred t.workClass).items) :=
      (((h.deferred _).push t).items_requeue hlast).trans (h.deferred _).items_push
    have hline : r.line t.owner = t :: (g.deferred t.workClass).line t.owner := by
      rw [Rotor.line_requeue, if_pos rfl, Rotor.line_push, if_pos rfl, List.dropLast_concat]
    have hresult :
        { g₂.enqueueLocked t with
          deferred := Function.update (g₂.enqueueLocked t).deferred t.workClass
            (((g₂.enqueueLocked t).deferred t.workClass).requeue Ticket.owner t) } =
        { g₂ with deferred := Function.update g₂.deferred t.workClass r } := by
      rw [enqueueDeferred_eq hmark₂ hc]
      simp only [Function.update_self, Function.update_idem]
      rfl
    rw [hresult]
    have hnew : Sound { g₂ with deferred := Function.update g₂.deferred t.workClass r } := by
      refine hsound₂.updateDeferred (((h.deferred _).push t).requeue hlast) hlive hmark₂ hc ?_ ?_ ?_
      · intro x hx
        exact List.mem_cons.mp (hitems.mem_iff.mp hx)
      · intro o ho
        rw [Rotor.line_requeue, if_neg ho, Rotor.line_push, if_neg ho]
      · have hqline : (g₂.queues t.workClass).line t.owner =
            ((g.queues t.workClass).line t.owner).erase t := by
          simp only [hg₂, Function.update_self]
          rw [Rotor.line_remove hrem, if_pos rfl]
        have horder := h.order t.workClass t.owner
        rw [hqline, hline, List.append_cons, erase_append_of_newest]
        · exact horder
        · exact (List.pairwise_append.mp horder).1
        · exact (h.queues _).mem_items.mp ht
        · intro x hx
          exact hmax _ hc x ((h.queues _).mem_items_of_line hx)
    have hqueued : ∀ c u, u ∈ (g₂.queues c).items ↔ u ∈ (g.queues c).items ∧ u ≠ t := by
      intro c u
      have hqueues₂ : g₂.queues = (g.removeWaiterLocked t false).queues := by rw [heq]
      rw [hqueues₂]
      have hs := h.removeWaiterLocked t false
      rw [(hs.queues c).mem_items, h.line_removeWaiterLocked, (h.queues c).mem_items,
        (h.nodup_line c u.owner).of_append_left.mem_erase_iff, and_comm]
    have hdeferred : ∀ u, u ∈ (Function.update g.deferred t.workClass r u.workClass).items ↔
        u ∈ (g.deferred u.workClass).items ∨ u = t := by
      intro u
      rw [update_queue fun q => u ∈ q.items]
      split_ifs with hu
      · rw [hitems.mem_iff, List.mem_cons, hu, or_comm]
      · simp only [iff_self_or]
        rintro rfl
        exact absurd rfl hu
    refine ⟨⟨hnew, rfl, rfl, rfl, rfl, fun u => ?_, fun c hc' => ?_, fun c u hu => ?_,
      fun u hu => ?_, fun c => ?_, fun u hu => ?_⟩, fun _ => ?_⟩
    · unfold Waits
      simp only [hg₂] at hqueued ⊢
      rw [hqueued, hdeferred]
      constructor
      · rintro (⟨hu, -⟩ | (hu | rfl) | hu)
        · exact Or.inl hu
        · exact Or.inr (Or.inl hu)
        · exact Or.inl ht
        · exact Or.inr (Or.inr hu)
      · rintro (hu | hu | hu)
        · by_cases hut : u = t
          · exact Or.inr (Or.inl (Or.inr hut))
          · exact Or.inl ⟨hu, hut⟩
        · exact Or.inr (Or.inl (Or.inl hu))
        · exact Or.inr (Or.inr hu)
    · refine Function.update_of_ne ?_ _ _
      rintro rfl
      rw [hc] at hc'
      cases hc'
    · exact ((hqueued c u).mp hu).1
    · simp only [hg₂] at hu
      split_ifs at hu with hgt
      refine ⟨hu, fun hmem => (hqueued _ u).mpr ⟨hmem, ?_⟩⟩
      rintro rfl
      exact hgt hu
    · simp only [hg₂]
      by_cases hct : c = t.workClass
      · subst hct
        rw [Function.update_self]
        exact Rotor.keeps_remove (h.queues _).toLined hrem
      · rw [Function.update_of_ne hct]
        exact Rotor.Keeps.refl _
    · by_cases hut : u = t
      · exact Or.inr (Or.inl (hut ▸ ht))
      · exact Or.inl (by simpa [hg₂, Function.update_of_ne hut] using hu)
    · have hcount := (Rotor.remove_eq_some hrem).2.2.2
      have hpool := h.pool
      have hqueues₃ : ({ g₂ with
          deferred := Function.update g₂.deferred t.workClass r } : Gate).queues =
          Function.update g.queues t.workClass q := rfl
      have hback := backgroundQueuedLocked_update hqueues₃ hc
      have husers : (g₂.enqueueLocked t).userQueued = g.userQueued := by
        rw [enqueueDeferred_eq hmark₂ hc]
      omega

end Gate

end Portico.WriterGate
