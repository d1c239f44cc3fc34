import Portico.WriterGate.Room

/-!
# Who is granted the write turn

The winner is the recovery ticket under a pause, a security fence under a hold, the most important
ready user ticket while users wait, and otherwise the best promoted background ticket. A choice made
with the mutex held leaves no ticket behind that could have been granted.

## Main results

* `Sound.regrant`: a new choice keeps the gate sound and grants an eligible ticket
* `Sound.regrant_selectable`, `Sound.regrant_ne_none`: without a hold it grants a selectable ticket
  whenever there is one
-/

open scoped List

namespace Portico.WriterGate

namespace Gate

variable {g g' : Gate} {t u : Ticket} {c : Class} {ready : Ticket → Bool} {clock : Clock}

/-- A ticket the gate may grant: the reserved one of a pause, or the front of its class, a security
fence within its reserve under a hold, and a background ticket only when no user ticket waits. -/
def Eligible (t : Ticket) (g : Gate) : Prop :=
  (t.recovery = true ∧ g.recoveryTicket = some t) ∨
    (t.recovery = false ∧ (g.queues t.workClass).front = some t ∧ g.pauseEpoch = 0 ∧
      (g.holdEpoch ≠ 0 →
        t.workClass = .securityFence ∧ g.holdSecurity < recoverySecurityReserve) ∧
      (t.workClass.background = true → g.userQueued = 0))

/-- A ticket an unhindered gate could grant: ready, next in its class, and, for a background ticket,
not overtaking a user ticket. A deferred ticket is next when its class has no admitted ticket and
the pool has a place for it. -/
def Selectable (ready : Ticket → Bool) (t : Ticket) (g : Gate) : Prop :=
  ready t = true ∧
    ((g.queues t.workClass).front = some t ∨
      ((g.queues t.workClass).items = [] ∧ (g.deferred t.workClass).front = some t ∧
        g.backgroundQueuedLocked < writerQueueCapacity)) ∧
    (t.workClass.background = true → g.userQueued = 0)

theorem Eligible.waits (h : Sound g) (ht : g.Eligible t) : g.Waits t := by
  rcases ht with ⟨-, ht⟩ | ⟨-, ht, -⟩
  · exact Or.inr (Or.inr ht)
  · exact Or.inl ((h.queues _).mem_of_front ht)

theorem readyFront_eq_some :
    g.readyFront ready c = some t ↔ (g.queues c).front = some t ∧ ready t = true := by
  unfold readyFront
  rw [Option.filter_eq_some_iff]

theorem Sound.readyFront_class (h : Sound g) (ht : g.readyFront ready c = some t) :
    t.workClass = c ∧ t.recovery = false := by
  obtain ⟨hc, -, hlive⟩ := h.queued c t ((h.queues c).mem_of_front (readyFront_eq_some.mp ht).1)
  exact ⟨hc, hlive.2.1⟩

/-! ## The choice of a winner -/

theorem pickWinnerLocked_paused (hp : g.pauseEpoch ≠ 0) :
    g.pickWinnerLocked ready clock = (g.recoveryTicket, g) := by
  rw [pickWinnerLocked, if_pos hp]

theorem pickWinnerLocked_held (hp : g.pauseEpoch = 0) (hh : g.holdEpoch ≠ 0) :
    g.pickWinnerLocked ready clock =
      (if g.holdSecurity < recoverySecurityReserve then g.readyFront ready .securityFence
        else none, g) := by
  rw [pickWinnerLocked, if_neg (by simp [hp]), if_pos hh]
  split_ifs <;> rfl

theorem pickWinnerLocked_users (hh : g.holdEpoch = 0) (hp : g.pauseEpoch = 0)
    (hu : 0 < g.userQueued) (ready : Ticket → Bool) (clock : Clock) :
    g.pickWinnerLocked ready clock = (userClasses.findSome? fun c => g.readyFront ready c, g) := by
  rw [pickWinnerLocked, if_neg (by simp [hp]), if_neg (by simp [hh]), if_pos hu]
  rfl

theorem pickWinnerLocked_background (hh : g.holdEpoch = 0) (hp : g.pauseEpoch = 0)
    (hu : ¬ 0 < g.userQueued) (ready : Ticket → Bool) (clock : Clock) :
    g.pickWinnerLocked ready clock =
      (prefer clock.pick
        (prefer clock.pick none
          ((g.admitBackgroundLocked clock.admitAgain).readyFront ready .backgroundMedia))
        ((g.admitBackgroundLocked clock.admitAgain).readyFront ready .maintenance),
        g.admitBackgroundLocked clock.admitAgain) := by
  rw [pickWinnerLocked, if_neg (by simp [hp]), if_neg (by simp [hh]), if_neg hu]
  rfl

theorem Sound.users_nonneg (h : Sound g) : 0 ≤ g.userQueued := by
  rw [h.users]
  exact Int.natCast_nonneg _

theorem Sound.userQueued_eq_zero (h : Sound g) (hu : ¬ 0 < g.userQueued) : g.userQueued = 0 := by
  have := h.users_nonneg
  omega

/-- **The winner** is eligible, and choosing it admits background tickets at most. -/
theorem Sound.pickWinnerLocked (h : Sound g) (ready : Ticket → Bool) (clock : Clock) :
    Admits g (g.pickWinnerLocked ready clock).2 ∧
      ∀ t, (g.pickWinnerLocked ready clock).1 = some t →
        (g.pickWinnerLocked ready clock).2.Eligible t := by
  by_cases hp : g.pauseEpoch = 0
  swap
  · rw [pickWinnerLocked_paused hp]
    exact ⟨Admits.refl h, fun t ht => Or.inl ⟨(h.reserved t ht).1, ht⟩⟩
  by_cases hh : g.holdEpoch = 0
  swap
  · rw [pickWinnerLocked_held hp hh]
    refine ⟨Admits.refl h, fun t ht => Or.inr ?_⟩
    dsimp only at ht ⊢
    split_ifs at ht with hs
    obtain ⟨hc, hr⟩ := h.readyFront_class ht
    refine ⟨hr, hc ▸ (readyFront_eq_some.mp ht).1, hp, fun _ => ⟨hc, hs⟩, fun hb => ?_⟩
    rw [hc] at hb
    cases hb
  by_cases hu : 0 < g.userQueued
  · rw [pickWinnerLocked_users hh hp hu]
    refine ⟨Admits.refl h, fun t ht => Or.inr ?_⟩
    obtain ⟨c, hc, ht⟩ := List.exists_of_findSome?_eq_some ht
    obtain ⟨rfl, hr⟩ := h.readyFront_class ht
    refine ⟨hr, (readyFront_eq_some.mp ht).1, hp, fun hn => absurd hh hn, fun hb => ?_⟩
    rw [mem_userClasses.mp hc] at hb
    cases hb
  · have hadmits := h.admitBackgroundLocked clock.admitAgain
    have husers := h.userQueued_eq_zero hu
    rw [pickWinnerLocked_background hh hp hu]
    refine ⟨hadmits, fun t ht => Or.inr ?_⟩
    dsimp only at ht ⊢
    have hfront : ∃ c, (g.admitBackgroundLocked clock.admitAgain).readyFront ready c = some t := by
      rcases prefer_eq_some ht with ht | ht
      · exact ⟨_, (prefer_eq_some ht).resolve_left (by simp)⟩
      · exact ⟨_, ht⟩
    obtain ⟨c, ht⟩ := hfront
    obtain ⟨rfl, hr⟩ := hadmits.sound.readyFront_class ht
    exact ⟨hr, (readyFront_eq_some.mp ht).1, (control_pauseEpoch hadmits.control).trans hp,
      fun hn => absurd ((control_holdEpoch hadmits.control).trans hh) hn,
      fun _ => hadmits.userQueued.trans husers⟩

/-! ## A new choice -/

theorem regrant_active (ha : g.active = true) : g.regrant ready clock = g := by
  rw [regrant, if_pos ha]

theorem regrant_idle (ha : g.active = false) :
    g.regrant ready clock =
      { (g.pickWinnerLocked ready clock).2 with
        grant := (g.pickWinnerLocked ready clock).1 } := by
  rw [regrant, if_neg (by simp [ha])]

/-- A pending grant names an eligible ticket, and waits for no turn to end. -/
def Granted (g : Gate) : Prop := ∀ t, g.grant = some t → g.active = false ∧ g.Eligible t

/-- What a new choice changes, the grant apart: no ticket starts or stops waiting. -/
structure Regrants (g g' : Gate) : Prop where
  sound : g'.Sound
  control : g'.control = g.control
  isRefused : g'.isRefused = g.isRefused
  userQueued : g'.userQueued = g.userQueued
  recoveryTicket : g'.recoveryTicket = g.recoveryTicket
  waits : ∀ u, g'.Waits u ↔ g.Waits u
  keeps : ∀ c, (g.queues c).Keeps Ticket.owner (g'.queues c)
  queued : ∀ c u, u ∈ (g.queues c).items → u ∈ (g'.queues c).items

theorem Regrants.refl (h : Sound g) : Regrants g g :=
  ⟨h, rfl, rfl, rfl, rfl, fun _ => Iff.rfl, fun _ => Rotor.Keeps.refl _, fun _ _ => id⟩

theorem Admits.regrants (h : Sound g) (ha : Admits g g') : Regrants g g' :=
  ⟨ha.sound, ha.control, ha.isRefused, ha.userQueued, ha.recoveryTicket, ha.waits,
    fun c => Rotor.keeps_of_prefix (h.queues c).toLined (ha.rotation c), ha.queued⟩

/-- **A new choice** keeps the gate sound, and the grant it makes is eligible. -/
theorem Sound.regrant (h : Sound g) (ready : Ticket → Bool) (clock : Clock) :
    Regrants g (g.regrant ready clock) ∧
      (g.active = false → (g.regrant ready clock).Granted) := by
  cases ha : g.active with
  | true =>
    rw [regrant_active ha]
    exact ⟨Regrants.refl h, fun hf => by cases hf⟩
  | false =>
    obtain ⟨hadmits, heligible⟩ := h.pickWinnerLocked ready clock
    have hre := hadmits.regrants h
    rw [regrant_idle ha]
    refine ⟨⟨?_, hre.control, hre.isRefused, hre.userQueued, hre.recoveryTicket, hre.waits,
      hre.keeps, hre.queued⟩, fun _ t ht => ⟨?_, heligible t ht⟩⟩
    · exact hre.sound.congr rfl rfl rfl rfl le_rfl rfl rfl rfl rfl rfl rfl
    · exact (control_active hadmits.control).trans ha

/-! ## No selectable ticket is left behind -/

theorem Sound.user_queued (h : Sound g) (ht : t ∈ (g.queues t.workClass).items)
    (hu : t.workClass.background = false) : 0 < g.userQueued := by
  rw [h.users]
  have : t ∈ g.userTickets := h.mem_userTickets.mpr ⟨user_iff.mpr hu, ht⟩
  exact_mod_cast List.length_pos_of_mem this

theorem Sound.background_of_deferred (h : Sound g) (ht : (g.deferred c).front = some t) :
    t.workClass = c ∧ c.background = true := by
  obtain ⟨h₁, h₂, -⟩ := h.waiting c t ((h.deferred c).mem_of_front ht)
  exact ⟨h₁, h₂⟩

/-- An idle gate whose class has no admitted ticket has its deferred front for a candidate. -/
theorem Sound.candidate_front (h : Sound g) (ha : g.active = false)
    (hempty : (g.queues c).items = []) (ht : (g.deferred c).front = some t) :
    g.candidate c = some t := by
  obtain ⟨hrot, hhead⟩ := (h.deferred c).front_eq_some.mp ht
  obtain ⟨os, hos⟩ := List.head?_eq_some_iff.mp hrot
  have hline : (g.queues c).line t.owner = [] := by
    refine List.eq_nil_iff_forall_not_mem.mpr fun x hx => ?_
    have := (h.queues c).mem_items_of_line hx
    rw [hempty] at this
    exact List.not_mem_nil this
  have hlimit : g.outstanding c t.owner < backgroundTicketLimit c := by
    unfold outstanding backgroundTicketLimit
    rw [hline, ha]
    simp only [Bool.false_eq_true, false_and, if_false, List.length_nil]
    split_ifs <;> omega
  unfold candidate
  rw [hos, List.find?_cons_of_pos (by simpa using hlimit), Option.bind_some]
  exact hhead

/-- **Nobody is left behind.** With no turn, hold or pause, a new choice grants a selectable ticket
whenever there is one. -/
theorem Sound.regrant_ne_none (h : Sound g) (ha : g.active = false) (hh : g.holdEpoch = 0)
    (hp : g.pauseEpoch = 0) (ht : (g.regrant ready clock).Selectable ready t) :
    (g.regrant ready clock).grant ≠ none := by
  rw [regrant_idle ha] at ht ⊢
  obtain ⟨hready, hnext, hback⟩ := ht
  dsimp only at hnext hback ⊢
  by_cases hu : 0 < g.userQueued
  · rw [pickWinnerLocked_users hh hp hu] at hnext hback ⊢
    dsimp only at hnext hback ⊢
    have hclass : t.workClass.background = false := by
      rw [← Bool.not_eq_true]
      intro hb
      have := hback hb
      omega
    rcases hnext with hfront | ⟨-, hdef, -⟩
    · rw [Ne, List.findSome?_eq_none_iff]
      intro hnone
      have := hnone _ (mem_userClasses.mpr hclass)
      rw [readyFront_eq_some.mpr ⟨hfront, hready⟩] at this
      cases this
    · rw [(h.background_of_deferred hdef).2] at hclass
      cases hclass
  · have husers := h.userQueued_eq_zero hu
    have hadmits := h.admitBackgroundLocked clock.admitAgain
    have hdone := h.admitBackgroundLocked_done clock.admitAgain husers hh hp
    rw [pickWinnerLocked_background hh hp hu] at hnext hback ⊢
    dsimp only at hnext hback ⊢
    set g' := g.admitBackgroundLocked clock.admitAgain
    have ha' : g'.active = false := (control_active hadmits.control).trans ha
    have hsound' := hadmits.sound
    have hfront : (g'.queues t.workClass).front = some t := by
      rcases hnext with hfront | ⟨hempty, hdef, hpool⟩
      · exact hfront
      · have hcand := hsound'.candidate_front ha' hempty hdef
        have hb := (hsound'.background_of_deferred hdef).2
        rcases hdone with hfull | hnone
        · exact absurd hpool (not_lt.mpr hfull)
        · rw [hnone _ hb] at hcand
          cases hcand
    have hb : t.workClass.background = true := by
      rw [← Bool.not_eq_false]
      intro hb
      have := hsound'.user_queued ((hsound'.queues _).mem_of_front hfront) hb
      have := hadmits.userQueued
      omega
    have hreadyFront := readyFront_eq_some.mpr ⟨hfront, hready⟩
    rw [Ne, prefer_eq_none, prefer_eq_none]
    rintro ⟨⟨-, h₁⟩, h₂⟩
    cases hc : t.workClass <;> rw [hc] at hreadyFront hb
    case backgroundMedia =>
      rw [h₁] at hreadyFront
      cases hreadyFront
    case maintenance =>
      rw [h₂] at hreadyFront
      cases hreadyFront
    all_goals cases hb

end Gate

end Portico.WriterGate
