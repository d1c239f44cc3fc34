import Portico.WriterGate.Recovery

/-!
# Priority and order

Outside a recovery hold users come before bulk work, an important class before a lesser one, and bulk
work by its promoted rung. Inside a class owners take turns, and one owner's tickets are granted in
the order they arrived.

## Main results

* `Sound.picks`: the winner follows the ladder
* `rotation_step`: a section keeps a served owner behind an owner it leaves queued
* `turn_waits`: a turn belongs to a ticket that waited, or that arrived since
* `gate_ordered`: every reachable state is ordered
-/

open scoped List

namespace Portico.WriterGate

open Machine Gate

/-! ## Rungs -/

section Rungs

variable {now : ℤ} {t u v : Ticket} {r s : Option Ticket}

/-- A background ticket comes before another by its promoted rung, then by its arrival. -/
def Precedes (now : ℤ) (t u : Ticket) : Prop :=
  promotedPriority t.workClass t.since now < promotedPriority u.workClass u.since now ∨
    promotedPriority t.workClass t.since now = promotedPriority u.workClass u.since now ∧
      t.since ≤ u.since

theorem Precedes.refl (now : ℤ) (t : Ticket) : Precedes now t t := Or.inr ⟨rfl, le_rfl⟩

theorem outranks_precedes (h : outranks now t u = true) : Precedes now t u := by
  simp only [outranks, Bool.or_eq_true, Bool.and_eq_true, decide_eq_true_eq] at h
  unfold Precedes
  omega

theorem not_outranks_precedes (h : ¬ outranks now t u = true) : Precedes now u t := by
  simp only [outranks, Bool.or_eq_true, Bool.and_eq_true, decide_eq_true_eq] at h
  unfold Precedes
  omega

theorem prefer_precedes (h : prefer now s r = some t) :
    (∀ u, s = some u → Precedes now t u) ∧ ∀ u, r = some u → Precedes now t u := by
  cases s with
  | none =>
    refine ⟨fun _ hu => (nomatch hu), fun u hu => ?_⟩
    rw [show r = some t from h] at hu
    exact Option.some.inj hu ▸ Precedes.refl now t
  | some a =>
    cases r with
    | none =>
      obtain rfl := Option.some.inj h
      refine ⟨fun u hu => ?_, fun _ hu => (nomatch hu)⟩
      exact Option.some.inj hu ▸ Precedes.refl now a
    | some b =>
      simp only [prefer] at h
      split_ifs at h with hab
      · obtain rfl := Option.some.inj h
        refine ⟨fun u hu => ?_, fun u hu => ?_⟩
        · exact Option.some.inj hu ▸ outranks_precedes hab
        · exact Option.some.inj hu ▸ Precedes.refl now b
      · obtain rfl := Option.some.inj h
        refine ⟨fun u hu => ?_, fun u hu => ?_⟩
        · exact Option.some.inj hu ▸ Precedes.refl now a
        · exact Option.some.inj hu ▸ not_outranks_precedes hab

theorem le_promotedPriority (h : t.workClass.background = true) :
    Class.backgroundMedia.priority ≤ promotedPriority t.workClass t.since now := by
  rw [promotedPriority, if_pos h]
  exact le_max_left _ _

end Rungs

namespace Gate

variable {g g' : Gate} {t u : Ticket} {c : Class} {ready : Ticket → Bool} {clock : Clock}

/-! ## The ladder -/

/-- **The ladder.** No background ticket is chosen while a user ticket is queued; a user ticket comes
from the most important class whose front is ready; a background ticket is the first by its promoted
rung, the media rung at best, among the ready fronts the admissions leave. -/
structure Picks (ready : Ticket → Bool) (clock : Clock) (g : Gate) : Prop where
  foreground : ∀ t, (g.pickWinnerLocked ready clock).1 = some t →
    t.workClass.background = true → g.userTickets = []
  ladder : ∀ t, (g.pickWinnerLocked ready clock).1 = some t → t.user = true →
    g.readyFront ready t.workClass = some t ∧
      ∀ c u, g.readyFront ready c = some u → t.workClass.priority ≤ c.priority
  rung : ∀ t, (g.pickWinnerLocked ready clock).1 = some t → t.workClass.background = true →
    Class.backgroundMedia.priority ≤ promotedPriority t.workClass t.since clock.pick ∧
      (g.pickWinnerLocked ready clock).2.readyFront ready t.workClass = some t ∧
      ∀ c u, c.background = true →
        (g.pickWinnerLocked ready clock).2.readyFront ready c = some u → Precedes clock.pick t u

theorem userClasses_sorted : userClasses.Pairwise fun c c' => c.priority < c'.priority := by
  decide

theorem priority_lt_of_background {c c' : Class} (hc : c.background = false)
    (hc' : c'.background = true) : c.priority < c'.priority := by
  simp only [Class.background, decide_eq_true_eq, decide_eq_false_iff_not] at hc hc'
  omega

/-- The first ready front of the user classes is in the most important of them. -/
theorem Sound.ladder (h : Sound g)
    (ht : (userClasses.findSome? fun c => g.readyFront ready c) = some t) :
    g.readyFront ready t.workClass = some t ∧
      ∀ c u, g.readyFront ready c = some u → t.workClass.priority ≤ c.priority := by
  obtain ⟨l, a, l', hsplit, ha, hbefore⟩ := List.findSome?_eq_some_iff.mp ht
  obtain ⟨rfl, -⟩ := h.readyFront_class ha
  have hclass : t.workClass ∈ userClasses := by simp [hsplit]
  refine ⟨ha, fun c u hu => ?_⟩
  cases hb : c.background with
  | true => exact (priority_lt_of_background (mem_userClasses.mp hclass) hb).le
  | false =>
    have hsorted := userClasses_sorted
    have hc := mem_userClasses.mpr hb
    rw [hsplit] at hc hsorted
    rcases List.mem_append.mp hc with hc | hc
    · rw [hbefore c hc] at hu
      cases hu
    · rcases List.mem_cons.mp hc with rfl | hc
      · exact le_rfl
      · have := (List.pairwise_cons.mp (List.pairwise_append.mp hsorted).2.1).1 c hc
        exact this.le

/-- **The winner follows the ladder** outside a hold. -/
theorem Sound.picks (h : Sound g) (hh : g.holdEpoch = 0) : Picks ready clock g := by
  have hp : g.pauseEpoch = 0 := by
    by_contra hp
    exact h.paused hp hh
  by_cases hu : 0 < g.userQueued
  · have hpick := pickWinnerLocked_users hh hp hu ready clock
    have hwinner : ∀ t, (g.pickWinnerLocked ready clock).1 = some t →
        (userClasses.findSome? fun c => g.readyFront ready c) = some t := fun t ht => by
      rwa [hpick] at ht
    have huser : ∀ t, (g.pickWinnerLocked ready clock).1 = some t →
        t.workClass.background = false := fun t ht => by
      obtain ⟨c, hc, ht⟩ := List.exists_of_findSome?_eq_some (hwinner t ht)
      obtain ⟨rfl, -⟩ := h.readyFront_class ht
      exact mem_userClasses.mp hc
    refine ⟨fun t ht hb => ?_, fun t ht _ => h.ladder (hwinner t ht), fun t ht hb => ?_⟩
    · rw [huser t ht] at hb
      cases hb
    · rw [huser t ht] at hb
      cases hb
  · have husers := h.userQueued_eq_zero hu
    have hpick := pickWinnerLocked_background hh hp hu ready clock
    have hadmits := h.admitBackgroundLocked clock.admitAgain
    set g' := g.admitBackgroundLocked clock.admitAgain
    have hfront : ∀ t, (g.pickWinnerLocked ready clock).1 = some t →
        t.workClass.background = true ∧ g'.readyFront ready t.workClass = some t := by
      intro t ht
      rw [hpick] at ht
      have hclass : ∃ c, c.background = true ∧ g'.readyFront ready c = some t := by
        rcases prefer_eq_some ht with ht | ht
        · exact ⟨_, rfl, (prefer_eq_some ht).resolve_left (by simp)⟩
        · exact ⟨_, rfl, ht⟩
      obtain ⟨c, hc, ht⟩ := hclass
      obtain ⟨rfl, -⟩ := hadmits.sound.readyFront_class ht
      exact ⟨hc, ht⟩
    refine ⟨fun t _ _ => ?_, fun t ht hb => ?_, fun t ht hb => ?_⟩
    · rw [← List.length_eq_zero_iff]
      have := h.users
      omega
    · rw [user_iff, (hfront t ht).1] at hb
      cases hb
    · refine ⟨le_promotedPriority hb, ?_, fun c u hc hu' => ?_⟩
      · rw [hpick]
        exact (hfront t ht).2
      · rw [hpick] at ht hu'
        obtain ⟨hmedia, hmaint⟩ := prefer_precedes ht
        cases c
        case backgroundMedia => exact hmedia u hu'
        case maintenance => exact hmaint u hu'
        all_goals cases hc

end Gate

namespace System

variable {s s' : System} {t u : Ticket} {w : Caller} {e : Event} {es : List Event} {c : Class}
  {o p : String}

/-! ## One owner's tickets -/

/-- A granted ticket is its owner's oldest in its class, the deferred ones included. -/
theorem Inv.grant_oldest (h : s.Inv) (hg : s.gate.grant = some t) (hr : t.recovery = false)
    (hu : s.gate.Waits u) (hur : u.recovery = false) (hclass : u.workClass = t.workClass)
    (howner : u.owner = t.owner) : u = t ∨ t.id < u.id := by
  rcases (h.granted t hg).2 with ⟨hr', -⟩ | ⟨-, hfront, -⟩
  · rw [hr] at hr'
    cases hr'
  have horder := h.sound.order t.workClass t.owner
  have hhead := ((h.sound.queues _).front_eq_some.mp hfront).2
  obtain ⟨l, hl⟩ := List.head?_eq_some_iff.mp hhead
  have hmem : u ∈ (s.gate.queues t.workClass).line t.owner ++
      (s.gate.deferred t.workClass).line t.owner := by
    rw [List.mem_append]
    rcases hu with hu | hu | hu
    · exact Or.inl (hclass ▸ howner ▸ (h.sound.queues _).toLined.mem_items.mp hu)
    · exact Or.inr (hclass ▸ howner ▸ (h.sound.deferred _).toLined.mem_items.mp hu)
    · rw [(h.sound.reserved u hu).1] at hur
      cases hur
  rw [hl, List.cons_append] at horder hmem
  rcases List.mem_cons.mp hmem with rfl | hmem
  · exact Or.inl rfl
  · exact Or.inr ((List.pairwise_cons.mp horder).1 u hmem)

theorem Inv.waits_takeTurn (h : s.Inv) {held : ℤ} :
    (s.takeTurn w held).gate.Waits u ↔ s.gate.Waits u ∧ u ≠ w.ticket :=
  h.sound.waits_removeWaiterLocked

theorem nextID_takeTurn {held : ℤ} : (s.takeTurn w held).gate.nextID = s.gate.nextID :=
  (control_nextID (removeWaiterLocked_control (t := w.ticket) (g := s.gate)) :)

/-- **A turn belongs to a ticket that waited**, or that arrived since. -/
theorem turn_waits (h : s.Inv) (hrun : run step s es = some s') :
    ∀ w ∈ turns s es, s.gate.Waits w.ticket ∨ s.gate.nextID < w.ticket.id := by
  induction es generalizing s with
  | nil => simp [turns]
  | cons e es ih =>
    obtain ⟨t, ht, hrun⟩ := run_cons.mp hrun
    rw [turns_cons ht]
    intro w hw
    rcases List.mem_append.mp hw with hw | hw
    · exact Or.inl ((h.granted _ (h.step_grant ht hw)).2.waits h.sound)
    · have hlater := ih (h.step ht) hrun w hw
      rcases h.step_cases ht with ⟨v, held, -, hg, rfl⟩ | hq
      · rw [h.waits_takeTurn, nextID_takeTurn] at hlater
        exact hlater.imp_left And.left
      · rcases hlater with hwaits | hid
        · exact hq.waits _ hwaits
        · exact Or.inr (hq.nextID.trans_lt hid)

/-- **First in, first out**: a run starts the turns of one owner and class in arrival order. -/
theorem turns_sorted (h : s.Inv) (hrun : run step s es = some s') :
    (turns s es).Pairwise fun v w => v.ticket.recovery = false → w.ticket.recovery = false →
      w.ticket.workClass = v.ticket.workClass → w.ticket.owner = v.ticket.owner →
      v.ticket.id < w.ticket.id := by
  induction es generalizing s with
  | nil => exact List.Pairwise.nil
  | cons e es ih =>
    obtain ⟨t, ht, hrun⟩ := run_cons.mp hrun
    rw [turns_cons ht]
    refine List.pairwise_append.mpr ⟨?_, ih (h.step ht) hrun, ?_⟩
    · rcases h.step_cases ht with ⟨v, held, -, hg, rfl⟩ | hq
      · rw [h.began_takeTurn hg]
        exact List.pairwise_singleton _ _
      · rw [hq.began]
        exact List.Pairwise.nil
    · intro v hv w hw hr hr' hclass howner
      have hg := h.step_grant ht hv
      have hlater := turn_waits (h.step ht) hrun w hw
      rcases h.step_cases ht with ⟨x, held, -, hgx, rfl⟩ | hq
      · rw [h.began_takeTurn hgx, List.mem_singleton] at hv
        subst hv
        rw [h.waits_takeTurn, nextID_takeTurn] at hlater
        rcases hlater with ⟨hwaits, hne⟩ | hid
        · exact (h.grant_oldest hg hr hwaits hr' hclass howner).resolve_left hne
        · exact (h.sound.id_le ((h.granted _ hg).2.waits h.sound)).trans_lt hid
      · rw [hq.began] at hv
        cases hv

/-! ## Owners take turns -/

/-- A turn of an owner in a class. -/
def Serves (c : Class) (o : String) (w : Caller) : Prop :=
  w.ticket.recovery = false ∧ w.ticket.workClass = c ∧ w.ticket.owner = o

/-- A section leaves a ticket of an owner in the queue of a class. -/
def Stays (c : Class) (o : String) (s s' : System) : Prop :=
  ∃ x ∈ (s.gate.queues c).items, x ∈ (s'.gate.queues c).items ∧ x.owner = o

/-- Every section of a run leaves an owner queued in a class, and none serves it there. -/
def Passed (c : Class) (o : String) : System → List Event → Prop
  | _, [] => True
  | s, e :: es => ∀ s', s.step e = some s' →
    Stays c o s s' ∧ (∀ w ∈ began s s', ¬ Serves c o w) ∧ Passed c o s' es

theorem Inv.queues_takeTurn (h : s.Inv) (hg : s.gate.grant = some w.ticket)
    (hr : w.ticket.recovery = false) (held : ℤ) :
    (s.gate.queues w.ticket.workClass).front = some w.ticket ∧
      ∃ q, (s.gate.queues w.ticket.workClass).remove Ticket.owner w.ticket true = some q ∧
        (s.takeTurn w held).gate.queues =
          Function.update s.gate.queues w.ticket.workClass q := by
  rcases (h.granted _ hg).2 with ⟨hr', -⟩ | ⟨-, hfront, -⟩
  · rw [hr] at hr'
    cases hr'
  refine ⟨hfront, ?_⟩
  have hmem := (h.sound.queues _).mem_of_front hfront
  rcases h.sound.removeWaiterLocked_cases hr true with
    ⟨hq, -⟩ | ⟨-, q, hremove, heq⟩ | ⟨hd, -⟩
  · exact absurd hmem hq
  · refine ⟨q, hremove, ?_⟩
    show (s.gate.removeWaiterLocked w.ticket true).queues = _
    rw [heq, countUser_queues]
  · exact absurd hd (h.sound.not_deferred hmem)

theorem queues_takeTurn_recovery (hr : w.ticket.recovery = true) {held : ℤ} :
    (s.takeTurn w held).gate.queues = s.gate.queues := by
  show (s.gate.removeWaiterLocked w.ticket true).queues = _
  rw [Gate.removeWaiterLocked, if_pos hr]
  split_ifs <;> rfl

/-- **A served owner goes behind** every other owner queued in its class. -/
theorem Inv.served_behind (h : s.Inv) (hs : s.step e = some s') (hw : w ∈ began s s')
    (hserves : Serves c p w) (hne : o ≠ p) (ho : ∃ x ∈ (s.gate.queues c).items, x.owner = o) :
    p ∉ (s'.gate.queues c).ahead o := by
  obtain ⟨hr, rfl, rfl⟩ := hserves
  rcases h.step_cases hs with ⟨v, held, -, hg, rfl⟩ | hq
  · rw [h.began_takeTurn hg, List.mem_singleton] at hw
    subst hw
    obtain ⟨-, q, hremove, hqueues⟩ := h.queues_takeTurn hg hr held
    have hlined := (h.sound.queues w.ticket.workClass).toLined
    rw [hqueues, Function.update_self]
    refine Rotor.served_ahead hlined hremove ?_ hne
    obtain ⟨x, hx, rfl⟩ := ho
    rw [(hlined.remove hremove).mem_rotation, Rotor.line_remove hremove, if_neg hne]
    exact List.ne_nil_of_mem (hlined.mem_items.mp hx)
  · rw [hq.began] at hw
    cases hw

/-- **A section keeps a served owner behind** an owner it leaves queued and doesn't serve. -/
theorem Inv.rotation_step (h : s.Inv) (hs : s.step e = some s') (hstays : Stays c o s s')
    (hserve : ∀ w ∈ began s s', ¬ Serves c o w) (hp : p ∉ (s.gate.queues c).ahead o) :
    p ∉ (s'.gate.queues c).ahead o := by
  obtain ⟨x, hx, hx', rfl⟩ := hstays
  rcases h.step_cases hs with ⟨v, held, -, hg, rfl⟩ | hq
  · rw [h.began_takeTurn hg] at hserve
    cases hr : v.ticket.recovery with
    | true => rwa [queues_takeTurn_recovery hr]
    | false =>
      obtain ⟨-, q, hremove, hqueues⟩ := h.queues_takeTurn hg hr held
      by_cases hc : c = v.ticket.workClass
      · subst hc
        have hne : x.owner ≠ v.ticket.owner := fun heq =>
          hserve v (List.mem_singleton_self v) ⟨hr, rfl, heq.symm⟩
        rw [hqueues, Function.update_self] at hx' ⊢
        have hahead := Rotor.ahead_remove (h.sound.queues _).toLined hremove hx hx' fun _ => hne
        exact fun hmem => hp (hahead hmem)
      · rwa [hqueues, Function.update_of_ne hc]
  · exact fun hmem => hp (hq.turns c x hx hx' hmem)

theorem Inv.not_served (h : s.Inv) (hs : s.step e = some s') (hne : o ≠ p)
    (hp : p ∉ (s.gate.queues c).ahead o) : ∀ w ∈ began s s', ¬ Serves c p w := by
  rintro w hw ⟨hr, rfl, rfl⟩
  have hg := h.step_grant hs hw
  obtain ⟨hfront, -⟩ := h.queues_takeTurn hg hr 0
  exact hp ((h.sound.queues _).owner_front_mem_ahead hfront hne)

/-- **Owners take turns**: an owner behind another isn't served while the other is passed. -/
theorem rotation_run (h : s.Inv) (hne : o ≠ p) (hp : p ∉ (s.gate.queues c).ahead o)
    (hrun : run step s es = some s') (hpassed : Passed c o s es) :
    ∀ w ∈ turns s es, ¬ Serves c p w := by
  induction es generalizing s with
  | nil => simp [turns]
  | cons e es ih =>
    obtain ⟨t, ht, hrun⟩ := run_cons.mp hrun
    obtain ⟨hstays, hserve, hpassed⟩ := hpassed t ht
    rw [turns_cons ht]
    intro w hw
    rcases List.mem_append.mp hw with hw | hw
    · exact h.not_served ht hne hp w hw
    · exact ih (h.step ht) (h.rotation_step ht hstays hserve hp) hrun hpassed w hw

/-! ## Priority and order -/

/-- **Priority and order** from a state on: the ladder outside a hold, the owners of a class in turn,
and one owner's tickets of a class in arrival order. -/
structure Ordered (s : System) : Prop where
  picks : s.gate.holdEpoch = 0 → ∀ ready clock, Picks ready clock s.gate
  rotation : ∀ e s₁ w, s.step e = some s₁ → w ∈ began s s₁ → w.ticket.recovery = false →
    ∀ o ≠ w.ticket.owner, (∃ x ∈ (s.gate.queues w.ticket.workClass).items, x.owner = o) →
    ∀ es s', run step s₁ es = some s' → Passed w.ticket.workClass o s₁ es →
    ∀ v ∈ turns s₁ es, ¬ Serves w.ticket.workClass w.ticket.owner v
  granted : ∀ t u, s.gate.grant = some t → s.gate.Waits u → t.recovery = false →
    u.recovery = false → u.workClass = t.workClass → u.owner = t.owner → u = t ∨ t.id < u.id
  sorted : ∀ es s', run step s es = some s' →
    (turns s es).Pairwise fun v w => v.ticket.recovery = false → w.ticket.recovery = false →
      w.ticket.workClass = v.ticket.workClass → w.ticket.owner = v.ticket.owner →
      v.ticket.id < w.ticket.id

/-- **Every reachable state is ordered.** -/
theorem gate_ordered (h : s.Reachable) : s.Ordered := by
  have hinv := h.inv
  refine ⟨fun hh _ _ => hinv.sound.picks hh, ?_, ?_, fun es s' hrun => turns_sorted hinv hrun⟩
  · intro e s₁ w hs hw hr o hne ho es s' hrun hpassed
    have hbehind := hinv.served_behind hs hw ⟨hr, rfl, rfl⟩ hne ho
    exact rotation_run (hinv.step hs) hne hbehind hrun hpassed
  · intro t u hg hu hr hur hclass howner
    exact hinv.grant_oldest hg hr hu hur hclass howner

/-- Two maintenance operations have come, each twice. The second acquisition of each waits before
admission. -/
def crowded : System :=
  ((((init fun _ => roomyLedger).acquire 8 ⟨"", "a", none, false⟩ 0 stillClock).acquire
    8 ⟨"", "b", none, false⟩ 0 stillClock).acquire 8 ⟨"", "a", none, false⟩ 0 stillClock).acquire
    8 ⟨"", "b", none, false⟩ 0 stillClock

theorem crowded_reachable : crowded.Reachable :=
  ⟨_, [.acquire 8 ⟨"", "a", none, false⟩ 0 stillClock, .acquire 8 ⟨"", "b", none, false⟩ 0 stillClock,
    .acquire 8 ⟨"", "a", none, false⟩ 0 stillClock, .acquire 8 ⟨"", "b", none, false⟩ 0 stillClock],
    rfl⟩

/-- The caller of a maintenance acquisition. -/
def maintainer (id : ℕ) (operation : String) : Caller :=
  ⟨⟨none, id, .maintenance, "supervisor:" ++ operation, 0, false⟩, false⟩

/-- The granted ticket of the crowded gate is the oldest, and the gate is ordered. -/
theorem gate_ordered_crowded :
    crowded.gate.grant = some (maintainer 1 "a").ticket ∧ crowded.Ordered :=
  ⟨by decide +kernel, gate_ordered crowded_reachable⟩

/-- The first turn of the crowded gate has begun. -/
def firstTurn : System := crowded.poll (maintainer 1 "a") false 0 stillClock

/-- **An owner overtakes one that waits before admission**: `a` is served, its turn ends, `b`'s
admitted acquisition is cancelled, and `a` is served again, while `b`'s other acquisition waited all
along. -/
theorem rotation_overtaken :
    ¬ ∀ (s s₁ s' : System) (e : Event) (es : List Event) (w : Caller) (x : Ticket),
      s.Reachable → s.step e = some s₁ → w ∈ began s s₁ → w.ticket.recovery = false →
      s.gate.Waits x → x.workClass = w.ticket.workClass → x.owner ≠ w.ticket.owner →
      run step s₁ es = some s' → Along step (fun t => t.gate.Waits x) s₁ es →
      (∀ v ∈ turns s₁ es, ¬ Serves x.workClass x.owner v) →
      ∀ v ∈ turns s₁ es, ¬ Serves w.ticket.workClass w.ticket.owner v := by
  intro hclaim
  have hstay : ∀ s : System, (maintainer 4 "b").ticket ∈ (s.gate.deferred .maintenance).items ∨
      (maintainer 4 "b").ticket ∈ (s.gate.queues .maintenance).items →
      s.gate.Waits (maintainer 4 "b").ticket := by
    rintro s (h | h)
    · exact Or.inr (Or.inl h)
    · exact Or.inl h
  have hturns : turns firstTurn [.release (maintainer 1 "a") stillClock,
      .poll (maintainer 2 "b") true 0 stillClock, .poll (maintainer 3 "a") false 0 stillClock] =
      [maintainer 3 "a"] := by decide +kernel
  refine hclaim crowded firstTurn
    (((firstTurn.release (maintainer 1 "a") stillClock).poll (maintainer 2 "b") true 0
      stillClock).poll (maintainer 3 "a") false 0 stillClock)
    (.poll (maintainer 1 "a") false 0 stillClock)
    [.release (maintainer 1 "a") stillClock, .poll (maintainer 2 "b") true 0 stillClock,
      .poll (maintainer 3 "a") false 0 stillClock]
    (maintainer 1 "a") (maintainer 4 "b").ticket crowded_reachable rfl (by decide +kernel) rfl
    (hstay _ (by decide +kernel)) rfl (by decide +kernel) rfl ?_ ?_ (maintainer 3 "a") ?_
    ⟨rfl, rfl, rfl⟩
  · refine (along_cons rfl).mpr ⟨hstay _ (by decide +kernel), (along_cons rfl).mpr
      ⟨hstay _ (by decide +kernel), (along_cons rfl).mpr ⟨hstay _ (by decide +kernel), ?_⟩⟩⟩
    exact hstay _ (by decide +kernel)
  · rw [hturns]
    intro v hv hserves
    rw [List.mem_singleton.mp hv] at hserves
    exact absurd hserves.2.2 (by decide +kernel)
  · rw [hturns]
    exact List.mem_singleton_self _

end System

end Portico.WriterGate
