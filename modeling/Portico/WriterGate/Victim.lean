import Portico.WriterGate.Safety

/-!
# Who gives its place

When the pool is full of user tickets an arrival takes the place of one of them, or is refused. An
arrival within its share takes that of the newest ticket of an owner over its own, in a class no more
important than the arrival's. Else it takes that of the newest ticket of the least important class
below its own that has one without a grant. Nothing but the ticket that goes is touched.

## Main results

* `chosen_of_victim`, `none_of_victim`: what the scan finds
* `room_decided`: in every reachable state, for every arrival
-/

open scoped List

namespace Portico.WriterGate

namespace Gate

variable {g g' : Gate} {arrival u v : Ticket} {c : Class} {o : String} {p : Ticket → Bool}
  {chosen : Option Ticket} {ts us : List Ticket}

/-! ## The tickets that may go -/

/-- A user ticket that waits in its queue, and isn't about to run. -/
def Replaceable (g : Gate) (v : Ticket) : Prop :=
  v.user = true ∧ g.Waits v ∧ g.grant ≠ some v

/-- A ticket of an owner over its share, for an arrival that is within its own. -/
def OverShare (g : Gate) (arrival v : Ticket) : Prop :=
  (arrival.owner = "" ∨ g.ownerQueued arrival.owner < ownerQueueShare) ∧ g.Replaceable v ∧
    arrival.workClass.priority ≤ v.workClass.priority ∧
    v.owner ≠ "" ∧ ownerQueueShare < g.ownerQueued v.owner

/-- A ticket of a class less important than the arrival's. -/
def Below (g : Gate) (arrival v : Ticket) : Prop :=
  g.Replaceable v ∧ arrival.workClass.priority < v.workClass.priority

/-- The ticket that goes: the newest over its owner's share, or where there is none the newest of the
least important class. -/
def Chosen (g : Gate) (arrival v : Ticket) : Prop :=
  (g.OverShare arrival v ∧ ∀ u, g.OverShare arrival u → u.id ≤ v.id) ∨
    (∀ u, ¬ g.OverShare arrival u) ∧ g.Below arrival v ∧
      ∀ u, g.Below arrival u → u.workClass.priority ≤ v.workClass.priority ∧
        (u.workClass = v.workClass → u.id ≤ v.id)

/-- The gate after a user ticket went: its line, its owner's place in the rotation if it was the last
of the line, and the counts it was in. -/
structure Leaves (g : Gate) (v : Ticket) (g' : Gate) : Prop where
  line : ∀ c o, (g'.queues c).line o = ((g.queues c).line o).erase v
  rotation : ∀ c, (g'.queues c).rotation =
    if c = v.workClass ∧ ((g.queues c).line v.owner).erase v = [] then
      (g.queues c).rotation.erase v.owner
    else (g.queues c).rotation
  count : ∀ c, (g'.queues c).count = (g.queues c).count - if c = v.workClass then 1 else 0
  userQueued : g'.userQueued = g.userQueued - 1
  ownerQueued : ∀ o, g'.ownerQueued o = g.ownerQueued o - if o = v.owner ∧ o ≠ "" then 1 else 0
  isRefused : g'.isRefused = Function.update g.isRefused v true
  rest :
    { g' with
      queues := g.queues, userQueued := g.userQueued, ownerQueued := g.ownerQueued,
      isRefused := g.isRefused } = { g with notify := g.notify + 1 }

/-! ## The scans -/

theorem newest_append : newest p chosen (ts ++ us) = newest p (newest p chosen ts) us := by
  unfold newest
  rw [List.filter_append, List.foldl_append]

theorem foldl_newest {cs : List Class} {f : Class → List Ticket} :
    cs.foldl (fun victim c => newest p victim (f c)) chosen = newest p chosen (cs.flatMap f) := by
  induction cs generalizing chosen with
  | nil => rfl
  | cons c cs ih => rw [List.foldl_cons, ih, List.flatMap_cons, newest_append]

theorem foldl_findSome {cs : List Class} {f : Class → Option Ticket} :
    cs.foldl (fun victim c => match victim with | some v => some v | none => f c) chosen =
      chosen.or (cs.findSome? f) := by
  induction cs generalizing chosen with
  | nil => cases chosen <;> rfl
  | cons c cs ih =>
    rw [List.foldl_cons, ih, List.findSome?_cons]
    cases chosen with
    | some v => rfl
    | none => cases f c <;> rfl

theorem Sound.replaceable_iff (h : Sound g) :
    g.Replaceable v ↔ v.workClass.background = false ∧ v ∈ (g.queues v.workClass).items ∧
      g.grant ≠ some v := by
  unfold Replaceable
  rw [user_iff]
  refine and_congr_right fun hback => and_congr_left fun _ => ⟨?_, Or.inl⟩
  rintro (hq | hd | hr)
  · exact hq
  · rw [(h.waiting _ v hd).2.1] at hback
    cases hback
  · rw [(h.reserved v hr).2.2.2.2] at hback
    cases hback

/-- The tickets over their owners' shares that the first scan looks at. -/
theorem Sound.mem_overShare (h : Sound g)
    (hwithin : arrival.owner = "" ∨ g.ownerQueued arrival.owner < ownerQueueShare) :
    (v ∈ (classes.filter fun c =>
        !(c.background || c.priority < arrival.workClass.priority)).flatMap fun c =>
          (g.queues c).items) ∧
      decide (g.grant ≠ some v ∧ v.owner ≠ "" ∧ ownerQueueShare < g.ownerQueued v.owner) = true ↔
    g.OverShare arrival v := by
  rw [OverShare, h.replaceable_iff, List.mem_flatMap, decide_eq_true_eq]
  constructor
  · rintro ⟨⟨c, hc, hv⟩, hgrant, howner, hover⟩
    obtain ⟨rfl, -⟩ := h.queued c v hv
    have hclass := (List.mem_filter.mp hc).2
    simp only [Bool.not_eq_true', Bool.or_eq_false_iff, decide_eq_false_iff_not, not_lt] at hclass
    exact ⟨hwithin, ⟨hclass.1, hv, hgrant⟩, hclass.2, howner, hover⟩
  · rintro ⟨-, ⟨hback, hv, hgrant⟩, hclass, howner, hover⟩
    refine ⟨⟨v.workClass, List.mem_filter.mpr ⟨mem_classes _, ?_⟩, hv⟩, hgrant, howner, hover⟩
    simp [hback, not_lt.mpr hclass]

theorem Sound.overShare_eq_some (h : Sound g) (hv : g.overShare arrival = some v) :
    g.OverShare arrival v ∧ ∀ u, g.OverShare arrival u → u.id ≤ v.id := by
  unfold overShare at hv
  split_ifs at hv with hwithin
  rw [foldl_newest] at hv
  obtain ⟨hsome, hmax, -⟩ := newest_eq_some hv
  refine ⟨(h.mem_overShare hwithin).mp (hsome.resolve_left (by simp)), fun u hu => ?_⟩
  obtain ⟨hmem, htest⟩ := (h.mem_overShare hwithin).mpr hu
  exact hmax u hmem htest

theorem Sound.overShare_eq_none (h : Sound g) (hnone : g.overShare arrival = none) :
    ¬ g.OverShare arrival v := by
  intro hv
  have hwithin := hv.1
  unfold overShare at hnone
  rw [if_pos hwithin, foldl_newest] at hnone
  obtain ⟨hmem, htest⟩ := (h.mem_overShare hwithin).mpr hv
  exact absurd htest (by rw [(newest_eq_none hnone).2 v hmem]; decide)

/-- The user classes below an arrival's, least important first. -/
def lesser (arrival : Ticket) : List Class :=
  classes.reverse.filter fun c => !(c.background || c.priority ≤ arrival.workClass.priority)

theorem lesser_sorted (arrival : Ticket) :
    (lesser arrival).Pairwise fun c d => d.priority < c.priority := by
  have hall : classes.reverse.Pairwise fun c d => d.priority < c.priority := by decide
  exact hall.filter _

theorem mem_lesser :
    c ∈ lesser arrival ↔ c.background = false ∧ arrival.workClass.priority < c.priority := by
  unfold lesser
  rw [List.mem_filter, List.mem_reverse]
  simp [mem_classes c]

theorem lowerClass_eq :
    g.lowerClass arrival =
      (lesser arrival).findSome? fun c => newest (fun t => g.grant ≠ some t) none (g.queues c).items :=
  foldl_findSome

theorem Sound.below_iff (h : Sound g) :
    g.Below arrival v ↔ v.workClass ∈ lesser arrival ∧ v ∈ (g.queues v.workClass).items ∧
      g.grant ≠ some v := by
  rw [Below, h.replaceable_iff, mem_lesser]
  tauto

theorem Sound.lowerClass_eq_some (h : Sound g) (hv : g.lowerClass arrival = some v) :
    g.Below arrival v ∧ ∀ u, g.Below arrival u → u.workClass.priority ≤ v.workClass.priority ∧
      (u.workClass = v.workClass → u.id ≤ v.id) := by
  rw [lowerClass_eq, List.findSome?_eq_some_iff] at hv
  obtain ⟨before, c, after, hclasses, hc, hbefore⟩ := hv
  obtain ⟨hsome, hmax, -⟩ := newest_eq_some hc
  obtain ⟨hmem, hgrant⟩ := hsome.resolve_left (by simp)
  obtain ⟨rfl, -⟩ := h.queued c v hmem
  have hin : v.workClass ∈ lesser arrival := by
    rw [hclasses]
    simp
  refine ⟨h.below_iff.mpr ⟨hin, hmem, by simpa using hgrant⟩, fun u hu => ?_⟩
  obtain ⟨hu, huq, hug⟩ := h.below_iff.mp hu
  have hsorted := lesser_sorted arrival
  rw [hclasses] at hu hsorted
  rcases List.mem_append.mp hu with hu | hu
  · -- The classes before have no ticket without a grant.
    have hnone := (newest_eq_none (hbefore _ hu)).2 u huq
    simp [hug] at hnone
  · rcases List.mem_cons.mp hu with heq | hu
    · exact ⟨by rw [heq], fun _ => hmax u (heq ▸ huq) (by simpa using hug)⟩
    · have hlt := (List.pairwise_cons.mp (List.pairwise_append.mp hsorted).2.1).1 _ hu
      refine ⟨hlt.le, fun heq => ?_⟩
      rw [heq] at hlt
      exact absurd hlt (lt_irrefl _)

theorem Sound.lowerClass_eq_none (h : Sound g) (hnone : g.lowerClass arrival = none) :
    ¬ g.Below arrival v := by
  intro hv
  obtain ⟨hin, hmem, hgrant⟩ := h.below_iff.mp hv
  rw [lowerClass_eq, List.findSome?_eq_none_iff] at hnone
  have := (newest_eq_none (hnone _ hin)).2 v hmem
  simp [hgrant] at this

/-- **The victim** is the ticket that is to go. -/
theorem Sound.chosen_of_victim (h : Sound g) (hv : g.victim arrival = some v) :
    g.Chosen arrival v := by
  unfold victim at hv
  split at hv
  · rename_i w hw
    obtain rfl := Option.some.inj hv
    exact Or.inl (h.overShare_eq_some hw)
  · rename_i hnone
    exact Or.inr ⟨fun u => h.overShare_eq_none hnone, h.lowerClass_eq_some hv⟩

/-- An arrival for which no ticket is found could take the place of none. -/
theorem Sound.none_of_victim (h : Sound g) (hv : g.victim arrival = none) :
    ¬ g.OverShare arrival u ∧ ¬ g.Below arrival u := by
  unfold victim at hv
  split at hv
  · cases hv
  · rename_i hnone
    exact ⟨h.overShare_eq_none hnone, h.lowerClass_eq_none hv⟩

theorem Chosen.replaceable (h : g.Chosen arrival v) : g.Replaceable v := by
  rcases h with ⟨h, -⟩ | ⟨-, h, -⟩
  · exact h.2.1
  · exact h.1

/-! ## A departure -/

/-- The departure of a waiting user ticket that is refused touches nothing else. -/
theorem Sound.leaves (h : Sound g) (hv : g.Replaceable v) :
    Leaves g v ((g.removeWaiterLocked v false).refuseLocked v).signalLocked := by
  obtain ⟨hback, hmem, hgrant⟩ := h.replaceable_iff.mp hv
  have hlive := (h.queued _ v hmem).2.2
  obtain ⟨q, hrem, heq⟩ : ∃ q, (g.queues v.workClass).remove Ticket.owner v false = some q ∧
      g.removeWaiterLocked v false =
        countUser v (-1) { g with queues := Function.update g.queues v.workClass q } := by
    rcases h.removeWaiterLocked_cases hlive.2.1 false with ⟨hq, -, -⟩ | ⟨-, hrem⟩ | ⟨hd, -⟩
    · exact absurd hmem hq
    · exact hrem
    · exact absurd hd (h.not_deferred hmem)
  obtain ⟨-, hrot, -, hcount⟩ := Rotor.remove_eq_some hrem
  have huser : v.user = true := hv.1
  have hqueues : (((g.removeWaiterLocked v false).refuseLocked v).signalLocked).queues =
      Function.update g.queues v.workClass q := by
    rw [heq]
    exact countUser_queues
  refine ⟨fun c o => ?_, fun c => ?_, fun c => ?_, ?_, fun o => ?_, ?_, ?_⟩
  · exact h.line_removeWaiterLocked
  · rw [hqueues]
    by_cases hc : c = v.workClass
    · subst hc
      rw [Function.update_self, hrot]
      simp
    · rw [Function.update_of_ne hc, if_neg fun hand => hc hand.1]
  · rw [hqueues]
    by_cases hc : c = v.workClass
    · subst hc
      rw [Function.update_self, hcount, if_pos rfl]
    · rw [Function.update_of_ne hc, if_neg hc, sub_zero]
  · rw [heq]
    change (countUser v (-1) _).userQueued = _
    rw [countUser_userQueued, if_pos huser]
    rfl
  · rw [heq]
    change (countUser v (-1) _).ownerQueued o = _
    unfold countUser
    rw [if_pos huser]
    dsimp only
    split_ifs with hempty hand hand
    · exact absurd (hand.1.trans hempty) hand.2
    · exact (sub_zero _).symm
    · rw [hand.1, Function.update_self]
      rfl
    · rw [Function.update_of_ne, sub_zero]
      rintro rfl
      exact hand ⟨rfl, hempty⟩
  · change Function.update (g.removeWaiterLocked v false).isRefused v true = _
    rw [removeWaiterLocked_isRefused]
  · rw [heq]
    unfold countUser
    rw [if_pos huser]
    rfl

end Gate

open Gate

variable {s : System} {arrival : Ticket}

/-- The gate an arrival meets: its number was taken from it. -/
def System.met (s : System) : Gate := { s.gate with nextID := s.gate.nextID + 1 }

/-- **Making room.** In every reachable state an arriving user ticket takes the place of the one
ticket that is to give it, and nothing else changes; or it is refused, and no waiting ticket may give
it its place. -/
theorem room_decided (h : s.Reachable) (arrival : Ticket) :
    (∀ g', s.met.makeRoomLocked arrival = some g' →
      ∃ v, s.met.Chosen arrival v ∧ Leaves s.met v g') ∧
    (s.met.makeRoomLocked arrival = none →
      ∀ v, ¬ s.met.OverShare arrival v ∧ ¬ s.met.Below arrival v) := by
  have hsound : Sound s.met := h.inv.numbered
  constructor
  · intro g' hg
    obtain ⟨v, hv, rfl⟩ := Option.map_eq_some_iff.mp hg
    have hchosen := hsound.chosen_of_victim hv
    exact ⟨v, hchosen, hsound.leaves hchosen.replaceable⟩
  · intro hg v
    exact hsound.none_of_victim (Option.map_eq_none_iff.mp hg)

/-- An interactive arrival of an owner. -/
def visit (owner : String) : Event :=
  .acquire 5 ⟨owner, "", none, false⟩ 0 System.stillClock

/-- A gate with three interactive tickets, the first of which is granted. -/
def visited (ledgers : ℕ → WALLedger) : Option System :=
  Machine.run System.step (System.init ledgers) [visit "a", visit "b", visit "a"]

/-- A playback that arrives there takes the place of the last of the three. -/
theorem room_decided_visited :
    ∃ s v g', visited (fun _ => System.roomyLedger) = some s ∧
      s.met.makeRoomLocked ⟨none, 4, .establishedPlayback, "c", 0, false⟩ = some g' ∧
      s.met.Chosen ⟨none, 4, .establishedPlayback, "c", 0, false⟩ v ∧ Leaves s.met v g' := by
  have hroom : ((visited fun _ => System.roomyLedger).bind fun s =>
      s.met.makeRoomLocked ⟨none, 4, .establishedPlayback, "c", 0, false⟩).isSome = true := by
    decide +kernel
  obtain ⟨g', hg'⟩ := Option.isSome_iff_exists.mp hroom
  obtain ⟨s, hs, hg'⟩ := Option.bind_eq_some_iff.mp hg'
  obtain ⟨v, hchosen, hleaves⟩ := (room_decided ⟨_, _, hs⟩ _).1 g' hg'
  exact ⟨s, v, g', hs, hg', hchosen, hleaves⟩

end Portico.WriterGate
