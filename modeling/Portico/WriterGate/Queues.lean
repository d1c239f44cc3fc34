import Portico.WriterGate.System

/-!
# What the gate's queues hold

The gate counts its tickets in several places at once. A sound gate's counters agree with its
queues, each line is in arrival order with the deferred part behind the admitted part, and the
totals stay within the gate's limits. A ticket that leaves keeps the gate sound.

## Main results

* `Sound.removeWaiterLocked`: a departure keeps the gate sound
* `Sound.waits_removeWaiterLocked`: only the departing ticket stops waiting
-/

open scoped List

namespace Portico.WriterGate

namespace Gate

/-- The classes above bulk work. -/
def userClasses : List Class := classes.filter fun c => !c.background

/-- The queued user tickets. -/
def userTickets (g : Gate) : List Ticket := userClasses.flatMap fun c => (g.queues c).items

/-- A ticket no capacity decision has taken, of an ordinary acquisition. -/
def Live (t : Ticket) (g : Gate) : Prop :=
  g.isRefused t = false ∧ t.recovery = false ∧ t.id ≤ g.nextID

/-- **Soundness.** The counters agree with the queues, a line is in arrival order with its deferred
part last, and the totals stay within the limits. -/
structure Sound (g : Gate) : Prop where
  queues : ∀ c, (g.queues c).Sound Ticket.owner
  deferred : ∀ c, (g.deferred c).Sound Ticket.owner
  queued : ∀ c, ∀ t ∈ (g.queues c).items, t.workClass = c ∧ g.isDeferred t = false ∧ g.Live t
  waiting : ∀ c, ∀ t ∈ (g.deferred c).items,
    t.workClass = c ∧ c.background = true ∧ g.isDeferred t = true ∧ g.Live t
  order : ∀ c o, ((g.queues c).line o ++ (g.deferred c).line o).Pairwise fun t u => t.id < u.id
  users : g.userQueued = g.userTickets.length
  owners : ∀ o ≠ "", g.ownerQueued o = g.userTickets.countP fun t => t.owner = o
  room : g.userQueued ≤ writerQueueCapacity
  pool : g.userQueued + g.backgroundQueuedLocked ≤ writerQueueCapacity
  share : ∀ c, c.background = true → ∀ o, ((g.queues c).line o).length ≤ backgroundTicketLimit c
  reserved : ∀ t, g.recoveryTicket = some t →
    t.recovery = true ∧ g.isRefused t = false ∧ t.id ≤ g.nextID ∧ g.pauseEpoch ≠ 0 ∧
      t.workClass = .maintenance
  marks : ∀ t, g.isDeferred t = true ∨ g.isRefused t = true → t.id ≤ g.nextID
  paused : g.pauseEpoch ≠ 0 → g.holdEpoch ≠ 0
  fences : g.holdSecurity ≤ recoverySecurityReserve

/-- A ticket is queued, deferred, or reserved for the recovery turn. -/
def Waits (t : Ticket) (g : Gate) : Prop :=
  t ∈ (g.queues t.workClass).items ∨ t ∈ (g.deferred t.workClass).items ∨ g.recoveryTicket = some t

/-- What no operation on the queues changes. -/
def control (g : Gate) : Gate :=
  { g with
    grant := none
    queues := fun _ => Rotor.empty
    deferred := fun _ => Rotor.empty
    isDeferred := fun _ => false
    isRefused := fun _ => false
    userQueued := 0
    ownerQueued := fun _ => 0
    recoveryTicket := none }

variable {g g' : Gate} {t u : Ticket} {served : Bool} {c : Class} {o : String} {q : ClassQueue}
  {n : ℤ}

theorem control_active (h : g'.control = g.control) : g'.active = g.active :=
  (congrArg Gate.active h :)

theorem control_nextID (h : g'.control = g.control) : g'.nextID = g.nextID :=
  (congrArg Gate.nextID h :)

theorem control_notify (h : g'.control = g.control) : g'.notify = g.notify :=
  (congrArg Gate.notify h :)

theorem control_pauseEpoch (h : g'.control = g.control) : g'.pauseEpoch = g.pauseEpoch :=
  (congrArg Gate.pauseEpoch h :)

theorem control_holdEpoch (h : g'.control = g.control) : g'.holdEpoch = g.holdEpoch :=
  (congrArg Gate.holdEpoch h :)

theorem control_recoveryEpoch (h : g'.control = g.control) : g'.recoveryEpoch = g.recoveryEpoch :=
  (congrArg Gate.recoveryEpoch h :)

theorem control_holdSecurity (h : g'.control = g.control) : g'.holdSecurity = g.holdSecurity :=
  (congrArg Gate.holdSecurity h :)

theorem control_writeGeneration (h : g'.control = g.control) : g'.writeGeneration = g.writeGeneration :=
  (congrArg Gate.writeGeneration h :)

/-- Soundness reads the queues, their counters, the marks and the recovery attempt only. -/
theorem Sound.congr (h : Sound g) (hqueues : g'.queues = g.queues)
    (hdeferred : g'.deferred = g.deferred) (hmark : g'.isDeferred = g.isDeferred)
    (hrefused : g'.isRefused = g.isRefused) (hid : g.nextID ≤ g'.nextID)
    (husers : g'.userQueued = g.userQueued) (howners : g'.ownerQueued = g.ownerQueued)
    (hreserved : g'.recoveryTicket = g.recoveryTicket) (hpause : g'.pauseEpoch = g.pauseEpoch)
    (hhold : g'.holdEpoch = g.holdEpoch) (hfences : g'.holdSecurity = g.holdSecurity) :
    Sound g' := by
  have hlive : ∀ t, g.Live t → g'.Live t := fun t ht =>
    ⟨by rw [hrefused, ht.1], ht.2.1, ht.2.2.trans hid⟩
  refine ⟨?_, ?_, ?_, ?_, ?_, ?_, ?_, ?_, ?_, ?_, ?_, ?_, ?_, ?_⟩
  · rw [hqueues]; exact h.queues
  · rw [hdeferred]; exact h.deferred
  · rw [hqueues, hmark]
    intro c t ht
    obtain ⟨h₁, h₂, h₃⟩ := h.queued c t ht
    exact ⟨h₁, h₂, hlive t h₃⟩
  · rw [hdeferred, hmark]
    intro c t ht
    obtain ⟨h₁, h₂, h₃, h₄⟩ := h.waiting c t ht
    exact ⟨h₁, h₂, h₃, hlive t h₄⟩
  · rw [hqueues, hdeferred]; exact h.order
  · rw [husers, userTickets, hqueues]; exact h.users
  · rw [howners, userTickets, hqueues]; exact h.owners
  · rw [husers]; exact h.room
  · rw [husers, backgroundQueuedLocked, hqueues]; exact h.pool
  · rw [hqueues]; exact h.share
  · rw [hreserved, hrefused, hpause]
    intro t ht
    obtain ⟨h₁, h₂, h₃, h₄⟩ := h.reserved t ht
    exact ⟨h₁, h₂, h₃.trans hid, h₄⟩
  · rw [hmark, hrefused]
    exact fun t ht => (h.marks t ht).trans hid
  · rw [hpause, hhold]; exact h.paused
  · rw [hfences]; exact h.fences

/-! ## The queue a ticket is in -/

theorem Sound.queued_iff (h : Sound g) :
    t ∈ (g.queues c).line o ↔
      t.workClass = c ∧ t.owner = o ∧ t ∈ (g.queues t.workClass).items := by
  constructor
  · intro ht
    have hmem := (h.queues c).mem_items_of_line ht
    obtain ⟨rfl, -⟩ := h.queued c t hmem
    exact ⟨rfl, (h.queues _).owned o t ht, hmem⟩
  · rintro ⟨rfl, rfl, ht⟩
    exact (h.queues _).mem_items.mp ht

theorem Sound.deferred_iff (h : Sound g) :
    t ∈ (g.deferred c).line o ↔
      t.workClass = c ∧ t.owner = o ∧ t ∈ (g.deferred t.workClass).items := by
  constructor
  · intro ht
    have hmem := (h.deferred c).mem_items_of_line ht
    obtain ⟨rfl, -⟩ := h.waiting c t hmem
    exact ⟨rfl, (h.deferred _).owned o t ht, hmem⟩
  · rintro ⟨rfl, rfl, ht⟩
    exact (h.deferred _).mem_items.mp ht

theorem Sound.nodup_line (h : Sound g) (c : Class) (o : String) :
    ((g.queues c).line o ++ (g.deferred c).line o).Nodup :=
  (h.order c o).imp fun hlt heq => by simp [heq] at hlt

theorem Sound.not_deferred (h : Sound g) (ht : t ∈ (g.queues c).items) :
    t ∉ (g.deferred c).items := by
  intro ht'
  have h₁ := (h.queued c t ht).2.1
  have h₂ := (h.waiting c t ht').2.2.1
  simp [h₁] at h₂

theorem Sound.id_le (h : Sound g) (ht : g.Waits t) : t.id ≤ g.nextID := by
  rcases ht with ht | ht | ht
  · exact (h.queued _ _ ht).2.2.2.2
  · exact (h.waiting _ _ ht).2.2.2.2.2
  · exact (h.reserved _ ht).2.2.1

/-! ## User tickets -/

theorem user_iff : t.user = true ↔ t.workClass.background = false := by
  simp [Ticket.user]

theorem mem_userClasses : c ∈ userClasses ↔ c.background = false := by
  simp [userClasses, mem_classes]

theorem nodup_userClasses : userClasses.Nodup := nodup_classes.filter _

theorem Sound.mem_userTickets (h : Sound g) :
    t ∈ g.userTickets ↔ t.user = true ∧ t ∈ (g.queues t.workClass).items := by
  simp only [userTickets, List.mem_flatMap, mem_userClasses, user_iff]
  constructor
  · rintro ⟨c, hc, ht⟩
    obtain ⟨rfl, -⟩ := h.queued c t ht
    exact ⟨hc, ht⟩
  · rintro ⟨hc, ht⟩
    exact ⟨_, hc, ht⟩

theorem flatMap_update_perm {cs : List Class} (hcs : cs.Nodup) (hc : c ∈ cs)
    {f : Class → List Ticket} {l ts ts' : List Ticket} (h : (ts ++ l).Perm (ts' ++ f c)) :
    (ts ++ cs.flatMap (Function.update f c l)).Perm (ts' ++ cs.flatMap f) := by
  have hrest : (cs.erase c).flatMap (Function.update f c l) = (cs.erase c).flatMap f := by
    refine List.flatMap_congr fun d hd => ?_
    rw [Function.update_of_ne]
    rintro rfl
    exact hcs.not_mem_erase hd
  have hsplit (f : Class → List Ticket) :
      (cs.flatMap f).Perm (f c ++ (cs.erase c).flatMap f) := by
    simpa using (List.perm_cons_erase hc).flatMap_right f
  calc ts ++ cs.flatMap (Function.update f c l)
      ~ ts ++ (l ++ (cs.erase c).flatMap f) := by
        simpa [hrest] using (hsplit (Function.update f c l)).append_left ts
    _ = (ts ++ l) ++ (cs.erase c).flatMap f := by rw [List.append_assoc]
    _ ~ (ts' ++ f c) ++ (cs.erase c).flatMap f := h.append_right _
    _ = ts' ++ (f c ++ (cs.erase c).flatMap f) := by rw [List.append_assoc]
    _ ~ ts' ++ cs.flatMap f := (hsplit f).symm.append_left ts'

/-- The counters of user tickets after a ticket joined or left the pool. -/
theorem Sound.counters (h : Sound g) (hqueues : g'.queues = Function.update g.queues t.workClass q)
    (husers : g'.userQueued = g.userQueued) (howners : g'.ownerQueued = g.ownerQueued)
    (ts ts' : List Ticket) (hts : n = ts'.length - ts.length) (hone : ts ++ ts' = [t])
    (hperm : (ts ++ q.items) ~ (ts' ++ (g.queues t.workClass).items)) :
    (g'.countUser t n).userQueued = (g'.countUser t n).userTickets.length ∧
    ∀ o ≠ "", (g'.countUser t n).ownerQueued o =
      (g'.countUser t n).userTickets.countP fun t => t.owner = o := by
  have hitems : (fun c => (g'.queues c).items) =
      Function.update (fun c => (g.queues c).items) t.workClass q.items := by
    funext c
    rw [hqueues]
    by_cases hc : c = t.workClass
    · subst hc
      simp
    · simp [Function.update_of_ne hc]
  have htickets : (g'.countUser t n).userTickets = g'.userTickets := by
    unfold Gate.countUser
    split_ifs <;> rfl
  rw [htickets]
  unfold Gate.countUser
  by_cases hu : t.user = true
  · have hmem : t.workClass ∈ userClasses := mem_userClasses.mpr (user_iff.mp hu)
    have hall : (ts ++ g'.userTickets) ~ (ts' ++ g.userTickets) := by
      unfold userTickets
      rw [hitems]
      exact flatMap_update_perm nodup_userClasses hmem hperm
    rw [if_pos hu]
    constructor
    · have := hall.length_eq
      simp only [List.length_append] at this
      have := h.users
      simp only [husers]
      omega
    · intro o ho
      have hcount := hall.countP_eq fun t => decide (t.owner = o)
      simp only [List.countP_append] at hcount
      have hothers := h.owners o ho
      have hown : ∀ x ∈ ts ++ ts', x = t := by simp [hone]
      have hpart : ∀ l ⊆ ts ++ ts', (l.countP fun x => decide (x.owner = o)) =
          if t.owner = o then l.length else 0 := by
        intro l hl
        split_ifs with hto
        · exact List.countP_eq_length.mpr fun x hx => by simp [hown x (hl hx), hto]
        · exact List.countP_eq_zero.mpr fun x hx => by simp [hown x (hl hx), hto]
      rw [hpart ts (List.subset_append_left _ _), hpart ts' (List.subset_append_right _ _)] at hcount
      simp only [howners]
      by_cases hto : t.owner = o
      · subst hto
        rw [if_neg ho, Function.update_self]
        simp only [if_true] at hcount
        omega
      · simp only [hto, if_false, Nat.zero_add] at hcount
        split_ifs
        · omega
        · rw [Function.update_of_ne (Ne.symm hto)]
          omega
  · have hsame : g'.userTickets = g.userTickets := by
      unfold userTickets
      rw [hitems]
      refine List.flatMap_congr fun c hc => ?_
      rw [Function.update_of_ne]
      rintro rfl
      exact hu (user_iff.mpr (mem_userClasses.mp hc))
    rw [if_neg hu, hsame, husers, howners]
    exact ⟨h.users, h.owners⟩

@[simp] theorem countUser_queues : (g.countUser t n).queues = g.queues := by
  unfold countUser
  split_ifs <;> rfl

@[simp] theorem countUser_deferred : (g.countUser t n).deferred = g.deferred := by
  unfold countUser
  split_ifs <;> rfl

@[simp] theorem countUser_isDeferred : (g.countUser t n).isDeferred = g.isDeferred := by
  unfold countUser
  split_ifs <;> rfl

@[simp] theorem countUser_isRefused : (g.countUser t n).isRefused = g.isRefused := by
  unfold countUser
  split_ifs <;> rfl

@[simp] theorem countUser_recoveryTicket :
    (g.countUser t n).recoveryTicket = g.recoveryTicket := by
  unfold countUser
  split_ifs <;> rfl

@[simp] theorem countUser_grant : (g.countUser t n).grant = g.grant := by
  unfold countUser
  split_ifs <;> rfl

@[simp] theorem countUser_control : (g.countUser t n).control = g.control := by
  unfold countUser
  split_ifs <;> rfl

@[simp] theorem countUser_backgroundQueuedLocked :
    (g.countUser t n).backgroundQueuedLocked = g.backgroundQueuedLocked := by
  unfold countUser
  split_ifs <;> rfl

theorem countUser_userQueued :
    (g.countUser t n).userQueued = if t.user then g.userQueued + n else g.userQueued := by
  unfold countUser
  split_ifs <;> rfl

theorem countUser_of_background (ht : t.workClass.background = true) : g.countUser t n = g := by
  unfold countUser
  rw [if_neg]
  simp [user_iff, ht]

/-! ## A departure -/

/-- **A departure** finds the ticket in the pool or among the deferred, or changes nothing. -/
theorem Sound.removeWaiterLocked_cases (h : Sound g) (hr : t.recovery = false) (served : Bool) :
    (t ∉ (g.queues t.workClass).items ∧ t ∉ (g.deferred t.workClass).items ∧
      g.removeWaiterLocked t served = g) ∨
    (t ∈ (g.queues t.workClass).items ∧ ∃ q,
      (g.queues t.workClass).remove Ticket.owner t served = some q ∧
      g.removeWaiterLocked t served =
        countUser t (-1) { g with queues := Function.update g.queues t.workClass q }) ∨
    (t ∈ (g.deferred t.workClass).items ∧ ∃ q,
      (g.deferred t.workClass).remove Ticket.owner t served = some q ∧
      g.removeWaiterLocked t served =
        { g with deferred := Function.update g.deferred t.workClass q }) := by
  have hunfold : g.removeWaiterLocked t served =
      ((g.queueOf t).remove Ticket.owner t served).elim g fun q =>
        countUser t (-1) (g.setQueue t q) := by
    unfold Gate.removeWaiterLocked
    rw [if_neg (by simp [hr])]
    cases (g.queueOf t).remove Ticket.owner t served <;> rfl
  by_cases hq : t ∈ (g.queues t.workClass).items
  · have hmark := (h.queued _ t hq).2.1
    obtain ⟨q, hrem⟩ := Rotor.exists_remove ((h.queues _).mem_items.mp hq) served
    refine Or.inr (Or.inl ⟨hq, q, hrem, ?_⟩)
    have hof : g.queueOf t = g.queues t.workClass := by simp [queueOf, hmark]
    rw [hunfold, hof, hrem]
    simp [setQueue, hmark]
  · by_cases hd : t ∈ (g.deferred t.workClass).items
    · obtain ⟨-, hback, hmark, -⟩ := h.waiting _ t hd
      obtain ⟨q, hrem⟩ := Rotor.exists_remove ((h.deferred _).mem_items.mp hd) served
      refine Or.inr (Or.inr ⟨hd, q, hrem, ?_⟩)
      have hof : g.queueOf t = g.deferred t.workClass := by simp [queueOf, hmark]
      rw [hunfold, hof, hrem]
      simp [setQueue, hmark, countUser_of_background hback]
    · refine Or.inl ⟨hq, hd, ?_⟩
      have hrem : (g.queueOf t).remove Ticket.owner t served = none := by
        rw [Rotor.remove_eq_none, queueOf]
        split_ifs
        · rwa [← (h.deferred _).mem_items]
        · rwa [← (h.queues _).mem_items]
      rw [hunfold, hrem, Option.elim_none]

theorem Sound.line_removeWaiterLocked (h : Sound g) :
    ((g.removeWaiterLocked t served).queues c).line o = ((g.queues c).line o).erase t := by
  have hout : t ∉ (g.queues t.workClass).items → ((g.queues c).line o).erase t =
      (g.queues c).line o := fun hq =>
    List.erase_of_not_mem fun ht => hq (h.queued_iff.mp ht).2.2
  by_cases hr : t.recovery = true
  · have hq : t ∉ (g.queues t.workClass).items := fun ht => by
      simp [(h.queued _ t ht).2.2.2.1] at hr
    rw [hout hq, Gate.removeWaiterLocked, if_pos hr]
    split_ifs <;> rfl
  · rcases h.removeWaiterLocked_cases (by simpa using hr) served with
      ⟨hq, -, heq⟩ | ⟨-, q, hrem, heq⟩ | ⟨hd, q, -, heq⟩
    · rw [heq, hout hq]
    · simp only [heq, countUser_queues]
      by_cases hc : c = t.workClass
      · subst hc
        rw [Function.update_self, Rotor.line_remove hrem]
        split_ifs with ho
        · rfl
        · exact (List.erase_of_not_mem fun ht => ho (h.queued_iff.mp ht).2.1.symm).symm
      · rw [Function.update_of_ne hc]
        exact (List.erase_of_not_mem fun ht => hc (h.queued_iff.mp ht).1.symm).symm
    · rw [heq, hout fun ht => h.not_deferred ht hd]

theorem Sound.deferred_removeWaiterLocked (h : Sound g) :
    ((g.removeWaiterLocked t served).deferred c).line o = ((g.deferred c).line o).erase t := by
  have hout : t ∉ (g.deferred t.workClass).items → ((g.deferred c).line o).erase t =
      (g.deferred c).line o := fun hd =>
    List.erase_of_not_mem fun ht => hd (h.deferred_iff.mp ht).2.2
  by_cases hr : t.recovery = true
  · have hd : t ∉ (g.deferred t.workClass).items := fun ht => by
      simp [(h.waiting _ t ht).2.2.2.2.1] at hr
    rw [hout hd, Gate.removeWaiterLocked, if_pos hr]
    split_ifs <;> rfl
  · rcases h.removeWaiterLocked_cases (by simpa using hr) served with
      ⟨-, hd, heq⟩ | ⟨hq, q, -, heq⟩ | ⟨-, q, hrem, heq⟩
    · rw [heq, hout hd]
    · rw [heq, countUser_deferred, hout (h.not_deferred hq)]
    · simp only [heq]
      by_cases hc : c = t.workClass
      · subst hc
        rw [Function.update_self, Rotor.line_remove hrem]
        split_ifs with ho
        · rfl
        · exact (List.erase_of_not_mem fun ht => ho (h.deferred_iff.mp ht).2.1.symm).symm
      · rw [Function.update_of_ne hc]
        exact (List.erase_of_not_mem fun ht => hc (h.deferred_iff.mp ht).1.symm).symm

/-- A departure keeps what the queues, the counters and the reserved ticket don't say. -/
theorem removeWaiterLocked_reading {α : Sort*} (f : Gate → α)
    (hreserved : ∀ g x, f { g with recoveryTicket := x } = f g)
    (hqueues : ∀ g x, f { g with queues := x } = f g)
    (hdeferred : ∀ g x, f { g with deferred := x } = f g)
    (hcount : ∀ g t n, f (countUser t n g) = f g) :
    f (g.removeWaiterLocked t served) = f g := by
  unfold removeWaiterLocked
  by_cases hr : t.recovery = true
  · rw [if_pos hr]
    split_ifs
    · exact hreserved _ _
    · rfl
  · rw [if_neg hr]
    split
    · rfl
    · rw [hcount]
      unfold setQueue
      split_ifs
      · exact hdeferred _ _
      · exact hqueues _ _

@[simp] theorem removeWaiterLocked_isDeferred :
    (g.removeWaiterLocked t served).isDeferred = g.isDeferred :=
  removeWaiterLocked_reading Gate.isDeferred (fun _ _ => rfl) (fun _ _ => rfl) (fun _ _ => rfl)
    fun _ _ _ => countUser_isDeferred

@[simp] theorem removeWaiterLocked_isRefused :
    (g.removeWaiterLocked t served).isRefused = g.isRefused :=
  removeWaiterLocked_reading Gate.isRefused (fun _ _ => rfl) (fun _ _ => rfl) (fun _ _ => rfl)
    fun _ _ _ => countUser_isRefused

@[simp] theorem removeWaiterLocked_grant : (g.removeWaiterLocked t served).grant = g.grant :=
  removeWaiterLocked_reading Gate.grant (fun _ _ => rfl) (fun _ _ => rfl) (fun _ _ => rfl)
    fun _ _ _ => countUser_grant

@[simp] theorem removeWaiterLocked_control :
    (g.removeWaiterLocked t served).control = g.control :=
  removeWaiterLocked_reading Gate.control (fun _ _ => rfl) (fun _ _ => rfl) (fun _ _ => rfl)
    fun _ _ _ => countUser_control

theorem removeWaiterLocked_recoveryTicket :
    (g.removeWaiterLocked t served).recoveryTicket =
      if t.recovery = true ∧ g.recoveryTicket = some t then none else g.recoveryTicket := by
  unfold removeWaiterLocked
  by_cases hr : t.recovery = true
  · simp only [hr, if_true, true_and]
    split_ifs <;> rfl
  · simp only [hr, Bool.false_eq_true, if_false, false_and]
    split
    · rfl
    · rw [countUser_recoveryTicket]
      unfold setQueue
      split_ifs <;> rfl

/-- **A departure keeps the gate sound.** -/
theorem Sound.removeWaiterLocked (h : Sound g) (t : Ticket) (served : Bool) :
    Sound (g.removeWaiterLocked t served) := by
  by_cases hr : t.recovery = true
  · rw [Gate.removeWaiterLocked, if_pos hr]
    split_ifs
    · exact { h with reserved := fun _ ht => by cases ht }
    · exact h
  rw [Bool.not_eq_true] at hr
  have hqueues : ∀ c, ((g.removeWaiterLocked t served).queues c).Sound Ticket.owner ∧
      ∀ x ∈ ((g.removeWaiterLocked t served).queues c).items, x ∈ (g.queues c).items := by
    intro c
    have hkeep : ∀ q, ((g.removeWaiterLocked t served).queues c) = q → q.Sound Ticket.owner →
        q.Sound Ticket.owner ∧ ∀ x ∈ q.items, x ∈ (g.queues c).items := by
      rintro q rfl hq
      refine ⟨hq, fun x hx => (h.queues c).mem_items_of_line (o := x.owner) ?_⟩
      have := hq.mem_items.mp hx
      rw [h.line_removeWaiterLocked] at this
      exact List.mem_of_mem_erase this
    refine hkeep _ rfl ?_
    rcases h.removeWaiterLocked_cases hr served with
      ⟨-, -, heq⟩ | ⟨-, q, hrem, heq⟩ | ⟨-, q, -, heq⟩
    · rw [heq]
      exact h.queues c
    · simp only [heq, countUser_queues]
      by_cases hc : c = t.workClass
      · subst hc
        rw [Function.update_self]
        exact (h.queues _).remove hrem
      · rw [Function.update_of_ne hc]
        exact h.queues c
    · rw [heq]
      exact h.queues c
  have hdeferred : ∀ c, ((g.removeWaiterLocked t served).deferred c).Sound Ticket.owner ∧
      ∀ x ∈ ((g.removeWaiterLocked t served).deferred c).items, x ∈ (g.deferred c).items := by
    intro c
    have hkeep : ∀ q, ((g.removeWaiterLocked t served).deferred c) = q → q.Sound Ticket.owner →
        q.Sound Ticket.owner ∧ ∀ x ∈ q.items, x ∈ (g.deferred c).items := by
      rintro q rfl hq
      refine ⟨hq, fun x hx => (h.deferred c).mem_items_of_line (o := x.owner) ?_⟩
      have := hq.mem_items.mp hx
      rw [h.deferred_removeWaiterLocked] at this
      exact List.mem_of_mem_erase this
    refine hkeep _ rfl ?_
    rcases h.removeWaiterLocked_cases hr served with
      ⟨-, -, heq⟩ | ⟨-, q, -, heq⟩ | ⟨-, q, hrem, heq⟩
    · rw [heq]
      exact h.deferred c
    · simp only [heq, countUser_deferred]
      exact h.deferred c
    · simp only [heq]
      by_cases hc : c = t.workClass
      · subst hc
        rw [Function.update_self]
        exact (h.deferred _).remove hrem
      · rw [Function.update_of_ne hc]
        exact h.deferred c
  have hcontrol : (g.removeWaiterLocked t served).control = g.control := removeWaiterLocked_control
  have hpause : (g.removeWaiterLocked t served).pauseEpoch = g.pauseEpoch :=
    control_pauseEpoch hcontrol
  have hid : (g.removeWaiterLocked t served).nextID = g.nextID :=
    control_nextID hcontrol
  have hlive : ∀ x, g.Live x → (g.removeWaiterLocked t served).Live x := fun x hx =>
    ⟨by rw [removeWaiterLocked_isRefused, hx.1], hx.2.1, hx.2.2.trans hid.ge⟩
  have hcounters :
      (g.removeWaiterLocked t served).userQueued =
          (g.removeWaiterLocked t served).userTickets.length ∧
        (∀ o ≠ "", (g.removeWaiterLocked t served).ownerQueued o =
          (g.removeWaiterLocked t served).userTickets.countP fun t => t.owner = o) ∧
        (g.removeWaiterLocked t served).userQueued ≤ g.userQueued ∧
        (g.removeWaiterLocked t served).backgroundQueuedLocked ≤ g.backgroundQueuedLocked := by
    rcases h.removeWaiterLocked_cases hr served with
      ⟨-, -, heq⟩ | ⟨-, q, hrem, heq⟩ | ⟨-, q, -, heq⟩
    · rw [heq]
      exact ⟨h.users, h.owners, le_rfl, le_rfl⟩
    · rw [heq]
      have hqueues₁ : ({ g with
          queues := Function.update g.queues t.workClass q } : Gate).queues =
          Function.update g.queues t.workClass q := rfl
      have hcount := h.counters (n := -1) hqueues₁ rfl rfl [t] [] (by simp) rfl
        ((h.queues _).items_remove hrem)
      refine ⟨hcount.1, hcount.2, ?_, ?_⟩
      · rw [countUser_userQueued]
        simp only
        split_ifs <;> omega
      · rw [countUser_backgroundQueuedLocked]
        have hle : ∀ c, (Function.update g.queues t.workClass q c).count ≤ (g.queues c).count := by
          intro c
          by_cases hc : c = t.workClass
          · subst hc
            rw [Function.update_self, (Rotor.remove_eq_some hrem).2.2.2]
            omega
          · rw [Function.update_of_ne hc]
        exact add_le_add (hle _) (hle _)
    · rw [heq]
      exact ⟨h.users, h.owners, le_rfl, le_rfl⟩
  refine ⟨fun c => (hqueues c).1, fun c => (hdeferred c).1, ?_, ?_, ?_, hcounters.1, hcounters.2.1,
    hcounters.2.2.1.trans h.room, ?_, ?_, ?_, ?_, ?_, ?_⟩
  · intro c x hx
    obtain ⟨h₁, h₂, h₃⟩ := h.queued c x ((hqueues c).2 x hx)
    exact ⟨h₁, by rw [removeWaiterLocked_isDeferred, h₂], hlive x h₃⟩
  · intro c x hx
    obtain ⟨h₁, h₂, h₃, h₄⟩ := h.waiting c x ((hdeferred c).2 x hx)
    exact ⟨h₁, h₂, by rw [removeWaiterLocked_isDeferred, h₃], hlive x h₄⟩
  · intro c o
    rw [h.line_removeWaiterLocked, h.deferred_removeWaiterLocked]
    exact (h.order c o).sublist (List.erase_sublist.append List.erase_sublist)
  · have := h.pool
    omega
  · intro c hc o
    rw [h.line_removeWaiterLocked]
    exact List.erase_sublist.length_le.trans (h.share c hc o)
  · intro x hx
    have hx' : g.recoveryTicket = some x := by
      rw [removeWaiterLocked_recoveryTicket] at hx
      split_ifs at hx
      exact hx
    obtain ⟨h₁, h₂, h₃, h₄⟩ := h.reserved x hx'
    exact ⟨h₁, by rw [removeWaiterLocked_isRefused, h₂], h₃.trans hid.ge, by rwa [hpause]⟩
  · rw [removeWaiterLocked_isDeferred, removeWaiterLocked_isRefused, hid]
    exact h.marks
  · have hhold : (g.removeWaiterLocked t served).holdEpoch = g.holdEpoch :=
      control_holdEpoch hcontrol
    rw [hpause, hhold]
    exact h.paused
  · have hfences : (g.removeWaiterLocked t served).holdSecurity = g.holdSecurity :=
      control_holdSecurity hcontrol
    exact hfences.le.trans h.fences

/-- **Only the departing ticket stops waiting.** -/
theorem Sound.waits_removeWaiterLocked (h : Sound g) :
    (g.removeWaiterLocked t served).Waits u ↔ g.Waits u ∧ u ≠ t := by
  have h' := h.removeWaiterLocked t served
  have hqueues : u ∈ ((g.removeWaiterLocked t served).queues u.workClass).items ↔
      u ∈ (g.queues u.workClass).items ∧ u ≠ t := by
    rw [(h'.queues _).mem_items, h.line_removeWaiterLocked, (h.queues _).mem_items]
    have hnodup := (h.nodup_line u.workClass u.owner).of_append_left
    rw [hnodup.mem_erase_iff, and_comm]
  have hdeferred : u ∈ ((g.removeWaiterLocked t served).deferred u.workClass).items ↔
      u ∈ (g.deferred u.workClass).items ∧ u ≠ t := by
    rw [(h'.deferred _).mem_items, h.deferred_removeWaiterLocked, (h.deferred _).mem_items]
    have hnodup := (h.nodup_line u.workClass u.owner).of_append_right
    rw [hnodup.mem_erase_iff, and_comm]
  have hreserved : (g.removeWaiterLocked t served).recoveryTicket = some u ↔
      g.recoveryTicket = some u ∧ u ≠ t := by
    rw [removeWaiterLocked_recoveryTicket]
    split_ifs with hc
    · simp [hc.2, eq_comm]
    · constructor
      · intro hu
        refine ⟨hu, ?_⟩
        rintro rfl
        exact hc ⟨(h.reserved u hu).1, hu⟩
      · exact And.left
  unfold Waits
  rw [hqueues, hdeferred, hreserved]
  tauto

theorem Sound.keeps_removeWaiterLocked (h : Sound g) (hu : u ∈ (g.queues c).items)
    (hu' : (g.removeWaiterLocked t false).Waits u) :
    u ∈ ((g.removeWaiterLocked t false).queues c).items ∧
      ((g.removeWaiterLocked t false).queues c).ahead u.owner ⊆ (g.queues c).ahead u.owner := by
  have h' := h.removeWaiterLocked t false
  have hne : u ≠ t := (h.waits_removeWaiterLocked.mp hu').2
  have hmem : u ∈ ((g.removeWaiterLocked t false).queues c).items := by
    rw [(h'.queues c).mem_items, h.line_removeWaiterLocked]
    exact (List.mem_erase_of_ne hne).mpr ((h.queues c).mem_items.mp hu)
  refine ⟨hmem, ?_⟩
  by_cases hr : t.recovery = true
  · rw [Gate.removeWaiterLocked, if_pos hr]
    split_ifs
    · exact List.Subset.refl _
    · exact List.Subset.refl _
  · rcases h.removeWaiterLocked_cases (by simpa using hr) false with
      ⟨-, -, heq⟩ | ⟨-, q, hrem, heq⟩ | ⟨-, q, -, heq⟩
    · rw [heq]
      exact List.Subset.refl _
    · rw [heq, countUser_queues] at hmem ⊢
      dsimp only at hmem ⊢
      by_cases hc : c = t.workClass
      · subst hc
        rw [Function.update_self] at hmem ⊢
        exact Rotor.keeps_remove (h.queues _).toLined hrem u hu hmem
      · rw [Function.update_of_ne hc]
        exact List.Subset.refl _
    · rw [heq]
      exact List.Subset.refl _

end Gate

end Portico.WriterGate
