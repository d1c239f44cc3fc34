import Portico.WriterGate.Safety

/-!
# What a section does to turns

A section either starts the turn granted to a waiting caller, or it starts none. One that starts
none counts no write, forgets no arrival and lets no owner get ahead of a ticket that stays queued.

## Main results

* `Inv.step_cases`: a section takes the granted turn, or is quiet
-/

open scoped List

namespace Portico.WriterGate

open Machine Gate

namespace System

variable {s s' : System} {g g' : Gate} {t u : Ticket} {w : Caller} {clock : Clock} {e : Event}
  {es : List Event}

/-- The callers whose turns a section starts. -/
def began (s s' : System) : List Caller := s'.holders.drop s.holders.length

/-- The callers whose turns a run starts, in order. -/
def turns : System → List Event → List Caller
  | _, [] => []
  | s, e :: es =>
    match s.step e with
    | none => []
    | some s' => began s s' ++ turns s' es

/-- A section that starts no turn: it counts no write, numbers its arrivals above every earlier one,
leaves the reserve of a hold alone, and lets no owner get ahead of a ticket that stays queued. -/
structure Quiet (s s' : System) : Prop where
  holders : s'.holders <+ s.holders
  writeGeneration : s'.gate.writeGeneration = s.gate.writeGeneration
  nextID : s.gate.nextID ≤ s'.gate.nextID
  waits : ∀ u, s'.gate.Waits u → s.gate.Waits u ∨ s.gate.nextID < u.id
  holdSecurity : s.gate.holdEpoch ≠ 0 → s'.gate.holdEpoch ≠ 0 →
    s'.gate.holdSecurity = s.gate.holdSecurity
  turns : ∀ c, ∀ u ∈ (s.gate.queues c).items, u ∈ (s'.gate.queues c).items →
    (s'.gate.queues c).ahead u.owner ⊆ (s.gate.queues c).ahead u.owner

theorem Quiet.began (h : Quiet s s') : began s s' = [] :=
  List.drop_eq_nil_of_le h.holders.length_le

theorem Quiet.refl (s : System) : Quiet s s :=
  ⟨List.Sublist.refl _, rfl, le_rfl, fun _ => Or.inl, fun _ _ => rfl,
    fun _ _ _ _ => List.Subset.refl _⟩

theorem quiet_of_gate (hg : s'.gate = s.gate) (hh : s'.holders = s.holders) : Quiet s s' := by
  refine ⟨hh ▸ List.Sublist.refl _, ?_, ?_, ?_, ?_, ?_⟩ <;> rw [hg]
  · exact fun _ => Or.inl
  · exact fun _ _ => rfl
  · exact fun _ _ _ _ => List.Subset.refl _

/-- A choice after a section that let nobody get ahead lets nobody get ahead either. -/
theorem turns_regrant (hg : g.Sound) (ready : Ticket → Bool) (clock : Clock)
    (hqueued : ∀ c u, u ∈ (s.gate.queues c).items → g.Waits u → u ∈ (g.queues c).items)
    (hkeeps : ∀ c, ∀ u ∈ (s.gate.queues c).items, g.Waits u →
      (g.queues c).ahead u.owner ⊆ (s.gate.queues c).ahead u.owner) :
    ∀ c, ∀ u ∈ (s.gate.queues c).items, u ∈ ((g.regrant ready clock).queues c).items →
      ((g.regrant ready clock).queues c).ahead u.owner ⊆ (s.gate.queues c).ahead u.owner := by
  intro c u hu hu'
  obtain ⟨hre, -⟩ := hg.regrant ready clock
  obtain ⟨hc, -⟩ := hre.sound.queued c u hu'
  have hwaits : g.Waits u := (hre.waits u).mp (Or.inl (by rwa [hc]))
  exact List.Subset.trans (hre.keeps c u (hqueued c u hu hwaits) hu') (hkeeps c u hu hwaits)

theorem Departed.quiet (hg : Departed s t g) (ready : Ticket → Bool) (w : Caller) :
    Quiet s { s with
      gate := (g.regrant ready clock).signalLocked, waiters := s.waiters.erase w } := by
  obtain ⟨hre, -⟩ := hg.sound.regrant ready clock
  have hcontrol : (g.regrant ready clock).control = s.gate.control := hre.control.trans hg.control
  exact ⟨List.Sublist.refl _, (control_writeGeneration hcontrol :), (control_nextID hcontrol).ge,
    fun u hu => Or.inl ((hg.waits u).mp ((hre.waits u).mp hu)).1, fun _ _ => (control_holdSecurity hcontrol :),
    turns_regrant hg.sound ready clock hg.queued hg.keeps⟩

theorem quiet_regrant (hg : g.Sound) (ready : Ticket → Bool) (clock : Clock)
    (hholders : s'.holders <+ s.holders) (hgate : s'.gate = (g.regrant ready clock).signalLocked)
    (hwaits : ∀ u, g.Waits u → s.gate.Waits u) (hqueues : g.queues = s.gate.queues)
    (hgeneration : g.writeGeneration = s.gate.writeGeneration)
    (hid : s.gate.nextID ≤ g.nextID)
    (hfences : s.gate.holdEpoch ≠ 0 → g.holdEpoch ≠ 0 → g.holdSecurity = s.gate.holdSecurity) :
    Quiet s s' := by
  obtain ⟨hre, -⟩ := hg.regrant ready clock
  have hturns := turns_regrant (s := s) hg ready clock (fun c u hu _ => by rwa [hqueues])
    fun c u _ _ => by rw [hqueues]; exact List.Subset.refl _
  refine ⟨hholders, ?_, ?_, fun u hu => ?_, fun h₁ h₂ => ?_, fun c u hu hu' => ?_⟩
  · rw [hgate]
    exact (control_writeGeneration hre.control :).trans hgeneration
  · rw [hgate]
    exact hid.trans (control_nextID hre.control).ge
  · rw [hgate] at hu
    exact Or.inl (hwaits u ((hre.waits u).mp hu))
  · rw [hgate] at h₂ ⊢
    exact (control_holdSecurity hre.control :).trans
      (hfences h₁ fun h => h₂ ((control_holdEpoch hre.control :).trans h))
  · rw [hgate] at hu' ⊢
    exact hturns c u hu hu'

theorem queues_regrant_users {ready : Ticket → Bool} (hu : 0 < g.userQueued) :
    (g.regrant ready clock).queues = g.queues := by
  cases ha : g.active with
  | true => rw [regrant_active ha]
  | false =>
    rw [regrant_idle ha]
    show (g.pickWinnerLocked ready clock).2.queues = g.queues
    by_cases hp : g.pauseEpoch = 0
    · by_cases hh : g.holdEpoch = 0
      · rw [pickWinnerLocked_users hh hp hu]
      · rw [pickWinnerLocked_held hp hh]
    · rw [pickWinnerLocked_paused hp]

/-! ## An arrival -/

/-- A background arrival lets nobody get ahead of the tickets that stay. -/
theorem Inv.turns_background (h : s.Inv) (ht : t.id = s.gate.nextID + 1) (hr : t.recovery = false)
    (hb : t.workClass.background = true) (hg : Roomed s t g) (ready : Ticket → Bool)
    (clock clock' : Clock) :
    ∀ c, ∀ u ∈ (s.gate.queues c).items,
      u ∈ (((joined t clock g).regrant ready clock').queues c).items →
      (((joined t clock g).regrant ready clock').queues c).ahead u.owner ⊆
        (s.gate.queues c).ahead u.owner := by
  set g₀ : Gate := { g with isDeferred := Function.update g.isDeferred t true } with hg₀
  have hmark : g₀.isDeferred t = true := Function.update_self ..
  have he : Entered s t (g₀.enqueueLocked t) := h.entered_background ht hr hb hg
  have hadmits := he.sound.admitBackgroundLocked clock.admission
  have hjoined : joined t clock g = (g₀.enqueueLocked t).admitBackgroundLocked clock.admission := by
    rw [joined, if_pos hb]
  have hqueues : (g₀.enqueueLocked t).queues = g.queues := by
    rw [enqueueDeferred_eq hmark hb]
  have hout : ¬ g.Waits t := fun hw => h.not_waits ht (hg.waits t hw)
  have hmarked : g₀.Sound := hg.sound.mark (by rw [ht, hg.nextID]) (fun hx => hout (Or.inl hx))
    fun hx => hout (Or.inr (Or.inl hx))
  have hstay : ∀ c u, u ∈ (s.gate.queues c).items →
      ((g₀.enqueueLocked t).admitBackgroundLocked clock.admission).Waits u → g.Waits u := by
    intro c u hu hw
    rcases (hmarked.waits_enqueueDeferred hmark hb).mp ((hadmits.waits u).mp hw) with hw | rfl
    · exact hw
    · obtain ⟨rfl, -⟩ := h.sound.queued c u hu
      exact absurd (Or.inl hu) (h.not_waits ht)
  rw [hjoined]
  refine turns_regrant hadmits.sound ready clock' (fun c u hu hw => ?_) fun c u hu hw => ?_
  · have hmem := hg.queued c u hu (hstay c u hu hw)
    exact hadmits.queued c u (by rwa [hqueues])
  · have hmem : u ∈ ((g₀.enqueueLocked t).queues c).items := by
      rw [hqueues]
      exact hg.queued c u hu (hstay c u hu hw)
    have hkeeps := Rotor.keeps_of_prefix (he.sound.queues c).toLined (hadmits.rotation c)
    refine List.Subset.trans (hkeeps u hmem (hadmits.queued c u hmem)) ?_
    rw [hqueues]
    exact hg.keeps c u hu (hstay c u hu hw)

/-- A user arrival lets nobody get ahead of the tickets that stay, and admits nobody. -/
theorem Inv.turns_user (h : s.Inv) (ht : t.id = s.gate.nextID + 1) (hr : t.recovery = false)
    (huser : t.user = true) (hg : Roomed s t g) (ready : Ticket → Bool) (clock clock' : Clock) :
    ∀ c, ∀ u ∈ (s.gate.queues c).items,
      u ∈ (((joined t clock g).regrant ready clock').queues c).items →
      (((joined t clock g).regrant ready clock').queues c).ahead u.owner ⊆
        (s.gate.queues c).ahead u.owner := by
  have hb : ¬ t.workClass.background = true := by
    rw [Bool.not_eq_true]
    exact user_iff.mp huser
  obtain ⟨hw, -⟩ := hg.sound.makeBackgroundRoomLocked
  have he : Entered s t (g.makeBackgroundRoomLocked.enqueueLocked t) :=
    h.entered_user ht hr huser hg
  have hmark : g.makeBackgroundRoomLocked.isDeferred t = false := by
    rw [← Bool.not_eq_true]
    intro hm
    rcases hw.marks t hm with hm | hm
    · rw [hg.unmarked.2] at hm
      cases hm
    · exact h.not_waits ht (hg.waits t hm)
  have hqueued : t ∈ ((g.makeBackgroundRoomLocked.enqueueLocked t).queues t.workClass).items :=
    (hw.sound.mem_enqueueLocked hmark).mpr (Or.inr ⟨rfl, rfl⟩)
  have husers := he.sound.user_queued hqueued (user_iff.mp huser)
  have hjoined : joined t clock g = g.makeBackgroundRoomLocked.enqueueLocked t := by
    rw [joined, if_neg hb, Gate.admitBackgroundLocked, if_pos (Or.inl husers.ne')]
  rw [hjoined, queues_regrant_users husers]
  intro c u hu hu'
  obtain ⟨hc, -⟩ := h.sound.queued c u hu
  have hroom : u ∈ (g.makeBackgroundRoomLocked.queues c).items := by
    rcases (hw.sound.mem_enqueueLocked hmark).mp hu' with hu' | ⟨rfl, -⟩
    · exact hu'
    · exact absurd (Or.inl (hc ▸ hu)) (h.not_waits ht)
  have hmem := hw.queued c u hroom
  refine List.Subset.trans (hw.sound.keeps_enqueueLocked hmark u hroom hu') ?_
  exact List.Subset.trans (hw.keeps c u hmem hroom) (hg.keeps c u hu (Or.inl (hc ▸ hmem)))

/-- **An arrival** is quiet. -/
theorem Inv.quiet_acquire (h : s.Inv) {c : ℤ} {ctx : Context} {start : ℤ} :
    Quiet s (s.acquire c ctx start clock) := by
  unfold System.acquire
  extract_lets workClass src g t room
  have ht : t.id = s.gate.nextID + 1 := rfl
  have hr : t.recovery = false := rfl
  match hroom : room with
  | none =>
    exact ⟨List.Sublist.refl _, rfl, Nat.le_succ _, fun _ => Or.inl, fun _ _ => rfl,
      fun _ _ _ _ => List.Subset.refl _⟩
  | some g₁ =>
    have hroomed := h.roomed ht hroom
    have hentered : Entered s t (joined t clock g₁) := h.entered clock ht hr hroomed
    have hturns : ∀ c, ∀ u ∈ (s.gate.queues c).items,
        u ∈ (((joined t clock g₁).regrant s.ready clock).queues c).items →
        (((joined t clock g₁).regrant s.ready clock).queues c).ahead u.owner ⊆
          (s.gate.queues c).ahead u.owner := by
      by_cases hb : t.workClass.background = true
      · exact h.turns_background ht hr hb hroomed s.ready clock clock
      · exact h.turns_user ht hr (user_iff.mpr (by simpa using hb)) hroomed s.ready clock clock
    obtain ⟨hre, -⟩ := hentered.sound.regrant s.ready clock
    have harrivals : ∀ u, ((joined t clock g₁).regrant s.ready clock).Waits u →
        s.gate.Waits u ∨ s.gate.nextID < u.id := by
      intro u hu
      rcases hentered.waits u ((hre.waits u).mp hu) with hu | rfl
      · exact Or.inl hu
      · exact Or.inr (Nat.lt_succ_self _)
    have hid := hentered.nextID.ge
    show Quiet s { s with
      gate := if (joined t clock g₁).active then joined t clock g₁
        else ((joined t clock g₁).regrant s.ready clock).signalLocked
      waiters := s.waiters ++ [⟨t, ctx.probe⟩]
      asleep := Function.update s.asleep t none }
    cases ha : (joined t clock g₁).active with
    | true =>
      rw [regrant_active ha] at hturns harrivals
      rw [if_pos rfl]
      exact ⟨List.Sublist.refl _, hentered.writeGeneration, (Nat.le_succ _).trans hid, harrivals,
        fun _ _ => hentered.holdSecurity, hturns⟩
    | false =>
      rw [if_neg (by simp)]
      exact ⟨List.Sublist.refl _, (control_writeGeneration hre.control :).trans
          hentered.writeGeneration,
        (Nat.le_succ _).trans (hid.trans (control_nextID hre.control).ge), harrivals,
        fun _ _ => (control_holdSecurity hre.control :).trans hentered.holdSecurity, hturns⟩

/-! ## The other sections -/

theorem Inv.quiet_abandon (h : s.Inv) (w : Caller) : Quiet s (s.abandon w clock) :=
  ((h.departed w).admitted clock.admission).quiet s.ready w

theorem Inv.quiet_capacityTimeout (h : s.Inv) (hw : w ∈ s.waiters) :
    Quiet s (s.capacityTimeout w clock) :=
  (((h.departed w).refuse (h.fresh w hw)).admitted clock.admission).quiet s.ready w

/-- The top of a waiting caller's loop takes the granted turn, or is quiet. -/
theorem Inv.poll_cases (h : s.Inv) (w : Caller) (done : Bool) (held : ℤ) (clock : Clock) :
    (s.gate.grant = some w.ticket ∧ s.poll w done held clock = s.takeTurn w held) ∨
      Quiet s (s.poll w done held clock) := by
  unfold System.poll
  split_ifs with hrefused hdone hturn
  · exact Or.inr (quiet_of_gate rfl rfl)
  · exact Or.inr (h.quiet_abandon w)
  · exact Or.inl ⟨hturn.2, rfl⟩
  · exact Or.inr (quiet_of_gate rfl rfl)

theorem Inv.quiet_release (h : s.Inv) : Quiet s (s.release w clock) := by
  set g : Gate :=
    { s.gate with
      active := false
      holderProbe := false
      holderClass := none
      heldSince := 0
      holderOwner := "" }
  have hsound : g.Sound := h.sound.congr rfl rfl rfl rfl le_rfl rfl rfl rfl rfl rfl rfl
  exact quiet_regrant hsound s.ready clock List.erase_sublist rfl (fun _ => id) rfl rfl le_rfl
    fun _ _ => rfl

theorem Inv.quiet_enterPressureHold (h : s.Inv) : Quiet s (s.enterPressureHold clock) := by
  unfold System.enterPressureHold
  split_ifs with hr
  · exact Quiet.refl s
  rw [not_not] at hr
  have hhold : s.gate.holdEpoch = 0 := h.epochs.symm.trans hr
  have hpause : s.gate.pauseEpoch = 0 := by
    by_contra hp
    exact h.sound.paused hp hhold
  extract_lets n src g g₁
  by_cases hc : g.active = false ∧ g.grant = none
  · have hsound : g.Sound :=
      { h.numbered with
        paused := fun hp => absurd hpause hp
        fences := Nat.zero_le _ }
    have hg₁ : g₁ = (g.regrant s.ready clock).signalLocked := if_pos hc
    rw [hg₁]
    exact quiet_regrant hsound s.ready clock (List.Sublist.refl _) rfl (fun _ => id) rfl rfl
      (Nat.le_succ _) fun hne => absurd hhold hne
  · have hg₁ : g₁ = g := if_neg hc
    rw [hg₁]
    exact ⟨List.Sublist.refl _, rfl, Nat.le_succ _, fun _ => Or.inl, fun hne => absurd hhold hne,
      fun _ _ _ _ => List.Subset.refl _⟩

theorem quiet_enterBeginPause {epoch : ℕ} : Quiet s (s.enterBeginPause epoch) := by
  unfold System.enterBeginPause
  split_ifs with he
  · exact Quiet.refl s
  · exact ⟨List.Sublist.refl _, rfl, le_rfl, fun _ => Or.inl, fun _ _ => rfl,
      fun _ _ _ _ => List.Subset.refl _⟩

theorem Inv.quiet_endRecovery (h : s.Inv) {epoch : ℕ} : Quiet s (s.endRecovery epoch clock) := by
  unfold System.endRecovery
  split_ifs with he
  · exact Quiet.refl s
  · refine quiet_regrant (Sound.clearRecovery h.sound) s.ready clock (List.Sublist.refl _) rfl ?_ rfl
      rfl le_rfl fun _ hne => absurd rfl hne
    rintro u (hu | hu | hu)
    · exact Or.inl hu
    · exact Or.inr (Or.inl hu)
    · cases hu

theorem quiet_acquireRecoveryTurn {epoch : ℕ} {start : ℤ} :
    Quiet s (s.acquireRecoveryTurn epoch start) := by
  unfold System.acquireRecoveryTurn
  split_ifs with he
  · exact Quiet.refl s
  extract_lets src g t g₁ g₂
  have hfields : g₂.queues = s.gate.queues ∧ g₂.deferred = s.gate.deferred ∧
      g₂.recoveryTicket = some t ∧ g₂.nextID = s.gate.nextID + 1 ∧
      g₂.writeGeneration = s.gate.writeGeneration ∧ g₂.holdSecurity = s.gate.holdSecurity := by
    simp only [g₂]
    split_ifs <;> exact ⟨rfl, rfl, rfl, rfl, rfl, rfl⟩
  obtain ⟨hqueues, hdeferred, hreserved, hid, hgeneration, hfences⟩ := hfields
  refine ⟨List.Sublist.refl _, hgeneration, (Nat.le_succ _).trans hid.ge, fun u hu => ?_,
    fun _ _ => hfences, ?_⟩
  · unfold Waits at hu ⊢
    dsimp only at hu
    rw [hqueues, hdeferred, hreserved] at hu
    rcases hu with hu | hu | hu
    · exact Or.inl (Or.inl hu)
    · exact Or.inl (Or.inr (Or.inl hu))
    · obtain rfl := Option.some.inj hu
      exact Or.inr (Nat.lt_succ_self _)
  · dsimp only
    rw [hqueues]
    exact fun _ _ _ _ => List.Subset.refl _

theorem Inv.quiet_wakeWALWaiters (h : s.Inv) : Quiet s (s.wakeWALWaiters clock) :=
  quiet_regrant h.sound s.ready clock (List.Sublist.refl _) rfl (fun _ => id) rfl rfl le_rfl
    fun _ _ => rfl

/-- **A section starts the granted turn, or is quiet.** -/
theorem Inv.step_cases (h : s.Inv) (hs : s.step e = some s') :
    (∃ w held, w ∈ s.waiters ∧ s.gate.grant = some w.ticket ∧ s' = s.takeTurn w held) ∨
      Quiet s s' := by
  have hpoll : ∀ {w done held} {clock : Clock}, w ∈ s.waiters → s' = s.poll w done held clock →
      (∃ w held, w ∈ s.waiters ∧ s.gate.grant = some w.ticket ∧ s' = s.takeTurn w held) ∨
        Quiet s s' := by
    rintro w done held clock hw rfl
    rcases h.poll_cases w done held clock with ⟨hg, hp⟩ | hq
    · exact Or.inl ⟨w, held, hw, hg, hp⟩
    · exact Or.inr hq
  cases e with
  | acquire c ctx start clock =>
    obtain rfl := Option.some.inj hs
    exact Or.inr h.quiet_acquire
  | poll w done held clock =>
    simp only [System.step] at hs
    split_ifs at hs with hw
    exact hpoll hw (Option.some.inj hs).symm
  | capacity w done held clock =>
    simp only [System.step] at hs
    split_ifs at hs with hw hc
    · exact hpoll hw.1 (Option.some.inj hs).symm
    · obtain rfl := Option.some.inj hs
      exact Or.inr (h.quiet_capacityTimeout hw.1)
  | stuck w done now held clock =>
    simp only [System.step] at hs
    split_ifs at hs with hw hc
    · obtain rfl := Option.some.inj hs
      exact Or.inr (h.quiet_abandon w)
    · exact hpoll hw (Option.some.inj hs).symm
  | release w clock =>
    simp only [System.step] at hs
    split_ifs at hs with hw
    obtain rfl := Option.some.inj hs
    exact Or.inr h.quiet_release
  | enterPressureHold clock =>
    obtain rfl := Option.some.inj hs
    exact Or.inr h.quiet_enterPressureHold
  | enterBeginPause epoch =>
    obtain rfl := Option.some.inj hs
    exact Or.inr quiet_enterBeginPause
  | endRecovery epoch clock =>
    obtain rfl := Option.some.inj hs
    exact Or.inr h.quiet_endRecovery
  | acquireRecoveryTurn epoch start =>
    obtain rfl := Option.some.inj hs
    exact Or.inr quiet_acquireRecoveryTurn
  | wakeWALWaiters clock =>
    obtain rfl := Option.some.inj hs
    exact Or.inr h.quiet_wakeWALWaiters
  | probeLedger l physical free spent =>
    obtain rfl := Option.some.inj hs
    exact Or.inr (quiet_of_gate rfl rfl)
  | measured r attempted known =>
    simp only [System.step] at hs
    split_ifs at hs with hturn
    obtain rfl := Option.some.inj hs
    exact Or.inr (quiet_of_gate rfl rfl)
  | retained r fileEnd =>
    simp only [System.step] at hs
    split_ifs at hs with hturn
    obtain rfl := Option.some.inj hs
    exact Or.inr (quiet_of_gate rfl rfl)
  | resetLedger l size =>
    simp only [System.step] at hs
    split_ifs at hs with hturn
    obtain rfl := Option.some.inj hs
    exact Or.inr (quiet_of_gate rfl rfl)

/-! ## The turns of a run -/

theorem turns_cons (hs : s.step e = some s') : turns s (e :: es) = began s s' ++ turns s' es := by
  rw [turns, hs]

theorem Inv.holders_eq_nil (h : s.Inv) (hg : s.gate.grant = some t) : s.holders = [] := by
  by_contra hne
  have hidle := (h.granted t hg).1
  rw [h.active.mpr hne] at hidle
  cases hidle

theorem Inv.began_takeTurn (h : s.Inv) (hg : s.gate.grant = some w.ticket) {held : ℤ} :
    began s (s.takeTurn w held) = [w] := by
  simp [began, System.takeTurn, h.holders_eq_nil hg]

theorem Inv.step_grant (h : s.Inv) (hs : s.step e = some s') (hw : w ∈ began s s') :
    s.gate.grant = some w.ticket := by
  rcases h.step_cases hs with ⟨v, held, -, hg, rfl⟩ | hq
  · rw [h.began_takeTurn hg] at hw
    rw [List.mem_singleton.mp hw, hg]
  · rw [hq.began] at hw
    cases hw

end System

end Portico.WriterGate
