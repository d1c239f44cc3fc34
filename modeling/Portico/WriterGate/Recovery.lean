import Portico.WriterGate.Turns

/-!
# The recovery fence

A recovery attempt holds the gate, pauses it, and reads a fence before it copies the log. The turn
that resets the log trusts the copy only when the write generation moved once since the fence; this
module says what that test is worth.

## Main results

* `run_generation`: the generation counts the write turns
* `run_holdSecurity`: a hold counts the security fences
* `recovery_fenced`: a pause grants recovery turns only, a hold a bounded number of security fences
  besides, and the reset test is exact
-/

open scoped List

namespace Portico.WriterGate

open Machine Gate

namespace System

variable {s s' : System} {g g' : Gate} {t u : Ticket} {w : Caller} {e : Event} {es : List Event}

/-- The write generation, and whether a copy starts with no writer in progress. -/
def checkpointCopyFence (g : Gate) : ℕ × Bool := (g.writeGeneration, !g.active || g.holderProbe)

/-- The callers that may write; a read-only probe doesn't. -/
def writes (ws : List Caller) : List Caller := ws.filter fun w => !w.probe

/-- The security fences among some callers. -/
def fences (ws : List Caller) : List Caller :=
  ws.filter fun w => w.ticket.workClass = .securityFence

theorem writes_append (ws vs : List Caller) : writes (ws ++ vs) = writes ws ++ writes vs :=
  List.filter_append ..

theorem fences_append (ws vs : List Caller) : fences (ws ++ vs) = fences ws ++ fences vs :=
  List.filter_append ..

/-! ## One turn -/

theorem writeGeneration_takeTurn {held : ℤ} :
    (s.takeTurn w held).gate.writeGeneration = s.gate.writeGeneration + (writes [w]).length := by
  have hcontrol : (s.gate.removeWaiterLocked w.ticket true).control = s.gate.control :=
    removeWaiterLocked_control
  simp only [System.takeTurn, control_writeGeneration hcontrol]
  cases hp : w.probe <;> simp [writes, hp]

theorem holdSecurity_takeTurn {held : ℤ} (hhold : s.gate.holdEpoch ≠ 0) :
    (s.takeTurn w held).gate.holdSecurity = s.gate.holdSecurity + (fences [w]).length := by
  have hcontrol : (s.gate.removeWaiterLocked w.ticket true).control = s.gate.control :=
    removeWaiterLocked_control
  simp only [System.takeTurn, control_holdEpoch hcontrol, control_holdSecurity hcontrol]
  by_cases hc : w.ticket.workClass = .securityFence <;> simp [fences, hc, hhold]

theorem Inv.step_generation (h : s.Inv) (hs : s.step e = some s') :
    s'.gate.writeGeneration = s.gate.writeGeneration + (writes (began s s')).length := by
  rcases h.step_cases hs with ⟨w, held, -, hg, rfl⟩ | hq
  · rw [h.began_takeTurn hg, writeGeneration_takeTurn]
  · rw [hq.began, hq.writeGeneration]
    rfl

theorem Inv.step_holdSecurity (h : s.Inv) (hs : s.step e = some s')
    (hhold : s.gate.holdEpoch ≠ 0) (hhold' : s'.gate.holdEpoch ≠ 0) :
    s'.gate.holdSecurity = s.gate.holdSecurity + (fences (began s s')).length := by
  rcases h.step_cases hs with ⟨w, held, -, hg, rfl⟩ | hq
  · rw [h.began_takeTurn hg, holdSecurity_takeTurn hhold]
  · rw [hq.began, hq.holdSecurity hhold hhold']
    rfl

theorem Inv.grant_paused (h : s.Inv) (hp : s.gate.pauseEpoch ≠ 0) (hg : s.gate.grant = some t) :
    t.recovery = true := by
  rcases (h.granted t hg).2 with ⟨hr, -⟩ | ⟨-, -, hp', -⟩
  · exact hr
  · exact absurd hp' hp

/-- Under a hold the granted turn is the recovery turn or a security fence. -/
theorem Inv.grant_held (h : s.Inv) (hh : s.gate.holdEpoch ≠ 0) (hg : s.gate.grant = some t) :
    t.recovery = true ∨ t.workClass = .securityFence := by
  rcases (h.granted t hg).2 with ⟨hr, -⟩ | ⟨-, -, -, hf, -⟩
  · exact Or.inl hr
  · exact Or.inr (hf hh).1

/-! ## A run -/

/-- **The generation counts the write turns** of a run. -/
theorem run_generation (h : s.Inv) (hrun : run step s es = some s') :
    s'.gate.writeGeneration = s.gate.writeGeneration + (writes (turns s es)).length := by
  induction es generalizing s with
  | nil =>
    obtain rfl := Option.some.inj hrun
    rfl
  | cons e es ih =>
    obtain ⟨t, ht, hrun⟩ := run_cons.mp hrun
    have hgeneration := h.step_generation ht
    rw [ih (h.step ht) hrun, turns_cons ht, writes_append, List.length_append]
    omega

/-- **A hold counts the security fences** of a run. -/
theorem run_holdSecurity (h : s.Inv) (hrun : run step s es = some s')
    (hhold : Along step (fun t => t.gate.holdEpoch ≠ 0) s es) :
    s'.gate.holdSecurity = s.gate.holdSecurity + (fences (turns s es)).length := by
  induction es generalizing s with
  | nil =>
    obtain rfl := Option.some.inj hrun
    rfl
  | cons e es ih =>
    obtain ⟨t, ht, hrun⟩ := run_cons.mp hrun
    have hfences := h.step_holdSecurity ht hhold.1 (hhold.2 t ht).head
    rw [ih (h.step ht) hrun (hhold.2 t ht), turns_cons ht, fences_append, List.length_append]
    omega

/-- What a state of a run says of the turn granted in it, it says of every turn the run starts. -/
theorem run_turns (h : s.Inv) {P : System → Prop} {Q : Ticket → Prop}
    (hgrant : ∀ s : System, s.Inv → P s → ∀ t, s.gate.grant = some t → Q t)
    (hrun : run step s es = some s') (hP : Along step P s es) :
    ∀ w ∈ turns s es, Q w.ticket := by
  induction es generalizing s with
  | nil => simp [turns]
  | cons e es ih =>
    obtain ⟨t, ht, hrun⟩ := run_cons.mp hrun
    rw [turns_cons ht]
    intro w hw
    rcases List.mem_append.mp hw with hw | hw
    · exact hgrant s h hP.1 _ (h.step_grant ht hw)
    · exact ih (h.step ht) hrun (hP.2 t ht) w hw

/-- The fence says whether the turn in progress is a read-only probe, or none. -/
theorem Inv.fence_idle (h : s.Inv) :
    (checkpointCopyFence s.gate).2 = true ↔ ∀ v ∈ s.holders, v.probe = true := by
  simp only [checkpointCopyFence, Bool.or_eq_true, Bool.not_eq_true']
  constructor
  · rintro (hidle | hprobe) v hv
    · rw [h.active.mpr (List.ne_nil_of_mem hv)] at hidle
      cases hidle
    · rw [← h.probes v hv, hprobe]
  · intro hall
    cases hh : s.holders with
    | nil =>
      refine Or.inl ?_
      rw [← Bool.not_eq_true, h.active, hh]
      exact fun hne => hne rfl
    | cons v vs =>
      have hv : v ∈ s.holders := by simp [hh]
      exact Or.inr ((h.probes v hv).trans (hall v hv))

/-! ## The fence -/

/-- **The recovery fence** over a run from `s` to `s'`. A pause that lasts through the run starts
recovery turns only; a hold starts recovery turns and a bounded number of security fences. For a
fence read in `s` and a write turn that began since and reads the generation again in `s'`, the test
of the reset succeeds exactly when no other write turn was in progress at the fence or began since. -/
structure Fenced (s : System) (es : List Event) (s' : System) : Prop where
  paused : Along step (fun t => t.gate.pauseEpoch ≠ 0) s es →
    ∀ w ∈ turns s es, w.ticket.recovery = true
  held : Along step (fun t => t.gate.holdEpoch ≠ 0) s es →
    ∀ w ∈ turns s es, w.ticket.recovery = true ∨ w.ticket.workClass = .securityFence
  bounded : Along step (fun t => t.gate.holdEpoch ≠ 0) s es →
    (fences (turns s es)).length ≤ recoverySecurityReserve
  granted : ∀ t, s'.gate.grant = some t → (s'.gate.pauseEpoch ≠ 0 → t.recovery = true) ∧
    (s'.gate.holdEpoch ≠ 0 → t.recovery = true ∨ t.workClass = .securityFence)
  pausing : s'.gate.pauseEpoch ≠ 0 → s'.gate.holdEpoch ≠ 0
  reset : ∀ w ∈ turns s es, w ∈ s'.holders → w.probe = false →
    ((checkpointCopyFence s.gate).2 = true ∧
        (checkpointCopyFence s'.gate).1 = (checkpointCopyFence s.gate).1 + 1 ↔
      (∀ v ∈ s.holders, v.probe = true) ∧ writes (turns s es) = [w])

/-- **Every run is fenced.** -/
theorem recovery_fenced (h : s.Reachable) (hrun : run step s es = some s') : Fenced s es s' := by
  have hinv := h.inv
  have hinv' : s'.Inv := run_invariant (fun _ _ _ h hs => h.step hs) hinv hrun
  refine ⟨fun hp => ?_, fun hh => ?_, fun hh => ?_, fun t ht => ⟨?_, ?_⟩, hinv'.sound.paused,
    fun w hw _ hwrite => ?_⟩
  · exact run_turns hinv (fun s h hp t => h.grant_paused hp) hrun hp
  · exact run_turns hinv (fun s h hh t => h.grant_held hh) hrun hh
  · have hcount := run_holdSecurity hinv hrun hh
    have := hinv'.sound.fences
    omega
  · exact fun hp => hinv'.grant_paused hp ht
  · exact fun hh => hinv'.grant_held hh ht
  · have hmem : w ∈ writes (turns s es) := List.mem_filter.mpr ⟨hw, by simp [hwrite]⟩
    have hone : (writes (turns s es)).length = 1 ↔ writes (turns s es) = [w] := by
      rw [List.length_eq_one_iff]
      constructor
      · rintro ⟨v, hv⟩
        rw [hv] at hmem
        rw [hv, List.mem_singleton.mp hmem]
      · exact fun hv => ⟨w, hv⟩
    rw [hinv.fence_idle, ← hone]
    refine and_congr_right fun _ => ?_
    show s'.gate.writeGeneration = s.gate.writeGeneration + 1 ↔ _
    rw [run_generation hinv hrun]
    omega

/-- A gate that was held and then paused by the checkpoint owner. -/
def pausedGate : System :=
  ((init fun _ => roomyLedger).enterPressureHold stillClock).enterBeginPause 1

/-- The caller of the recovery turn of that pause. -/
def resetCaller : Caller := ⟨⟨none, 2, .maintenance, "", 0, true⟩, false⟩

/-- In the pause the recovery turn is the only one that begins, and the run is fenced. -/
theorem recovery_fenced_reset :
    turns pausedGate [.acquireRecoveryTurn 1 0, .poll resetCaller false 0 stillClock] =
        [resetCaller] ∧
      Fenced pausedGate [.acquireRecoveryTurn 1 0, .poll resetCaller false 0 stillClock]
        ((pausedGate.acquireRecoveryTurn 1 0).poll resetCaller false 0 stillClock) :=
  ⟨by decide +kernel,
    recovery_fenced ⟨_, [.enterPressureHold stillClock, .enterBeginPause 1], rfl⟩ rfl⟩

end System

end Portico.WriterGate
