import Mathlib

/-!
# Runs that end in a permitted way

A run in `Except` ends with a value or a fault. Here are rules for runs that end only in permitted
faults, or in a value with some property: for sequences, choices and loops.

## Main results

* `Yields.bind`, `Yields.guard`, `Yields.foldlM`: the rules
* `mapM_eq_error`, `foldlM_eq_error`: the step that a loop stops at
-/

namespace Portico

universe u v

variable {ε : Type u} {α β : Type v} {allowed : ε → Prop} {P : α → Prop} {Q : β → Prop}
  {x : Except ε α} {f : α → Except ε β}

/-- A run that ends in a value with a property, or in an allowed fault. -/
def Yields (allowed : ε → Prop) (P : α → Prop) (x : Except ε α) : Prop :=
  match x with
  | .ok a => P a
  | .error e => allowed e

namespace Yields

theorem of_ok {a : α} (h : Yields allowed P x) (hx : x = .ok a) : P a := by
  rw [hx] at h
  exact h

theorem of_error {e : ε} (h : Yields allowed P x) (hx : x = .error e) : allowed e := by
  rw [hx] at h
  exact h

theorem imp {R : α → Prop} (h : Yields allowed P x) (hP : ∀ a, P a → R a) :
    Yields allowed R x := by
  cases x with
  | ok a => exact hP a h
  | error e => exact h

/-- A sequence: what the first step yields is what the rest may rely on. -/
theorem bind (h : Yields allowed P x) (hf : ∀ a, P a → Yields allowed Q (f a)) :
    Yields allowed Q (x >>= f) := by
  cases x with
  | ok a => exact hf a h
  | error e => exact h

theorem guard {p : Prop} [Decidable p] {e : ε} (he : allowed e)
    (h : ¬ p → Yields allowed P x) : Yields allowed P (if p then .error e else x) := by
  by_cases hp : p
  · rw [if_pos hp]
    exact he
  · rw [if_neg hp]
    exact h hp

variable {γ : Type v} {g : γ → Except ε α} {l : List γ}

theorem foldlM {step : α → γ → Except ε α} {a : α} (ha : P a)
    (h : ∀ a, P a → ∀ c ∈ l, Yields allowed P (step a c)) : Yields allowed P (l.foldlM step a) := by
  induction l generalizing a with
  | nil => exact ha
  | cons c l ih =>
    rw [List.foldlM_cons]
    exact (h a ha c List.mem_cons_self).bind fun b hb =>
      ih hb fun x hx y hy => h x hx y (List.mem_cons_of_mem _ hy)

end Yields

/-! ## Where a loop stops -/

section Loops

variable {γ : Type v} {g : γ → Except ε α} {step : α → γ → Except ε α} {l : List γ} {e : ε}

theorem exists_mapM_ok : (∃ as, l.mapM g = .ok as) ↔ ∀ c ∈ l, ∃ a, g c = .ok a := by
  induction l with
  | nil => exact ⟨fun _ c hc => (nomatch hc), fun _ => ⟨[], rfl⟩⟩
  | cons c l ih =>
    rw [List.mapM_cons, List.forall_mem_cons, ← ih]
    cases hc : g c with
    | error e => exact ⟨fun ⟨_, h⟩ => (nomatch h), fun ⟨⟨_, h⟩, _⟩ => nomatch h⟩
    | ok a =>
      cases hl : l.mapM g with
      | error e => exact ⟨fun ⟨_, h⟩ => (nomatch h), fun ⟨_, ⟨_, h⟩⟩ => nomatch h⟩
      | ok as => exact ⟨fun _ => ⟨⟨a, rfl⟩, as, rfl⟩, fun _ => ⟨a :: as, rfl⟩⟩

theorem mapM_eq_error : l.mapM g = .error e ↔ ∃ before c after, l = before ++ c :: after ∧
    (∀ x ∈ before, ∃ a, g x = .ok a) ∧ g c = .error e := by
  induction l with
  | nil =>
    refine ⟨fun h => (nomatch h), ?_⟩
    rintro ⟨before, c, after, h, -⟩
    exact absurd h (by simp)
  | cons c l ih =>
    rw [List.mapM_cons]
    cases hc : g c with
    | error e' =>
      refine ⟨fun h => ?_, ?_⟩
      · have he : e' = e := Except.error.inj h
        exact ⟨[], c, l, rfl, fun x hx => (nomatch hx), he ▸ hc⟩
      rintro ⟨before, x, after, h, hbefore, hx⟩
      cases before with
      | nil =>
        obtain ⟨rfl, -⟩ := List.cons.inj h
        obtain rfl := Except.error.inj (hc.symm.trans hx)
        rfl
      | cons y before =>
        obtain ⟨rfl, -⟩ := List.cons.inj h
        obtain ⟨a, ha⟩ := hbefore c List.mem_cons_self
        exact absurd (hc.symm.trans ha) nofun
    | ok a =>
      have hrest : (Except.ok a >>= fun b => do
          let bs ← l.mapM g
          pure (b :: bs)) = .error e ↔ l.mapM g = .error e := by
        cases l.mapM g with
        | error e' => exact Iff.rfl
        | ok as => exact ⟨fun h => (nomatch h), fun h => nomatch h⟩
      rw [hrest, ih]
      constructor
      · rintro ⟨before, x, after, rfl, hbefore, hx⟩
        exact ⟨c :: before, x, after, rfl, List.forall_mem_cons.mpr ⟨⟨a, hc⟩, hbefore⟩, hx⟩
      · rintro ⟨before, x, after, h, hbefore, hx⟩
        cases before with
        | nil =>
          obtain ⟨rfl, -⟩ := List.cons.inj h
          exact absurd (hc.symm.trans hx) nofun
        | cons y before =>
          obtain ⟨rfl, rfl⟩ := List.cons.inj h
          exact ⟨before, x, after, rfl, fun z hz => hbefore z (List.mem_cons_of_mem _ hz), hx⟩

/-- A loop that carries a value stops at the first step that has a fault. -/
theorem foldlM_eq_error {a : α} : l.foldlM step a = .error e ↔ ∃ before c after b,
    l = before ++ c :: after ∧ before.foldlM step a = .ok b ∧ step b c = .error e := by
  induction l generalizing a with
  | nil =>
    refine ⟨fun h => (nomatch h), ?_⟩
    rintro ⟨before, c, after, b, h, -⟩
    exact absurd h (by simp)
  | cons c l ih =>
    rw [List.foldlM_cons]
    constructor
    · intro h
      cases hc : step a c with
      | error e' =>
        rw [hc] at h
        exact ⟨[], c, l, a, rfl, rfl, hc.trans h⟩
      | ok b =>
        rw [hc] at h
        obtain ⟨before, x, after, b', rfl, hbefore, hx⟩ := ih.mp h
        exact ⟨c :: before, x, after, b', rfl, by rw [List.foldlM_cons, hc]; exact hbefore, hx⟩
    · rintro ⟨before, x, after, b, h, hbefore, hx⟩
      cases before with
      | nil =>
        obtain ⟨rfl, rfl⟩ := List.cons.inj h
        obtain rfl := Except.ok.inj hbefore
        rw [hx]
        rfl
      | cons y before =>
        obtain ⟨rfl, rfl⟩ := List.cons.inj h
        rw [List.foldlM_cons] at hbefore
        cases hc : step a c with
        | error e' => rw [hc] at hbefore; cases hbefore
        | ok d =>
          rw [hc] at hbefore
          exact ih.mpr ⟨before, x, after, b, rfl, hbefore, hx⟩

end Loops

end Portico
