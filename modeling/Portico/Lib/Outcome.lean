import Mathlib

/-!
# Steps that may be refused

How a sequence of steps in `Except` ends: what it takes to succeed, and which step refuses. Loops
over a list whose steps read something that may not be there: the loop has a result exactly if every
step has one.

## Main results

* `mapM_eq_some`: the results of a loop are those of its steps
* `exists_mapM`: a loop whose steps have results has them
* `exists_foldlM`: so has one that carries a value, with what its steps keep of it
* `bind_eq_ok`: a sequence succeeds when each step does
* `bind_eq_error`: a sequence is refused by its first refused step
-/

namespace Portico

variable {α β : Type*} {f : α → Option β} {l : List α} {m : List β}

/-- What stands at a place of a list, if the place is in it. -/
def readAt (l : List α) (i : ℤ) : Option α := if 0 ≤ i then l[i.toNat]? else none

theorem exists_readAt {i : ℤ} (h : 0 ≤ i) (hlt : i < l.length) : ∃ a, readAt l i = some a := by
  rw [readAt, if_pos h]
  exact ⟨l[i.toNat], List.getElem?_eq_getElem (by omega)⟩

theorem exists_getElem {i : ℕ} (h : i < l.length) : ∃ a, l[i]? = some a :=
  ⟨l[i], List.getElem?_eq_getElem h⟩

theorem mapM_eq_some (h : l.mapM f = some m) : l.map f = m.map some := by
  induction l generalizing m with
  | nil =>
    obtain rfl := Option.some.inj h
    rfl
  | cons a l ih =>
    rw [List.mapM_cons] at h
    obtain ⟨b, hb, h⟩ := Option.bind_eq_some_iff.mp h
    obtain ⟨bs, hbs, h⟩ := Option.bind_eq_some_iff.mp h
    obtain rfl := Option.some.inj h
    rw [List.map_cons, List.map_cons, hb, ih hbs]

theorem length_mapM (h : l.mapM f = some m) : m.length = l.length := by
  simpa using (congrArg List.length (mapM_eq_some h)).symm

theorem mem_mapM {b : β} (h : l.mapM f = some m) (hb : b ∈ m) : ∃ a ∈ l, f a = some b := by
  have hmem : some b ∈ l.map f := by
    rw [mapM_eq_some h]
    exact List.mem_map_of_mem hb
  exact List.mem_map.mp hmem

theorem exists_mapM (h : ∀ a ∈ l, ∃ b, f a = some b) : ∃ m, l.mapM f = some m := by
  induction l with
  | nil => exact ⟨[], rfl⟩
  | cons a l ih =>
    obtain ⟨b, hb⟩ := h a List.mem_cons_self
    obtain ⟨m, hm⟩ := ih fun x hx => h x (List.mem_cons_of_mem _ hx)
    refine ⟨b :: m, ?_⟩
    rw [List.mapM_cons, hb, hm]
    rfl

/-- A loop that carries a value has a result if every step has one that keeps an invariant. -/
theorem exists_foldlM {g : β → α → Option β} {keeps : β → Prop}
    (h : ∀ b, keeps b → ∀ a ∈ l, ∃ c, g b a = some c ∧ keeps c) {b : β} (hb : keeps b) :
    ∃ c, l.foldlM g b = some c ∧ keeps c := by
  induction l generalizing b with
  | nil => exact ⟨b, rfl, hb⟩
  | cons a l ih =>
    obtain ⟨c, hc, hkeeps⟩ := h b hb a List.mem_cons_self
    obtain ⟨d, hd, hkeeps⟩ := ih (fun b hb x hx => h b hb x (List.mem_cons_of_mem _ hx)) hkeeps
    refine ⟨d, ?_, hkeeps⟩
    rw [List.foldlM_cons, hc]
    exact hd

end Portico

/-! # Refused steps -/

namespace Portico

universe u v

variable {ε : Type u} {α β : Type v} {x : Except ε α} {f : α → Except ε β}

theorem bind_eq_ok {b : β} : (x >>= f) = .ok b ↔ ∃ a, x = .ok a ∧ f a = .ok b := by
  cases x <;> simp [bind, Except.bind]

theorem bind_eq_error {e : ε} :
    (x >>= f) = .error e ↔ x = .error e ∨ ∃ a, x = .ok a ∧ f a = .error e := by
  cases x <;> simp [bind, Except.bind]

@[simp] theorem ok_bind (a : α) : ((Except.ok a : Except ε α) >>= f) = f a := rfl

@[simp] theorem throw_bind (e : ε) : ((throw e : Except ε α) >>= f) = .error e := rfl

@[simp] theorem throw_eq_error (e : ε) : (throw e : Except ε α) = .error e := rfl

@[simp] theorem pure_eq_ok (a : α) : (pure a : Except ε α) = .ok a := rfl

@[simp] theorem error_bind (e : ε) : ((Except.error e : Except ε α) >>= f) = .error e := rfl

/-- A guarded step succeeds when its guard doesn't refuse and the rest succeeds. -/
theorem guard_eq_ok {p : Prop} [Decidable p] {e : ε} {rest : Except ε β} {b : β} :
    (if p then .error e else rest) = .ok b ↔ ¬ p ∧ rest = .ok b := by
  split_ifs with h <;> simp [h]

theorem guard_eq_error {p : Prop} [Decidable p] {e e' : ε} {rest : Except ε β} :
    (if p then .error e else rest) = .error e' ↔ (p ∧ e = e') ∨ (¬ p ∧ rest = .error e') := by
  split_ifs with h <;> simp [h]

/-- The value of an option, or a fault when there is none. -/
def require (e : ε) : Option α → Except ε α
  | some a => .ok a
  | none => .error e

theorem require_eq_ok {e : ε} {o : Option α} {a : α} : require e o = .ok a ↔ o = some a := by
  cases o <;> simp [require]

theorem toOption_eq_some {a : α} : x.toOption = some a ↔ x = .ok a := by
  cases x <;> simp [Except.toOption]

/-- A step whose result has a given reading succeeds with that reading. -/
theorem exists_of_map_eq_ok {g : α → β} {b : β} (h : x.map g = .ok b) : ∃ a, x = .ok a ∧ g a = b := by
  cases x with
  | error e => cases h
  | ok a => exact ⟨a, rfl, Except.ok.inj h⟩

end Portico
