import Mathlib

/-!
# Maps in the order of insertion

A map of a script: its entries in the order their keys were first set, each key once.

## Main results

* `OrderedMap.get_set`: a map after an operation, by its keys
* `OrderedMap.length_set`: a key set again is no new entry
-/

namespace Portico

structure OrderedMap (κ α : Type*) where
  entries : List (κ × α) := []
  distinct : (entries.map Prod.fst).Nodup := by simp

namespace OrderedMap

variable {κ α : Type*} [DecidableEq κ] {m m' : OrderedMap κ α} {k j : κ} {a b : α}
  {p q : κ → α → Bool}

def get (m : OrderedMap κ α) (k : κ) : Option α := m.entries.lookup k

theorem get_eq_some : m.get k = some a ↔ (k, a) ∈ m.entries := by
  obtain ⟨entries, hdistinct⟩ := m
  change entries.lookup k = some a ↔ (k, a) ∈ entries
  induction entries with
  | nil => simp
  | cons e entries ih =>
    obtain ⟨j, b⟩ := e
    rw [List.map_cons, List.nodup_cons] at hdistinct
    rw [List.lookup_cons, List.mem_cons]
    by_cases hk : k = j
    · subst hk
      have hnot : (k, a) ∉ entries :=
        fun h => hdistinct.1 (List.mem_map.mpr ⟨(k, a), h, rfl⟩)
      simp only [BEq.rfl, Option.some.injEq, hnot, or_false, Prod.mk.injEq, true_and]
      exact eq_comm
    · have hne : (k == j) = false := by simpa using hk
      rw [hne]
      simp only [Prod.mk.injEq, hk, false_and, false_or]
      exact ih hdistinct.2

theorem get_eq_none : m.get k = none ↔ ∀ a, m.get k ≠ some a := by
  cases m.get k <;> simp

/-- The entries that meet a condition. -/
def keep (p : κ → α → Bool) (m : OrderedMap κ α) : OrderedMap κ α where
  entries := m.entries.filter fun e => p e.1 e.2
  distinct := m.distinct.sublist (List.filter_sublist.map _)

def erase (k : κ) (m : OrderedMap κ α) : OrderedMap κ α := m.keep fun j _ => j ≠ k

/-- An entry set: in its place, or at the end. -/
def set (m : OrderedMap κ α) (k : κ) (a : α) : OrderedMap κ α where
  entries :=
    if k ∈ m.entries.map Prod.fst then m.entries.map fun e => if e.1 = k then (k, a) else e
    else m.entries ++ [(k, a)]
  distinct := by
    split_ifs with h
    · rw [List.map_map]
      have hsame : (Prod.fst ∘ fun e : κ × α => if e.1 = k then (k, a) else e) = Prod.fst := by
        funext e
        rw [Function.comp_apply]
        split_ifs with hk
        · exact hk.symm
        · rfl
      rw [hsame]
      exact m.distinct
    · rw [List.map_append, List.nodup_append]
      refine ⟨m.distinct, List.nodup_singleton _, ?_⟩
      intro x hx y hy
      obtain rfl := List.mem_singleton.mp hy
      rintro rfl
      exact h hx

/-- Each entry changed where it stands. -/
def map {β : Type*} (f : α → β) (m : OrderedMap κ α) : OrderedMap κ β where
  entries := m.entries.map fun e => (e.1, f e.2)
  distinct := by
    rw [List.map_map]
    exact m.distinct

theorem get_map {β : Type*} {f : α → β} : (m.map f).get k = (m.get k).map f := by
  obtain ⟨entries, hdistinct⟩ := m
  change (entries.map fun e => (e.1, f e.2)).lookup k = (entries.lookup k).map f
  clear hdistinct
  induction entries with
  | nil => rfl
  | cons e entries ih =>
    rw [List.map_cons, List.lookup_cons, List.lookup_cons]
    cases k == e.1
    · exact ih
    · rfl

theorem get_keep_eq_some : (m.keep p).get k = some a ↔ m.get k = some a ∧ p k a = true := by
  rw [get_eq_some, get_eq_some]
  exact List.mem_filter

theorem get_erase_eq_some : (m.erase k).get j = some a ↔ m.get j = some a ∧ j ≠ k := by
  rw [erase, get_keep_eq_some, decide_eq_true_eq]

@[simp] theorem get_erase_self : (m.erase k).get k = none := by
  rw [get_eq_none]
  intro a h
  exact (get_erase_eq_some.mp h).2 rfl

theorem get_erase_of_ne (h : j ≠ k) : (m.erase k).get j = m.get j := by
  apply Option.ext
  intro a
  rw [get_erase_eq_some]
  simp [h]

theorem get_set_eq_some :
    (m.set k a).get j = some b ↔ if j = k then b = a else m.get j = some b := by
  rw [get_eq_some, get_eq_some, set]
  dsimp only
  split_ifs with hmem hj hj
  · subst hj
    rw [List.mem_map]
    constructor
    · rintro ⟨e, -, he⟩
      split_ifs at he with hk
      · exact (Prod.mk.inj he).2.symm
      · exact absurd (congrArg Prod.fst he) hk
    · rintro rfl
      obtain ⟨e, he, hk⟩ := List.mem_map.mp hmem
      exact ⟨e, he, if_pos hk⟩
  · rw [List.mem_map]
    constructor
    · rintro ⟨e, he, heq⟩
      split_ifs at heq with hk
      · exact absurd (Prod.mk.inj heq).1.symm hj
      · exact heq ▸ he
    · intro he
      exact ⟨(j, b), he, if_neg hj⟩
  · subst hj
    rw [List.mem_append, List.mem_singleton, Prod.mk.injEq]
    constructor
    · rintro (he | ⟨-, rfl⟩)
      · exact absurd (List.mem_map_of_mem (f := Prod.fst) he) hmem
      · rfl
    · rintro rfl
      exact Or.inr ⟨rfl, rfl⟩
  · rw [List.mem_append, List.mem_singleton, Prod.mk.injEq]
    simp [hj]

theorem get_set : (m.set k a).get j = if j = k then some a else m.get j := by
  apply Option.ext
  intro b
  rw [get_set_eq_some]
  split_ifs
  · simp [eq_comm]
  · rfl

@[simp] theorem get_set_self : (m.set k a).get k = some a := by rw [get_set, if_pos rfl]

theorem get_set_of_ne (h : j ≠ k) : (m.set k a).get j = m.get j := by rw [get_set, if_neg h]

/-- The key of an entry is among those of the entries that meet a condition when the entry does. -/
theorem mem_keys_filter {q : κ × α → Bool} (h : m.get k = some a) :
    k ∈ (m.entries.filter q).map Prod.fst ↔ q (k, a) = true := by
  rw [List.mem_map]
  constructor
  · rintro ⟨⟨j, b⟩, he, rfl⟩
    obtain ⟨hmem, hq⟩ := List.mem_filter.mp he
    rw [← get_eq_some, h] at hmem
    obtain rfl := Option.some.inj hmem
    exact hq
  · intro hq
    exact ⟨(k, a), List.mem_filter.mpr ⟨get_eq_some.mp h, hq⟩, rfl⟩

theorem length_set (h : m.get k = some b) : (m.set k a).entries.length = m.entries.length := by
  have hmem : k ∈ m.entries.map Prod.fst := List.mem_map_of_mem (f := Prod.fst) (get_eq_some.mp h)
  unfold set
  dsimp only
  rw [if_pos hmem, List.length_map]

end OrderedMap

end Portico
