import Mathlib

/-!
# Tables of rows

A table is a list of rows, each with a key of its own. Statements read a row by its key, change the
rows that meet a condition, and insert a row under a fresh key.

## Main results

* `rowOf_eq_some`: in a table whose keys are distinct, a row is found by its key
* `rowOf_updateWhere`: an update that keeps the keys, seen through them
-/

namespace Portico

variable {α κ : Type*} {key : α → κ} {k : κ} {rows : List α} {x y : α}

theorem eq_of_key (hkeys : (rows.map key).Nodup) (hx : x ∈ rows) (hy : y ∈ rows)
    (h : key x = key y) : x = y :=
  List.inj_on_of_nodup_map hkeys hx hy h

theorem nodup_append_row (hkeys : (rows.map key).Nodup) (h : ∀ x ∈ rows, key x ≠ key y) :
    ((rows ++ [y]).map key).Nodup := by
  rw [List.map_append, List.map_singleton, List.nodup_append]
  refine ⟨hkeys, List.nodup_singleton _, ?_⟩
  intro a ha b hb
  obtain ⟨x, hx, rfl⟩ := List.mem_map.mp ha
  obtain rfl := List.mem_singleton.mp hb
  exact h x hx

variable [DecidableEq κ]

/-- The row with a key. -/
def rowOf (key : α → κ) (k : κ) (rows : List α) : Option α := rows.find? fun x => key x = k

/-- The rows without the one with a key. -/
def without (key : α → κ) (k : κ) (rows : List α) : List α := rows.filter fun x => key x ≠ k

/-- A row takes the place of the one with its key. -/
def put (key : α → κ) (x : α) (rows : List α) : List α := x :: without key (key x) rows

/-- The rows with `f` applied where `p` holds. -/
def updateWhere (p : α → Bool) (f : α → α) (rows : List α) : List α :=
  rows.map fun x => if p x then f x else x

variable {p : α → Bool} {f : α → α}

theorem mem_of_rowOf (h : rowOf key k rows = some x) : x ∈ rows := List.mem_of_find?_eq_some h

theorem key_of_rowOf (h : rowOf key k rows = some x) : key x = k := by
  simpa using List.find?_some h

theorem rowOf_eq_some (hkeys : (rows.map key).Nodup) :
    rowOf key k rows = some x ↔ x ∈ rows ∧ key x = k := by
  constructor
  · intro h
    exact ⟨mem_of_rowOf h, key_of_rowOf h⟩
  · rintro ⟨hx, rfl⟩
    cases hrow : rowOf key (key x) rows with
    | none =>
      have hnone := List.find?_eq_none.mp hrow x hx
      simp at hnone
    | some y => rw [eq_of_key hkeys (mem_of_rowOf hrow) hx (key_of_rowOf hrow)]

theorem rowOf_eq_none : rowOf key k rows = none ↔ ∀ x ∈ rows, key x ≠ k := by
  unfold rowOf
  simp [List.find?_eq_none]

theorem mem_updateWhere : y ∈ updateWhere p f rows ↔ ∃ x ∈ rows, y = if p x then f x else x := by
  unfold updateWhere
  rw [List.mem_map]
  constructor
  · rintro ⟨x, hx, rfl⟩
    exact ⟨x, hx, rfl⟩
  · rintro ⟨x, hx, rfl⟩
    exact ⟨x, hx, rfl⟩

/-- What holds of the rows, changed or not, holds of the updated rows. -/
theorem forall_updateWhere {P : α → Prop} (hchanged : ∀ x ∈ rows, p x = true → P (f x))
    (hkept : ∀ x ∈ rows, p x = false → P x) : ∀ y ∈ updateWhere p f rows, P y := by
  intro y hy
  obtain ⟨x, hx, rfl⟩ := mem_updateWhere.mp hy
  cases hp : p x with
  | true => exact hchanged x hx hp
  | false => exact hkept x hx hp

theorem map_updateWhere {β : Type*} {g : α → β} (h : ∀ x, g (f x) = g x) :
    (updateWhere p f rows).map g = rows.map g := by
  unfold updateWhere
  rw [List.map_map]
  apply List.map_congr_left
  intro x _
  rw [Function.comp_apply]
  split_ifs
  · exact h x
  · rfl

theorem updateWhere_false : updateWhere (fun _ => false) f rows = rows := by
  simp [updateWhere]

theorem updateWhere_of_not (h : ∀ x ∈ rows, p x = false) : updateWhere p f rows = rows := by
  unfold updateWhere
  conv_rhs => rw [← List.map_id rows]
  apply List.map_congr_left
  intro x hx
  simp [h x hx]

theorem updateWhere_append_row (h : ∀ x ∈ rows, p x = false) (hy : p y = true) :
    updateWhere p f (rows ++ [y]) = rows ++ [f y] := by
  have hrows : updateWhere p f rows = rows := updateWhere_of_not h
  unfold updateWhere at hrows ⊢
  rw [List.map_append, hrows, List.map_singleton, if_pos hy]

theorem updateWhere_updateWhere {g : α → α} (h : ∀ x, p (f x) = p x) :
    updateWhere p g (updateWhere p f rows) = updateWhere p (fun x => g (f x)) rows := by
  unfold updateWhere
  rw [List.map_map]
  apply List.map_congr_left
  intro x _
  rw [Function.comp_apply]
  cases hp : p x with
  | true => simp [h, hp]
  | false => simp [hp]

theorem rowOf_updateWhere (h : ∀ x, key (f x) = key x) :
    rowOf key k (updateWhere p f rows) = (rowOf key k rows).map fun x => if p x then f x else x := by
  unfold rowOf updateWhere
  rw [List.find?_map]
  congr 2
  funext x
  rw [Function.comp_apply]
  split_ifs
  · rw [h]
  · rfl

/-! ## Rows taken out and put in -/

theorem mem_without : x ∈ without key k rows ↔ x ∈ rows ∧ key x ≠ k := by
  unfold without
  rw [List.mem_filter, decide_eq_true_iff]

theorem nodup_without (h : (rows.map key).Nodup) : ((without key k rows).map key).Nodup :=
  h.sublist (List.filter_sublist.map _)

theorem nodup_put (h : (rows.map key).Nodup) : ((put key x rows).map key).Nodup := by
  unfold put
  rw [List.map_cons, List.nodup_cons]
  refine ⟨fun hx => ?_, nodup_without h⟩
  obtain ⟨y, hy, hkey⟩ := List.mem_map.mp hx
  exact (mem_without.mp hy).2 hkey

theorem rowOf_without_of_ne {j : κ} (h : j ≠ k) : rowOf key j (without key k rows) = rowOf key j rows := by
  unfold rowOf without
  rw [List.find?_filter]
  congr 1
  funext x
  by_cases hj : key x = j
  · simp [hj, h]
  · simp [hj]

theorem rowOf_put : rowOf key (key x) (put key x rows) = some x := by
  unfold rowOf put
  rw [List.find?_cons_of_pos]
  exact decide_eq_true rfl

theorem rowOf_put_of_ne (h : k ≠ key x) : rowOf key k (put key x rows) = rowOf key k rows := by
  rw [← @rowOf_without_of_ne _ _ _ _ rows _ _ h]
  unfold rowOf put
  rw [List.find?_cons_of_neg]
  simpa using h.symm

end Portico
