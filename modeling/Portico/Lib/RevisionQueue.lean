import Portico.Lib.Table

/-!
# Queues of revised ids

A queue holds every id once, in order, with a revision that each further touch raises. Whoever works
on an id acknowledges the revision it saw, and the id leaves the queue only if that is still the
revision it has.

## Main results

* `RevisionQueue.mem_ids_touchAll`: what is queued after touches
* `RevisionQueue.mem_ids_acknowledge`: what an acknowledgement takes off
-/

namespace Portico

/-- A queued id and its revision. -/
structure Revised (κ : Type*) where
  id : κ
  revision : ℕ
deriving DecidableEq, Repr

variable {κ : Type*} [LinearOrder κ] {id x : κ} {row row' : Revised κ} {rows : List (Revised κ)}

/-- The rows with an id touched. -/
def touchRows (id : κ) : List (Revised κ) → List (Revised κ)
  | [] => [⟨id, 1⟩]
  | row :: rows =>
    if id < row.id then ⟨id, 1⟩ :: row :: rows
    else if id = row.id then ⟨id, row.revision + 1⟩ :: rows
    else row :: touchRows id rows

theorem mem_touchRows (h : row ∈ touchRows id rows) : row.id = id ∨ row ∈ rows := by
  induction rows with
  | nil => exact Or.inl (List.mem_singleton.mp h ▸ rfl)
  | cons first rows ih =>
    rw [touchRows] at h
    split_ifs at h with hbefore hhere
    · rcases List.mem_cons.mp h with rfl | h
      · exact Or.inl rfl
      · exact Or.inr h
    · rcases List.mem_cons.mp h with rfl | h
      · exact Or.inl rfl
      · exact Or.inr (List.mem_cons_of_mem _ h)
    · rcases List.mem_cons.mp h with rfl | h
      · exact Or.inr List.mem_cons_self
      · exact (ih h).imp_right (List.mem_cons_of_mem _)

theorem ids_touchRows : x ∈ (touchRows id rows).map Revised.id ↔ x = id ∨ x ∈ rows.map Revised.id := by
  induction rows with
  | nil => simp [touchRows]
  | cons first rows ih =>
    rw [touchRows]
    split_ifs with hbefore hhere
    · simp
    · simp [hhere]
    · rw [List.map_cons, List.mem_cons, ih, List.map_cons, List.mem_cons]
      tauto

theorem ordered_touchRows (h : rows.Pairwise fun a b => a.id < b.id) :
    (touchRows id rows).Pairwise fun a b => a.id < b.id := by
  induction rows with
  | nil => exact List.pairwise_singleton _ _
  | cons first rows ih =>
    obtain ⟨hfirst, hrest⟩ := List.pairwise_cons.mp h
    rw [touchRows]
    split_ifs with hbefore hhere
    · refine List.pairwise_cons.mpr ⟨?_, h⟩
      intro row hrow
      rcases List.mem_cons.mp hrow with rfl | hrow
      · exact hbefore
      · exact hbefore.trans (hfirst row hrow)
    · exact List.pairwise_cons.mpr ⟨fun row hrow => hhere ▸ hfirst row hrow, hrest⟩
    · refine List.pairwise_cons.mpr ⟨fun row hrow => ?_, ih hrest⟩
      rcases mem_touchRows hrow with hid | hrow
      · rw [hid]
        exact lt_of_le_of_ne (not_lt.mp hbefore) (Ne.symm hhere)
      · exact hfirst row hrow

/-- Every id once, in order. -/
structure RevisionQueue (κ : Type*) [LinearOrder κ] where
  rows : List (Revised κ) := []
  ordered : rows.Pairwise fun a b => a.id < b.id := by simp

namespace RevisionQueue

variable {q : RevisionQueue κ} {touched : List κ}

/-- The ids that are queued. -/
def ids (q : RevisionQueue κ) : List κ := q.rows.map Revised.id

def touch (q : RevisionQueue κ) (id : κ) : RevisionQueue κ where
  rows := touchRows id q.rows
  ordered := ordered_touchRows q.ordered

def touchAll (q : RevisionQueue κ) (ids : List κ) : RevisionQueue κ := ids.foldl touch q

def acknowledge (q : RevisionQueue κ) (row : Revised κ) : RevisionQueue κ where
  rows := q.rows.filter (· ≠ row)
  ordered := q.ordered.filter _

theorem mem_ids : x ∈ q.ids ↔ ∃ row ∈ q.rows, row.id = x := List.mem_map

theorem unique (h : row ∈ q.rows) (h' : row' ∈ q.rows) (hid : row.id = row'.id) : row = row' := by
  have hkeys : (q.rows.map Revised.id).Nodup := (List.pairwise_map.mpr q.ordered).imp fun h => h.ne
  exact eq_of_key hkeys h h' hid

@[simp] theorem mem_ids_touch : x ∈ (q.touch id).ids ↔ x = id ∨ x ∈ q.ids := ids_touchRows

@[simp] theorem mem_ids_touchAll : x ∈ (q.touchAll touched).ids ↔ x ∈ touched ∨ x ∈ q.ids := by
  induction touched generalizing q with
  | nil => simp [touchAll]
  | cons id touched ih =>
    rw [touchAll, List.foldl_cons]
    change x ∈ ((q.touch id).touchAll touched).ids ↔ _
    rw [ih, mem_ids_touch, List.mem_cons]
    tauto

theorem mem_rows_acknowledge : row' ∈ (q.acknowledge row).rows ↔ row' ∈ q.rows ∧ row' ≠ row := by
  simp [acknowledge]

/-- **Acknowledgements.** One takes off the id whose row it is, at the revision it has, and no
other. -/
theorem mem_ids_acknowledge :
    x ∈ (q.acknowledge row).ids ↔ x ∈ q.ids ∧ ¬ (row ∈ q.rows ∧ row.id = x) := by
  rw [mem_ids, mem_ids]
  constructor
  · rintro ⟨row', hrow', rfl⟩
    obtain ⟨hmem, hne⟩ := mem_rows_acknowledge.mp hrow'
    exact ⟨⟨row', hmem, rfl⟩, fun h => hne (unique hmem h.1 h.2.symm)⟩
  · rintro ⟨⟨row', hmem, rfl⟩, hnot⟩
    refine ⟨row', mem_rows_acknowledge.mpr ⟨hmem, ?_⟩, rfl⟩
    rintro rfl
    exact hnot ⟨hmem, rfl⟩

end RevisionQueue

end Portico
