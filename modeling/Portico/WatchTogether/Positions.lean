import Portico.WatchTogether.Commands

/-!
# Positions

The rows of the shared queue and the order their positions give. Every edit ends in a renumbering,
after which the positions are the places in the order.

## Main results

* `Ordered.readQueue`: a read gives the order
* `numbered_renumber`: a renumbered queue is numbered
* `Numbered.entryAt`: the entry at a position
-/

namespace Portico.WatchTogether

variable {rows order : List QueueRow} {ids : List EntryID}

/-- The rows in the order of their positions. -/
structure Ordered (rows order : List QueueRow) : Prop where
  perm : order.Perm rows
  nodup : (order.map QueueRow.entryID).Nodup
  increasing : order.Pairwise fun a b => a.position < b.position

/-- The positions are the places in the order. -/
structure Numbered (rows order : List QueueRow) : Prop where
  perm : order.Perm rows
  nodup : (order.map QueueRow.entryID).Nodup
  positions : ∀ i (h : i < order.length), order[i].position = i

theorem Numbered.ordered (h : Numbered rows order) : Ordered rows order := by
  refine ⟨h.perm, h.nodup, ?_⟩
  rw [List.pairwise_iff_getElem]
  intro i j hi hj hij
  rw [h.positions i hi, h.positions j hj]
  exact_mod_cast hij

theorem Ordered.eq_of_entryID (h : Ordered rows order) {a b : QueueRow} (ha : a ∈ rows)
    (hb : b ∈ rows) (hid : a.entryID = b.entryID) : a = b :=
  List.inj_on_of_nodup_map h.nodup (h.perm.mem_iff.mpr ha) (h.perm.mem_iff.mpr hb) hid

theorem precedes_trans {a b c : QueueRow} (hab : a.Precedes b) (hbc : b.Precedes c) :
    a.Precedes c := by
  rcases hab with hab | ⟨hab, hid⟩ <;> rcases hbc with hbc | ⟨hbc, hid'⟩
  · exact Or.inl (lt_trans hab hbc)
  · exact Or.inl (hbc ▸ hab)
  · exact Or.inl (hab ▸ hbc)
  · exact Or.inr ⟨hab.trans hbc, le_trans hid hid'⟩

theorem precedes_total (a b : QueueRow) : a.Precedes b ∨ b.Precedes a := by
  rcases lt_trichotomy a.position b.position with hlt | heq | hgt
  · exact Or.inl (Or.inl hlt)
  · rcases le_total a.entryID b.entryID with hle | hle
    · exact Or.inl (Or.inr ⟨heq, hle⟩)
    · exact Or.inr (Or.inr ⟨heq.symm, hle⟩)
  · exact Or.inr (Or.inl hgt)

instance : IsTrans QueueRow QueueRow.Precedes := ⟨fun _ _ _ => precedes_trans⟩

instance : Std.Total QueueRow.Precedes := ⟨precedes_total⟩

theorem Ordered.readQueue {r : Room} (h : Ordered r.queue order) : r.readQueue = order := by
  have hantisymm : ∀ a ∈ r.queue, ∀ b ∈ r.queue, a.Precedes b → b.Precedes a → a = b := by
    intro a ha b hb hab hba
    apply h.eq_of_entryID ha hb
    rcases hab with hab | ⟨hsame, hab⟩ <;> rcases hba with hba | ⟨hsame', hba⟩
    · exact absurd hab (lt_asymm hba)
    · exact absurd hab (not_lt.mpr hsame'.le)
    · exact absurd hba (not_lt.mpr hsame.le)
    · exact le_antisymm hab hba
  have hperm := List.perm_insertionSort QueueRow.Precedes r.queue
  have hsorted : (r.queue.insertionSort QueueRow.Precedes).Pairwise QueueRow.Precedes :=
    List.pairwise_insertionSort _ _
  unfold Room.readQueue
  refine List.Perm.eq_of_pairwise ?_ hsorted (h.increasing.imp Or.inl) (hperm.trans h.perm.symm)
  intro a b ha hb hab hba
  exact hantisymm a (hperm.mem_iff.mp ha) b (h.perm.mem_iff.mp hb) hab hba

theorem Ordered.sublist {p : QueueRow → Bool} (h : Ordered rows order) :
    Ordered (rows.filter p) (order.filter p) :=
  ⟨h.perm.filter p, h.nodup.sublist (List.filter_sublist.map _), h.increasing.filter p⟩

/-! ## Renumbering -/

/-- Renumbering gives each row of the order its place, and leaves the others. -/
theorem renumber_eq (h : ids.Nodup) (k : ℤ) (rows : List QueueRow) :
    renumber k ids rows = rows.map fun row =>
      if row.entryID ∈ ids then { row with position := k + ids.idxOf row.entryID } else row := by
  induction ids generalizing k rows with
  | nil => simp [renumber]
  | cons id ids ih =>
    obtain ⟨hid, hids⟩ := List.nodup_cons.mp h
    rw [renumber, ih hids, List.map_map]
    refine List.map_congr_left fun row _ => ?_
    simp only [Function.comp_apply]
    by_cases hrow : row.entryID = id
    · -- the row just numbered isn't numbered again
      rw [if_pos hrow, if_neg (by simpa [hrow] using hid), if_pos (by simp [hrow])]
      simp [hrow]
    · rw [if_neg hrow]
      by_cases hmem : row.entryID ∈ ids
      · rw [if_pos hmem, if_pos (List.mem_cons_of_mem _ hmem), List.idxOf_cons_ne _ (Ne.symm hrow)]
        congr 1
        push_cast
        ring
      · rw [if_neg hmem, if_neg (by simp [hrow, hmem])]

/-- A permutation of the keys of a list comes from a permutation of the list. -/
theorem exists_perm_of_map_perm {α β : Type*} {f : α → β} {l : List α} {keys : List β}
    (h : keys.Perm (l.map f)) : ∃ l' : List α, l'.Perm l ∧ l'.map f = keys := by
  generalize hk : l.map f = ks at h
  induction h generalizing l with
  | nil =>
    refine ⟨[], ?_, rfl⟩
    rw [List.map_eq_nil_iff.mp hk]
  | cons x _ ih =>
    obtain ⟨a, l, rfl, rfl, hl⟩ := List.map_eq_cons_iff.mp hk
    obtain ⟨l', hperm, hmap⟩ := ih hl
    exact ⟨a :: l', hperm.cons a, by rw [List.map_cons, hmap]⟩
  | swap x y _ =>
    obtain ⟨a, l, rfl, rfl, hl⟩ := List.map_eq_cons_iff.mp hk
    obtain ⟨b, l, rfl, rfl, hrest⟩ := List.map_eq_cons_iff.mp hl
    refine ⟨b :: a :: l, List.Perm.swap a b l, ?_⟩
    rw [List.map_cons, List.map_cons, hrest]
  | trans _ _ ih₁ ih₂ =>
    obtain ⟨l₂, hperm₂, hmap₂⟩ := ih₂ hk
    obtain ⟨l₁, hperm₁, hmap₁⟩ := ih₁ hmap₂
    exact ⟨l₁, hperm₁.trans hperm₂, hmap₁⟩

/-- **A renumbered queue is numbered.** Its rows are those before, in the order asked for. -/
theorem numbered_renumber (hperm : ids.Perm (rows.map QueueRow.entryID)) (hnodup : ids.Nodup) :
    ∃ order, Numbered (renumber 0 ids rows) order ∧ order.map QueueRow.entryID = ids := by
  obtain ⟨l, hl, hmap⟩ := exists_perm_of_map_perm hperm
  set place : QueueRow → QueueRow := fun row =>
    if row.entryID ∈ ids then { row with position := 0 + ids.idxOf row.entryID } else row with hplace
  have hkeep : ∀ row, (place row).entryID = row.entryID := by
    intro row
    simp only [hplace]
    split_ifs <;> rfl
  have hkeys : (l.map place).map QueueRow.entryID = ids := by
    rw [List.map_map, ← hmap]
    exact List.map_congr_left fun row _ => hkeep row
  refine ⟨l.map place, ⟨?_, ?_, ?_⟩, hkeys⟩
  · rw [renumber_eq hnodup]
    exact hl.map place
  · rw [hkeys]
    exact hnodup
  · intro i hi
    rw [List.length_map] at hi
    rw [List.getElem_map]
    have hi' : i < ids.length := by rwa [← hmap, List.length_map]
    have hget : l[i].entryID = ids[i] := by simp only [← hmap, List.getElem_map]
    simp only [hplace]
    rw [if_pos (by rw [hget]; exact List.getElem_mem _), hget, List.Nodup.idxOf_getElem hnodup]
    simp

variable (rows) in
theorem entryID_renumber (h : ids.Nodup) (k : ℤ) :
    (renumber k ids rows).map QueueRow.entryID = rows.map QueueRow.entryID := by
  rw [renumber_eq h, List.map_map]
  refine List.map_congr_left fun row _ => ?_
  simp only [Function.comp_apply]
  split_ifs <;> rfl

/-! ## Reading a numbered queue -/

theorem Numbered.entryAt {r : Room} (h : Numbered r.queue order) (i : ℕ) (hi : i < order.length) :
    r.entryAt i = some order[i] := by
  unfold Room.entryAt
  have hmem : order[i] ∈ r.queue := h.perm.mem_iff.mp (List.getElem_mem hi)
  cases hfind : r.queue.find? fun row => decide (row.position = (i : ℤ)) with
  | none =>
    rw [List.find?_eq_none] at hfind
    exact absurd (h.positions i hi) (by simpa using hfind _ hmem)
  | some row =>
    have hposition : row.position = i := by simpa using List.find?_some hfind
    obtain ⟨j, hj, rfl⟩ := List.getElem_of_mem (h.perm.mem_iff.mpr (List.mem_of_find?_eq_some hfind))
    rw [h.positions j hj] at hposition
    obtain rfl : j = i := by exact_mod_cast hposition
    rfl

theorem mem_of_entryAt {r : Room} {position : ℤ} {row : QueueRow}
    (hrow : r.entryAt position = some row) :
    row ∈ r.queue ∧ row.position = position := by
  unfold Room.entryAt at hrow
  exact ⟨List.mem_of_find?_eq_some hrow, by simpa using List.find?_some hrow⟩

theorem Numbered.split (h : Numbered rows order) {row : QueueRow} (hrow : row ∈ rows) :
    ∃ i, ∃ hi : i < order.length, row = order[i] ∧ row.position = i := by
  obtain ⟨i, hi, rfl⟩ := List.getElem_of_mem (h.perm.mem_iff.mpr hrow)
  exact ⟨i, hi, rfl, h.positions i hi⟩

/-! ## The order after a move -/

theorem queueOrderAfterMove_perm {entryID destination : EntryID} {placement : Placement}
    (hnodup : (rows.map QueueRow.entryID).Nodup)
    (h : queueOrderAfterMove rows entryID destination placement = .ok ids) :
    ids.Perm (rows.map QueueRow.entryID) := by
  unfold queueOrderAfterMove at h
  dsimp only at h
  split_ifs at h with hsame hlength hfound
  obtain rfl := Except.ok.inj h
  set others := (rows.map QueueRow.entryID).filter fun id => decide (id ≠ entryID) with hothers
  have hnd : others.Nodup := hnodup.filter _
  have hmem : entryID ∈ rows.map QueueRow.entryID := by
    by_contra hmem
    apply hlength
    rw [hothers, List.filter_eq_self.mpr, List.length_map]
    intro id hid
    simpa using fun heq : id = entryID => hmem (heq ▸ hid)
  have hout (f : EntryID → List EntryID) (l : List EntryID) (hl : destination ∉ l) :
      (l.flatMap fun id => if id = destination then f id else [id]) = l := by
    induction l with
    | nil => rfl
    | cons id l ih =>
      rw [List.flatMap_cons, if_neg (fun heq : id = destination => hl (heq ▸ List.mem_cons_self)),
        ih (fun hmem => hl (List.mem_cons_of_mem _ hmem))]
      rfl
  have herase : others = (rows.map QueueRow.entryID).erase entryID := by
    rw [List.Nodup.erase_eq_filter hnodup, hothers]
    exact List.filter_congr fun id _ => by by_cases heq : id = entryID <;> simp [heq]
  have hback : (entryID :: others).Perm (rows.map QueueRow.entryID) := by
    rw [herase]
    exact (List.perm_cons_erase hmem).symm
  refine List.Perm.trans ?_ hback
  obtain ⟨before, after, hsplit⟩ := List.append_of_mem hfound
  rw [hsplit] at hnd ⊢
  obtain ⟨hb, ha⟩ : destination ∉ before ∧ destination ∉ after := by
    rw [List.nodup_append, List.nodup_cons] at hnd
    refine ⟨fun hmem => ?_, hnd.2.1.1⟩
    exact hnd.2.2 destination hmem destination List.mem_cons_self rfl
  rw [List.flatMap_append, List.flatMap_cons, hout _ before hb, hout _ after ha, if_pos rfl]
  cases placement with
  | before => exact List.perm_middle
  | after =>
    rw [show before ++ ([destination, entryID] ++ after) =
      before ++ [destination] ++ entryID :: after by simp]
    refine List.perm_middle.trans ?_
    simp

end Portico.WatchTogether
