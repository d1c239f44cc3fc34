import Portico.Queue.Layout

/-!
# Well-formed layouts and their entries

What every command keeps of a layout's rows, and what the source positions of a well-formed layout
show: unshuffled the live entries in order, shuffled every entry, removed ones included.

## Main results

* `Layout.WellFormed.sourceEntry_eq`: the entry at a source position
* `Layout.WellFormed.sourceIndexOf_eq`: the source position of a live entry
* `Layout.sourceIndexOf_eq_none`: no other entry has one
-/

namespace Portico

namespace Layout

variable {l : Layout}

/-- What the numbering of source positions needs of the rows: the segments in order, no entry in two
of them, the tombstones of a snapshot in order, and each segment's count of its tombstones. -/
structure Arranged (l : Layout) : Prop where
  sorted : (l.segments.map Segment.sortKey).Pairwise (· < ·)
  nodup : l.entries.Nodup
  tombstones : ∀ s, (l.removals s).Pairwise (· < ·)
  removed : ∀ g ∈ l.segments, g.removed =
    (l.removals g.snapshot).countP fun r => g.first ≤ r ∧ r < g.first + g.count

/-- The rows of a layout agree with each other. -/
structure WellFormed (l : Layout) : Prop where
  sorted : (l.segments.map Segment.sortKey).Pairwise (· < ·)
  valid : ∀ g ∈ l.segments, g.sortKey.Valid
  nodup : l.entries.Nodup
  tombstones : ∀ s, (l.removals s).Pairwise (· < ·)
  removed : ∀ g ∈ l.segments, g.removed =
    (l.removals g.snapshot).countP fun r => g.first ≤ r ∧ r < g.first + g.count
  inside : ∀ s, ∀ r ∈ l.removals s, ⟨s, r⟩ ∈ l.entries
  stored : ∀ g ∈ l.segments, ∃ s, l.snapshot? g.snapshot = some s ∧
    (s.state ≠ .building → g.first + g.count ≤ s.keys.length)
  fresh : ∀ s ∈ l.snapshots, s.id < l.nextId
  keyed : (l.snapshots.map Snapshot.id).Nodup
  positive : ∀ g ∈ l.segments, 0 < g.count

theorem WellFormed.arranged (h : l.WellFormed) : l.Arranged :=
  ⟨h.sorted, h.nodup, h.tombstones, h.removed⟩

theorem WellFormed.keyed_append (h : l.WellFormed) {s : Snapshot} (hs : s.id = l.nextId) :
    ((l.snapshots ++ [s]).map Snapshot.id).Nodup := by
  rw [List.map_append, List.nodup_append']
  refine ⟨h.keyed, List.nodup_singleton _, fun id hid hnew => ?_⟩
  obtain ⟨row, hrow, rfl⟩ := List.mem_map.mp hid
  have hlt := h.fresh row hrow
  have heq : row.id = s.id := by simpa using hnew
  omega

/-! ## Entries of segments -/

variable (l) in
/-- The entries of a segment that have a source position. -/
def shown (g : Segment) : List Entry :=
  if l.q.shuffle then g.entries
  else (present g.first g.count (l.removals g.snapshot)).map (Entry.mk g.snapshot)

variable (l) in
/-- The entries that have a source position, in order. -/
def sourceEntries : List Entry := l.segments.flatMap l.shown

theorem mem_entries {e : Entry} :
    e ∈ l.entries ↔ ∃ g ∈ l.segments, g.snapshot = e.snapshot ∧ g.Holds e.ordinal := by
  simp [entries, Segment.mem_entries]

theorem mem_liveEntries {e : Entry} : e ∈ l.liveEntries ↔ e ∈ l.entries ∧ l.Live e := by
  simp [liveEntries]

theorem liveEntries_eq_flatMap :
    l.liveEntries = l.segments.flatMap fun g =>
      (present g.first g.count (l.removals g.snapshot)).map (Entry.mk g.snapshot) := by
  rw [liveEntries, entries, List.filter_flatMap]
  refine List.flatMap_congr fun g _ => ?_
  rw [Segment.entries, List.filter_map]
  rfl

theorem sourceEntries_of_shuffle (h : l.q.shuffle = true) : l.sourceEntries = l.entries := by
  rw [sourceEntries, entries]
  exact List.flatMap_congr fun g _ => by simp [shown, h]

theorem sourceEntries_of_not_shuffle (h : l.q.shuffle = false) :
    l.sourceEntries = l.liveEntries := by
  rw [liveEntries_eq_flatMap, sourceEntries]
  exact List.flatMap_congr fun g _ => by simp [shown, h]

theorem Arranged.nodup_liveEntries (h : l.Arranged) : l.liveEntries.Nodup :=
  h.nodup.filter _

theorem WellFormed.nodup_liveEntries (h : l.WellFormed) : l.liveEntries.Nodup :=
  h.arranged.nodup_liveEntries

/-! ## Source position → entry -/

theorem Arranged.nodup_removals (h : l.Arranged) (s : ℕ) : (l.removals s).Nodup :=
  (h.tombstones s).imp ne_of_lt

theorem WellFormed.nodup_removals (h : l.WellFormed) (s : ℕ) : (l.removals s).Nodup :=
  h.arranged.nodup_removals s

theorem Arranged.sourceSpan_eq (h : l.Arranged) {g : Segment} (hg : g ∈ l.segments) :
    l.sourceSpan g = (l.shown g).length := by
  cases hs : l.q.shuffle with
  | true => simp [sourceSpan, shown, hs, Segment.entries]
  | false =>
    have hlen := length_present (a := g.first) (n := g.count) (h.nodup_removals g.snapshot)
    have hrem := h.removed g hg
    simp only [sourceSpan, shown, hs, Segment.live, Bool.false_eq_true, if_false, List.length_map]
    omega

theorem WellFormed.sourceSpan_eq (h : l.WellFormed) {g : Segment} (hg : g ∈ l.segments) :
    l.sourceSpan g = (l.shown g).length := h.arranged.sourceSpan_eq hg

theorem skipRemoved_eq (g : Segment) (removals : List ℕ) (o : ℕ) :
    skipRemoved g removals o =
      stepPast (removals.filter fun r => g.first ≤ r ∧ r < g.first + g.count) o := by
  rw [skipRemoved, stepPast, List.foldl_filter]
  congr 1
  funext o r
  by_cases hr : g.first ≤ r ∧ r < g.first + g.count
  · rw [if_neg (by omega), if_pos (decide_eq_true hr)]
  · rw [if_pos (by omega), if_neg (by simpa using hr)]

theorem Arranged.ordinal_eq (h : l.Arranged) {g : Segment} {p : ℕ}
    (hp : p < (l.shown g).length) :
    (l.shown g)[p] = ⟨g.snapshot, if l.q.shuffle then g.first + p
      else skipRemoved g (l.removals g.snapshot) (g.first + p)⟩ := by
  cases hs : l.q.shuffle with
  | true => simp [shown, hs, Segment.entries]
  | false =>
    simp only [shown, hs, Bool.false_eq_true, if_false, List.length_map] at hp
    simp only [shown, hs, Bool.false_eq_true, if_false, List.getElem_map]
    rw [getElem_present (h.tombstones _), skipRemoved_eq]

/-- The loop over the segments from index `i` on reads their shown entries. -/
theorem Arranged.sourceAtFrom_eq (h : l.Arranged) {gs : List Segment} {i p : ℕ}
    (hgs : ∀ g ∈ gs, g ∈ l.segments) :
    (∀ e, (gs.flatMap l.shown)[p]? = some e →
      ∃ j g, gs[j]? = some g ∧ g.snapshot = e.snapshot ∧
        l.sourceAtFrom i p gs = some (i + j, e.ordinal)) ∧
    ((gs.flatMap l.shown)[p]? = none → l.sourceAtFrom i p gs = none) := by
  induction gs generalizing i p with
  | nil => simp [sourceAtFrom]
  | cons g gs ih =>
    rw [List.forall_mem_cons] at hgs
    have hspan := h.sourceSpan_eq hgs.1
    rw [List.flatMap_cons, sourceAtFrom]
    by_cases hp : p < (l.shown g).length
    · rw [List.getElem?_append_left hp, List.getElem?_eq_getElem hp, if_pos (by omega)]
      refine ⟨?_, by simp⟩
      rintro e ⟨⟩
      refine ⟨0, g, rfl, ?_, ?_⟩
      · rw [h.ordinal_eq hp]
      · rw [h.ordinal_eq hp]
        rfl
    · rw [List.getElem?_append_right (by omega), if_neg (by omega)]
      have hcast : (p : ℤ) - l.sourceSpan g = (p - (l.shown g).length : ℕ) := by omega
      rw [hcast]
      obtain ⟨hsome, hnone⟩ := @ih (i + 1) (p - (l.shown g).length) hgs.2
      refine ⟨fun e he => ?_, hnone⟩
      obtain ⟨j, g', hj, hsnap, hat⟩ := hsome e he
      exact ⟨j + 1, g', hj, hsnap, by rw [hat]; congr 2; omega⟩

/-- **The entry at a source position.** -/
theorem Arranged.sourceEntry_eq (h : l.Arranged) (p : ℕ) :
    l.sourceEntry p = l.sourceEntries[p]? := by
  obtain ⟨hsome, hnone⟩ := h.sourceAtFrom_eq (i := 0) (p := p) fun g hg => hg
  have hat : l.sourceAt p = l.sourceAtFrom 0 p l.segments := by
    rw [sourceAt, if_neg (by omega)]
  rw [sourceEntry, hat, sourceEntries]
  cases hp : (l.segments.flatMap l.shown)[p]? with
  | none =>
    rw [hnone hp]
    rfl
  | some e =>
    obtain ⟨j, g, hj, hsnap, hsource⟩ := hsome e hp
    rw [hsource]
    simp [hj, hsnap]

theorem WellFormed.sourceEntry_eq (h : l.WellFormed) (p : ℕ) :
    l.sourceEntry p = l.sourceEntries[p]? := h.arranged.sourceEntry_eq p

theorem sourceEntry_of_neg {p : ℤ} (hp : p < 0) : l.sourceEntry p = none := by
  simp [sourceEntry, sourceAt, hp]

/-! ## Entry → source position -/

private theorem idxOf_map {α β : Type*} [DecidableEq α] [DecidableEq β] {f : α → β}
    (hf : Function.Injective f) (xs : List α) (a : α) : (xs.map f).idxOf (f a) = xs.idxOf a := by
  induction xs with
  | nil => rfl
  | cons x xs ih =>
    rw [List.map_cons, List.idxOf_cons, List.idxOf_cons, ih]
    by_cases hx : x = a
    · rw [hx, beq_self_eq_true, beq_self_eq_true]
    · rw [beq_false_of_ne hx, beq_false_of_ne fun h => hx (hf h)]

theorem Arranged.removedBefore_eq (h : l.Arranged) {g : Segment} {e : Entry}
    (hsnap : g.snapshot = e.snapshot) (hheld : g.Holds e.ordinal) (hlive : l.Live e) :
    ((l.shown g).idxOf e : ℤ) = e.ordinal - g.first - l.removedBefore g e.ordinal := by
  obtain ⟨s, o⟩ := e
  obtain rfl : g.snapshot = s := hsnap
  have hinj : Function.Injective (Entry.mk g.snapshot) := fun a b hab => by simpa using hab
  simp only [Segment.Holds] at hheld
  cases hs : l.q.shuffle with
  | true =>
    have hmem : o ∈ List.range' g.first g.count := List.mem_range'_1.mpr hheld
    have hidx := idxOf_present (List.nodup_nil (α := ℕ))
      (mem_present.mpr ⟨hheld, List.not_mem_nil⟩)
    have hrange : present g.first g.count [] = List.range' g.first g.count := by simp [present]
    rw [hrange, List.countP_nil] at hidx
    simp only [shown, removedBefore, hs, if_true, Segment.entries]
    rw [idxOf_map hinj]
    omega
  | false =>
    have hidx := idxOf_present (h.nodup_removals g.snapshot) (mem_present.mpr ⟨hheld, hlive⟩)
    simp only [shown, removedBefore, hs, Bool.false_eq_true, if_false]
    rw [idxOf_map hinj]
    omega

theorem mem_shown {g : Segment} {e : Entry} (hlive : l.Live e) :
    e ∈ l.shown g ↔ g.snapshot = e.snapshot ∧ g.Holds e.ordinal := by
  rw [← Segment.mem_entries]
  cases hs : l.q.shuffle with
  | true => simp [shown, hs]
  | false =>
    simp only [shown, hs, Bool.false_eq_true, if_false, Segment.entries, List.mem_map,
      mem_present, List.mem_range'_1]
    constructor
    · rintro ⟨o, ⟨ho, -⟩, rfl⟩
      exact ⟨o, ho, rfl⟩
    · rintro ⟨o, ho, rfl⟩
      exact ⟨o, ⟨ho, hlive⟩, rfl⟩

/-- The loop over the segments from index `i` on finds a live entry they hold. -/
theorem Arranged.sourceIndexFrom_eq (h : l.Arranged) {gs : List Segment} {e : Entry} {i : ℕ}
    {base : ℤ} (hgs : ∀ g ∈ gs, g ∈ l.segments) (hlive : l.Live e)
    (hmem : e ∈ gs.flatMap Segment.entries) :
    ∃ j g, gs[j]? = some g ∧ g.snapshot = e.snapshot ∧ g.Holds e.ordinal ∧
      l.sourceIndexFrom e i base gs = some (base + (gs.flatMap l.shown).idxOf e, i + j) := by
  induction gs generalizing i base with
  | nil => simp at hmem
  | cons g gs ih =>
    rw [List.forall_mem_cons] at hgs
    rw [sourceIndexFrom, List.flatMap_cons]
    by_cases hg : g.snapshot = e.snapshot ∧ g.Holds e.ordinal
    · refine ⟨0, g, rfl, hg.1, hg.2, ?_⟩
      have hidx := h.removedBefore_eq hg.1 hg.2 hlive
      rw [if_pos hg, if_neg hlive, List.idxOf_append_of_mem ((mem_shown hlive).mpr hg), hidx]
      congr 2
      omega
    · have hmem' : e ∈ gs.flatMap Segment.entries := by
        rw [List.flatMap_cons, List.mem_append] at hmem
        exact hmem.resolve_left fun he => hg (Segment.mem_entries.mp he)
      obtain ⟨j, g', hj, hsnap, hheld, hat⟩ :=
        @ih (i + 1) (base + l.sourceSpan g) hgs.2 hmem'
      refine ⟨j + 1, g', hj, hsnap, hheld, ?_⟩
      rw [if_neg hg, hat, List.idxOf_append_of_notMem fun he => hg ((mem_shown hlive).mp he),
        h.sourceSpan_eq hgs.1]
      congr 2
      · push_cast
        ring
      · omega

/-- **The source position of a live entry**, and the segment that holds it. -/
theorem Arranged.sourceIndexOf_eq (h : l.Arranged) {e : Entry} (he : e ∈ l.liveEntries) :
    ∃ i g, l.segments[i]? = some g ∧ g.snapshot = e.snapshot ∧ g.Holds e.ordinal ∧
      l.sourceIndexOf e = some ((l.sourceEntries.idxOf e : ℤ), i) := by
  obtain ⟨hmem, hlive⟩ := mem_liveEntries.mp he
  obtain ⟨j, g, hj, hsnap, hheld, hat⟩ :=
    h.sourceIndexFrom_eq (i := 0) (fun g hg => hg) hlive hmem
  refine ⟨j, g, hj, hsnap, hheld, ?_⟩
  rw [sourceIndexOf, hat, sourceEntries, zero_add, zero_add]

theorem WellFormed.sourceIndexOf_eq (h : l.WellFormed) {e : Entry} (he : e ∈ l.liveEntries) :
    ∃ i g, l.segments[i]? = some g ∧ g.snapshot = e.snapshot ∧ g.Holds e.ordinal ∧
      l.sourceIndexOf e = some ((l.sourceEntries.idxOf e : ℤ), i) := h.arranged.sourceIndexOf_eq he

/-- An entry without a range that holds it, or with a tombstone, has no source position. -/
theorem sourceIndexFrom_eq_none {gs : List Segment} {e : Entry} {i : ℕ} {base : ℤ}
    (h : ¬ (e ∈ gs.flatMap Segment.entries ∧ l.Live e)) :
    l.sourceIndexFrom e i base gs = none := by
  induction gs generalizing i base with
  | nil => rfl
  | cons g gs ih =>
    rw [sourceIndexFrom]
    by_cases hg : g.snapshot = e.snapshot ∧ g.Holds e.ordinal
    · have hremoved : e.ordinal ∈ l.removals e.snapshot := by
        by_contra hlive
        refine h ⟨?_, hlive⟩
        rw [List.flatMap_cons, List.mem_append]
        exact Or.inl (Segment.mem_entries.mpr hg)
      rw [if_pos hg, if_pos hremoved]
    · rw [if_neg hg]
      refine ih fun hmem => h ⟨?_, hmem.2⟩
      rw [List.flatMap_cons, List.mem_append]
      exact Or.inr hmem.1

/-- **No other entry has a source position.** -/
theorem sourceIndexOf_eq_none {e : Entry} (he : e ∉ l.liveEntries) : l.sourceIndexOf e = none :=
  sourceIndexFrom_eq_none fun h => he (mem_liveEntries.mpr h)

theorem mem_liveEntries_of_sourceIndexOf {e : Entry} {x : ℤ × ℕ}
    (hx : l.sourceIndexOf e = some x) : e ∈ l.liveEntries := by
  by_contra he
  rw [sourceIndexOf_eq_none he] at hx
  cases hx

/-! ## Reading entries -/

theorem WellFormed.key_ne_notFound (h : l.WellFormed) {e : Entry} (he : e ∈ l.entries) :
    l.key e ≠ .notFound := by
  obtain ⟨g, hg, hsnap, hheld⟩ := mem_entries.mp he
  obtain ⟨s, hs, hkeys⟩ := h.stored g hg
  rw [hsnap] at hs
  have hlt : s.state ≠ .building → e.ordinal < s.keys.length := fun hstate =>
    hheld.2.trans_le (hkeys hstate)
  simp only [key, hs]
  split_ifs with hpending
  · split
    · split_ifs <;> simp
    · simp
  · have hread : e.ordinal < s.keys.length := by
      by_contra hge
      by_cases hstate : s.state = .building
      · exact hpending ⟨hstate, by simpa [Snapshot.built] using hge⟩
      · exact hge (hlt hstate)
    simp [List.getElem?_eq_getElem hread]

theorem mem_entries_of_mem_sourceEntries {e : Entry} (he : e ∈ l.sourceEntries) :
    e ∈ l.entries := by
  cases hs : l.q.shuffle with
  | true => rwa [sourceEntries_of_shuffle hs] at he
  | false =>
    rw [sourceEntries_of_not_shuffle hs] at he
    exact (mem_liveEntries.mp he).1

theorem WellFormed.entryAt_eq (h : l.WellFormed) (p : ℤ) :
    l.entryAt p = l.sourceEntry (l.orderToSource p) := by
  rw [entryAt, entryAtErr, entryAtErrIn, ← orderToSource]
  cases hp : l.sourceEntry (l.orderToSource p) with
  | none => rfl
  | some e =>
    have he : e ∈ l.entries := by
      rcases lt_or_ge (l.orderToSource p) 0 with hneg | hpos
      · rw [sourceEntry_of_neg hneg] at hp
        cases hp
      · obtain ⟨n, hn⟩ := Int.eq_ofNat_of_zero_le hpos
        rw [hn, h.sourceEntry_eq] at hp
        exact mem_entries_of_mem_sourceEntries (List.mem_of_getElem? hp)
    simp [h.key_ne_notFound he]

end Layout

end Portico
