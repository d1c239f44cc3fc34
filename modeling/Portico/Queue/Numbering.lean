import Portico.Queue.PlayOrder

/-!
# The numbering of source positions

`sourceAt` and `sourceIndexOf` number the entries of a layout in order. Without shuffle the live
entries are numbered. With shuffle on every entry is, so that a removal moves no source position;
`sourceIndexOf` still answers for the live ones only.

## Main results

* `Layout.Arranged.sourceAt_lt`: the numbering is in order
* `Layout.source_numbering`: the two directions, and what they say is absent
* `Layout.shuffled_numbers_removed`: with shuffle on a removed entry keeps its position
-/

namespace Portico

namespace Layout

variable {l : Layout}

/-- The ordinal of the segment at an index has a source position. -/
def Numbered (l : Layout) (i o : ℕ) : Prop :=
  ∃ g, l.segments[i]? = some g ∧ g.Holds o ∧ (l.q.shuffle = false → l.Live ⟨g.snapshot, o⟩)

/-! ## One segment -/

theorem mk_mem_shown {g : Segment} {o : ℕ} : ⟨g.snapshot, o⟩ ∈ l.shown g ↔
    g.Holds o ∧ (l.q.shuffle = false → l.Live ⟨g.snapshot, o⟩) := by
  cases hs : l.q.shuffle with
  | true => simp [shown, hs, Segment.mk_mem_entries]
  | false => simp [shown, hs, mem_present, Segment.Holds, Live]

/-- The shown entries of a segment stand in the order of their ordinals. -/
theorem pairwise_shown (g : Segment) :
    (l.shown g).Pairwise fun a b => a.ordinal < b.ordinal := by
  have hrange : (List.range' g.first g.count).Pairwise (· < ·) := List.pairwise_lt_range'
  cases hs : l.q.shuffle with
  | true =>
    simp only [shown, hs, if_true, Segment.entries]
    exact List.pairwise_map.mpr hrange
  | false =>
    simp only [shown, hs, Bool.false_eq_true, if_false]
    exact List.pairwise_map.mpr (hrange.filter _)

/-! ## The loop over the segments -/

theorem Arranged.mem_shown_of_sourceAtFrom (h : l.Arranged) {gs : List Segment} {i p j o : ℕ}
    (hgs : ∀ g ∈ gs, g ∈ l.segments) (hat : l.sourceAtFrom i p gs = some (j, o)) :
    ∃ k g, j = i + k ∧ gs[k]? = some g ∧ ⟨g.snapshot, o⟩ ∈ l.shown g := by
  induction gs generalizing i p with
  | nil => cases hat
  | cons g gs ih =>
    rw [List.forall_mem_cons] at hgs
    have hspan := h.sourceSpan_eq hgs.1
    rw [sourceAtFrom] at hat
    by_cases hp : p < (l.shown g).length
    · rw [if_pos (by omega), Int.toNat_natCast] at hat
      obtain ⟨rfl, rfl⟩ := Prod.mk.inj (Option.some.inj hat)
      refine ⟨0, g, rfl, rfl, ?_⟩
      rw [← h.ordinal_eq hp]
      exact List.getElem_mem hp
    · rw [if_neg (by omega), show (p : ℤ) - l.sourceSpan g = (p - (l.shown g).length : ℕ) by omega]
        at hat
      obtain ⟨k, g', rfl, hk, hmem⟩ := ih hgs.2 hat
      exact ⟨k + 1, g', by omega, hk, hmem⟩

/-- **The numbering is in order**: by segment, and within a segment by ordinal. -/
theorem Arranged.sourceAtFrom_lt (h : l.Arranged) {gs : List Segment} {i p p' j j' o o' : ℕ}
    (hgs : ∀ g ∈ gs, g ∈ l.segments) (hlt : p < p') (hat : l.sourceAtFrom i p gs = some (j, o))
    (hat' : l.sourceAtFrom i p' gs = some (j', o')) : j < j' ∨ j = j' ∧ o < o' := by
  induction gs generalizing i p p' with
  | nil => cases hat
  | cons g gs ih =>
    rw [List.forall_mem_cons] at hgs
    have hspan := h.sourceSpan_eq hgs.1
    rw [sourceAtFrom] at hat hat'
    by_cases hp' : p' < (l.shown g).length
    · -- Both are in the first segment.
      rw [if_pos (by omega), Int.toNat_natCast] at hat hat'
      obtain ⟨rfl, rfl⟩ := Prod.mk.inj (Option.some.inj hat)
      obtain ⟨rfl, rfl⟩ := Prod.mk.inj (Option.some.inj hat')
      refine Or.inr ⟨rfl, ?_⟩
      have hsorted := List.pairwise_iff_getElem.mp (pairwise_shown (l := l) g) p p'
        (by omega) hp' hlt
      rw [h.ordinal_eq (by omega), h.ordinal_eq hp'] at hsorted
      exact hsorted
    · rw [if_neg (by omega),
        show (p' : ℤ) - l.sourceSpan g = (p' - (l.shown g).length : ℕ) by omega] at hat'
      by_cases hp : p < (l.shown g).length
      · -- Only the first one is.
        rw [if_pos (by omega)] at hat
        obtain ⟨rfl, -⟩ := Prod.mk.inj (Option.some.inj hat)
        obtain ⟨k, g', rfl, -, -⟩ := h.mem_shown_of_sourceAtFrom hgs.2 hat'
        omega
      · rw [if_neg (by omega),
          show (p : ℤ) - l.sourceSpan g = (p - (l.shown g).length : ℕ) by omega] at hat
        exact ih hgs.2 (by omega) hat hat'

/-! ## The whole layout -/

theorem sourceAt_natCast (p : ℕ) : l.sourceAt p = l.sourceAtFrom 0 p l.segments := by
  rw [sourceAt, if_neg (by omega)]

theorem nonneg_of_sourceAt {p : ℤ} {x : ℕ × ℕ} (hat : l.sourceAt p = some x) :
    ∃ n : ℕ, p = n := by
  refine Int.eq_ofNat_of_zero_le (not_lt.mp fun hneg => ?_)
  rw [sourceAt, if_pos hneg] at hat
  cases hat

theorem Arranged.numbered_of_sourceAt (h : l.Arranged) {p : ℤ} {i o : ℕ}
    (hat : l.sourceAt p = some (i, o)) : l.Numbered i o := by
  obtain ⟨n, rfl⟩ := nonneg_of_sourceAt hat
  rw [sourceAt_natCast] at hat
  obtain ⟨k, g, rfl, hk, hmem⟩ := h.mem_shown_of_sourceAtFrom (fun g hg => hg) hat
  rw [zero_add]
  exact ⟨g, hk, mk_mem_shown.mp hmem⟩

theorem Arranged.sourceAt_lt (h : l.Arranged) {p p' : ℤ} {i i' o o' : ℕ}
    (hat : l.sourceAt p = some (i, o)) (hat' : l.sourceAt p' = some (i', o')) (hlt : p < p') :
    i < i' ∨ i = i' ∧ o < o' := by
  obtain ⟨n, rfl⟩ := nonneg_of_sourceAt hat
  obtain ⟨n', rfl⟩ := nonneg_of_sourceAt hat'
  rw [sourceAt_natCast] at hat hat'
  exact h.sourceAtFrom_lt (fun g hg => hg) (by omega) hat hat'

theorem Arranged.index_unique (h : l.Arranged) {i j o : ℕ} {g g' : Segment}
    (hi : l.segments[i]? = some g) (hj : l.segments[j]? = some g')
    (hsnap : g.snapshot = g'.snapshot) (ho : g.Holds o) (ho' : g'.Holds o) : i = j := by
  have hdisjoint := (List.nodup_flatMap.mp h.nodup).2
  rw [List.pairwise_iff_getElem] at hdisjoint
  obtain ⟨hilt, rfl⟩ := List.getElem?_eq_some_iff.mp hi
  obtain ⟨hjlt, rfl⟩ := List.getElem?_eq_some_iff.mp hj
  have hmem := Segment.mk_mem_entries.mpr ho
  have hmem' := Segment.mk_mem_entries.mpr ho'
  rw [← hsnap] at hmem'
  rcases lt_trichotomy i j with hlt | heq | hlt
  · exact absurd hmem' (hdisjoint i j hilt hjlt hlt hmem)
  · exact heq
  · exact absurd hmem (hdisjoint j i hjlt hilt hlt hmem')

theorem Arranged.sourceAt_idxOf (h : l.Arranged) {i o : ℕ} {g : Segment}
    (hi : l.segments[i]? = some g) (hmem : ⟨g.snapshot, o⟩ ∈ l.shown g) :
    l.sourceAt (l.sourceEntries.idxOf ⟨g.snapshot, o⟩ : ℕ) = some (i, o) := by
  have hin : (⟨g.snapshot, o⟩ : Entry) ∈ l.sourceEntries :=
    List.mem_flatMap.mpr ⟨g, List.mem_of_getElem? hi, hmem⟩
  obtain ⟨hsome, -⟩ := h.sourceAtFrom_eq (i := 0)
    (p := l.sourceEntries.idxOf ⟨g.snapshot, o⟩) fun g hg => hg
  obtain ⟨j, g', hj, hsnap, hat⟩ := hsome _ (getElem?_idxOf hin)
  rw [sourceAt_natCast, hat, zero_add]
  -- The segment that the loop stops at holds the entry too, so it is the one at `i`.
  obtain ⟨k, g'', hk, hget, hmem'⟩ := h.mem_shown_of_sourceAtFrom (fun g hg => hg) hat
  obtain rfl : k = j := by omega
  obtain rfl : g' = g'' := Option.some.inj (hj.symm.trans hget)
  rw [h.index_unique hi hj hsnap.symm (mk_mem_shown.mp hmem).1 (mk_mem_shown.mp hmem').1]

theorem Arranged.sourceAt_isSome (h : l.Arranged) (p : ℤ) :
    (l.sourceAt p).isSome ↔ 0 ≤ p ∧ p < l.sourceEntries.length := by
  rcases lt_or_ge p 0 with hneg | hpos
  · rw [sourceAt, if_pos hneg]
    simp
    omega
  · obtain ⟨n, rfl⟩ := Int.eq_ofNat_of_zero_le hpos
    obtain ⟨hsome, hnone⟩ := h.sourceAtFrom_eq (i := 0) (p := n) fun g hg => hg
    rw [sourceAt_natCast]
    rw [← sourceEntries] at hsome hnone
    by_cases hn : n < l.sourceEntries.length
    · obtain ⟨j, g, -, -, hat⟩ := hsome _ (List.getElem?_eq_getElem hn)
      rw [hat]
      simpa using hn
    · rw [hnone (List.getElem?_eq_none (by omega))]
      simpa using hn

theorem Arranged.length_sourceEntries (h : l.Arranged) :
    (l.sourceEntries.length : ℤ) = if l.q.shuffle then (l.sourceTotal : ℤ) else l.total := by
  cases hs : l.q.shuffle with
  | true => rw [if_pos rfl, sourceEntries_of_shuffle hs, length_entries]
  | false =>
    rw [if_neg (by simp), total, if_neg (by simp [hs]), sourceEntries, List.length_flatMap,
      List.map_congr_left fun g hg => show Segment.live g = ((l.shown g).length : ℤ) by
        rw [← h.sourceSpan_eq hg, sourceSpan, hs, if_neg (by simp)]]
    push_cast
    rw [List.map_map]
    rfl

/-- **The numbering of source positions.** Without shuffle `sourceAt` and `sourceIndexOf` are the
two directions of one order preserving bijection between the positions below the total and the live
entries. With shuffle on removed entries have a position too, and only `sourceIndexOf` leaves them
out. -/
theorem source_numbering (h : l.Arranged) :
    (∀ p, (l.sourceAt p).isSome ↔
      0 ≤ p ∧ p < if l.q.shuffle then (l.sourceTotal : ℤ) else l.total) ∧
    (∀ i o, (∃ p, l.sourceAt p = some (i, o)) ↔ l.Numbered i o) ∧
    (∀ p p' i i' o o', l.sourceAt p = some (i, o) → l.sourceAt p' = some (i', o') →
      (p < p' ↔ i < i' ∨ i = i' ∧ o < o')) ∧
    (∀ e, (l.sourceIndexOf e).isSome ↔
      (∃ g ∈ l.segments, g.snapshot = e.snapshot ∧ g.Holds e.ordinal) ∧ l.Live e) ∧
    (∀ p i o g, l.segments[i]? = some g → l.Live ⟨g.snapshot, o⟩ →
      (l.sourceAt p = some (i, o) ↔ l.sourceIndexOf ⟨g.snapshot, o⟩ = some (p, i))) := by
  have hinj : ∀ {p p' : ℤ} {i o : ℕ}, l.sourceAt p = some (i, o) → l.sourceAt p' = some (i, o) →
      p = p' := by
    intro p p' i o hat hat'
    rcases lt_trichotomy p p' with hlt | heq | hlt
    · have := h.sourceAt_lt hat hat' hlt
      omega
    · exact heq
    · have := h.sourceAt_lt hat' hat hlt
      omega
  refine ⟨fun p => ?_, fun i o => ⟨?_, ?_⟩, fun p p' i i' o o' hat hat' => ⟨?_, fun hlex => ?_⟩,
    fun e => ⟨fun hsome => ?_, ?_⟩, fun p i o g hi hlive => ⟨fun hat => ?_, fun hindex => ?_⟩⟩
  · rw [h.sourceAt_isSome, h.length_sourceEntries]
  · rintro ⟨p, hat⟩
    exact h.numbered_of_sourceAt hat
  · rintro ⟨g, hi, hheld⟩
    exact ⟨_, h.sourceAt_idxOf hi (mk_mem_shown.mpr hheld)⟩
  · exact h.sourceAt_lt hat hat'
  · rcases lt_trichotomy p p' with hlt | rfl | hlt
    · exact hlt
    · rw [hat] at hat'
      obtain ⟨rfl, rfl⟩ := Prod.mk.inj (Option.some.inj hat')
      omega
    · have := h.sourceAt_lt hat' hat hlt
      omega
  · obtain ⟨x, hx⟩ := Option.isSome_iff_exists.mp hsome
    obtain ⟨hmem, hlive⟩ := mem_liveEntries.mp (mem_liveEntries_of_sourceIndexOf hx)
    exact ⟨mem_entries.mp hmem, hlive⟩
  · rintro ⟨hmem, hlive⟩
    obtain ⟨i, g, -, -, -, hindex⟩ :=
      h.sourceIndexOf_eq (mem_liveEntries.mpr ⟨mem_entries.mpr hmem, hlive⟩)
    rw [hindex]
    rfl
  · obtain ⟨g', hi', hheld, -⟩ := h.numbered_of_sourceAt hat
    obtain rfl : g = g' := Option.some.inj (hi.symm.trans hi')
    have hmem := mk_mem_shown.mpr ⟨hheld, fun _ => hlive⟩
    obtain ⟨j, g', hj, hsnap, hheld', hindex⟩ := h.sourceIndexOf_eq (mem_liveEntries.mpr
      ⟨mem_entries.mpr ⟨g, List.mem_of_getElem? hi, rfl, hheld⟩, hlive⟩)
    rw [hindex, hinj hat (h.sourceAt_idxOf hi hmem), h.index_unique hi hj hsnap.symm hheld hheld']
  · have hentry := (mem_liveEntries.mp (mem_liveEntries_of_sourceIndexOf hindex)).1
    obtain ⟨j, g', hj, hsnap, hheld', hindex'⟩ :=
      h.sourceIndexOf_eq (mem_liveEntries.mpr ⟨hentry, hlive⟩)
    rw [hindex] at hindex'
    obtain ⟨rfl, rfl⟩ := Prod.mk.inj (Option.some.inj hindex')
    obtain rfl : g = g' := Option.some.inj (hi.symm.trans hj)
    exact h.sourceAt_idxOf hi (mk_mem_shown.mpr ⟨hheld', fun _ => hlive⟩)

/-- Two songs, the first of them removed. -/
def oneRemoved (shuffle : Bool) : Layout where
  q := { shuffle, domain := if shuffle then 2 else 0 }
  segments := [{ id := 0, snapshot := 1, sortKey := [18], first := 0, count := 2, removed := 1 }]
  snapshots := [{ id := 1, count := 2, keys := [10, 11] }]
  removals s := if s = 1 then [0] else []
  spans := if shuffle then [⟨false, 1, 1⟩] else []
  nextId := 2

theorem oneRemoved_arranged (shuffle : Bool) : (oneRemoved shuffle).Arranged where
  sorted := List.pairwise_singleton _ _
  nodup := by decide +revert
  tombstones s := by
    simp only [oneRemoved]
    split_ifs <;> simp
  removed g hg := by
    obtain rfl := List.mem_singleton.mp hg
    decide +revert

theorem source_numbering_oneRemoved : (oneRemoved false).Arranged ∧
    (∀ p, ((oneRemoved false).sourceAt p).isSome ↔
      0 ≤ p ∧ p < if (oneRemoved false).q.shuffle then ((oneRemoved false).sourceTotal : ℤ)
        else (oneRemoved false).total) ∧ (oneRemoved false).total = 1 :=
  ⟨oneRemoved_arranged false, (source_numbering (oneRemoved_arranged false)).1, by decide⟩

/-- **With shuffle on a removed entry keeps its position**, so `sourceAt` answers past the total and
for an entry that is removed. -/
theorem shuffled_numbers_removed : ∃ l : Layout, l.Arranged ∧ l.q.shuffle = true ∧
    ¬ (∀ p, (l.sourceAt p).isSome ↔ 0 ≤ p ∧ p < l.total) ∧
    ¬ (∀ p i o g, l.sourceAt p = some (i, o) → l.segments[i]? = some g →
      l.Live ⟨g.snapshot, o⟩) := by
  refine ⟨oneRemoved true, oneRemoved_arranged true, rfl, fun h => ?_, fun h => ?_⟩
  · have := h 1
    revert this
    decide
  · have := h 0 0 0 _ (by decide) rfl
    revert this
    decide

end Layout

end Portico
