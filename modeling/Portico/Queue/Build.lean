import Portico.Lib.Outcome
import Portico.Queue.Unshuffled

/-!
# Building a queue

The rows a create writes agree with each other: each planned segment goes last, over its own
snapshot. The write steps of a background build (`playbackv1/queue_build.go`) follow: a batch that
stores more keys and lets the segment grow, the finished build, and the failed one.

## Main results

* `Layout.WellFormed.createSegments`: the loop over the planned segments keeps the rows well formed
* `Layout.createQueue_wellFormed`: so does the whole create
-/

namespace Portico

namespace Layout

variable (l : Layout)

/-- The greatest first ordinal of a snapshot's segments. -/
def greatestFirst (snap : ℕ) : ℕ :=
  ((l.segments.filter (·.snapshot = snap)).map Segment.first).foldr max 0

/-- The snapshot's last segment: the one its unbuilt keys extend. -/
def IsGrowing (snap : ℕ) (g : Segment) : Prop :=
  g.snapshot = snap ∧ g.first = l.greatestFirst snap

instance (snap : ℕ) (g : Segment) : Decidable (l.IsGrowing snap g) :=
  inferInstanceAs (Decidable (_ ∧ _))

/-- `setGrowingCountTx`: set the snapshot's last segment (an earlier split keeps its own range) to
end at `built`. -/
def setGrowingCount (snap built : ℕ) : Layout :=
  { l with
    segments := l.segments.map fun g =>
      if l.IsGrowing snap g ∧ g.first ≤ built then { g with count := built - g.first } else g }

/-- The spans as a build's first statement leaves them. -/
def extended (snap built : ℕ) : Except QueueError Layout :=
  (l.extendShuffleOrder snap built).map (·.setGrowingCount snap built)

end Layout

end Portico

/-! # A created queue -/

namespace Portico

namespace Layout

variable {l l' : Layout}

/-- Only a snapshot the background still builds is declared larger than its keys. -/
def Declared (snap : PlannedSegment) : Prop := snap.isPartial = false → snap.size ≤ snap.keys.length

theorem size_pos {snap : NewSnapshot} (h : snap.keys ≠ []) : 0 < snap.size := by
  have := List.length_pos_iff.mpr h
  rw [NewSnapshot.size]
  split_ifs <;> omega

theorem WellFormed.addPlanned (h : l.WellFormed) {snap : PlannedSegment} (hkeys : snap.keys ≠ [])
    (hdeclared : Declared snap) {key : SortKey}
    (hkey : sortKeyOr (lastSortKey l.segments) [] = .ok key) :
    ((l.storeSnapshot snap.toNewSnapshot).addRow l.nextId key 0 snap.size 0).WellFormed ∧
      ((l.storeSnapshot snap.toNewSnapshot).addRow l.nextId key 0 snap.size 0).liveEntries =
        l.liveEntries ++ block l.nextId 0 snap.size := by
  have hstore := h.storeSnapshot snap.toNewSnapshot
  obtain ⟨key', hkey', hplace⟩ := hstore.place_last
  obtain rfl : key = key' := by
    rw [show (l.storeSnapshot snap.toNewSnapshot).segments = l.segments from rfl, hkey] at hkey'
    exact Except.ok.inj hkey'
  have hrow := h.snapshot?_storeSnapshot_self snap.toNewSnapshot
  obtain ⟨hwf, hlive⟩ := hstore.addSnapshot_place hplace l.nextId snap.size
    (fun e he heq => absurd (h.entry_lt he) (by omega)) (h.removals_fresh le_rfl)
    ⟨_, hrow, fun hstate => hdeclared (by
      simp only [NewSnapshot.row] at hstate
      by_contra hpartial
      exact hstate (if_pos (by simpa using hpartial)))⟩ (size_pos hkeys)
  refine ⟨hwf, hlive.trans ?_⟩
  rw [List.filter_nil, List.append_nil]
  rfl

theorem WellFormed.lastSortKey_addRow (h : l.WellFormed) {key : SortKey}
    (hkey : sortKeyOr (lastSortKey l.segments) [] = .ok key) (snapshot first count removed : ℕ) :
    lastSortKey (l.addRow snapshot key first count removed).segments = key := by
  obtain ⟨key', hkey', pre, post, hseg, -, hpost, -, hlt, -⟩ := h.place_last
  obtain rfl : key = key' := Except.ok.inj (hkey.symm.trans hkey')
  obtain rfl : post = [] := by
    refine List.eq_nil_iff_forall_not_mem.mpr fun g hg => ?_
    have hnone := List.flatMap_eq_nil_iff.mp hpost g hg
    have hpos := h.positive g (by simp [hseg, hg])
    have hlen := congrArg List.length hnone
    rw [Segment.entries, List.length_map, List.length_range', List.length_nil] at hlen
    omega
  have hrow : (l.addRow snapshot key first count removed).segments = pre ++
      [{ id := l.nextId, snapshot, sortKey := key, first, count, removed }] := by
    simp only [addRow]
    rw [hseg]
    exact insertSegment_append hlt (by simp)
  rw [lastSortKey, hrow]
  simp

/-- **The loop of a create** keeps the rows well formed and adds no tombstone. -/
theorem WellFormed.createSegments (h : l.WellFormed) {snaps : List PlannedSegment}
    (hsnaps : ∀ snap ∈ snaps, Declared snap) {current : Option ℕ} {anchored : Option ℕ}
    (hok : l.createSegments (lastSortKey l.segments) current snaps = .ok (l', anchored)) :
    l'.WellFormed ∧ l'.q = l.q ∧ l'.spans = l.spans ∧ l'.sonic = l.sonic ∧
      l'.removals = l.removals := by
  induction snaps generalizing l current with
  | nil =>
    obtain ⟨rfl, -⟩ : l = l' ∧ current = anchored := by
      simpa [Layout.createSegments] using hok
    exact ⟨h, rfl, rfl, rfl, rfl⟩
  | cons snap snaps ih =>
    rw [List.forall_mem_cons] at hsnaps
    rw [Layout.createSegments] at hok
    split_ifs at hok with hkeys
    · exact ih h hsnaps.2 hok
    · obtain ⟨key, hkey, hok⟩ := bind_eq_ok.mp hok
      obtain ⟨hwf, -⟩ := h.addPlanned hkeys hsnaps.1 hkey
      have hlast : lastSortKey ((l.storeSnapshot snap.toNewSnapshot).addRow l.nextId key 0
          snap.size 0).segments = key :=
        (h.storeSnapshot snap.toNewSnapshot).lastSortKey_addRow hkey l.nextId 0 snap.size 0
      rw [← hlast] at hok
      obtain ⟨hwf', hq, hspans, hsonic, hremovals⟩ := ih hwf hsnaps.2 (by simpa [hlast] using hok)
      exact ⟨hwf', hq, hspans, hsonic, hremovals⟩

theorem createQueue_ok {repeatMode : RepeatMode} {snaps : List PlannedSegment} {order : Option ℕ}
    (hok : createQueue repeatMode snaps order = .ok l') :
    ∃ created anchored, ({ q := { repeatMode }, segments := [], snapshots := [], nextId := 0 }
        : Layout).createSegments [] none snaps = .ok (created, anchored) ∧
      0 < created.sourceTotal ∧
      (l' = created.setCurrent (anchored.getD 0) ∨ ∃ seed first,
        l' = { created with
          q := { created.q with
            shuffle := true, seed := word32 seed, domain := created.sourceTotal, first } } ∧
        first = anchored.getD
          (((Shuffle.new created.sourceTotal (word32 seed) 1).bind (·.atIndex 0)).getD 0)) := by
  rw [createQueue] at hok
  obtain ⟨⟨created, anchored⟩, hcreated, hok⟩ := bind_eq_ok.mp hok
  refine ⟨created, anchored, hcreated, ?_⟩
  simp only [throw_bind, guard_eq_ok] at hok
  obtain ⟨hpos, hok⟩ := hok
  refine ⟨by omega, ?_⟩
  split at hok
  · exact Or.inl (Except.ok.inj hok).symm
  · exact Or.inr ⟨_, _, (Except.ok.inj hok).symm, rfl⟩

theorem wellFormed_empty (q : QueueRow) :
    ({ q, segments := [], snapshots := [], nextId := 0 } : Layout).WellFormed :=
  ⟨List.Pairwise.nil, by simp, List.nodup_nil, fun _ => List.Pairwise.nil, by simp, by simp,
    by simp, by simp, List.nodup_nil, by simp⟩

/-- **A created queue** is well formed. -/
theorem createQueue_wellFormed {repeatMode : RepeatMode} {snaps : List PlannedSegment}
    {order : Option ℕ} (hsnaps : ∀ snap ∈ snaps, Declared snap)
    (hok : createQueue repeatMode snaps order = .ok l') : l'.WellFormed := by
  obtain ⟨created, anchored, hcreated, -, rfl | ⟨seed, first, rfl, -⟩⟩ := createQueue_ok hok
  all_goals
    obtain ⟨hwf, -⟩ := (wellFormed_empty { repeatMode }).createSegments hsnaps hcreated
    exact hwf.congr_row _

end Layout

end Portico
