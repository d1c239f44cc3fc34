import Portico.Queue.Unshuffled

/-!
# Compaction

Compaction drops the segments with nothing left, merges neighbours, and past the tombstone bound
rewrites the most edited segments under new ids. The sequence of live entries stays, up to the new
ids.

## Main results

* `Layout.WellFormed.tidy`: dropping and merging keep the live entries
* `Layout.WellFormed.rewriteSegment`: a rewrite renames the live entries of one segment
* `Layout.WellFormed.compactQueue`: the whole compaction, with no new ids within the bound
-/

namespace Portico

namespace Layout

variable {l : Layout}

/-! ## Merging -/

theorem mergeRunsInto_entries (a : Segment) (rest : List Segment) :
    (mergeRunsInto a rest).flatMap Segment.entries = a.entries ++ rest.flatMap Segment.entries := by
  induction rest generalizing a with
  | nil => simp [mergeRunsInto]
  | cons b rest ih =>
    rw [mergeRunsInto]
    split_ifs with h
    · rw [ih, List.flatMap_cons, ← List.append_assoc]
      congr 1
      simp only [Segment.entries]
      rw [← List.range'_append_1, List.map_append, h.1, h.2]
    · rw [List.flatMap_cons, ih, List.flatMap_cons]

theorem mergeRunsInto_sortKey (a : Segment) (rest : List Segment) :
    ((mergeRunsInto a rest).map Segment.sortKey).Sublist
      (a.sortKey :: rest.map Segment.sortKey) := by
  induction rest generalizing a with
  | nil => exact List.Sublist.refl _
  | cons b rest ih =>
    rw [mergeRunsInto]
    split_ifs
    · exact (ih _).trans ((List.sublist_cons_self _ _).cons_cons _)
    · exact (ih b).cons_cons _

/-- What holds of all segments and of the merge of two contiguous ones holds after merging. -/
theorem forall_mem_mergeRunsInto {P : Segment → Prop}
    (hmerge : ∀ a b, P a → P b → a.snapshot = b.snapshot → a.first + a.count = b.first →
      P { a with count := a.count + b.count, removed := a.removed + b.removed })
    {a : Segment} {rest : List Segment} (ha : P a) (hrest : ∀ b ∈ rest, P b) :
    ∀ g ∈ mergeRunsInto a rest, P g := by
  induction rest generalizing a with
  | nil => simpa [mergeRunsInto] using ha
  | cons b rest ih =>
    rw [List.forall_mem_cons] at hrest
    rw [mergeRunsInto]
    split_ifs with h
    · exact ih (hmerge a b ha hrest.1 h.1 h.2) hrest.2
    · rw [List.forall_mem_cons]
      exact ⟨ha, ih hrest.1 hrest.2⟩

theorem mergeRuns_entries (segments : List Segment) :
    (mergeRuns segments).flatMap Segment.entries = segments.flatMap Segment.entries := by
  cases segments with
  | nil => rfl
  | cons a rest => rw [mergeRuns, mergeRunsInto_entries, List.flatMap_cons]

theorem mergeRuns_sortKey (segments : List Segment) :
    ((mergeRuns segments).map Segment.sortKey).Sublist (segments.map Segment.sortKey) := by
  cases segments with
  | nil => exact List.Sublist.refl _
  | cons a rest => exact mergeRunsInto_sortKey a rest

theorem forall_mem_mergeRuns {P : Segment → Prop}
    (hmerge : ∀ a b, P a → P b → a.snapshot = b.snapshot → a.first + a.count = b.first →
      P { a with count := a.count + b.count, removed := a.removed + b.removed })
    {segments : List Segment} (h : ∀ b ∈ segments, P b) : ∀ g ∈ mergeRuns segments, P g := by
  cases segments with
  | nil => simp [mergeRuns]
  | cons a rest =>
    rw [List.forall_mem_cons] at h
    exact forall_mem_mergeRunsInto hmerge h.1 h.2

/-! ## Dropping -/

theorem WellFormed.present_eq_nil (h : l.WellFormed) {g : Segment} (hg : g ∈ l.segments)
    (hempty : g.count = g.removed) : present g.first g.count (l.removals g.snapshot) = [] := by
  have hlen := length_present (a := g.first) (n := g.count) (h.nodup_removals g.snapshot)
  rw [← h.removed g hg] at hlen
  exact List.eq_nil_of_length_eq_zero (by omega)

theorem WellFormed.liveEntries_dropEmpty (h : l.WellFormed) :
    ((l.segments.filter fun g => g.count ≠ g.removed).flatMap Segment.entries).filter
      (fun e => l.Live e) = l.liveEntries := by
  have hfilter : ∀ gs : List Segment, (∀ g ∈ gs, g ∈ l.segments) →
      ((gs.filter fun g => g.count ≠ g.removed).flatMap Segment.entries).filter
        (fun e => l.Live e) = (gs.flatMap Segment.entries).filter fun e => l.Live e := by
    intro gs hgs
    induction gs with
    | nil => rfl
    | cons g gs ih =>
      rw [List.forall_mem_cons] at hgs
      by_cases hempty : g.count = g.removed
      · have hnone : g.entries.filter (fun e => decide (l.Live e)) = [] := by
          rw [Segment.entries, List.filter_map]
          exact List.map_eq_nil_iff.mpr (h.present_eq_nil hgs.1 hempty)
        rw [List.filter_cons_of_neg (by simpa using hempty), ih hgs.2, List.flatMap_cons,
          List.filter_append, hnone, List.nil_append]
      · rw [List.filter_cons_of_pos (by simpa using hempty), List.flatMap_cons,
          List.flatMap_cons, List.filter_append, List.filter_append, ih hgs.2]
  exact hfilter l.segments fun g hg => hg

/-! ## Tidying -/

theorem mem_removals_dropOrphans {s r : ℕ} : r ∈ l.dropOrphans.removals s ↔
    r ∈ l.removals s ∧ ∃ g ∈ l.segments, g.snapshot = s ∧ g.Holds r := by
  simp [dropOrphans]

theorem countP_dropOrphans {g : Segment} (hg : g ∈ l.segments) :
    (l.dropOrphans.removals g.snapshot).countP (fun r => g.first ≤ r ∧ r < g.first + g.count) =
      (l.removals g.snapshot).countP fun r => g.first ≤ r ∧ r < g.first + g.count := by
  simp only [dropOrphans]
  rw [List.countP_filter]
  refine List.countP_congr fun r _ => ?_
  simp only [Bool.and_eq_true, decide_eq_true_eq]
  exact ⟨fun h => h.1, fun h => ⟨h, g, hg, rfl, h⟩⟩

theorem snapshot?_dropSnapshots {s : ℕ} (hs : Referenced l.segments s) :
    l.dropSnapshots.snapshot? s = l.snapshot? s := by
  rw [snapshot?, snapshot?, dropSnapshots, List.find?_filter]
  refine List.find?_congr fun row _ => ?_
  by_cases hrow : row.id = s
  · simp [hrow, hs]
  · simp [hrow]

/-- The same live entries in the same order, some of them under new ids. -/
structure Renamed (l l' : Layout) (f : Entry → Entry) : Prop where
  wellFormed : l'.WellFormed
  q : l'.q = l.q
  spans : l'.spans = l.spans
  sonic : l'.sonic = l.sonic
  nextId : l.nextId ≤ l'.nextId
  entries : l'.liveEntries = l.liveEntries.map f
  key : ∀ e ∈ l.liveEntries, l'.key (f e) = l.key e
  waiting : l'.waiting → l.waiting

theorem Renamed.refl (h : l.WellFormed) : Renamed l l id :=
  ⟨h, rfl, rfl, rfl, le_rfl, by simp, fun _ _ => rfl, id⟩

theorem Renamed.trans {l₁ l₂ l₃ : Layout} {f g : Entry → Entry} (h₁ : Renamed l₁ l₂ f)
    (h₂ : Renamed l₂ l₃ g) : Renamed l₁ l₃ (g ∘ f) where
  wellFormed := h₂.wellFormed
  q := h₂.q.trans h₁.q
  spans := h₂.spans.trans h₁.spans
  sonic := h₂.sonic.trans h₁.sonic
  nextId := h₁.nextId.trans h₂.nextId
  entries := by rw [h₂.entries, h₁.entries, List.map_map]
  key e he := by
    have hmem : f e ∈ l₂.liveEntries := by
      rw [h₁.entries]
      exact List.mem_map_of_mem he
    exact (h₂.key (f e) hmem).trans (h₁.key e he)
  waiting hw := h₁.waiting (h₂.waiting hw)

/-- **Dropping and merging** keep the live entries and their ids. -/
theorem WellFormed.tidy (h : l.WellFormed) : Renamed l l.tidy id := by
  set kept := l.segments.filter fun g => g.count ≠ g.removed with hkept
  have hmem : ∀ g ∈ kept, g ∈ l.segments := fun g hg => (List.mem_filter.mp hg).1
  have hsegments : l.tidy.segments = mergeRuns kept := rfl
  have hentries : l.tidy.entries = kept.flatMap Segment.entries := by
    rw [entries, hsegments, mergeRuns_entries]
  have hsub : (kept.flatMap Segment.entries).Sublist l.entries :=
    List.Sublist.flatMap List.filter_sublist _
  -- tombstones are kept where a segment still holds them
  have hremovals : ∀ s r, r ∈ l.tidy.removals s ↔
      r ∈ l.removals s ∧ ⟨s, r⟩ ∈ kept.flatMap Segment.entries := by
    intro s r
    rw [← hentries, mem_entries]
    by_cases hs : Referenced (mergeRuns kept) s
    · have : l.tidy.removals s = ({ l with segments := mergeRuns kept } : Layout).dropOrphans.removals s :=
        if_pos hs
      rw [this, mem_removals_dropOrphans]
      rfl
    · have : l.tidy.removals s = [] := if_neg hs
      rw [this]
      refine ⟨fun hr => absurd hr List.not_mem_nil, fun hr => ?_⟩
      obtain ⟨-, g, hg, hsnap, -⟩ := hr
      exact absurd ⟨g, hg, hsnap⟩ hs
  have hsnapshot : ∀ s, Referenced (mergeRuns kept) s → l.tidy.snapshot? s = l.snapshot? s :=
    fun s hs => snapshot?_dropSnapshots
      (l := ({ l with segments := mergeRuns kept } : Layout).dropOrphans) hs
  have hlive : ∀ e ∈ l.tidy.entries, (l.tidy.Live e ↔ l.Live e) := by
    intro e he
    rw [Live, Live, hremovals, ← hentries]
    tauto
  have hliveEntries : l.tidy.liveEntries = l.liveEntries := by
    rw [← h.liveEntries_dropEmpty, liveEntries, ← hkept, ← hentries]
    exact List.filter_congr fun e he => decide_eq_decide.mpr (hlive e he)
  have hcount : ∀ g ∈ mergeRuns kept, g.removed =
      (l.removals g.snapshot).countP fun r => g.first ≤ r ∧ r < g.first + g.count := by
    refine forall_mem_mergeRuns (fun a b ha hb hsnap hcont => ?_) fun g hg => h.removed g (hmem g hg)
    simp only [ha, hb, ← hsnap, ← hcont]
    rw [countP_adjoin _ (by omega) (by omega), Nat.add_assoc]
  have hstored : ∀ g ∈ mergeRuns kept, ∃ s, l.snapshot? g.snapshot = some s ∧
      (s.state ≠ .building → g.first + g.count ≤ s.keys.length) := by
    refine forall_mem_mergeRuns (fun a b ha hb hsnap hcont => ?_) fun g hg => h.stored g (hmem g hg)
    obtain ⟨s, hs, hle⟩ := hb
    refine ⟨s, by rw [← hs, hsnap], fun hstate => ?_⟩
    have := hle hstate
    simp only
    omega
  refine ⟨⟨?_, ?_, ?_, ?_, ?_, ?_, ?_, ?_, ?_, ?_⟩, rfl, rfl, rfl, le_rfl, ?_, ?_, ?_⟩
  · exact h.sorted.sublist ((mergeRuns_sortKey kept).trans (List.filter_sublist.map _))
  · exact forall_mem_mergeRuns (fun a b ha _ _ _ => ha) fun g hg => h.valid g (hmem g hg)
  · rw [hentries]
    exact h.nodup.sublist hsub
  · intro s
    by_cases hs : Referenced (mergeRuns kept) s
    · have : l.tidy.removals s = ({ l with segments := mergeRuns kept } : Layout).dropOrphans.removals s :=
        if_pos hs
      rw [this]
      exact (h.tombstones s).filter _
    · have : l.tidy.removals s = [] := if_neg hs
      rw [this]
      exact List.Pairwise.nil
  · intro g hg
    have hs : Referenced (mergeRuns kept) g.snapshot := ⟨g, hg, rfl⟩
    have : l.tidy.removals g.snapshot =
        ({ l with segments := mergeRuns kept } : Layout).dropOrphans.removals g.snapshot := if_pos hs
    rw [this, countP_dropOrphans (l := { l with segments := mergeRuns kept }) hg]
    exact hcount g hg
  · intro s r hr
    rw [hentries]
    exact ((hremovals s r).mp hr).2
  · intro g hg
    rw [hsnapshot _ ⟨g, hg, rfl⟩]
    exact hstored g hg
  · intro s hs
    exact h.fresh s (List.mem_filter.mp hs).1
  · exact h.keyed.sublist (List.filter_sublist.map _)
  · exact forall_mem_mergeRuns (fun a b ha _ _ _ => Nat.add_pos_left ha _) fun g hg =>
      h.positive g (hmem g hg)
  · rw [hliveEntries, List.map_id]
  · intro e he
    rw [← hliveEntries] at he
    obtain ⟨g, hg, hsnap, -⟩ := mem_entries.mp (mem_liveEntries.mp he).1
    exact key_congr (hsnapshot _ ⟨g, hg, hsnap⟩)
  · rw [waiting_iff, waiting_iff]
    rintro ⟨s, hs, row, hrow, hstate, hstart⟩
    obtain ⟨g, hg, rfl⟩ := hs
    refine ⟨g.snapshot, ?_, row, by rw [← hsnapshot _ ⟨g, hg, rfl⟩, hrow], hstate, hstart⟩
    exact forall_mem_mergeRuns (P := fun g => Referenced l.segments g.snapshot)
      (fun a b ha _ _ _ => ha) (fun b hb => ⟨b, hmem b hb, rfl⟩) g hg

theorem countRemovals_tidy_le : l.tidy.countRemovals ≤ l.countRemovals := by
  have hle : ∀ s, (l.tidy.removals s).length ≤ (l.removals s).length := by
    intro s
    by_cases hs : Referenced l.tidy.segments s
    · exact (congrArg List.length (if_pos hs)).trans_le (List.length_filter_le _ _)
    · exact (congrArg List.length (if_neg hs)).trans_le (Nat.zero_le _)
  have hsub : l.tidy.snapshots.Sublist l.snapshots := List.filter_sublist
  calc l.tidy.countRemovals
      ≤ (l.tidy.snapshots.map fun s => (l.removals s.id).length).sum :=
        List.sum_le_sum fun s _ => hle s.id
    _ ≤ l.countRemovals := (hsub.map _).sum_le_sum fun _ _ => Nat.zero_le _

/-! ## Rewriting -/

theorem map_idxOf_self {xs : List ℕ} (h : xs.Nodup) :
    xs.map (fun x => xs.idxOf x) = List.range xs.length := by
  refine List.ext_getElem (by simp) fun i hi _ => ?_
  rw [List.length_map] at hi
  rw [List.getElem_map, List.getElem_range, h.idxOf_getElem]

/-- The new id of a rewritten segment's entry. -/
def rewrittenId (l : Layout) (g : Segment) (e : Entry) : Entry :=
  if e ∈ g.entries then
    ⟨l.nextId, (present g.first g.count (l.removals g.snapshot)).idxOf e.ordinal⟩
  else e

/-- The segment over the copied keys. -/
def rewritten (l : Layout) (g : Segment) (keys : List ℕ) : Segment :=
  { g with snapshot := l.nextId, first := 0, count := keys.length, removed := 0 }

/-- The rows a rewrite to `keys` leaves. -/
def rewriteRows (l : Layout) (pre : List Segment) (g : Segment) (post : List Segment)
    (kind : SnapshotKind) (keys : List ℕ) : Layout :=
  let segments := pre ++ l.rewritten g keys :: post
  let fresh : Snapshot := { id := l.nextId, kind, count := keys.length, keys }
  { l with
    segments
    snapshots := (l.snapshots ++ [fresh]).filter fun t =>
      t.id ≠ g.snapshot ∨ Referenced segments g.snapshot
    removals := fun t =>
      if t ≠ g.snapshot then l.removals t
      else if Referenced segments g.snapshot then (l.removals t).filter (¬ g.Holds ·)
      else []
    nextId := l.nextId + 1 }

variable {pre post : List Segment} {g : Segment} {kind : SnapshotKind} {keys : List ℕ}

theorem rewriteSegment_eq (hseg : l.segments = pre ++ g :: post) {s : Snapshot}
    (hs : l.snapshot? g.snapshot = some s) :
    l.rewriteSegment pre.length = l.rewriteRows pre g post s.kind
      ((present g.first g.count (l.removals g.snapshot)).filterMap (s.keys[·]?)) := by
  have hset : ∀ a : Segment, l.segments.set pre.length a = pre ++ a :: post := fun a => by
    rw [hseg, List.set_append_right _ _ le_rfl, Nat.sub_self, List.set_cons_zero]
  rw [Layout.rewriteSegment, (getElem?_of_eq_append hseg).1]
  simp only [hs, hset]
  rfl

theorem WellFormed.not_mem_other (h : l.WellFormed) (hseg : l.segments = pre ++ g :: post)
    {a : Segment} (ha : a ∈ pre ++ post) {e : Entry} (hea : e ∈ a.entries) : e ∉ g.entries := by
  have hnodup := h.nodup
  rw [entries, hseg, List.flatMap_append, List.flatMap_cons, List.nodup_append',
    List.nodup_append'] at hnodup
  intro he
  rcases List.mem_append.mp ha with ha | ha
  · exact hnodup.2.2 (List.mem_flatMap.mpr ⟨a, ha, hea⟩) (List.mem_append_left _ he)
  · exact hnodup.2.1.2.2 he (List.mem_flatMap.mpr ⟨a, ha, hea⟩)

theorem referenced_rewritten {t : ℕ} (ht : t < l.nextId) :
    Referenced (pre ++ l.rewritten g keys :: post) t ↔ Referenced (pre ++ post) t := by
  have hne : (l.rewritten g keys).snapshot ≠ t := ht.ne'
  simp only [Referenced, List.mem_append, List.mem_cons]
  constructor
  · rintro ⟨a, ha | rfl | ha, hsnap⟩
    · exact ⟨a, Or.inl ha, hsnap⟩
    · exact absurd hsnap hne
    · exact ⟨a, Or.inr ha, hsnap⟩
  · rintro ⟨a, ha | ha, hsnap⟩
    · exact ⟨a, Or.inl ha, hsnap⟩
    · exact ⟨a, Or.inr (Or.inr ha), hsnap⟩

variable (kind keys) in
theorem WellFormed.removals_rewriteRows (h : l.WellFormed) (hseg : l.segments = pre ++ g :: post)
    {a : Segment} (ha : a ∈ pre ++ post) :
    ((l.rewriteRows pre g post kind keys).removals a.snapshot).filter (a.Holds ·) =
      (l.removals a.snapshot).filter (a.Holds ·) := by
  by_cases hsnap : a.snapshot = g.snapshot
  · have hg : g ∈ l.segments := by simp [hseg]
    have href : Referenced (pre ++ l.rewritten g keys :: post) g.snapshot :=
      (referenced_rewritten (h.snapshot_lt hg)).mpr ⟨a, ha, hsnap⟩
    have heq : (l.rewriteRows pre g post kind keys).removals a.snapshot =
        (l.removals a.snapshot).filter (¬ g.Holds ·) := by
      rw [hsnap]
      exact (if_neg (not_not.mpr rfl)).trans (if_pos href)
    rw [heq, List.filter_filter]
    refine List.filter_congr fun o _ => ?_
    by_cases ho : a.Holds o
    · have hnot : ¬ g.Holds o := fun hgo => h.not_mem_other (e := ⟨a.snapshot, o⟩) hseg ha
        (Segment.mem_entries.mpr ⟨rfl, ho⟩) (Segment.mem_entries.mpr ⟨hsnap.symm, hgo⟩)
      simp [ho, hnot]
    · simp [ho]
  · have heq : (l.rewriteRows pre g post kind keys).removals a.snapshot =
        l.removals a.snapshot := if_pos hsnap
    rw [heq]

theorem WellFormed.mem_removals_rewriteRows (h : l.WellFormed)
    (hseg : l.segments = pre ++ g :: post) {a : Segment} (ha : a ∈ pre ++ post) {o : ℕ}
    (ho : a.Holds o) :
    o ∈ (l.rewriteRows pre g post kind keys).removals a.snapshot ↔ o ∈ l.removals a.snapshot := by
  have := congrArg (o ∈ ·) (h.removals_rewriteRows kind keys hseg ha)
  simpa [ho] using this

theorem snapshot?_rewriteRows {t : ℕ} (ht : t < l.nextId) (href : Referenced (pre ++ post) t) :
    (l.rewriteRows pre g post kind keys).snapshot? t = l.snapshot? t := by
  have hkept : ∀ row : Snapshot, row.id = t →
      (row.id ≠ g.snapshot ∨ Referenced (pre ++ l.rewritten g keys :: post) g.snapshot) := by
    rintro row rfl
    by_cases hrow : row.id = g.snapshot
    · exact Or.inr (hrow ▸ (referenced_rewritten ht).mpr href)
    · exact Or.inl hrow
  have hne : ¬ l.nextId = t := by omega
  have hfind : l.snapshots.find? (fun row => decide (decide (row.id ≠ g.snapshot ∨
      Referenced (pre ++ l.rewritten g keys :: post) g.snapshot) = true ∧
        decide (row.id = t) = true)) = l.snapshots.find? fun row => decide (row.id = t) := by
    refine List.find?_congr fun row _ => ?_
    by_cases hrow : row.id = t
    · simp only [decide_eq_true_eq]
      exact decide_eq_decide.mpr ⟨fun h => h.2, fun h => ⟨hkept row h, h⟩⟩
    · simp [hrow]
  rw [snapshot?, snapshot?, rewriteRows, List.find?_filter, List.find?_append, hfind]
  simp [hne]

variable (pre post kind keys) in
theorem WellFormed.snapshot?_rewriteRows_self (h : l.WellFormed) (hg : g ∈ l.segments) :
    (l.rewriteRows pre g post kind keys).snapshot? l.nextId =
      some { id := l.nextId, kind, count := keys.length, keys } := by
  have hlt := h.snapshot_lt hg
  rw [snapshot?, rewriteRows, List.find?_filter, List.find?_append, List.find?_eq_none.mpr]
  · simp [hlt.ne']
  · intro t ht
    have := h.fresh t ht
    simp
    omega

variable (kind keys) in
theorem WellFormed.rewriteRows (h : l.WellFormed) (hseg : l.segments = pre ++ g :: post)
    (hkeys : keys ≠ []) :
    (l.rewriteRows pre g post kind keys).WellFormed := by
  have hg : g ∈ l.segments := by simp [hseg]
  have hlt := h.snapshot_lt hg
  have hother : ∀ a ∈ pre ++ post, a ∈ l.segments := fun a ha => by
    rw [hseg]
    simp at ha ⊢
    tauto
  have hmem : ∀ a ∈ (l.rewriteRows pre g post kind keys).segments,
      a ∈ pre ++ post ∨ a = l.rewritten g keys := fun a ha => by
    simp only [Layout.rewriteRows, List.mem_append, List.mem_cons] at ha ⊢
    tauto
  refine ⟨?_, ?_, ?_, ?_, ?_, ?_, ?_, ?_, ?_, ?_⟩
  · have := h.sorted
    rw [hseg] at this
    simpa [Layout.rewriteRows, rewritten] using this
  · intro a ha
    rcases hmem a ha with ha | rfl
    · exact h.valid a (hother a ha)
    · exact h.valid g hg
  · have hsub : (pre ++ post).Sublist l.segments := by
      rw [hseg]
      exact (List.sublist_cons_self g post).append_left pre
    have hnodup : ((pre ++ post).flatMap Segment.entries).Nodup :=
      h.nodup.sublist (List.Sublist.flatMap hsub _)
    have hnew : ∀ e ∈ (pre ++ post).flatMap Segment.entries,
        e ∉ (l.rewritten g keys).entries := by
      intro e he hmem
      obtain ⟨a, ha, hea⟩ := List.mem_flatMap.mp he
      have hsnap := (Segment.mem_entries.mp hea).1
      have hnext : l.nextId = e.snapshot := (Segment.mem_entries.mp hmem).1
      have := h.snapshot_lt (hother a ha)
      omega
    have hperm : (l.rewriteRows pre g post kind keys).entries.Perm
        ((pre ++ post).flatMap Segment.entries ++ (l.rewritten g keys).entries) := by
      simp only [entries, Layout.rewriteRows, List.flatMap_append, List.flatMap_cons,
        List.append_assoc]
      exact List.perm_append_comm.append_left _
    rw [hperm.nodup_iff, List.nodup_append']
    refine ⟨hnodup, ?_, fun e he hmem => hnew e he hmem⟩
    exact List.Nodup.map (fun a b hab => by simpa using hab) List.nodup_range'
  · intro s
    simp only [Layout.rewriteRows]
    split_ifs
    · exact h.tombstones s
    · exact (h.tombstones s).filter _
    · exact List.Pairwise.nil
  · intro a ha
    rcases hmem a ha with ha | rfl
    · have := congrArg List.length (h.removals_rewriteRows kind keys hseg ha)
      rw [← List.countP_eq_length_filter, ← List.countP_eq_length_filter] at this
      exact (h.removed a (hother a ha)).trans this.symm
    · have hnone : (l.rewriteRows pre g post kind keys).removals l.nextId = [] :=
        (if_pos hlt.ne').trans (h.removals_fresh le_rfl)
      simp [rewritten, hnone]
  · intro s r hr
    have hheld : ∃ a ∈ pre ++ post, a.snapshot = s ∧ a.Holds r := by
      simp only [Layout.rewriteRows] at hr
      split_ifs at hr with hs href
      · obtain ⟨a, ha, hsnap, ho⟩ := mem_entries.mp (h.inside s r hr)
        rw [hseg] at ha
        simp only [List.mem_append, List.mem_cons] at ha ⊢
        rcases ha with ha | rfl | ha
        · exact ⟨a, Or.inl ha, hsnap, ho⟩
        · exact absurd hsnap.symm hs
        · exact ⟨a, Or.inr ha, hsnap, ho⟩
      · obtain ⟨hr, hnot⟩ := List.mem_filter.mp hr
        obtain ⟨a, ha, hsnap, ho⟩ := mem_entries.mp (h.inside s r hr)
        rw [hseg] at ha
        simp only [List.mem_append, List.mem_cons] at ha ⊢
        rcases ha with ha | rfl | ha
        · exact ⟨a, Or.inl ha, hsnap, ho⟩
        · exact absurd ho (by simpa using hnot)
        · exact ⟨a, Or.inr ha, hsnap, ho⟩
      · simp at hr
    obtain ⟨a, ha, hsnap, ho⟩ := hheld
    refine mem_entries.mpr ⟨a, ?_, hsnap, ho⟩
    simp only [Layout.rewriteRows, List.mem_append, List.mem_cons] at ha ⊢
    tauto
  · intro a ha
    rcases hmem a ha with ha | rfl
    · rw [snapshot?_rewriteRows (h.snapshot_lt (hother a ha)) ⟨a, ha, rfl⟩]
      exact h.stored a (hother a ha)
    · refine ⟨_, h.snapshot?_rewriteRows_self _ _ _ _ hg, fun _ => ?_⟩
      simp [rewritten]
  · intro s hs
    simp only [Layout.rewriteRows, List.mem_filter, List.mem_append, List.mem_singleton] at hs ⊢
    rcases hs.1 with hs | rfl
    · have := h.fresh s hs
      omega
    · simp
  · exact (h.keyed_append rfl).sublist (List.filter_sublist.map _)
  · intro a ha
    rcases hmem a ha with ha | rfl
    · exact h.positive a (hother a ha)
    · exact List.length_pos_iff.mpr hkeys

/-- **A rewrite** gives the live entries of one segment new ids, in order, with the same keys. -/
theorem WellFormed.rewriteSegment (h : l.WellFormed) {i : ℕ} {g : Segment} {s : Snapshot}
    (hget : l.segments[i]? = some g) (hs : l.snapshot? g.snapshot = some s)
    (hready : s.state = .ready) (hleft : g.count ≠ g.removed) : Renamed l (l.rewriteSegment i) (l.rewrittenId g) := by
  obtain ⟨pre, post, hseg, rfl⟩ := exists_eq_append hget
  rw [rewriteSegment_eq hseg hs]
  have hg : g ∈ l.segments := by simp [hseg]
  set live := present g.first g.count (l.removals g.snapshot) with hlivedef
  set keys := live.filterMap (s.keys[·]?) with hkeysdef
  have hnew := h.snapshot_lt hg
  have hbuilt : ∀ o ∈ live, o < s.keys.length := by
    intro o ho
    obtain ⟨s', hs', hle⟩ := h.stored g hg
    rw [hs] at hs'
    obtain rfl := Option.some.inj hs'
    exact ((mem_present.mp ho).1.2).trans_le (hle (by simp [hready]))
  have hread : ∀ o ∈ live, s.keys[o]? = some (s.keys.getD o 0) := fun o ho => by
    rw [List.getElem?_eq_getElem (hbuilt o ho), List.getD_eq_getElem _ _ (hbuilt o ho)]
  have hkeys : keys = live.map (s.keys.getD · 0) := by
    rw [hkeysdef, ← List.filterMap_eq_map]
    exact List.filterMap_congr fun o ho => hread o ho
  have hkept : keys ≠ [] := by
    have hlen := length_present (a := g.first) (n := g.count) (h.nodup_removals g.snapshot)
    have hrem := h.removed g hg
    rw [← hlivedef] at hlen
    rw [hkeys, ← List.length_pos_iff, List.length_map]
    omega
  have hwf := h.rewriteRows s.kind keys hseg hkept
  -- the other segments show what they showed
  have hother : ∀ a ∈ pre ++ post,
      (present a.first a.count ((l.rewriteRows pre g post s.kind keys).removals a.snapshot)).map
          (Entry.mk a.snapshot) =
        ((present a.first a.count (l.removals a.snapshot)).map (Entry.mk a.snapshot)).map
          (l.rewrittenId g) := by
    intro a ha
    rw [List.map_map]
    have hpresent : present a.first a.count
        ((l.rewriteRows pre g post s.kind keys).removals a.snapshot) =
          present a.first a.count (l.removals a.snapshot) := by
      refine List.filter_congr fun o ho => decide_eq_decide.mpr (not_congr ?_)
      exact h.mem_removals_rewriteRows hseg ha (List.mem_range'_1.mp ho)
    rw [hpresent]
    refine List.map_congr_left fun o ho => ?_
    rw [Function.comp_apply, rewrittenId, if_neg]
    exact h.not_mem_other hseg ha (Segment.mk_mem_entries.mpr (mem_present.mp ho).1)
  have hself : (present 0 keys.length ((l.rewriteRows pre g post s.kind keys).removals l.nextId)).map
      (Entry.mk l.nextId) = (live.map (Entry.mk g.snapshot)).map (l.rewrittenId g) := by
    have hnone : (l.rewriteRows pre g post s.kind keys).removals l.nextId = [] :=
      (if_pos hnew.ne').trans (h.removals_fresh le_rfl)
    have hid : ∀ o ∈ live, l.rewrittenId g ⟨g.snapshot, o⟩ = ⟨l.nextId, live.idxOf o⟩ := by
      intro o ho
      rw [rewrittenId, if_pos (Segment.mk_mem_entries.mpr (mem_present.mp ho).1)]
    have hlen : keys.length = live.length := by rw [hkeys, List.length_map]
    have hrange : present 0 keys.length [] = live.map fun o => live.idxOf o := by
      rw [hlen, hlivedef, map_idxOf_self nodup_present, List.range_eq_range']
      simp [present]
    rw [hnone, hrange, List.map_map, List.map_map]
    exact List.map_congr_left fun o ho => (hid o ho).symm
  refine ⟨hwf, rfl, rfl, rfl, Nat.le_succ _, ?_, ?_, ?_⟩
  · rw [liveEntries_eq_flatMap, liveEntries_eq_flatMap, hseg]
    simp only [Layout.rewriteRows, List.flatMap_append, List.flatMap_cons, List.map_append,
      List.map_flatMap]
    have hpart : ∀ gs : List Segment, (∀ a ∈ gs, a ∈ pre ++ post) →
        (gs.flatMap fun a => (present a.first a.count
          ((l.rewriteRows pre g post s.kind keys).removals a.snapshot)).map
            (Entry.mk a.snapshot)) =
        gs.flatMap fun a => ((present a.first a.count (l.removals a.snapshot)).map
          (Entry.mk a.snapshot)).map (l.rewrittenId g) :=
      fun gs hgs => List.flatMap_congr fun a ha => hother a (hgs a ha)
    exact congrArg₂ _ (hpart pre fun a ha => by simp [ha])
      (congrArg₂ _ hself (hpart post fun a ha => by simp [ha]))
  · intro e he
    obtain ⟨hmem, hl⟩ := mem_liveEntries.mp he
    by_cases heg : e ∈ g.entries
    · obtain ⟨hsnap, ho⟩ := Segment.mem_entries.mp heg
      have ho' : e.ordinal ∈ live := mem_present.mpr ⟨ho, hsnap ▸ hl⟩
      have hidx := List.idxOf_lt_length_of_mem ho'
      have hnewkey : (l.rewriteRows pre g post s.kind keys).key (l.rewrittenId g e) =
          .key (s.keys.getD e.ordinal 0) := by
        rw [rewrittenId, if_pos heg]
        refine key_of_stored (h.snapshot?_rewriteRows_self _ _ _ _ hg) ?_
        rw [hkeys]
        simp [← hlivedef, hidx]
      rw [hnewkey, key_of_stored (hsnap ▸ hs) (hread _ ho')]
    · obtain ⟨a, ha, hsnap, ho⟩ := mem_entries.mp hmem
      rw [hseg] at ha
      have ha' : a ∈ pre ++ post := by
        simp only [List.mem_append, List.mem_cons] at ha ⊢
        rcases ha with ha | rfl | ha
        · exact Or.inl ha
        · exact absurd (Segment.mem_entries.mpr ⟨hsnap, ho⟩) heg
        · exact Or.inr ha
      rw [rewrittenId, if_neg heg]
      exact key_congr (snapshot?_rewriteRows (h.entry_lt hmem) ⟨a, ha', hsnap⟩)
  · rw [waiting_iff, waiting_iff]
    rintro ⟨t, ⟨a, ha, rfl⟩, row, hrow, hstate, hstart⟩
    simp only [Layout.rewriteRows, List.mem_append, List.mem_cons] at ha
    by_cases ha' : a ∈ pre ++ post
    · have hmem : a ∈ l.segments := by
        rw [hseg]
        simp at ha' ⊢
        tauto
      rw [snapshot?_rewriteRows (h.snapshot_lt hmem) ⟨a, ha', rfl⟩] at hrow
      exact ⟨a.snapshot, ⟨a, hmem, rfl⟩, row, hrow, hstate, hstart⟩
    · obtain rfl : a = l.rewritten g keys := by
        simp at ha'
        tauto
      have hself := h.snapshot?_rewriteRows_self pre post s.kind keys hg
      rw [show (l.rewritten g keys).snapshot = l.nextId from rfl, hself] at hrow
      rw [← Option.some.inj hrow] at hstate
      cases hstate

theorem WellFormed.mostEdited_spec {i : ℕ} (hi : l.mostEdited = some i) :
    ∃ g s, l.segments[i]? = some g ∧ l.snapshot? g.snapshot = some s ∧ s.state = .ready := by
  have hmem := List.argmax_mem hi
  simp only [List.mem_filter, List.mem_range, Option.any_eq_true, Bool.and_eq_true,
    decide_eq_true_eq] at hmem
  obtain ⟨-, g, hget, ⟨-, s, hs, hready⟩, -⟩ := hmem
  exact ⟨g, s, hget, hs, hready⟩

theorem forall_mem_rewriteSegment {P : Segment → Prop} (h : ∀ a ∈ l.segments, P a) {i : ℕ}
    {g : Segment} {s : Snapshot} (hget : l.segments[i]? = some g)
    (hs : l.snapshot? g.snapshot = some s) (hnew : ∀ keys, P (l.rewritten g keys)) :
    ∀ a ∈ (l.rewriteSegment i).segments, P a := by
  obtain ⟨pre, post, hseg, rfl⟩ := exists_eq_append hget
  rw [rewriteSegment_eq hseg hs]
  intro a ha
  simp only [Layout.rewriteRows, List.mem_append, List.mem_cons] at ha
  rcases ha with ha | rfl | ha
  · exact h a (by simp [hseg, ha])
  · exact hnew _
  · exact h a (by simp [hseg, ha])

theorem WellFormed.rewriteSegments (h : l.WellFormed) (hleft : ∀ g ∈ l.segments, 0 < g.live)
    (fuel : ℕ) :
    ∃ f, Renamed l (rewriteSegments fuel l) f ∧ (l.countRemovals ≤ maxQueueRemovals → f = id) := by
  induction fuel generalizing l with
  | zero => exact ⟨id, Renamed.refl h, fun _ => rfl⟩
  | succ fuel ih =>
    rw [Layout.rewriteSegments]
    split_ifs with hbound
    · exact ⟨id, Renamed.refl h, fun _ => rfl⟩
    · split
      · exact ⟨id, Renamed.refl h, fun _ => rfl⟩
      · next i hi =>
        obtain ⟨g, s, hget, hs, hready⟩ := mostEdited_spec hi
        have hg := hleft g (List.mem_of_getElem? hget)
        rw [Segment.live] at hg
        have hrewrite := h.rewriteSegment hget hs hready (by omega)
        have hleft' : ∀ a ∈ (l.rewriteSegment i).segments, 0 < a.live := by
          intro a ha
          have hpos := hrewrite.wellFormed.positive a ha
          have hor := forall_mem_rewriteSegment (P := fun a => 0 < a.live ∨ a.removed = 0)
            (fun b hb => Or.inl (hleft b hb)) hget hs (fun _ => Or.inr rfl) a ha
          rw [Segment.live] at hor ⊢
          omega
        obtain ⟨f, hf, -⟩ := ih hrewrite.wellFormed hleft'
        exact ⟨_, hrewrite.trans hf, fun hle => absurd hle hbound⟩

theorem WellFormed.live_pos_tidy (h : l.WellFormed) : ∀ g ∈ l.tidy.segments, 0 < g.live := by
  refine forall_mem_mergeRuns (fun a b ha hb _ _ => ?_) fun g hg => ?_
  · simp only [Segment.live] at ha hb ⊢
    push_cast
    omega
  · obtain ⟨hmem, hne⟩ := List.mem_filter.mp hg
    have hlen := length_present (a := g.first) (n := g.count) (h.nodup_removals g.snapshot)
    have hrem := h.removed g hmem
    rw [Segment.live]
    simp only [ne_eq, decide_not, Bool.not_eq_eq_eq_not, Bool.not_true, decide_eq_false_iff_not]
      at hne
    omega

/-- **Compaction** keeps the live entries in order, and within the tombstone bound their ids. -/
theorem WellFormed.compactQueue (h : l.WellFormed) {l' : Layout} (hok : l.compactQueue = .ok l') :
    ∃ f, Renamed l l' f ∧ (l.tidy.countRemovals ≤ maxQueueRemovals → f = id) := by
  rw [Layout.compactQueue] at hok
  split_ifs at hok
  obtain rfl := Except.ok.inj hok
  obtain ⟨f, hf, hid⟩ :=
    h.tidy.wellFormed.rewriteSegments h.live_pos_tidy l.tidy.segments.length
  exact ⟨f ∘ id, h.tidy.trans hf, hid⟩

end Layout

end Portico
