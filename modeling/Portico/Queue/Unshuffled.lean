import Portico.Queue.Place

/-!
# Unshuffled edits

Without shuffle the play order is the list of live entries. The mutations of an add, a removal and a
move are edits of that list: each writes its rows at a place between two segments.

## Main results

* `Layout.WellFormed.playOrder_eq`: the unshuffled play order
* `Layout.WellFormed.addUnshuffled_spec`: an add inserts its block at the named place
* `Layout.WellFormed.moveUnshuffled_spec`: a move deletes its entry and inserts a new one beside the
  target
-/

namespace Portico

namespace Layout

variable {l : Layout}

/-! ## The unshuffled play order -/

theorem shuffle_eq_none (hs : l.q.shuffle = false) : l.shuffle = none := by
  rw [shuffle, if_neg (by simp [hs])]

theorem orderToSource_of_not_shuffle (hs : l.q.shuffle = false) (p : ℤ) :
    l.orderToSource p = p := by
  rw [orderToSource, orderToSourceIn, if_neg (by simp [hs]), baseOrderToSourceIn,
    if_neg (by simp [hs]), ordinaryOrderToSource, shuffle_eq_none hs]

theorem sourceToOrder_of_not_shuffle (hs : l.q.shuffle = false) (src : ℤ) :
    l.sourceToOrder src = src := by
  rw [sourceToOrder, if_neg (by simp [hs]), baseSourceToOrder, baseSourceToOrderIn,
    if_neg (by simp [hs]), ordinarySourceToOrder, shuffle_eq_none hs]

theorem WellFormed.total_eq (h : l.WellFormed) (hs : l.q.shuffle = false) :
    l.total = l.liveEntries.length := by
  have hspan : ∀ g ∈ l.segments, g.live = ((l.shown g).length : ℤ) := fun g hg => by
    rw [← h.sourceSpan_eq hg, sourceSpan, if_neg (by simp [hs])]
  rw [total, if_neg (by simp [hs]), ← sourceEntries_of_not_shuffle hs, sourceEntries,
    List.length_flatMap, List.map_congr_left hspan]
  push_cast
  rw [List.map_map]
  rfl

theorem WellFormed.entryAt_of_not_shuffle (h : l.WellFormed) (hs : l.q.shuffle = false) (p : ℕ) :
    l.entryAt p = l.liveEntries[p]? := by
  rw [h.entryAt_eq, orderToSource_of_not_shuffle hs, h.sourceEntry_eq,
    sourceEntries_of_not_shuffle hs]

/-- **The unshuffled play order** is the list of live entries. -/
theorem WellFormed.playOrder_eq (h : l.WellFormed) (hs : l.q.shuffle = false) :
    l.playOrder = l.liveEntries.map some := by
  rw [playOrder, h.total_eq hs, Int.toNat_natCast]
  refine List.ext_getElem (by simp) fun p hp _ => ?_
  rw [List.length_map, List.length_range] at hp
  rw [List.getElem_map, List.getElem_range, h.entryAt_of_not_shuffle hs,
    List.getElem?_eq_getElem hp, List.getElem_map]

theorem WellFormed.currentEntry_mem (h : l.WellFormed) (hs : l.q.shuffle = false) {e : Entry}
    (he : l.currentEntry = some e) : l.liveEntries[l.q.current]? = some e ∧ ¬ l.waiting := by
  rw [currentEntry] at he
  split_ifs at he with hw
  rw [h.entryAt_of_not_shuffle hs] at he
  exact ⟨he, hw⟩

/-! ## Keeping the current entry -/

@[simp] theorem setCurrent_q (current : ℕ) :
    (l.setCurrent current).q = { l.q with current } := rfl

@[simp] theorem setCurrent_liveEntries (current : ℕ) :
    (l.setCurrent current).liveEntries = l.liveEntries := rfl

@[simp] theorem setCurrent_waiting (current : ℕ) :
    (l.setCurrent current).waiting = l.waiting := rfl

theorem WellFormed.congr_row (h : l.WellFormed) (q : QueueRow) :
    WellFormed { l with q } :=
  ⟨h.sorted, h.valid, h.nodup, h.tombstones, h.removed, h.inside, h.stored, h.fresh,
    h.keyed, h.positive⟩

theorem WellFormed.setCurrent (h : l.WellFormed) (current : ℕ) :
    (l.setCurrent current).WellFormed := h.congr_row _

theorem keepCurrent_eq (e : Option Entry) : ∃ current, l.keepCurrent e = l.setCurrent current := by
  rw [keepCurrent]
  split
  · exact ⟨l.q.current, rfl⟩
  · exact ⟨_, rfl⟩

theorem WellFormed.keepCurrent (h : l.WellFormed) (e : Option Entry) :
    (l.keepCurrent e).WellFormed := by
  obtain ⟨current, hcurrent⟩ := l.keepCurrent_eq e
  rw [hcurrent]
  exact h.setCurrent current

theorem WellFormed.keepCurrent_getElem? (h : l.WellFormed) (hs : l.q.shuffle = false) {e : Entry}
    (he : e ∈ l.liveEntries) :
    l.liveEntries[(l.keepCurrent (some e)).q.current]? = some e := by
  obtain ⟨i, g, -, -, -, hindex⟩ := h.sourceIndexOf_eq he
  rw [Layout.keepCurrent, Option.bind_some, hindex, sourceEntries_of_not_shuffle hs]
  simp only [Int.toNat_natCast, setCurrent_q]
  rw [List.getElem?_eq_getElem (List.idxOf_lt_length_of_mem he), List.getElem_idxOf]

/-! ## Storing a snapshot -/

theorem snapshot?_storeSnapshot_of_lt (snap : NewSnapshot) {s : ℕ} (hs : s < l.nextId) :
    (l.storeSnapshot snap).snapshot? s = l.snapshot? s := by
  rw [snapshot?, snapshot?, storeSnapshot, List.find?_append]
  have hne : ¬ l.nextId = s := by omega
  simp [NewSnapshot.row, hne]

theorem WellFormed.snapshot?_storeSnapshot_self (h : l.WellFormed) (snap : NewSnapshot) :
    (l.storeSnapshot snap).snapshot? l.nextId = some (snap.row l.nextId) := by
  have hnone : l.snapshots.find? (fun s => decide (s.id = l.nextId)) = none := by
    rw [List.find?_eq_none]
    intro s hs
    have := h.fresh s hs
    simp
    omega
  rw [snapshot?, storeSnapshot, List.find?_append, hnone]
  simp [NewSnapshot.row]

theorem WellFormed.snapshot_lt (h : l.WellFormed) {g : Segment} (hg : g ∈ l.segments) :
    g.snapshot < l.nextId := by
  obtain ⟨s, hs, -⟩ := h.stored g hg
  have hid : s.id = g.snapshot := by simpa using List.find?_some hs
  rw [← hid]
  exact h.fresh s (List.mem_of_find?_eq_some hs)

theorem WellFormed.entry_lt (h : l.WellFormed) {e : Entry} (he : e ∈ l.entries) :
    e.snapshot < l.nextId := by
  obtain ⟨g, hg, hsnap, -⟩ := mem_entries.mp he
  exact hsnap ▸ h.snapshot_lt hg

theorem WellFormed.removals_fresh (h : l.WellFormed) {s : ℕ} (hs : l.nextId ≤ s) :
    l.removals s = [] := by
  rw [List.eq_nil_iff_forall_not_mem]
  intro r hr
  have hlt : s < l.nextId := h.entry_lt (h.inside s r hr)
  omega

theorem WellFormed.storeSnapshot (h : l.WellFormed) (snap : NewSnapshot) :
    (l.storeSnapshot snap).WellFormed where
  sorted := h.sorted
  valid := h.valid
  nodup := h.nodup
  tombstones := h.tombstones
  removed := h.removed
  inside := h.inside
  stored g hg := by
    rw [snapshot?_storeSnapshot_of_lt snap (h.snapshot_lt hg)]
    exact h.stored g hg
  fresh s hs := by
    simp only [Layout.storeSnapshot, List.mem_append, List.mem_singleton] at hs
    rcases hs with hs | rfl
    · exact (h.fresh s hs).trans (Nat.lt_succ_self _)
    · exact Nat.lt_succ_self _
  keyed := h.keyed_append rfl
  positive := h.positive

/-! ## Counting tombstones -/

theorem WellFormed.countRemovals_storeSnapshot (h : l.WellFormed) (snap : NewSnapshot) :
    (l.storeSnapshot snap).countRemovals = l.countRemovals := by
  have hnew : l.removals l.nextId = [] := h.removals_fresh le_rfl
  simp [countRemovals, Layout.storeSnapshot, NewSnapshot.row, hnew]

theorem countRemovals_congr {l' : Layout} (hsnapshots : l'.snapshots = l.snapshots)
    (hremovals : l'.removals = l.removals) : l'.countRemovals = l.countRemovals := by
  rw [countRemovals, countRemovals, hsnapshots, hremovals]

theorem WellFormed.countRemovals_tombstone_le (h : l.WellFormed) (i : ℕ) (e : Entry) :
    (l.tombstone i e).countRemovals ≤ l.countRemovals + 1 := by
  have hlen : ∀ s : Snapshot, ((l.tombstone i e).removals s.id).length =
      (l.removals s.id).length + if s.id = e.snapshot then 1 else 0 := by
    intro s
    simp only [Layout.tombstone]
    split_ifs with hs
    · rw [List.orderedInsert_length]
    · rfl
  have hone : (l.snapshots.map fun s => if s.id = e.snapshot then 1 else 0).sum ≤ 1 := by
    have hsum : ∀ rows : List Snapshot, (rows.map fun s => if s.id = e.snapshot then 1 else 0).sum =
        (rows.map Snapshot.id).count e.snapshot := by
      intro rows
      induction rows with
      | nil => rfl
      | cons s rows ih => simp [ih, List.count_cons, add_comm]
    rw [hsum]
    exact List.nodup_iff_count_le_one.mp h.keyed e.snapshot
  calc (l.tombstone i e).countRemovals
      = (l.snapshots.map fun s => (l.removals s.id).length +
          if s.id = e.snapshot then 1 else 0).sum :=
        congrArg List.sum (List.map_congr_left fun s _ => hlen s)
    _ = l.countRemovals + (l.snapshots.map fun s => if s.id = e.snapshot then 1 else 0).sum :=
        List.sum_map_add
    _ ≤ l.countRemovals + 1 := by omega

/-! ## Waiting starts and keys -/

theorem waiting_iff : l.waiting ↔ ∃ s, Referenced l.segments s ∧
    ∃ row, l.snapshot? s = some row ∧ row.state = .building ∧ row.start.isSome := by
  simp only [waiting, building, List.any_eq_true, List.mem_filter, Option.any_eq_true,
    decide_eq_true_eq, Referenced]
  constructor
  · rintro ⟨g, ⟨hg, row, hrow, hstate⟩, row', hrow', hstart⟩
    rw [hrow] at hrow'
    obtain rfl := Option.some.inj hrow'
    exact ⟨_, ⟨g, hg, rfl⟩, row, hrow, hstate, hstart⟩
  · rintro ⟨s, ⟨g, hg, rfl⟩, row, hrow, hstate, hstart⟩
    exact ⟨g, ⟨hg, row, hrow, hstate⟩, row, hrow, hstart⟩

theorem key_congr {l' : Layout} {e : Entry} (h : l'.snapshot? e.snapshot = l.snapshot? e.snapshot) :
    l'.key e = l.key e := by
  rw [key, key, h]

/-! ## Blocks at a place -/

/-- The entries of a range of a snapshot. -/
def block (snapshot first count : ℕ) : List Entry :=
  (List.range' first count).map (Entry.mk snapshot)

theorem liveEntries_addRow {key : SortKey} {before after : List Entry}
    {snapshot first count removed : ℕ}
    (hentries : (l.addRow snapshot key first count removed).entries =
      before ++ block snapshot first count ++ after)
    (hlive : ∀ o, first ≤ o → o < first + count → o ∉ l.removals snapshot) :
    (l.addRow snapshot key first count removed).liveEntries =
      before.filter (fun e => l.Live e) ++ block snapshot first count ++
        after.filter (fun e => l.Live e) := by
  have hblock : (block snapshot first count).filter (fun e => decide (l.Live e)) =
      block snapshot first count := by
    rw [List.filter_eq_self]
    intro e he
    simp only [block, List.mem_map, List.mem_range'_1] at he
    obtain ⟨o, ho, rfl⟩ := he
    exact decide_eq_true (hlive o ho.1 ho.2)
  have hsame : (fun e => decide ((l.addRow snapshot key first count removed).Live e)) =
      fun e => decide (l.Live e) := rfl
  rw [liveEntries, hentries, hsame, List.filter_append, List.filter_append, hblock]

/-- **A new snapshot's row** at a place shows its block between the live entries there. -/
theorem WellFormed.addSnapshot_place (h : l.WellFormed) {key : SortKey} {before after : List Entry}
    (hp : l.Place key before after) (snapshot count : ℕ)
    (hfresh : ∀ e ∈ l.entries, e.snapshot ≠ snapshot) (hremovals : l.removals snapshot = [])
    (hstored : ∃ s, l.snapshot? snapshot = some s ∧
      (s.state ≠ .building → count ≤ s.keys.length)) (hpositive : 0 < count) :
    WellFormed (l.addRow snapshot key 0 count 0) ∧
      (l.addRow snapshot key 0 count 0).liveEntries =
        before.filter (fun e => l.Live e) ++ block snapshot 0 count ++
          after.filter (fun e => l.Live e) := by
  obtain ⟨hwf, hentries⟩ := h.addRow_place hp snapshot 0 count 0 (fun o _ _ he => hfresh _ he rfl)
    (by simp [hremovals]) (by simpa using hstored) hpositive
  exact ⟨hwf, liveEntries_addRow hentries fun o _ _ => by simp [hremovals]⟩

/-! ## Tombstones -/

theorem pairwise_orderedInsert {rs : List ℕ} (hs : rs.Pairwise (· < ·)) {o : ℕ} (ho : o ∉ rs) :
    (rs.orderedInsert (· ≤ ·) o).Pairwise (· < ·) := by
  have hle : (rs.orderedInsert (· ≤ ·) o).Pairwise (· ≤ ·) :=
    List.Pairwise.orderedInsert o _ (hs.imp le_of_lt)
  have hne : (rs.orderedInsert (· ≤ ·) o).Nodup := by
    rw [(List.perm_orderedInsert (· ≤ ·) o rs).nodup_iff, List.nodup_cons]
    exact ⟨ho, hs.imp ne_of_lt⟩
  exact (List.pairwise_and_iff.mpr ⟨hle, hne⟩).imp fun h => lt_of_le_of_ne h.1 h.2

theorem tombstone_removals (i : ℕ) (e : Entry) (s : ℕ) :
    (l.tombstone i e).removals s =
      if s = e.snapshot then (l.removals s).orderedInsert (· ≤ ·) e.ordinal else l.removals s :=
  rfl

theorem live_tombstone (i : ℕ) (e e' : Entry) :
    (l.tombstone i e).Live e' ↔ l.Live e' ∧ e' ≠ e := by
  simp only [Live, tombstone_removals]
  split_ifs with hs
  · rw [List.mem_orderedInsert, not_or, and_comm]
    refine and_congr_right fun _ => not_congr ?_
    constructor
    · intro ho
      cases e
      cases e'
      simp_all
    · rintro rfl
      rfl
  · refine ⟨fun hlive => ⟨hlive, ?_⟩, fun hlive => hlive.1⟩
    rintro rfl
    exact hs rfl

theorem modify_length (pre post : List Segment) (g : Segment) (f : Segment → Segment) :
    (pre ++ g :: post).modify pre.length f = pre ++ f g :: post := by
  induction pre with
  | nil => rfl
  | cons a pre ih => simpa using ih

theorem entries_modify_removed {gs : List Segment} (i : ℕ) :
    (gs.modify i fun g => { g with removed := g.removed + 1 }).flatMap Segment.entries =
      gs.flatMap Segment.entries := by
  induction gs generalizing i with
  | nil => simp
  | cons g gs ih =>
    cases i with
    | zero => rfl
    | succ i => simp [ih]

theorem entries_tombstone (i : ℕ) (e : Entry) : (l.tombstone i e).entries = l.entries :=
  entries_modify_removed i

theorem WellFormed.liveEntries_tombstone (h : l.WellFormed) (i : ℕ) (e : Entry) :
    (l.tombstone i e).liveEntries = l.liveEntries.erase e := by
  rw [h.nodup_liveEntries.erase_eq_filter, liveEntries, entries_tombstone, liveEntries,
    List.filter_filter]
  refine List.filter_congr fun e' _ => ?_
  by_cases he : e' = e <;> simp [live_tombstone, he]

theorem WellFormed.tombstone (h : l.WellFormed) {i : ℕ} {g : Segment} {e : Entry}
    (hget : l.segments[i]? = some g) (hsnap : g.snapshot = e.snapshot) (ho : g.Holds e.ordinal)
    (hlive : l.Live e) : (l.tombstone i e).WellFormed := by
  obtain ⟨pre, post, hseg, rfl⟩ := exists_eq_append hget
  have hmodify : (l.tombstone pre.length e).segments =
      pre ++ { g with removed := g.removed + 1 } :: post := by
    simp only [Layout.tombstone]
    rw [hseg, modify_length]
  have hnodup := h.nodup
  rw [entries, hseg, List.flatMap_append, List.flatMap_cons, List.nodup_append',
    List.nodup_append'] at hnodup
  have he : e ∈ g.entries := Segment.mem_entries.mpr ⟨hsnap, ho⟩
  -- no other segment holds the entry
  have hother : ∀ a ∈ pre ++ post, ¬ (a.snapshot = e.snapshot ∧ a.Holds e.ordinal) := by
    intro a ha hheld
    have hea : e ∈ a.entries := Segment.mem_entries.mpr hheld
    rcases List.mem_append.mp ha with ha | ha
    · exact hnodup.2.2 (List.mem_flatMap.mpr ⟨a, ha, hea⟩) (List.mem_append_left _ he)
    · exact hnodup.2.1.2.2 he (List.mem_flatMap.mpr ⟨a, ha, hea⟩)
  have hcount : ∀ a : Segment, a ∈ pre ++ post → a.removed =
      ((l.tombstone pre.length e).removals a.snapshot).countP
        fun r => a.first ≤ r ∧ r < a.first + a.count := by
    intro a ha
    have hrem := h.removed a (by rw [hseg]; simp at ha ⊢; tauto)
    rw [hrem, tombstone_removals]
    split_ifs with hs
    · rw [(List.perm_orderedInsert (· ≤ ·) e.ordinal _).countP_eq, List.countP_cons_of_neg]
      simpa [Segment.Holds, hs] using hother a ha
    · rfl
  refine ⟨?_, ?_, ?_, ?_, ?_, ?_, ?_, h.fresh, h.keyed, ?_⟩
  · have := h.sorted
    rw [hseg] at this
    rw [hmodify]
    simpa using this
  · rw [hmodify]
    intro a ha
    simp only [List.mem_append, List.mem_cons] at ha
    rcases ha with ha | rfl | ha
    · exact h.valid a (by simp [hseg, ha])
    · exact h.valid g (by simp [hseg])
    · exact h.valid a (by simp [hseg, ha])
  · rw [entries_tombstone]
    exact h.nodup
  · intro s
    rw [tombstone_removals]
    split_ifs with hs
    · subst hs
      exact pairwise_orderedInsert (h.tombstones _) hlive
    · exact h.tombstones s
  · rw [hmodify]
    intro a ha
    simp only [List.mem_append, List.mem_cons] at ha
    rcases ha with ha | rfl | ha
    · exact hcount a (List.mem_append_left _ ha)
    · have hrem := h.removed g (by simp [hseg])
      rw [tombstone_removals, if_pos hsnap,
        (List.perm_orderedInsert (· ≤ ·) e.ordinal _).countP_eq, List.countP_cons_of_pos]
      · simp [hrem]
      · simpa [Segment.Holds] using ho
    · exact hcount a (List.mem_append_right _ ha)
  · intro s r hr
    rw [entries_tombstone]
    rw [tombstone_removals] at hr
    split_ifs at hr with hs
    · rcases (List.mem_orderedInsert _).mp hr with rfl | hr
      · subst hs
        exact mem_entries.mpr ⟨g, by simp [hseg], hsnap, ho⟩
      · exact h.inside s r hr
    · exact h.inside s r hr
  · rw [hmodify]
    intro a ha
    simp only [List.mem_append, List.mem_cons] at ha
    rcases ha with ha | rfl | ha
    · exact h.stored a (by simp [hseg, ha])
    · exact h.stored g (by simp [hseg])
    · exact h.stored a (by simp [hseg, ha])
  · rw [hmodify]
    intro a ha
    simp only [List.mem_append, List.mem_cons] at ha
    rcases ha with ha | rfl | ha
    · exact h.positive a (by simp [hseg, ha])
    · exact h.positive g (by simp [hseg])
    · exact h.positive a (by simp [hseg, ha])

/-! ## Adding -/

/-- The entry to add after is a live one. -/
def Anchored (l : Layout) (current : Option Entry) : Placement → Prop
  | .last => True
  | .next => ∃ c ∈ l.liveEntries, current = some c
  | .after e => e ∈ l.liveEntries

/-- The named place falls between two parts of the order. -/
def AtPlace (current : Option Entry) (before after : List Entry) : Placement → Prop
  | .last => after = []
  | .next => ∃ c, current = some c ∧ before.getLast? = some c
  | .after e => before.getLast? = some e

theorem getLast?_filter_live {before : List Entry} {e : Entry} (he : l.Live e)
    (hlast : before.getLast? = some e) :
    (before.filter fun e => l.Live e).getLast? = some e := by
  obtain ⟨ys, rfl⟩ := List.getLast?_eq_some_iff.mp hlast
  rw [List.filter_append, List.filter_cons_of_pos (by simpa using he)]
  simp

theorem AtPlace.filter {current : Option Entry} {before after : List Entry} {placement : Placement}
    (h : AtPlace current before after placement) (hanchored : l.Anchored current placement) :
    AtPlace current (before.filter fun e => l.Live e) (after.filter fun e => l.Live e)
      placement := by
  cases placement with
  | last =>
    obtain rfl : after = [] := h
    rfl
  | next =>
    obtain ⟨c, rfl, hlast⟩ := h
    obtain ⟨c', hc', heq⟩ := hanchored
    obtain rfl := Option.some.inj heq
    exact ⟨_, rfl, getLast?_filter_live (mem_liveEntries.mp hc').2 hlast⟩
  | after e => exact getLast?_filter_live (mem_liveEntries.mp hanchored).2 h

theorem WellFormed.placeAfter_spec (h : l.WellFormed) {e : Entry} (he : e ∈ l.liveEntries) :
    ∃ split key before after, l.placeAfter (some e) = .ok (split, key) ∧ split.WellFormed ∧
      Resegmented l split ∧ split.Place key (before ++ [e]) after := by
  obtain ⟨i, g, hget, hsnap, ho, hindex⟩ := h.sourceIndexOf_eq he
  obtain ⟨pre, post, hseg, rfl⟩ := exists_eq_append hget
  obtain ⟨split, key, hok, hwf, hsame, hplace⟩ := h.splitAfter_place hseg ho
  rw [hsnap] at hplace
  rw [placeAfter, Option.bind_some, hindex]
  exact ⟨split, key, _, _, hok, hwf, hsame, hplace⟩

theorem placeAfter_eq_error {anchor : Option Entry} (h : ∀ e ∈ anchor, e ∉ l.liveEntries) :
    l.placeAfter anchor = .error (.field "placement.after") := by
  cases anchor with
  | none => rfl
  | some e => rw [placeAfter, Option.bind_some, sourceIndexOf_eq_none (h e rfl)]; rfl

theorem WellFormed.placeFor_spec (h : l.WellFormed) (current : Option Entry)
    (placement : Placement) (hanchored : l.Anchored current placement) :
    ∃ split key before after, l.placeFor current placement = .ok (split, key) ∧
      split.WellFormed ∧ Resegmented l split ∧ AtPlace current before after placement ∧
      split.Place key before after := by
  have hafter : ∀ e ∈ l.liveEntries, ∃ split key before after,
      l.placeAfter (some e) = .ok (split, key) ∧ split.WellFormed ∧ Resegmented l split ∧
      before.getLast? = some e ∧ split.Place key before after := by
    intro e he
    obtain ⟨split, key, before, after, hok, hwf, hsame, hplace⟩ := h.placeAfter_spec he
    exact ⟨split, key, before ++ [e], after, hok, hwf, hsame, by simp, hplace⟩
  cases placement with
  | last =>
    obtain ⟨key, hkey, hplace⟩ := h.place_last
    refine ⟨l, key, l.entries, [], ?_, h, Resegmented.refl l, rfl, hplace⟩
    rw [placeFor, hkey]
    rfl
  | next =>
    obtain ⟨c, hc, rfl⟩ := hanchored
    obtain ⟨split, key, before, after, hok, hwf, hsame, hlast, hplace⟩ := hafter c hc
    exact ⟨split, key, before, after, hok, hwf, hsame, ⟨c, rfl, hlast⟩, hplace⟩
  | after e => exact hafter e hanchored

theorem referenced_addRow {snapshot first count removed : ℕ} {key : SortKey} (s : ℕ) :
    Referenced (l.addRow snapshot key first count removed).segments s ↔
      Referenced l.segments s ∨ snapshot = s := by
  have hmem : ∀ (g : Segment) (gs : List Segment), ∀ a, a ∈ insertSegment g gs ↔ a = g ∨ a ∈ gs := by
    intro g gs
    induction gs with
    | nil => simp [insertSegment]
    | cons b gs ih =>
      intro a
      rw [insertSegment]
      split_ifs
      · simp
      · rw [List.mem_cons, ih, List.mem_cons]
        tauto
  simp only [Referenced, addRow, hmem]
  constructor
  · rintro ⟨a, rfl | ha, rfl⟩
    · exact Or.inr rfl
    · exact Or.inl ⟨a, ha, rfl⟩
  · rintro (⟨a, ha, rfl⟩ | rfl)
    · exact ⟨a, Or.inr ha, rfl⟩
    · exact ⟨_, Or.inl rfl, rfl⟩

theorem WellFormed.referenced_lt (h : l.WellFormed) {s : ℕ} (hs : Referenced l.segments s) :
    s < l.nextId := by
  obtain ⟨g, hg, rfl⟩ := hs
  exact h.snapshot_lt hg

theorem WellFormed.waiting_congr (h : l.WellFormed) {l' : Layout} (new : ℕ)
    (hrows : ∀ s < l.nextId, l'.snapshot? s = l.snapshot? s)
    (hsegments : ∀ s, Referenced l'.segments s ↔ Referenced l.segments s ∨ new = s)
    (hnew : ∀ row, l'.snapshot? new = some row → row.start = none) : l'.waiting = l.waiting := by
  rw [Bool.eq_iff_iff, waiting_iff, waiting_iff]
  constructor
  · rintro ⟨s, hs, row, hrow, hstate, hstart⟩
    rcases (hsegments s).mp hs with hs | rfl
    · exact ⟨s, hs, row, by rw [← hrows s (h.referenced_lt hs), hrow], hstate, hstart⟩
    · rw [hnew row hrow] at hstart
      simp at hstart
  · rintro ⟨s, hs, row, hrow, hstate, hstart⟩
    exact ⟨s, (hsegments s).mpr (Or.inl hs), row, by rw [hrows s (h.referenced_lt hs), hrow],
      hstate, hstart⟩

theorem key_of_stored {e : Entry} {row : Snapshot} {item : ℕ}
    (hrow : l.snapshot? e.snapshot = some row) (hitem : row.keys[e.ordinal]? = some item) :
    l.key e = .key item := by
  obtain ⟨hlt, -⟩ := List.getElem?_eq_some_iff.mp hitem
  have hbuilt : ¬ (row.state = .building ∧ row.built ≤ e.ordinal) := by
    rw [Snapshot.built]
    omega
  simp only [key, hrow]
  rw [if_neg hbuilt, hitem]

/-- Rows that keep their order and their current entry's position, with a new snapshot's block. -/
structure Added (l added : Layout) (before after : List Entry) (new : ℕ) (keys : List ℕ) :
    Prop where
  wellFormed : added.WellFormed
  row : ∃ current, added.q = { l.q with current }
  spans : added.spans = l.spans
  entries : added.liveEntries = before ++ block new 0 keys.length ++ after
  old_key : ∀ e ∈ before ++ after, added.key e = l.key e
  new_key : ∀ i (hi : i < keys.length), added.key ⟨new, i⟩ = .key keys[i]

theorem WellFormed.currentEntry_keepCurrent (h : l.WellFormed) (hs : l.q.shuffle = false)
    (hw : l.waiting = false) {e : Entry} (he : e ∈ l.liveEntries) :
    (l.keepCurrent (some e)).currentEntry = some e := by
  have hget := h.keepCurrent_getElem? hs he
  have hwf := h.keepCurrent (some e)
  obtain ⟨current, hcurrent⟩ := l.keepCurrent_eq (some e)
  rw [hcurrent] at hget hwf ⊢
  rw [currentEntry, setCurrent_waiting, hw, if_neg (by simp), hwf.entryAt_of_not_shuffle hs]
  exact hget

/-- **An unshuffled add** inserts its block at the named place and keeps the current entry. -/
theorem WellFormed.addUnshuffled_spec (h : l.WellFormed) (hs : l.q.shuffle = false)
    {placement : Placement} {snap : ScannedSnapshot} (hkeys : snap.keys ≠ [])
    (hanchored : l.Anchored l.currentEntry placement) :
    ∃ added before after, l.addUnshuffled placement snap = .ok added ∧
      l.liveEntries = before ++ after ∧ AtPlace l.currentEntry before after placement ∧
      Added l added before after l.nextId snap.keys ∧ added.countRemovals = l.countRemovals ∧
      ∀ c, l.currentEntry = some c → added.currentEntry = some c := by
  have hstore := h.storeSnapshot { toScannedSnapshot := snap }
  have hrow := h.snapshot?_storeSnapshot_self { toScannedSnapshot := snap }
  obtain ⟨split, key, before, after, hok, hwf, hsame, hat, hplace⟩ :=
    hstore.placeFor_spec l.currentEntry placement hanchored
  have hentries : l.entries = before ++ after := by
    rw [← hplace.entries_eq, hsame.entries]
    rfl
  have hlivesplit : ∀ e, split.Live e ↔ l.Live e := hsame.live
  obtain ⟨hadded, hlive⟩ := hwf.addSnapshot_place hplace l.nextId snap.keys.length
    (fun e he heq => by
      rw [hplace.entries_eq, ← hentries] at he
      exact absurd (h.entry_lt he) (by omega))
    (by rw [hsame.removals]; exact h.removals_fresh le_rfl)
    ⟨_, (hsame.snapshot? _).trans hrow, fun _ => le_rfl⟩ (List.length_pos_iff.mpr hkeys)
  simp only [hlivesplit] at hlive
  have hfilter : l.liveEntries = before.filter (fun e => l.Live e) ++
      after.filter (fun e => l.Live e) := by
    rw [← List.filter_append, ← hentries]
    rfl
  set row := split.addRow l.nextId key 0 snap.keys.length 0 with hrowdef
  have hrows : ∀ s < l.nextId, row.snapshot? s = l.snapshot? s := fun s hlt =>
    (hsame.snapshot? s).trans (snapshot?_storeSnapshot_of_lt _ hlt)
  have hnewrow : row.snapshot? l.nextId = _ := (hsame.snapshot? _).trans hrow
  obtain ⟨current, hcurrent⟩ := row.keepCurrent_eq l.currentEntry
  have hq : row.q = l.q := hsame.q
  refine ⟨row.keepCurrent l.currentEntry, _, _, ?_, hfilter, hat.filter hanchored,
    ⟨hadded.keepCurrent _, ⟨current, by rw [hcurrent, setCurrent_q, hq]⟩, ?_, ?_, ?_, ?_⟩, ?_, ?_⟩
  · rw [addUnshuffled, hok]
    rfl
  · rw [hcurrent]
    exact hsame.spans
  · rw [← hlive, hcurrent]
    rfl
  · intro e he
    have hmem : e ∈ l.entries := by
      rw [← hfilter] at he
      exact (mem_liveEntries.mp he).1
    refine key_congr ?_
    rw [hcurrent]
    exact hrows _ (h.entry_lt hmem)
  · intro i hi
    have hread : (row.keepCurrent l.currentEntry).snapshot? l.nextId =
        some (({ toScannedSnapshot := snap } : NewSnapshot).row l.nextId) := by
      rw [hcurrent]
      exact hnewrow
    exact key_of_stored hread (List.getElem?_eq_getElem hi)
  · rw [hcurrent, ← h.countRemovals_storeSnapshot { toScannedSnapshot := snap }]
    exact countRemovals_congr hsame.snapshots hsame.removals
  · intro c hc
    obtain ⟨hget, hw⟩ := h.currentEntry_mem hs hc
    rw [hc]
    refine hadded.currentEntry_keepCurrent (by rw [hq]; exact hs) ?_ ?_
    · rw [← Bool.eq_false_iff.mpr hw]
      refine h.waiting_congr l.nextId hrows (fun s => ?_) fun r hr => ?_
      · rw [hrowdef, referenced_addRow, hsame.referenced]
        rfl
      · rw [hnewrow] at hr
        rw [← Option.some.inj hr]
        rfl
    · have hmem := List.mem_of_getElem? hget
      rw [hfilter] at hmem
      rw [hlive]
      rcases List.mem_append.mp hmem with hmem | hmem
      · exact List.mem_append_left _ (List.mem_append_left _ hmem)
      · exact List.mem_append_right _ hmem

/-! ## Removing -/

theorem referenced_tombstone (i : ℕ) (e : Entry) (s : ℕ) :
    Referenced (l.tombstone i e).segments s ↔ Referenced l.segments s := by
  have hmem : ∀ gs : List Segment, Referenced (gs.modify i fun g =>
      { g with removed := g.removed + 1 }) s ↔ Referenced gs s := by
    intro gs
    induction gs generalizing i with
    | nil => simp
    | cons g gs ih =>
      cases i with
      | zero => simp [Referenced]
      | succ i =>
        have := ih i
        simp only [Referenced, List.modify_succ_cons, List.mem_cons, exists_eq_or_imp] at this ⊢
        rw [this]
  exact hmem l.segments

theorem waiting_tombstone (i : ℕ) (e : Entry) : (l.tombstone i e).waiting = l.waiting := by
  rw [Bool.eq_iff_iff, waiting_iff, waiting_iff]
  exact exists_congr fun s => and_congr (referenced_tombstone i e s) Iff.rfl

theorem WellFormed.currentEntry_eq_getElem? (h : l.WellFormed) (hs : l.q.shuffle = false)
    (hw : l.waiting = false) : l.currentEntry = l.liveEntries[l.q.current]? := by
  rw [currentEntry, hw, if_neg (by simp), h.entryAt_of_not_shuffle hs]

theorem WellFormed.currentEntry_setCurrent (h : l.WellFormed) (hs : l.q.shuffle = false)
    (hw : l.waiting = false) (current : ℕ) :
    (l.setCurrent current).currentEntry = l.liveEntries[current]? :=
  (h.setCurrent current).currentEntry_eq_getElem? hs hw

/-- The rows of a removal: the entry is gone and nothing else. -/
structure Removed (l removed : Layout) (e : Entry) : Prop where
  wellFormed : removed.WellFormed
  row : ∃ current, removed.q = { l.q with current }
  snapshots : removed.snapshots = l.snapshots
  spans : removed.spans = l.spans
  entries : removed.liveEntries = l.liveEntries.erase e
  counted : removed.countRemovals ≤ l.countRemovals + 1

/-- **An unshuffled removal** deletes its entry. Another current entry stays current; after the
current one the entry that followed it becomes current, or the last when none follows. -/
theorem WellFormed.removeUnshuffled_spec (h : l.WellFormed) (hs : l.q.shuffle = false) {e : Entry}
    {src : ℤ} {i : ℕ} (hindex : l.sourceIndexOf e = some (src, i)) :
    Removed l (l.removeUnshuffled src i e) e ∧
      (∀ c, l.currentEntry = some c → c ≠ e →
        (l.removeUnshuffled src i e).currentEntry = some c) ∧
      (l.currentEntry = some e → ∀ before after, l.liveEntries = before ++ e :: after →
        (l.removeUnshuffled src i e).currentEntry = after.head?.or before.getLast?) := by
  have he := mem_liveEntries_of_sourceIndexOf hindex
  obtain ⟨j, g, hget, hsnap, ho, hindex'⟩ := h.sourceIndexOf_eq he
  rw [hindex] at hindex'
  obtain ⟨rfl, rfl⟩ : src = l.sourceEntries.idxOf e ∧ i = j := by simpa using hindex'
  rw [sourceEntries_of_not_shuffle hs] at hindex ⊢
  have hwf := h.tombstone hget hsnap ho (mem_liveEntries.mp he).2
  have herase := h.liveEntries_tombstone i e
  have hs' : (l.tombstone i e).q.shuffle = false := hs
  have hlen : (l.tombstone i e).total = (l.liveEntries.length - 1 : ℕ) := by
    rw [hwf.total_eq hs', herase, List.length_erase_of_mem he]
  by_cases hc : l.currentEntry = some e
  · have hw : l.waiting = false := by
      obtain ⟨-, hw⟩ := h.currentEntry_mem hs hc
      exact Bool.eq_false_iff.mpr hw
    rw [removeUnshuffled, if_pos hc]
    refine ⟨⟨hwf.setCurrent _, ⟨_, rfl⟩, rfl, rfl, herase, h.countRemovals_tombstone_le i e⟩,
      fun c hc' hne => ?_, fun _ => ?_⟩
    · rw [hc] at hc'
      exact absurd (Option.some.inj hc').symm hne
    · intro before after hsplit
      have hnot : e ∉ before := by
        have hnodup := h.nodup_liveEntries
        rw [hsplit, List.nodup_append'] at hnodup
        exact fun hmem => hnodup.2.2 hmem (List.mem_cons_self ..)
      have hidx : l.liveEntries.idxOf e = before.length := by
        rw [hsplit, List.idxOf_append_of_notMem hnot, List.idxOf_cons_self, Nat.add_zero]
      have hrest : l.liveEntries.erase e = before ++ after := by
        rw [hsplit, List.erase_append_right _ hnot, List.erase_cons_head]
      have hcount : l.liveEntries.length = before.length + after.length + 1 := by
        rw [hsplit]
        simp
        omega
      rw [hwf.currentEntry_setCurrent hs' ((waiting_tombstone i e).trans hw), herase, hrest]
      simp only [Int.toNat_natCast, hlen, hidx, hcount]
      cases after with
      | nil =>
        rw [show min before.length (((before.length + ([] : List Entry).length + 1 - 1 : ℕ) : ℤ)
          - 1).toNat = before.length - 1 by simp]
        simp [List.getLast?_eq_getElem?]
      | cons a after =>
        rw [show min before.length (((before.length + (a :: after).length + 1 - 1 : ℕ) : ℤ)
          - 1).toNat = before.length by simp; omega]
        simp
  · rw [removeUnshuffled, if_neg hc]
    obtain ⟨current, hcurrent⟩ := (l.tombstone i e).keepCurrent_eq l.currentEntry
    refine ⟨⟨hwf.keepCurrent _, ⟨current, by rw [hcurrent]; rfl⟩, ?_, ?_, ?_, ?_⟩, ?_, ?_⟩
    · rw [hcurrent]
      rfl
    · rw [hcurrent]
      rfl
    · rw [← herase, hcurrent]
      rfl
    · rw [hcurrent]
      exact h.countRemovals_tombstone_le i e
    · intro c hc' hne
      obtain ⟨hgetc, hw⟩ := h.currentEntry_mem hs hc'
      rw [hc']
      refine hwf.currentEntry_keepCurrent hs' ?_ ?_
      · rw [waiting_tombstone]
        exact Bool.eq_false_iff.mpr hw
      · rw [herase]
        exact (List.mem_erase_of_ne hne).mpr (List.mem_of_getElem? hgetc)
    · exact fun h' => absurd h' hc

/-! ## Moving -/

/-- The place right after the target, or right before it. -/
def Beside (before after : List Entry) (target : Entry) : Bool → Prop
  | true => before.getLast? = some target
  | false => after.head? = some target

theorem Beside.filter {before after : List Entry} {target : Entry} {side : Bool}
    (h : Beside before after target side) (hlive : l.Live target) :
    Beside (before.filter fun e => l.Live e) (after.filter fun e => l.Live e) target side := by
  cases side with
  | true => exact getLast?_filter_live hlive h
  | false =>
    obtain ⟨ys, rfl⟩ := List.head?_eq_some_iff.mp h
    rw [Beside, List.filter_cons_of_pos (by simpa using hlive)]
    rfl

theorem head?_entriesFrom {post : List Segment} {g : Segment} {o : ℕ} (ho : g.Holds o) :
    (entriesFrom g o post).head? = some ⟨g.snapshot, o⟩ := by
  simp only [Segment.Holds] at ho
  rw [entriesFrom, show g.first + g.count - o = (g.first + g.count - (o + 1)) + 1 by omega,
    List.range'_succ]
  rfl

theorem WellFormed.placeBeside_spec (h : l.WellFormed) {target : Entry} {i : ℕ} {g : Segment}
    (hget : l.segments[i]? = some g) (hsnap : g.snapshot = target.snapshot)
    (ho : g.Holds target.ordinal) (side : Bool) :
    ∃ split key before after, l.placeBeside i target side = .ok (split, key) ∧
      split.WellFormed ∧ Resegmented l split ∧ Beside before after target side ∧
      split.Place key before after := by
  obtain ⟨pre, post, hseg, rfl⟩ := exists_eq_append hget
  cases side with
  | true =>
    obtain ⟨split, key, hok, hwf, hsame, hplace⟩ := h.splitAfter_place hseg ho
    refine ⟨split, key, _, _, ?_, hwf, hsame, ?_, hplace⟩
    · rw [placeBeside, if_pos rfl, hok]
    · rw [hsnap]
      simp [Beside]
  | false =>
    rcases lt_or_ge g.first target.ordinal with hlt | hge
    · have ho' : g.Holds (target.ordinal - 1) := by
        simp only [Segment.Holds] at ho ⊢
        omega
      obtain ⟨split, key, hok, hwf, hsame, hplace⟩ := h.splitAfter_place hseg ho'
      refine ⟨split, key, _, _, ?_, hwf, hsame, ?_, hplace⟩
      · simp only [placeBeside, hget, Bool.false_eq_true, if_false]
        rw [if_pos hlt, hok]
      · rw [Nat.sub_add_cancel (by omega), Beside, head?_entriesFrom ho, hsnap]
    · obtain ⟨key, hkey, hplace⟩ := h.place_before hseg
      refine ⟨l, key, _, _, ?_, h, Resegmented.refl l, ?_, hplace⟩
      · simp only [placeBeside, hget, Bool.false_eq_true, if_false]
        rw [if_neg (by omega), hkey]
        rfl
      · have hfirst : target.ordinal = g.first := by
          simp only [Segment.Holds] at ho
          omega
        have hhead : (entriesFrom g g.first post).head? = some ⟨g.snapshot, g.first⟩ :=
          head?_entriesFrom (hfirst ▸ ho)
        rw [entriesFrom, Nat.add_sub_cancel_left] at hhead
        rw [Beside, List.flatMap_cons, Segment.entries, hhead, hsnap, ← hfirst]

/-- **An unshuffled move** deletes its entry and inserts one with a new id and the same key beside
the target. The layout it leaves has the current entry, or its new identity, at the current
position. -/
theorem WellFormed.moveUnshuffled_spec (h : l.WellFormed) (hs : l.q.shuffle = false)
    {e target : Entry} {i : ℕ} {src : ℤ} (hindex : l.sourceIndexOf e = some (src, i))
    (htarget : target ∈ l.liveEntries) (hne : target ≠ e) {item : ℕ}
    (hkey : l.key e = .key item) (side : Bool) :
    ∃ moved before after new, l.moveUnshuffled i e target side = .ok moved ∧
      l.liveEntries.erase e = before ++ after ∧ Beside before after target side ∧
      l.nextId ≤ new ∧ Added l moved before after new [item] ∧
      moved.countRemovals ≤ l.countRemovals + 1 ∧
      ∀ c, l.currentEntry = some c →
        moved.currentEntry = some (if c = e then ⟨new, 0⟩ else c) := by
  have he := mem_liveEntries_of_sourceIndexOf hindex
  obtain ⟨j, g, hget, hsnap, ho, hindex'⟩ := h.sourceIndexOf_eq he
  rw [hindex] at hindex'
  obtain ⟨-, rfl⟩ : src = l.sourceEntries.idxOf e ∧ i = j := by simpa using hindex'
  have hremoved := h.tombstone hget hsnap ho (mem_liveEntries.mp he).2
  have herase := h.liveEntries_tombstone i e
  have htarget' : target ∈ (l.tombstone i e).liveEntries := by
    rw [herase]
    exact (List.mem_erase_of_ne hne).mpr htarget
  obtain ⟨k, g', hget', hsnap', ho', hindex''⟩ := hremoved.sourceIndexOf_eq htarget'
  obtain ⟨split, key, before, after, hok, hwf, hsame, hbeside, hplace⟩ :=
    hremoved.placeBeside_spec hget' hsnap' ho' side
  have hnew : l.nextId ≤ split.nextId := hsame.nextId
  let snap : NewSnapshot := { toScannedSnapshot := { kind := .items, keys := [item] } }
  have hstore := hwf.storeSnapshot snap
  have hrow := hwf.snapshot?_storeSnapshot_self snap
  obtain ⟨hadded, hlive⟩ := hstore.addSnapshot_place (hplace.congr rfl) split.nextId 1
    (fun a ha heq => absurd (hwf.entry_lt ha) (by omega)) (hwf.removals_fresh le_rfl)
    ⟨_, hrow, fun _ => le_rfl⟩ one_pos
  have hfilter : l.liveEntries.erase e = before.filter (fun a => (l.tombstone i e).Live a) ++
      after.filter (fun a => (l.tombstone i e).Live a) := by
    rw [← herase, ← List.filter_append, ← hplace.entries_eq, hsame.entries]
    rfl
  have hlivesplit : ∀ a, (split.storeSnapshot snap).Live a ↔ (l.tombstone i e).Live a := hsame.live
  simp only [hlivesplit] at hlive
  set row := (split.storeSnapshot snap).addRow split.nextId key 0 1 0 with hrowdef
  have hrows : ∀ s < l.nextId, row.snapshot? s = l.snapshot? s := fun s hlt =>
    (snapshot?_storeSnapshot_of_lt snap (hlt.trans_le hnew)).trans (hsame.snapshot? s)
  have hq : row.q = l.q := hsame.q
  set current := if l.currentEntry = some e then some ⟨split.nextId, 0⟩ else l.currentEntry
  obtain ⟨n, hn⟩ := row.keepCurrent_eq current
  refine ⟨row.keepCurrent current, _, _, split.nextId, ?_, hfilter, hbeside.filter ?_, hnew,
    ⟨hadded.keepCurrent _, ⟨n, by rw [hn, setCurrent_q, hq]⟩, ?_, ?_, ?_, ?_⟩, ?_, ?_⟩
  · simp only [moveUnshuffled, hkey, hindex'', hok, bind, Except.bind, pure, Except.pure]
    rfl
  · exact (live_tombstone i e target).mpr ⟨(mem_liveEntries.mp htarget).2, hne⟩
  · rw [hn]
    exact hsame.spans
  · rw [hn]
    exact hlive
  · intro a ha
    rw [← hfilter] at ha
    have hmem : a ∈ l.entries := (mem_liveEntries.mp (List.mem_of_mem_erase ha)).1
    refine key_congr ?_
    rw [hn]
    exact hrows _ (h.entry_lt hmem)
  · intro k hk
    have hread : (row.keepCurrent current).snapshot? split.nextId =
        some (snap.row split.nextId) := by
      rw [hn]
      exact hrow
    exact key_of_stored hread (List.getElem?_eq_getElem hk)
  · calc (row.keepCurrent current).countRemovals
        = (split.storeSnapshot snap).countRemovals := by
          rw [hn]
          rfl
      _ = split.countRemovals := hwf.countRemovals_storeSnapshot snap
      _ = (l.tombstone i e).countRemovals := countRemovals_congr hsame.snapshots hsame.removals
      _ ≤ l.countRemovals + 1 := h.countRemovals_tombstone_le i e
  · intro c hc
    obtain ⟨hgetc, hw⟩ := h.currentEntry_mem hs hc
    have hcurrent : current = some (if c = e then ⟨split.nextId, 0⟩ else c) := by
      by_cases hce : c = e
      · simp [current, hc, hce]
      · simp [current, hc, hce]
    rw [hcurrent]
    refine hadded.currentEntry_keepCurrent (by rw [hq]; exact hs) ?_ ?_
    · rw [← Bool.eq_false_iff.mpr hw]
      refine h.waiting_congr split.nextId hrows (fun s => ?_) fun r hr => ?_
      · rw [hrowdef, referenced_addRow]
        exact or_congr ((hsame.referenced s).trans (referenced_tombstone i e s)) Iff.rfl
      · have heq := hrow.symm.trans hr
        rw [← Option.some.inj heq]
        rfl
    · rw [hlive]
      split_ifs with hce
      · exact List.mem_append_left _ (List.mem_append_right _ (by simp [block]))
      · have hmem : c ∈ l.liveEntries.erase e :=
          (List.mem_erase_of_ne hce).mpr (List.mem_of_getElem? hgetc)
        rw [hfilter] at hmem
        rcases List.mem_append.mp hmem with hmem | hmem
        · exact List.mem_append_left _ (List.mem_append_left _ hmem)
        · exact List.mem_append_right _ hmem

end Layout

end Portico
