import Portico.Queue.Commands
import Portico.Queue.Entries

/-!
# Places between segments

An edit in source order names a place between two entries, splits the segment there if it has to,
and writes a row under a sort key that falls at the place.

## Main results

* `Layout.WellFormed.splitAfter_place`: `splitAfter` keeps the entries and returns the place after
  its entry
* `Layout.WellFormed.addRow_place`: a row written at a place shows its entries there
-/

namespace Portico

namespace Layout

variable {l : Layout}

/-! ## Rows in sort key order -/

theorem insertSegment_append {g : Segment} {pre post : List Segment}
    (hpre : ∀ h ∈ pre, h.sortKey < g.sortKey) (hpost : ∀ h ∈ post, g.sortKey < h.sortKey) :
    insertSegment g (pre ++ post) = pre ++ g :: post := by
  induction pre with
  | nil =>
    cases post with
    | nil => rfl
    | cons h post =>
      rw [List.nil_append, insertSegment, if_pos (hpost h (List.mem_cons_self ..))]
      rfl
  | cons h pre ih =>
    rw [List.forall_mem_cons] at hpre
    rw [List.cons_append, insertSegment, if_neg (lt_asymm hpre.1), ih hpre.2]
    rfl

theorem sortKeyOr_nil {a : SortKey} (ha : ∀ d ∈ a, d < 36) :
    ∃ k, sortKeyOr a [] = .ok k ∧ k.Valid ∧ a < k := by
  obtain ⟨k, hk, hvalid, hlt⟩ := lt_sortKeyBetween_nil ha
  exact ⟨k, by rw [sortKeyOr, hk]; rfl, hvalid, hlt⟩

theorem sortKeyOr_between {a b : SortKey} (ha : ∀ d ∈ a, d < 36) (hb : b.Valid) (hab : a < b) :
    ∃ k, sortKeyOr a b = .ok k ∧ k.Valid ∧ a < k ∧ k < b := by
  obtain ⟨k, hk, hvalid, hlt⟩ := exists_sortKeyBetween ha hb hab
  exact ⟨k, by rw [sortKeyOr, hk]; rfl, hvalid, hlt⟩

theorem WellFormed.of_segments (h : l.WellFormed) {segments : List Segment} {n : ℕ}
    (hn : l.nextId ≤ n) (hsorted : (segments.map Segment.sortKey).Pairwise (· < ·))
    (hvalid : ∀ g ∈ segments, g.sortKey.Valid)
    (hentries : segments.flatMap Segment.entries = l.entries)
    (hremoved : ∀ g ∈ segments, g.removed =
      (l.removals g.snapshot).countP fun r => g.first ≤ r ∧ r < g.first + g.count)
    (hstored : ∀ g ∈ segments, ∃ g' ∈ l.segments, g.snapshot = g'.snapshot ∧
      g.first + g.count ≤ g'.first + g'.count)
    (hpositive : ∀ g ∈ segments, 0 < g.count) :
    WellFormed { l with segments, nextId := n } where
  sorted := hsorted
  valid := hvalid
  nodup := by
    rw [entries, hentries]
    exact h.nodup
  tombstones := h.tombstones
  removed := hremoved
  inside s r hr := by
    rw [entries, hentries]
    exact h.inside s r hr
  stored g hg := by
    obtain ⟨g', hg', hsnap, hle⟩ := hstored g hg
    obtain ⟨s, hs, hkeys⟩ := h.stored g' hg'
    exact ⟨s, by rw [hsnap]; exact hs, fun hstate => hle.trans (hkeys hstate)⟩
  fresh s hs := (h.fresh s hs).trans_le hn
  keyed := h.keyed
  positive := hpositive

/-! ## Places -/

/-- The sort key falls between the entries before and the entries after. -/
def Place (l : Layout) (key : SortKey) (before after : List Entry) : Prop :=
  ∃ pre post, l.segments = pre ++ post ∧ pre.flatMap Segment.entries = before ∧
    post.flatMap Segment.entries = after ∧ key.Valid ∧
    (∀ g ∈ pre, g.sortKey < key) ∧ ∀ g ∈ post, key < g.sortKey

theorem Place.entries_eq {key : SortKey} {before after : List Entry}
    (h : l.Place key before after) : l.entries = before ++ after := by
  obtain ⟨pre, post, hseg, rfl, rfl, -⟩ := h
  rw [entries, hseg, List.flatMap_append]

theorem Place.congr {l' : Layout} {key : SortKey} {before after : List Entry}
    (h : l.Place key before after) (hseg : l'.segments = l.segments) :
    l'.Place key before after := by
  rwa [Place, hseg]

theorem WellFormed.sorted_append (h : l.WellFormed) {pre post : List Segment}
    (hseg : l.segments = pre ++ post) :
    (∀ a ∈ pre, ∀ b ∈ post, a.sortKey < b.sortKey) := by
  have hs := h.sorted
  rw [hseg, List.map_append, List.pairwise_append] at hs
  exact fun a ha b hb => hs.2.2 _ (List.mem_map_of_mem ha) _ (List.mem_map_of_mem hb)

theorem WellFormed.place_last (h : l.WellFormed) :
    ∃ key, sortKeyOr (lastSortKey l.segments) [] = .ok key ∧ l.Place key l.entries [] := by
  rcases List.eq_nil_or_concat l.segments with hseg | ⟨pre, g, hseg⟩
  · obtain ⟨k, hk, hvalid, -⟩ := sortKeyOr_nil (a := []) (by simp)
    refine ⟨k, by rw [lastSortKey, hseg]; exact hk, [], [], by simp [hseg], ?_, rfl, hvalid, ?_⟩
    · simp [entries, hseg]
    · simp
  · have hg : g ∈ l.segments := by simp [hseg]
    obtain ⟨k, hk, hvalid, hlt⟩ := sortKeyOr_nil (h.valid g hg).digits
    have hlast : lastSortKey l.segments = g.sortKey := by simp [lastSortKey, hseg]
    refine ⟨k, by rw [hlast]; exact hk, l.segments, [], by simp, rfl, rfl, hvalid, ?_, by simp⟩
    intro a ha
    rw [hseg, List.concat_eq_append, List.mem_append] at ha
    rcases ha with ha | ha
    · rw [List.concat_eq_append] at hseg
      exact (h.sorted_append hseg a ha g (by simp)).trans hlt
    · obtain rfl := List.mem_singleton.mp ha
      exact hlt

/-- A key between a segment's and the next one's falls after the segment. -/
theorem WellFormed.place_after (h : l.WellFormed) {pre post : List Segment} {g : Segment}
    (hseg : l.segments = pre ++ g :: post) :
    ∃ key, sortKeyOr g.sortKey ((post.head?.map Segment.sortKey).getD []) = .ok key ∧
      key.Valid ∧ g.sortKey < key ∧ (∀ a ∈ pre ++ [g], a.sortKey < key) ∧
      ∀ b ∈ post, key < b.sortKey := by
  have hg : g ∈ l.segments := by simp [hseg]
  have hpre : ∀ a ∈ pre, a.sortKey < g.sortKey := fun a ha =>
    h.sorted_append hseg a ha g (List.mem_cons_self ..)
  have hbefore : ∀ key, g.sortKey < key → ∀ a ∈ pre ++ [g], a.sortKey < key := by
    intro key hlt a ha
    rcases List.mem_append.mp ha with ha | ha
    · exact (hpre a ha).trans hlt
    · obtain rfl := List.mem_singleton.mp ha
      exact hlt
  cases post with
  | nil =>
    obtain ⟨k, hk, hvalid, hlt⟩ := sortKeyOr_nil (h.valid g hg).digits
    exact ⟨k, hk, hvalid, hlt, hbefore k hlt, by simp⟩
  | cons b post =>
    have hb : b ∈ l.segments := by simp [hseg]
    have hseg' : l.segments = (pre ++ [g]) ++ b :: post := by simp [hseg]
    obtain ⟨k, hk, hvalid, hlt, hkb⟩ := sortKeyOr_between (h.valid g hg).digits (h.valid b hb)
      (h.sorted_append hseg' g (by simp) b (List.mem_cons_self ..))
    refine ⟨k, hk, hvalid, hlt, hbefore k hlt, ?_⟩
    rw [List.forall_mem_cons]
    refine ⟨hkb, fun c hc => hkb.trans ?_⟩
    have hseg'' : l.segments = (pre ++ [g, b]) ++ post := by simp [hseg]
    exact h.sorted_append hseg'' b (by simp) c hc

/-! ## Splitting -/

theorem entries_split {g : Segment} {o : ℕ} (ho : g.Holds o) :
    g.entries = (List.range' g.first (o - g.first)).map (Entry.mk g.snapshot) ++
      ⟨g.snapshot, o⟩ ::
        (List.range' (o + 1) (g.first + g.count - (o + 1))).map (Entry.mk g.snapshot) := by
  simp only [Segment.Holds] at ho
  have h := List.range'_append_1 (s := g.first) (m := o - g.first)
    (n := 1 + (g.first + g.count - (o + 1)))
  rw [show o - g.first + (1 + (g.first + g.count - (o + 1))) = g.count by omega,
    show g.first + (o - g.first) = o by omega, Nat.add_comm 1, List.range'_succ] at h
  rw [Segment.entries, ← h, List.map_append, List.map_cons]

variable {pre post : List Segment} {g : Segment} {o : ℕ}

theorem getElem?_of_eq_append (hseg : l.segments = pre ++ g :: post) :
    l.segments[pre.length]? = some g ∧
      (l.segments[pre.length + 1]?.map Segment.sortKey).getD [] =
        (post.head?.map Segment.sortKey).getD [] := by
  rw [hseg]
  refine ⟨by simp, ?_⟩
  rw [List.getElem?_append_right (by omega), show pre.length + 1 - pre.length = 1 by omega]
  cases post <;> rfl

theorem WellFormed.splitAfter_end (h : l.WellFormed) (hseg : l.segments = pre ++ g :: post)
    (ho : g.Holds o) (hend : g.first + g.count ≤ o + 1) :
    ∃ key, l.splitAfter pre.length o = .ok (l, key) ∧ key.Valid ∧
      (∀ a ∈ pre ++ [g], a.sortKey < key) ∧ ∀ b ∈ post, key < b.sortKey := by
  obtain ⟨hget, hnext⟩ := getElem?_of_eq_append hseg
  obtain ⟨k, hk, hvalid, -, hbefore, hafter⟩ := h.place_after hseg
  simp only [Segment.Holds] at ho
  refine ⟨k, ?_, hvalid, hbefore, hafter⟩
  simp only [splitAfter, hget, hnext, hk, bind, Except.bind]
  rw [if_pos (by omega)]
  rfl

/-- Elsewhere the segment becomes a head and a tail, with the key between them. -/
theorem WellFormed.splitAfter_inside (h : l.WellFormed) (hseg : l.segments = pre ++ g :: post)
    (ho : g.Holds o) (hinside : o + 1 < g.first + g.count) :
    ∃ tailKey key, l.splitAfter pre.length o =
        .ok ({ l with
          segments := pre ++ l.splitHead g (o + 1 - g.first) :: l.splitTail g (o + 1 - g.first) tailKey :: post
          nextId := l.nextId + 1 }, key) ∧
      tailKey.Valid ∧ key.Valid ∧ g.sortKey < key ∧ key < tailKey ∧
      ∀ b ∈ post, tailKey < b.sortKey := by
  obtain ⟨hget, hnext⟩ := getElem?_of_eq_append hseg
  obtain ⟨t, ht, htvalid, hgt, hbefore, hafter⟩ := h.place_after hseg
  have hg : g ∈ l.segments := by simp [hseg]
  obtain ⟨k, hk, hvalid, hgk, hkt⟩ := sortKeyOr_between (h.valid g hg).digits htvalid hgt
  simp only [Segment.Holds] at ho
  refine ⟨t, k, ?_, htvalid, hvalid, hgk, hkt, hafter⟩
  have hset : l.segments.set pre.length (l.splitHead g (o + 1 - g.first)) =
      (pre ++ [l.splitHead g (o + 1 - g.first)]) ++ post := by
    rw [hseg]
    simp
  have hhead : ∀ a ∈ pre ++ [l.splitHead g (o + 1 - g.first)], a.sortKey < t := by
    intro a ha
    rcases List.mem_append.mp ha with ha | ha
    · exact hbefore a (List.mem_append_left _ ha)
    · obtain rfl := List.mem_singleton.mp ha
      exact hgt
  simp only [splitAfter, hget, hnext, ht, hk, bind, Except.bind]
  rw [if_neg (by omega), hset,
    insertSegment_append (g := l.splitTail g (o + 1 - g.first) t) hhead hafter, List.append_assoc]
  rfl

theorem exists_eq_append {i : ℕ} (hget : l.segments[i]? = some g) :
    ∃ pre post, l.segments = pre ++ g :: post ∧ pre.length = i := by
  obtain ⟨hi, rfl⟩ := List.getElem?_eq_some_iff.mp hget
  refine ⟨l.segments.take i, l.segments.drop (i + 1), ?_, by simp [hi.le]⟩
  rw [List.getElem_cons_drop, List.take_append_drop]

theorem pairwise_sortKey_iff {pre post : List Segment} :
    ((pre ++ post).map Segment.sortKey).Pairwise (· < ·) ↔
      (pre.map Segment.sortKey).Pairwise (· < ·) ∧ (post.map Segment.sortKey).Pairwise (· < ·) ∧
        ∀ a ∈ pre, ∀ b ∈ post, a.sortKey < b.sortKey := by
  rw [List.map_append, List.pairwise_append]
  simp only [List.forall_mem_map]

theorem splitHead_entries (ho : g.first ≤ o) :
    (l.splitHead g (o + 1 - g.first)).entries =
      (List.range' g.first (o - g.first)).map (Entry.mk g.snapshot) ++ [⟨g.snapshot, o⟩] := by
  have hsplit := List.range'_append_1 (s := g.first) (m := o - g.first) (n := 1)
  rw [show o - g.first + 1 = o + 1 - g.first by omega, show g.first + (o - g.first) = o by omega]
    at hsplit
  rw [Segment.entries]
  simp only [splitHead]
  rw [← hsplit, List.map_append]
  rfl

theorem splitTail_entries (hcut : o + 1 ≤ g.first + g.count) (ho : g.first ≤ o) (key : SortKey) :
    (l.splitTail g (o + 1 - g.first) key).entries =
      (List.range' (o + 1) (g.first + g.count - (o + 1))).map (Entry.mk g.snapshot) := by
  rw [Segment.entries]
  simp only [splitTail]
  rw [show g.first + (o + 1 - g.first) = o + 1 by omega,
    show g.count - (o + 1 - g.first) = g.first + g.count - (o + 1) by omega]

theorem WellFormed.split (h : l.WellFormed) (hseg : l.segments = pre ++ g :: post)
    (ho : g.Holds o) (hinside : o + 1 < g.first + g.count) {tailKey : SortKey}
    (htail : tailKey.Valid) (hgt : g.sortKey < tailKey) (hpost : ∀ b ∈ post, tailKey < b.sortKey) :
    WellFormed { l with
      segments := pre ++ l.splitHead g (o + 1 - g.first) ::
        l.splitTail g (o + 1 - g.first) tailKey :: post
      nextId := l.nextId + 1 } := by
  have hg : g ∈ l.segments := by simp [hseg]
  have hsorted := h.sorted
  have hremoved := h.removed
  rw [hseg, pairwise_sortKey_iff, List.map_cons, List.pairwise_cons] at hsorted
  obtain ⟨hpre, ⟨-, hposts⟩, hcross⟩ := hsorted
  simp only [Segment.Holds] at ho
  refine h.of_segments (Nat.le_succ _) ?_ ?_ ?_ ?_ ?_ ?_
  · rw [pairwise_sortKey_iff, List.map_cons, List.map_cons, List.pairwise_cons,
      List.pairwise_cons]
    refine ⟨hpre, ⟨?_, ?_, hposts⟩, ?_⟩
    · simp only [List.mem_cons, List.mem_map]
      rintro k (rfl | ⟨b, hb, rfl⟩)
      · exact hgt
      · exact hgt.trans (hpost b hb)
    · simp only [List.mem_map]
      rintro k ⟨b, hb, rfl⟩
      exact hpost b hb
    · intro a ha b hb
      have hag : a.sortKey < g.sortKey := hcross a ha g (List.mem_cons_self ..)
      simp only [List.mem_cons] at hb
      rcases hb with rfl | rfl | hb
      · exact hag
      · exact hag.trans hgt
      · exact hcross a ha b (List.mem_cons_of_mem _ hb)
  · intro a ha
    simp only [List.mem_append, List.mem_cons] at ha
    rcases ha with ha | rfl | rfl | ha
    · exact h.valid a (by simp [hseg, ha])
    · exact h.valid g hg
    · exact htail
    · exact h.valid a (by simp [hseg, ha])
  · rw [entries, hseg]
    simp only [List.flatMap_append, List.flatMap_cons]
    rw [splitHead_entries ho.1, splitTail_entries hinside.le ho.1, entries_split ho]
    simp
  · intro a ha
    simp only [List.mem_append, List.mem_cons] at ha
    rcases ha with ha | rfl | rfl | ha
    · exact h.removed a (by simp [hseg, ha])
    · rfl
    · have hend : g.first + (o + 1 - g.first) + (g.count - (o + 1 - g.first)) =
          g.first + g.count := by omega
      simp only [splitTail, hend]
    · exact h.removed a (by simp [hseg, ha])
  · intro a ha
    simp only [List.mem_append, List.mem_cons] at ha
    rcases ha with ha | rfl | rfl | ha
    · exact ⟨a, by simp [hseg, ha], rfl, le_rfl⟩
    · exact ⟨g, hg, rfl, by simp only [splitHead]; omega⟩
    · exact ⟨g, hg, rfl, by simp only [splitTail]; omega⟩
    · exact ⟨a, by simp [hseg, ha], rfl, le_rfl⟩
  · intro a ha
    simp only [List.mem_append, List.mem_cons] at ha
    rcases ha with ha | rfl | rfl | ha
    · exact h.positive a (by simp [hseg, ha])
    · simp only [splitHead]
      omega
    · simp only [splitTail]
      omega
    · exact h.positive a (by simp [hseg, ha])

/-- The same rows, with other segments for the same entries. -/
structure Resegmented (l l' : Layout) : Prop where
  q : l'.q = l.q
  snapshots : l'.snapshots = l.snapshots
  removals : l'.removals = l.removals
  spans : l'.spans = l.spans
  sonic : l'.sonic = l.sonic
  nextId : l.nextId ≤ l'.nextId
  entries : l'.entries = l.entries
  referenced : ∀ s, Referenced l'.segments s ↔ Referenced l.segments s

theorem Resegmented.refl (l : Layout) : Resegmented l l :=
  ⟨rfl, rfl, rfl, rfl, rfl, le_rfl, rfl, fun _ => Iff.rfl⟩

theorem Resegmented.live {l' : Layout} (h : Resegmented l l') (e : Entry) :
    l'.Live e ↔ l.Live e := by
  rw [Live, Live, h.removals]

theorem Resegmented.snapshot? {l' : Layout} (h : Resegmented l l') (s : ℕ) :
    l'.snapshot? s = l.snapshot? s := by
  rw [Layout.snapshot?, Layout.snapshot?, h.snapshots]

/-- The entries before an ordinal of a segment. -/
def entriesBefore (pre : List Segment) (g : Segment) (o : ℕ) : List Entry :=
  pre.flatMap Segment.entries ++ (List.range' g.first (o - g.first)).map (Entry.mk g.snapshot)

/-- The entries from an ordinal of a segment on. -/
def entriesFrom (g : Segment) (o : ℕ) (post : List Segment) : List Entry :=
  (List.range' o (g.first + g.count - o)).map (Entry.mk g.snapshot) ++ post.flatMap Segment.entries

theorem entries_eq_at (hseg : l.segments = pre ++ g :: post) (ho : g.Holds o) :
    l.entries = entriesBefore pre g o ++ ⟨g.snapshot, o⟩ :: entriesFrom g (o + 1) post := by
  rw [entries, hseg, List.flatMap_append, List.flatMap_cons, entries_split ho]
  simp [entriesBefore, entriesFrom]

/-- **Splitting makes a place**: `splitAfter` keeps the entries, and its sort key falls right after
the entry it splits after. -/
theorem WellFormed.splitAfter_place (h : l.WellFormed) (hseg : l.segments = pre ++ g :: post)
    (ho : g.Holds o) :
    ∃ split key, l.splitAfter pre.length o = .ok (split, key) ∧ split.WellFormed ∧
      Resegmented l split ∧
      split.Place key (entriesBefore pre g o ++ [⟨g.snapshot, o⟩]) (entriesFrom g (o + 1) post) := by
  have ho' := ho
  simp only [Segment.Holds] at ho'
  have hentries := entries_eq_at hseg ho
  rw [entriesBefore, entriesFrom] at hentries ⊢
  rcases le_or_gt (g.first + g.count) (o + 1) with hend | hinside
  · obtain ⟨key, hkey, hvalid, hbefore, hafter⟩ := h.splitAfter_end hseg ho hend
    refine ⟨l, key, hkey, h, Resegmented.refl l, ?_⟩
    refine ⟨pre ++ [g], post, by simp [hseg], ?_, ?_, hvalid, hbefore, hafter⟩
    · rw [List.flatMap_append, List.flatMap_singleton, entries_split ho,
        show g.first + g.count - (o + 1) = 0 by omega]
      simp
    · rw [show g.first + g.count - (o + 1) = 0 by omega]
      simp
  · obtain ⟨tailKey, key, hkey, htail, hvalid, hgk, hkt, hpost⟩ :=
      h.splitAfter_inside hseg ho hinside
    have hsplit := h.split hseg ho hinside htail (hgk.trans hkt) hpost
    refine ⟨_, key, hkey, hsplit, ⟨rfl, rfl, rfl, rfl, rfl, Nat.le_succ _, ?_, ?_⟩, ?_⟩
    · rw [entries, hentries]
      simp only [List.flatMap_append, List.flatMap_cons]
      rw [splitHead_entries ho'.1, splitTail_entries hinside.le ho'.1]
      simp
    · intro s
      simp only [Referenced, hseg, List.mem_append, List.mem_cons]
      constructor
      · rintro ⟨a, ha | rfl | rfl | ha, rfl⟩
        · exact ⟨a, Or.inl ha, rfl⟩
        · exact ⟨g, Or.inr (Or.inl rfl), rfl⟩
        · exact ⟨g, Or.inr (Or.inl rfl), rfl⟩
        · exact ⟨a, Or.inr (Or.inr ha), rfl⟩
      · rintro ⟨a, ha | rfl | ha, rfl⟩
        · exact ⟨a, Or.inl ha, rfl⟩
        · exact ⟨_, Or.inr (Or.inl rfl), rfl⟩
        · exact ⟨a, Or.inr (Or.inr (Or.inr ha)), rfl⟩
    · refine ⟨pre ++ [l.splitHead g (o + 1 - g.first)],
        l.splitTail g (o + 1 - g.first) tailKey :: post, by simp, ?_, ?_, hvalid, ?_, ?_⟩
      · rw [List.flatMap_append, List.flatMap_singleton, splitHead_entries ho'.1]
        simp
      · rw [List.flatMap_cons, splitTail_entries hinside.le ho'.1]
      · intro a ha
        rcases List.mem_append.mp ha with ha | ha
        · exact (h.sorted_append hseg a ha g (List.mem_cons_self ..)).trans hgk
        · obtain rfl := List.mem_singleton.mp ha
          exact hgk
      · rw [List.forall_mem_cons]
        exact ⟨hkt, fun b hb => hkt.trans (hpost b hb)⟩

/-- A key between the previous segment's and a segment's falls before the segment. -/
theorem WellFormed.place_before (h : l.WellFormed) (hseg : l.segments = pre ++ g :: post) :
    ∃ key, sortKeyOr (if pre.length = 0 then [] else
        (l.segments[pre.length - 1]?.map Segment.sortKey).getD []) g.sortKey = .ok key ∧
      l.Place key (pre.flatMap Segment.entries) ((g :: post).flatMap Segment.entries) := by
  have hg : g ∈ l.segments := by simp [hseg]
  have hafter : ∀ key, key < g.sortKey → ∀ b ∈ g :: post, key < b.sortKey := by
    intro key hlt b hb
    rcases List.mem_cons.mp hb with rfl | hb
    · exact hlt
    · have hseg' : l.segments = (pre ++ [g]) ++ post := by simp [hseg]
      exact hlt.trans (h.sorted_append hseg' g (by simp) b hb)
  rcases List.eq_nil_or_concat pre with rfl | ⟨pre', a, rfl⟩
  · have hlt : ([] : SortKey) < g.sortKey := by
      obtain ⟨d, k, hk⟩ := List.exists_cons_of_ne_nil (h.valid g hg).ne_nil
      rw [hk]
      exact List.nil_lt_cons _ _
    obtain ⟨k, hk, hvalid, -, hkg⟩ := sortKeyOr_between (a := []) (by simp) (h.valid g hg) hlt
    exact ⟨k, hk, [], g :: post, hseg, rfl, rfl, hvalid, by simp, hafter k hkg⟩
  · rw [List.concat_eq_append] at hseg ⊢
    have ha : a ∈ l.segments := by simp [hseg]
    have hprev : (l.segments[(pre' ++ [a]).length - 1]?.map Segment.sortKey).getD [] =
        a.sortKey := by
      rw [hseg]
      simp
    obtain ⟨k, hk, hvalid, hak, hkg⟩ := sortKeyOr_between (h.valid a ha).digits (h.valid g hg)
      (h.sorted_append hseg a (by simp) g (List.mem_cons_self ..))
    refine ⟨k, by rw [if_neg (by simp), hprev]; exact hk, pre' ++ [a], g :: post, hseg, rfl, rfl,
      hvalid, ?_, hafter k hkg⟩
    intro b hb
    rcases List.mem_append.mp hb with hb | hb
    · have hseg' : l.segments = pre' ++ a :: (g :: post) := by simp [hseg]
      exact (h.sorted_append hseg' b hb a (List.mem_cons_self ..)).trans hak
    · obtain rfl := List.mem_singleton.mp hb
      exact hak

/-- **A row at a place** shows its entries there. -/
theorem WellFormed.addRow_place (h : l.WellFormed) {key : SortKey} {before after : List Entry}
    (hp : l.Place key before after) (snapshot first count removed : ℕ)
    (hfresh : ∀ o, first ≤ o → o < first + count → ⟨snapshot, o⟩ ∉ l.entries)
    (hremoved : removed = (l.removals snapshot).countP fun r => first ≤ r ∧ r < first + count)
    (hstored : ∃ s, l.snapshot? snapshot = some s ∧
      (s.state ≠ .building → first + count ≤ s.keys.length))
    (hpositive : 0 < count) :
    WellFormed (l.addRow snapshot key first count removed) ∧
      (l.addRow snapshot key first count removed).entries =
        before ++ (List.range' first count).map (Entry.mk snapshot) ++ after := by
  obtain ⟨pre, post, hseg, rfl, rfl, hvalid, hpre, hpost⟩ := hp
  have hrow : (l.addRow snapshot key first count removed).segments =
      pre ++ { id := l.nextId, snapshot, sortKey := key, first, count, removed } :: post := by
    simp only [addRow]
    rw [hseg]
    exact insertSegment_append hpre hpost
  have hentries : (l.addRow snapshot key first count removed).entries =
      pre.flatMap Segment.entries ++ (List.range' first count).map (Entry.mk snapshot) ++
        post.flatMap Segment.entries := by
    rw [entries, hrow]
    simp [Segment.entries]
  have hsorted := h.sorted
  have hnodup := h.nodup
  rw [hseg, pairwise_sortKey_iff] at hsorted
  rw [entries, hseg, List.flatMap_append] at hnodup
  refine ⟨⟨?_, ?_, ?_, h.tombstones, ?_, ?_, ?_, ?_, ?_, ?_⟩, hentries⟩
  · rw [hrow, pairwise_sortKey_iff, List.map_cons, List.pairwise_cons]
    refine ⟨hsorted.1, ⟨?_, hsorted.2.1⟩, ?_⟩
    · simp only [List.mem_map]
      rintro k ⟨b, hb, rfl⟩
      exact hpost b hb
    · intro a ha b hb
      rcases List.mem_cons.mp hb with rfl | hb
      · exact hpre a ha
      · exact hsorted.2.2 a ha b hb
  · rw [hrow]
    intro a ha
    simp only [List.mem_append, List.mem_cons] at ha
    rcases ha with ha | rfl | ha
    · exact h.valid a (by simp [hseg, ha])
    · exact hvalid
    · exact h.valid a (by simp [hseg, ha])
  · have hdisj : ∀ e ∈ (List.range' first count).map (Entry.mk snapshot),
        e ∉ pre.flatMap Segment.entries ++ post.flatMap Segment.entries := by
      intro e he hmem
      simp only [List.mem_map, List.mem_range'_1] at he
      obtain ⟨o, ho, rfl⟩ := he
      refine hfresh o ho.1 ho.2 ?_
      rwa [entries, hseg, List.flatMap_append]
    have hnew : ((List.range' first count).map (Entry.mk snapshot)).Nodup :=
      (List.nodup_range' ..).map fun a b hab => by simpa using hab
    rw [hentries]
    rw [List.nodup_append'] at hnodup ⊢
    rw [List.nodup_append']
    refine ⟨⟨hnodup.1, hnew, ?_⟩, hnodup.2.1, ?_⟩
    · exact fun e he hnewe => hdisj e hnewe (List.mem_append_left _ he)
    · intro e he hposte
      rcases List.mem_append.mp he with he | he
      · exact hnodup.2.2 he hposte
      · exact hdisj e he (List.mem_append_right _ hposte)
  · rw [hrow]
    intro a ha
    simp only [List.mem_append, List.mem_cons] at ha
    rcases ha with ha | rfl | ha
    · exact h.removed a (by simp [hseg, ha])
    · exact hremoved
    · exact h.removed a (by simp [hseg, ha])
  · intro s r hr
    have hin := h.inside s r hr
    rw [entries, hseg, List.flatMap_append, List.mem_append] at hin
    rw [hentries, List.mem_append, List.mem_append]
    exact hin.imp Or.inl id
  · rw [hrow]
    intro a ha
    simp only [List.mem_append, List.mem_cons] at ha
    rcases ha with ha | rfl | ha
    · exact h.stored a (by simp [hseg, ha])
    · exact hstored
    · exact h.stored a (by simp [hseg, ha])
  · exact fun s hs => (h.fresh s hs).trans (Nat.lt_succ_self _)
  · exact h.keyed
  · rw [hrow]
    intro a ha
    simp only [List.mem_append, List.mem_cons] at ha
    rcases ha with ha | rfl | ha
    · exact h.positive a (by simp [hseg, ha])
    · exact hpositive
    · exact h.positive a (by simp [hseg, ha])

end Layout

end Portico
