import Portico.Lib.ListMove
import Portico.Queue.BaseOrder
import Portico.Queue.Entries
import Portico.Queue.Spans

/-!
# The shuffled play order

With shuffle on, play positions read source positions through the placement spans and the base
order. A shuffled layout is in order when they reach every live entry once; then both directions
read one list of source positions.

## Main results

* `Layout.orderToSource_of_lt`, `Layout.sourceToOrder_of_mem`: both directions read the list
-/

namespace Portico

namespace Layout

variable {l : Layout}

/-! ## Source positions -/

theorem length_entries : l.entries.length = l.sourceTotal := by
  simp [entries, sourceTotal, Segment.entries]

/-- A shuffled source position shows the entry at it, removed or not. -/
theorem WellFormed.sourceEntry_of_shuffle (h : l.WellFormed) (hs : l.q.shuffle = true) (p : ℕ) :
    l.sourceEntry p = l.entries[p]? := by
  rw [h.sourceEntry_eq, sourceEntries_of_shuffle hs]

theorem WellFormed.sourceEntry_eq_some (h : l.WellFormed) (hs : l.q.shuffle = true) {src : ℤ}
    {e : Entry} (he : l.sourceEntry src = some e) :
    ∃ p : ℕ, src = p ∧ p < l.sourceTotal ∧ l.entries[p]? = some e := by
  rcases lt_or_ge src 0 with hneg | hpos
  · rw [sourceEntry_of_neg hneg] at he
    cases he
  · obtain ⟨p, rfl⟩ := Int.eq_ofNat_of_zero_le hpos
    rw [h.sourceEntry_of_shuffle hs] at he
    refine ⟨p, rfl, ?_, he⟩
    rw [← length_entries]
    exact (List.getElem?_eq_some_iff.mp he).1

theorem WellFormed.sourceEntry_inj (h : l.WellFormed) (hs : l.q.shuffle = true) {src src' : ℤ}
    {e : Entry} (he : l.sourceEntry src = some e) (he' : l.sourceEntry src' = some e) :
    src = src' := by
  obtain ⟨p, rfl, hp, hget⟩ := h.sourceEntry_eq_some hs he
  obtain ⟨p', rfl, -, hget'⟩ := h.sourceEntry_eq_some hs he'
  have := (List.getElem?_inj (length_entries ▸ hp) h.nodup).mp (hget.trans hget'.symm)
  rw [this]

/-! ## The list of source positions -/

/-- What a span's addresses read: base positions, or source positions themselves. -/
def spanSource (l : Layout) (source : Bool) (o : ℕ) : ℤ :=
  if source then o else l.baseOrderToSource o

@[simp] theorem spanSource_true (o : ℕ) : l.spanSource true o = o := if_pos rfl

@[simp] theorem spanSource_false (o : ℕ) : l.spanSource false o = l.baseOrderToSource o :=
  if_neg Bool.false_ne_true

/-- The source positions in play order. -/
def order (l : Layout) : List ℤ := expand l.spanSource l.initOrder.spans

theorem initOrder_spans_of_ne (h : l.spans ≠ []) : l.initOrder.spans = l.spans := by
  rw [initOrder, if_pos h]

theorem initOrder_spans_of_eq (h : l.spans = []) : l.initOrder.spans =
    (if 0 < l.q.domain then [⟨false, 0, l.q.domain⟩] else []) ++
      (if l.q.domain < l.sourceTotal then
        [⟨true, l.q.domain, l.sourceTotal - l.q.domain⟩] else []) := by
  rw [initOrder, if_neg (not_not.mpr h)]

theorem order_of_ne (h : l.spans ≠ []) : l.order = expand l.spanSource l.spans := by
  rw [order, initOrder_spans_of_ne h]

/-- Without spans the base order is followed by the source positions past the domain. -/
theorem order_of_eq (h : l.spans = []) :
    l.order = (List.range (max l.q.domain l.sourceTotal)).map fun p : ℕ =>
      l.baseOrderToSource p := by
  have hdomain : ¬ 0 < l.q.domain → l.q.domain = 0 := by omega
  have hrest : ¬ l.q.domain < l.sourceTotal → l.sourceTotal - l.q.domain = 0 := by omega
  rw [order, initOrder_spans_of_eq h, expand_append, expand_ite hdomain, expand_ite hrest]
  have htail : OrderSpan.expand l.spanSource ⟨true, l.q.domain, l.sourceTotal - l.q.domain⟩ =
      (List.range' l.q.domain (l.sourceTotal - l.q.domain)).map
        fun p : ℕ => l.baseOrderToSource p := by
    refine List.map_congr_left fun p hp => ?_
    have hle' : l.q.domain ≤ p := (List.mem_range'_1.mp hp).1
    rw [spanSource_true, baseOrderToSource, baseOrderToSourceIn_of_le (by omega)]
  have hhead : OrderSpan.expand l.spanSource ⟨false, 0, l.q.domain⟩ =
      (List.range' 0 l.q.domain).map fun p : ℕ => l.baseOrderToSource p :=
    List.map_congr_left fun p _ => spanSource_false p
  rw [htail, hhead, ← List.map_append]
  congr 1
  have hrange := List.range'_append_1 (s := 0) (m := l.q.domain) (n := l.sourceTotal - l.q.domain)
  rw [Nat.zero_add] at hrange
  rw [hrange, List.range_eq_range']
  congr 1
  omega

theorem spansToSource_eq (spans : List OrderSpan) (p : ℕ) :
    l.spansToSource l.sonicWindow spans p = ((expand l.spanSource spans)[p]?).getD (-1) := by
  induction spans generalizing p with
  | nil => rfl
  | cons s ss ih =>
    rw [spansToSource, expand_cons]
    by_cases hp : p < s.count
    · rw [if_pos (by omega), List.getElem?_append_left (by simpa using hp)]
      simp only [OrderSpan.expand, List.getElem?_map, List.getElem?_range' hp, Option.map_some,
        Option.getD_some, spanSource, one_mul]
      split_ifs <;> push_cast <;> rfl
    · rw [if_neg (by omega), List.getElem?_append_right (by simpa using hp), s.length_expand,
        show (p : ℤ) - s.count = (p - s.count : ℕ) by omega, ih]

/-! ## Both directions -/

/-- Every position of the base order reads a source, which leads back to it. -/
theorem exists_base_source (hfirst : 0 < l.q.domain → l.q.first < l.q.domain) (p : ℕ) :
    ∃ s : ℕ, l.baseOrderToSource p = s ∧ l.baseSourceToOrder s = p := by
  rcases lt_or_ge p l.q.domain with hp | hp
  · obtain ⟨s, -, hs⟩ := Layout.exists_base (hfirst (by omega)) reorders_sonicWindow hp
    exact ⟨s, hs⟩
  · exact ⟨p, baseOrderToSourceIn_of_le (by omega), baseSourceToOrderIn_of_le (by omega)⟩

theorem exists_base_position (hfirst : 0 < l.q.domain → l.q.first < l.q.domain) (s : ℕ) :
    ∃ p : ℕ, l.baseSourceToOrder s = p ∧ l.baseOrderToSource p = s := by
  rcases lt_or_ge s l.q.domain with hs | hs
  · obtain ⟨p, -, hp⟩ := Layout.base_exists (hfirst (by omega)) reorders_sonicWindow hs
    exact ⟨p, hp⟩
  · exact ⟨s, baseSourceToOrderIn_of_le (by omega), baseOrderToSourceIn_of_le (by omega)⟩

/-- A span's range holds the place of exactly the sources it reads, in order. -/
theorem mem_span_iff (hfirst : 0 < l.q.domain → l.q.first < l.q.domain) (s : OrderSpan) (src : ℕ)
    {place : ℤ} (hplace : place = if s.source then (src : ℤ) else l.baseSourceToOrder src) :
    (s.start ≤ place ∧ place < s.start + s.count → ∃ k : ℕ, place = s.start + k ∧
      (s.expand l.spanSource)[k]? = some (src : ℤ)) ∧
    ((src : ℤ) ∈ s.expand l.spanSource → s.start ≤ place ∧ place < s.start + s.count) := by
  obtain ⟨source, start, count⟩ := s
  cases source with
  | true =>
    simp only [if_true] at hplace
    subst hplace
    simp only [OrderSpan.expand, spanSource_true, List.mem_map, List.mem_range'_1]
    refine ⟨fun hheld => ⟨src - start, by omega, ?_⟩, ?_⟩
    · rw [List.getElem?_map, List.getElem?_range' (by omega), Option.map_some, spanSource_true]
      congr 1
      omega
    · rintro ⟨o, ho, heq⟩
      omega
  | false =>
    simp only [Bool.false_eq_true, if_false] at hplace
    simp only [OrderSpan.expand, spanSource_false, List.mem_map, List.mem_range'_1]
    constructor
    · rintro ⟨hle, hlt⟩
      obtain ⟨p, hinv, hbase⟩ := exists_base_position hfirst src
      refine ⟨p - start, by omega, ?_⟩
      rw [List.getElem?_map, List.getElem?_range' (by omega), Option.map_some, spanSource_false,
        one_mul, show start + (p - start) = p by omega, hbase]
    · rintro ⟨o, ho, heq⟩
      obtain ⟨s, hbase, hinv⟩ := exists_base_source hfirst o
      rw [hbase] at heq
      rw [hplace, ← heq, hinv]
      omega

theorem sourceToSpans_eq (hfirst : 0 < l.q.domain → l.q.first < l.q.domain)
    {spans : List OrderSpan} {src : ℕ} (hmem : (src : ℤ) ∈ expand l.spanSource spans)
    (hnodup : (expand l.spanSource spans).Nodup) (pos : ℤ) :
    sourceToSpans src (l.baseSourceToOrder src) pos spans =
      pos + (expand l.spanSource spans).idxOf (src : ℤ) := by
  induction spans generalizing pos with
  | nil => simp at hmem
  | cons s ss ih =>
    obtain ⟨hfound, hheld⟩ := mem_span_iff hfirst s src rfl
    rw [sourceToSpans, expand_cons]
    rw [expand_cons, List.nodup_append'] at hnodup
    rw [expand_cons, List.mem_append] at hmem
    by_cases hs : (src : ℤ) ∈ s.expand l.spanSource
    · obtain ⟨k, hk, hget⟩ := hfound (hheld hs)
      rw [if_pos (hheld hs), List.idxOf_append_of_mem hs, idxOf_eq_of_getElem? hnodup.1 hget, hk]
      ring
    · have hnot : ¬ (s.start ≤ (if s.source then (src : ℤ) else l.baseSourceToOrder src) ∧
          (if s.source then (src : ℤ) else l.baseSourceToOrder src) < s.start + s.count) := by
        intro hplace
        obtain ⟨k, -, hget⟩ := hfound hplace
        exact hs (List.mem_of_getElem? hget)
      rw [if_neg hnot, ih (hmem.resolve_left hs) hnodup.2.1,
        List.idxOf_append_of_notMem hs, s.length_expand]
      push_cast
      ring

/-- **The play position of a source in the order.** -/
theorem sourceToOrder_of_mem (hs : l.q.shuffle = true)
    (hfirst : 0 < l.q.domain → l.q.first < l.q.domain) (hnodup : l.order.Nodup) {src : ℕ}
    (hsrc : (src : ℤ) ∈ l.order) : l.sourceToOrder src = l.order.idxOf (src : ℤ) := by
  rw [sourceToOrder]
  by_cases hspans : l.spans = []
  · rw [if_neg (by simp [hspans])]
    have hget : ∃ p : ℕ, l.baseSourceToOrder src = p ∧ l.order[p]? = some (src : ℤ) := by
      rw [order_of_eq hspans] at hsrc ⊢
      simp only [List.mem_map, List.mem_range] at hsrc
      obtain ⟨p, hp, hbase⟩ := hsrc
      obtain ⟨s, hbase', hinv⟩ := exists_base_source hfirst p
      obtain rfl : src = s := by
        rw [hbase] at hbase'
        exact_mod_cast hbase'
      refine ⟨p, hinv, ?_⟩
      rw [List.getElem?_map, List.getElem?_range hp, Option.map_some, hbase]
    obtain ⟨p, hinv, hat⟩ := hget
    rw [hinv, idxOf_eq_of_getElem? hnodup hat]
  · rw [order_of_ne hspans] at hsrc hnodup ⊢
    rw [if_pos ⟨hs, hspans⟩, sourceToSpans_eq hfirst hsrc hnodup, zero_add]

/-- **The source at a play position.** -/
theorem orderToSource_of_lt (hs : l.q.shuffle = true) {p : ℕ} (hp : p < l.order.length) :
    l.order[p]? = some (l.orderToSource p) := by
  rw [orderToSource, orderToSourceIn]
  by_cases hspans : l.spans = []
  · rw [if_neg (by simp [hspans])]
    rw [order_of_eq hspans, List.length_map, List.length_range] at hp
    rw [order_of_eq hspans, List.getElem?_map, List.getElem?_range hp, Option.map_some]
    rfl
  · rw [order_of_ne hspans] at hp ⊢
    rw [if_pos ⟨hs, hspans⟩, spansToSource_eq, List.getElem?_eq_getElem hp, Option.getD_some]

/-! ## A queue in order -/

namespace Shuffled

end Shuffled

end Layout

end Portico
