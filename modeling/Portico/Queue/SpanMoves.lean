import Portico.Queue.ShuffledEdits

/-!
# Edits of a play order

The placement spans of a shuffled queue denote a list of source positions. Inserting a span, removing
a position and saving are list edits of it; both directions of the play order read it; and a move
takes one member of it to the place beside another.

## Main results

* `Layout.expand_insertOrder`, `Layout.expand_removeOrder`, `Layout.order_saveOrder`: the edits
* `Layout.WellFormed.moveShuffled_spec`: what a move leaves
* `Layout.span_editing`: all of them, of every order without duplicates
-/

namespace Portico

namespace Layout

variable {l l' : Layout}

/-! ## The edits of the spans -/

/-- **An insertion** puts its block at the position. -/
theorem expand_insertOrder (v : OrderSpan) {pos : ℕ} (hpos : pos ≤ l.order.length) :
    expand l.spanSource (l.insertOrder pos v).spans =
      l.order.take pos ++ v.expand l.spanSource ++ l.order.drop pos :=
  expand_insertSpans v l.initOrder.spans hpos

/-- **A removal** deletes its position. -/
theorem expand_removeOrder (pos : ℕ) :
    expand l.spanSource (l.removeOrder pos).spans = l.order.eraseIdx pos :=
  expand_removeSpans l.initOrder.spans pos

/-- The rows under other spans, at another revision and current position. -/
def reordered (l : Layout) (revision current : ℕ) (spans : List OrderSpan) : Layout :=
  { l with q := { l.q with revision, current }, spans }

variable {revision current : ℕ} {spans : List OrderSpan}

@[simp] theorem reordered_spans : (l.reordered revision current spans).spans = spans := rfl

@[simp] theorem reordered_waiting :
    (l.reordered revision current spans).waiting = l.waiting := rfl

theorem reordered_sourceAtFrom (i : ℕ) (p : ℤ) (gs : List Segment) :
    (l.reordered revision current spans).sourceAtFrom i p gs = l.sourceAtFrom i p gs := by
  induction gs generalizing i p with
  | nil => rfl
  | cons g gs ih =>
    rw [sourceAtFrom, sourceAtFrom, ih]
    rfl

@[simp] theorem reordered_sourceEntry (p : ℤ) :
    (l.reordered revision current spans).sourceEntry p = l.sourceEntry p := by
  rw [sourceEntry, sourceEntry, sourceAt, sourceAt, reordered_sourceAtFrom]
  rfl

@[simp] theorem reordered_baseOrderToSource (p : ℤ) :
    (l.reordered revision current spans).baseOrderToSource p = l.baseOrderToSource p := by
  have hord : (l.reordered revision current spans).ordinaryOrderToSource =
      l.ordinaryOrderToSource := rfl
  have hwindows : (l.reordered revision current spans).sonicWindow = l.sonicWindow := by
    funext w
    have hsource : (l.reordered revision current spans).sonicWindowSource w =
        l.sonicWindowSource w := by
      rw [sonicWindowSource, sonicWindowSource]
      simp only [reordered_sourceEntry, hord]
      rfl
    rw [sonicWindow, sonicWindow, hsource]
    rfl
  rw [baseOrderToSource, baseOrderToSource, hwindows]
  rfl

@[simp] theorem reordered_spanSource :
    (l.reordered revision current spans).spanSource = l.spanSource := by
  funext source o
  rw [spanSource, spanSource, reordered_baseOrderToSource]

theorem WellFormed.reordered (h : l.WellFormed) :
    (l.reordered revision current spans).WellFormed :=
  ⟨h.sorted, h.valid, h.nodup, h.tombstones, h.removed, h.inside, h.stored, h.fresh, h.keyed,
    h.positive⟩

theorem reordered_order (hspans : spans ≠ []) :
    (l.reordered revision current spans).order = expand l.spanSource spans := by
  rw [order_of_ne hspans, reordered_spanSource, reordered_spans]

theorem initOrder_eq : l.initOrder =
    l.reordered l.q.revision l.q.current l.initOrder.spans := by
  rw [initOrder]
  split_ifs <;> rfl

theorem removeOrder_eq (pos : ℤ) : l.removeOrder pos =
    l.reordered l.q.revision l.q.current (l.removeOrder pos).spans := by
  rw [removeOrder, initOrder_eq]
  rfl

theorem insertOrder_eq (pos : ℤ) (v : OrderSpan) : l.insertOrder pos v =
    l.reordered l.q.revision l.q.current (l.insertOrder pos v).spans := by
  rw [insertOrder, initOrder_eq]
  rfl

/-- **Saving** keeps the list. -/
theorem order_saveOrder (h : l.saveOrder = .ok l') :
    l'.order = expand l.spanSource l.spans ∧
      ∃ spans, l' = l.reordered l.q.revision l.q.current spans ∧ spans ≠ [] := by
  obtain ⟨spans, rfl, hne, hexpand, -⟩ := saveOrder_ok h
  have hrow : ({ l with spans } : Layout) = l.reordered l.q.revision l.q.current spans := rfl
  rw [hrow, reordered_order hne, hexpand]
  exact ⟨rfl, spans, rfl, hne⟩

/-! ## Entries that the order shows -/

/-- The order shows live entries. -/
def ShowsLive (l : Layout) : Prop := ∀ src ∈ l.order, ∃ e ∈ l.liveEntries, l.sourceEntry src = some e

theorem ShowsLive.exists_entries (h : l.ShowsLive) :
    ∃ order : List Entry, l.order.map l.sourceEntry = order.map some ∧
      ∀ e ∈ order, e ∈ l.liveEntries := by
  have h' : ∀ src, ∃ e, src ∈ l.order → e ∈ l.liveEntries ∧ l.sourceEntry src = some e := by
    intro src
    by_cases hsrc : src ∈ l.order
    · obtain ⟨e, he⟩ := h src hsrc
      exact ⟨e, fun _ => he⟩
    · exact ⟨⟨0, 0⟩, fun hmem => absurd hmem hsrc⟩
  choose f hf using h'
  refine ⟨l.order.map f, ?_, fun e he => ?_⟩
  · rw [List.map_map]
    exact List.map_congr_left fun src hsrc => (hf src hsrc).2
  · obtain ⟨src, hsrc, rfl⟩ := List.mem_map.mp he
    exact (hf src hsrc).1

theorem WellFormed.source_of_shown (h : l.WellFormed) (hs : l.q.shuffle = true) {e : Entry}
    (he : e ∈ l.liveEntries) {src : ℤ} (hsrc : l.sourceEntry src = some e) :
    ∃ (n i : ℕ), src = n ∧ l.sourceIndexOf e = some ((n : ℤ), i) := by
  obtain ⟨i, g, -, -, -, hindex⟩ := h.sourceIndexOf_eq he
  rw [sourceEntries_of_shuffle hs] at hindex
  have hsource : l.sourceEntry (l.entries.idxOf e : ℕ) = some e := by
    rw [h.sourceEntry_of_shuffle hs]
    exact getElem?_idxOf (mem_liveEntries.mp he).1
  exact ⟨_, i, h.sourceEntry_inj hs hsrc hsource, hindex⟩

/-- **The play position of an entry that the order shows.** -/
theorem WellFormed.positionOf_shown (h : l.WellFormed) (hs : l.q.shuffle = true)
    (hfirst : 0 < l.q.domain → l.q.first < l.q.domain) (hnodup : l.order.Nodup) {e : Entry}
    (he : e ∈ l.liveEntries) {p : ℕ} (hp : l.order[p]?.bind l.sourceEntry = some e) :
    l.positionOf e = (↑p, true) ∧ ∃ src : ℕ, l.order[p]? = some (src : ℤ) := by
  obtain ⟨src, hget, hsrc⟩ := Option.bind_eq_some_iff.mp hp
  obtain ⟨n, i, rfl, hindex⟩ := h.source_of_shown hs he hsrc
  have horder := sourceToOrder_of_mem hs hfirst hnodup (List.mem_of_getElem? hget)
  rw [idxOf_eq_of_getElem? hnodup hget] at horder
  refine ⟨?_, n, hget⟩
  simp only [positionOf, hindex, horder]
  simp

/-- The current entry of a queue whose order shows live entries is one of them. -/
theorem WellFormed.currentEntry_shown (h : l.WellFormed) (hs : l.q.shuffle = true) {c : Entry}
    (hc : l.currentEntry = some c) :
    l.waiting = false ∧ l.order[l.q.current]?.bind l.sourceEntry = some c := by
  rw [currentEntry] at hc
  split_ifs at hc with hw
  refine ⟨Bool.eq_false_iff.mpr hw, ?_⟩
  rw [h.entryAt_eq] at hc
  by_cases hlt : l.q.current < l.order.length
  · rw [orderToSource_of_lt hs hlt]
    exact hc
  · -- Past the order a position reads no source.
    exfalso
    rw [orderToSource, orderToSourceIn] at hc
    by_cases hspans : l.spans = []
    · rw [order_of_eq hspans, List.length_map, List.length_range] at hlt
      rw [if_neg (by simp [hspans]), baseOrderToSourceIn_of_le (by omega),
        h.sourceEntry_of_shuffle hs, List.getElem?_eq_none (by rw [length_entries]; omega)] at hc
      cases hc
    · rw [order_of_ne hspans] at hlt
      rw [if_pos ⟨hs, hspans⟩, spansToSource_eq, List.getElem?_eq_none (by omega), Option.getD_none,
        sourceEntry_of_neg (by omega)] at hc
      cases hc

/-! ## Moving -/

/-- **A move as a list edit**: the entry is deleted and inserted again beside the target, and what
was current still is. -/
def MovesShown (l l' : Layout) (e target : Entry) (side : Bool) : Prop :=
  ∃ order before after : List Entry,
    l.order.map l.sourceEntry = order.map some ∧ order.erase e = before ++ after ∧
    Beside before after target side ∧
    l'.order.map l'.sourceEntry = (before ++ e :: after).map some ∧
    ∀ c, l.currentEntry = some c → l'.currentEntry = some c

theorem beside_take_drop {xs : List Entry} {m : ℕ} {target : Entry} (hget : xs[m]? = some target)
    (side : Bool) :
    Beside (xs.take (m + if side then 1 else 0)) (xs.drop (m + if side then 1 else 0)) target
      side := by
  obtain ⟨hm, rfl⟩ := List.getElem?_eq_some_iff.mp hget
  cases side with
  | true =>
    rw [Beside, if_pos rfl, List.take_succ_eq_append_getElem hm]
    exact List.getLast?_concat
  | false => rw [Beside, if_neg Bool.false_ne_true, Nat.add_zero, List.head?_drop, hget]

theorem landing_le {i j n : ℕ} (hi : i < n) (hj : j < n) (hne : i ≠ j) (side : Bool) :
    landing i j side ≤ n - 1 := by
  rw [landing]
  cases side <;> simp <;> split_ifs <;> omega

/-- **What a move leaves**: the source of its entry at its landing place, and the current position
where the current entry went. -/
theorem WellFormed.moveShuffled_spec (h : l.WellFormed) (hs : l.q.shuffle = true)
    (hfirst : 0 < l.q.domain → l.q.first < l.q.domain) (hnodup : l.order.Nodup)
    (hlive : l.ShowsLive) {e target : Entry} {i j src : ℕ} (he : l.positionOf e = (↑i, true))
    (htarget : l.positionOf target = (↑j, true)) (hi : l.order[i]? = some (src : ℤ))
    (hj : j < l.order.length) (hne : i ≠ j) {side : Bool}
    (hok : l.moveShuffled e target side = .ok l') :
    ∃ (current : ℕ) (spans : List OrderSpan), l' = l.reordered l.q.revision current spans ∧
      spans ≠ [] ∧
      l'.order = (l.order.eraseIdx i).take (landing i j side) ++
        (src : ℤ) :: (l.order.eraseIdx i).drop (landing i j side) ∧
      ∀ c, l.currentEntry = some c → l'.order[current]?.bind l.sourceEntry = some c := by
  have hilt := (List.getElem?_eq_some_iff.mp hi).1
  have hsource : l.orderToSource i = src :=
    Option.some.inj ((orderToSource_of_lt hs hilt).symm.trans hi)
  have hplace : (if side then (if (i : ℤ) < j then (j : ℤ) - 1 else j) + 1
      else if (i : ℤ) < j then (j : ℤ) - 1 else j) = (landing i j side : ℕ) := by
    rw [landing]
    cases side <;> simp <;> split_ifs <;> omega
  have hle := landing_le hilt hj hne side
  have hlen : (l.order.eraseIdx i).length = l.order.length - 1 := List.length_eraseIdx_of_lt hilt
  -- The removal leaves spans, as the target is still there.
  have hremoved : (l.removeOrder i).spans ≠ [] := by
    intro hnil
    have hexpand := expand_removeOrder (l := l) i
    rw [hnil, expand_nil] at hexpand
    have := congrArg List.length hexpand
    rw [hlen, List.length_nil] at this
    omega
  have hrest : (l.removeOrder i).order = l.order.eraseIdx i := by
    rw [removeOrder_eq, reordered_order hremoved, expand_removeOrder]
  have hread : (l.removeOrder i).spanSource = l.spanSource := by
    rw [removeOrder_eq, reordered_spanSource]
  set moved := (l.removeOrder i).insertOrder (landing i j side : ℕ) ⟨true, src, 1⟩ with hmoved
  have hinserted : expand l.spanSource moved.spans =
      (l.order.eraseIdx i).take (landing i j side) ++
        (src : ℤ) :: (l.order.eraseIdx i).drop (landing i j side) := by
    have hinsert := @expand_insertOrder (l.removeOrder i) ⟨true, src, 1⟩ (landing i j side) (by rw [hrest]; omega)
    rw [hrest, hread] at hinsert
    refine hinsert.trans ?_
    rw [List.append_assoc]
    rfl
  have hspans : moved.spans ≠ [] := by
    intro hnil
    rw [hnil, expand_nil] at hinserted
    simp at hinserted
  have hrow : moved = l.reordered l.q.revision l.q.current moved.spans := by
    rw [hmoved, insertOrder_eq, removeOrder_eq]
    rfl
  have horder : ∀ c, (l.reordered l.q.revision c moved.spans).order =
      (l.order.eraseIdx i).take (landing i j side) ++
        (src : ℤ) :: (l.order.eraseIdx i).drop (landing i j side) := fun c => by
    rw [reordered_order hspans, hinserted]
  have hperm : ((l.order.eraseIdx i).take (landing i j side) ++
      (src : ℤ) :: (l.order.eraseIdx i).drop (landing i j side)).Perm l.order := by
    refine List.perm_middle.trans ?_
    rw [List.take_append_drop, ← (List.getElem?_eq_some_iff.mp hi).2]
    exact List.getElem_cons_eraseIdx_perm hilt
  obtain ⟨cur, hcur, hshown⟩ : ∃ cur : ℕ, (l.currentEntry.elim moved fun c =>
        if (moved.positionOf c).2 then moved.setCurrent (moved.positionOf c).1.toNat else moved) =
        l.reordered l.q.revision cur moved.spans ∧ ∀ c, l.currentEntry = some c →
          (l.reordered l.q.revision cur moved.spans).order[cur]?.bind l.sourceEntry = some c := by
    cases hc : l.currentEntry with
    | none =>
      refine ⟨l.q.current, hrow, fun c hno => ?_⟩
      cases hno
    | some c =>
      obtain ⟨-, hat⟩ := h.currentEntry_shown hs hc
      obtain ⟨srcc, hget, hsrcc⟩ := Option.bind_eq_some_iff.mp hat
      obtain ⟨c', hlivec, hc'⟩ := hlive srcc (List.mem_of_getElem? hget)
      obtain rfl : c' = c := Option.some.inj (hc'.symm.trans hsrcc)
      -- The current entry's source went to some place of the new order.
      have hmem := hperm.mem_iff.mpr (List.mem_of_getElem? hget)
      rw [← horder l.q.current, ← hrow] at hmem
      obtain ⟨p, hp⟩ := List.mem_iff_getElem?.mp hmem
      have hpos : moved.positionOf c' = (↑p, true) := by
        have hmoved : moved.WellFormed := hrow ▸ h.reordered
        refine (hmoved.positionOf_shown (by rw [hrow]; exact hs) (by rw [hrow]; exact hfirst) ?_
          (by rw [hrow]; exact hlivec) (p := p) ?_).1
        · rw [hrow, horder]
          exact hperm.nodup_iff.mpr hnodup
        · rw [hp, Option.bind_some, hrow, reordered_sourceEntry, hsrcc]
      refine ⟨p, ?_, ?_⟩
      · simp only [Option.elim_some, hpos, if_true, Int.toNat_natCast]
        rw [hrow]
        rfl
      · rintro c ⟨⟩
        rw [hrow, horder] at hp
        rw [horder, hp, Option.bind_some, hsrcc]
  have hrun : (l.reordered l.q.revision cur moved.spans).saveOrder = .ok l' := by
    rw [moveShuffled] at hok
    simp only [he, htarget, hsource, hplace, Int.toNat_natCast, ← hmoved] at hok
    rw [← hcur]
    cases hc : l.currentEntry <;> rw [hc] at hok <;> exact hok
  obtain ⟨hsaved, saved, rfl, hne'⟩ := order_saveOrder hrun
  refine ⟨cur, saved, rfl, hne', ?_, ?_⟩
  · rw [hsaved, reordered_spanSource, reordered_spans, hinserted]
  · intro c hc
    rw [hsaved, reordered_spanSource, reordered_spans, hinserted, ← horder cur]
    exact hshown c hc

theorem moveEntry_shuffled_ok (hs : l.q.shuffle = true) {ifMatch : ℕ} {e target : Entry}
    {side : Bool} (hok : l.moveEntry ifMatch e target side = .ok l') :
    target ≠ e ∧ e ∈ l.liveEntries ∧ target ∈ l.liveEntries ∧
      ∃ moved, l.moveShuffled e target side = .ok moved ∧
        (moved.q.shuffle = true → l' = moved.writeRow moved.q) := by
  obtain ⟨-, hrun⟩ := queueWrite_ok hok
  cases hindex : l.sourceIndexOf e with
  | none => simp [hindex] at hrun
  | some x =>
    cases htarget : l.sourceIndexOf target with
    | none => simp [hindex, htarget] at hrun
    | some y =>
      simp [hindex, htarget, hs, guard_eq_ok, bind_eq_ok] at hrun
      obtain ⟨moved, ⟨hne, hmoved⟩, hwritten⟩ := hrun
      refine ⟨hne, mem_liveEntries_of_sourceIndexOf hindex,
        mem_liveEntries_of_sourceIndexOf htarget, moved, hmoved, fun hq => ?_⟩
      rcases hwritten with ⟨-, hl'⟩ | ⟨hoff, -⟩
      · exact hl'
      · rw [hq] at hoff
        cases hoff

theorem WellFormed.moveEntry_shuffled_error (h : l.WellFormed) (hs : l.q.shuffle = true)
    {ifMatch : ℕ} {e target : Entry} {side : Bool} {err : QueueError}
    (herr : l.moveEntry ifMatch e target side = .error err) :
    l.q.revision ≠ ifMatch ∨ e ∉ l.liveEntries ∨ target ∉ l.liveEntries ∨ target = e ∨
      err = .tooLarge := by
  rcases queueWrite_error herr with hrev | hrun | hlarge
  · exact Or.inl hrev
  · by_cases he : e ∈ l.liveEntries
    · by_cases htarget : target ∈ l.liveEntries
      · by_cases hne : target = e
        · simp [hne]
        obtain ⟨i, g, -, -, -, hindex⟩ := h.sourceIndexOf_eq he
        obtain ⟨j, g', -, -, -, hindex'⟩ := h.sourceIndexOf_eq htarget
        simp [hindex, hindex', hs, hne, bind_eq_error] at hrun
        simp [saveOrder_error hrun]
      · exact Or.inr (Or.inr (Or.inl htarget))
    · exact Or.inr (Or.inl he)
  · simp [hlarge]

/-- **A move** of an entry beside another is the list's move. -/
theorem WellFormed.moveEntry_shown (h : l.WellFormed) (hs : l.q.shuffle = true)
    (hfirst : 0 < l.q.domain → l.q.first < l.q.domain) (hnodup : l.order.Nodup)
    (hlive : l.ShowsLive) {ifMatch : ℕ} {e target : Entry} {side : Bool}
    (he : some e ∈ l.order.map l.sourceEntry) (htarget : some target ∈ l.order.map l.sourceEntry)
    (hok : l.moveEntry ifMatch e target side = .ok l') : MovesShown l l' e target side := by
  obtain ⟨hne, -, -, moved, hmoved, hl'⟩ := moveEntry_shuffled_ok hs hok
  obtain ⟨order, horder, hmem⟩ := hlive.exists_entries
  have hnodup' : order.Nodup := by
    apply List.Nodup.of_map some
    rw [← horder]
    refine List.Nodup.map_on (fun src hsrc src' _ heq => ?_) hnodup
    obtain ⟨a, -, ha⟩ := hlive src hsrc
    exact h.sourceEntry_inj hs ha (heq ▸ ha)
  have hread : ∀ p : ℕ, l.order[p]?.bind l.sourceEntry = order[p]? := by
    intro p
    have hget := congrArg (fun xs => xs[p]?) horder
    simp only [List.getElem?_map] at hget
    cases hp : l.order[p]? with
    | none =>
      rw [hp, Option.map_none] at hget
      exact (Option.map_eq_none_iff.mp hget.symm).symm
    | some src =>
      rw [hp, Option.map_some] at hget
      obtain ⟨a, ha, hsome⟩ := Option.map_eq_some_iff.mp hget.symm
      rw [ha, hsome]
      rfl
  rw [horder] at he htarget
  replace he : e ∈ order := by simpa using he
  replace htarget : target ∈ order := by simpa using htarget
  have hidx : order.idxOf e ≠ order.idxOf target := fun heq =>
    hne ((List.idxOf_inj htarget).mp heq.symm)
  obtain ⟨hpos, src, hsrc⟩ := h.positionOf_shown hs hfirst hnodup (hmem e he)
    (p := order.idxOf e) ((hread _).trans (getElem?_idxOf he))
  obtain ⟨hpos', src', hsrc'⟩ := h.positionOf_shown hs hfirst hnodup (hmem target htarget)
    (p := order.idxOf target) ((hread _).trans (getElem?_idxOf htarget))
  obtain ⟨cur, spans, rfl, hspans, hnew, hshown⟩ := h.moveShuffled_spec hs hfirst hnodup hlive hpos hpos'
    hsrc (List.getElem?_eq_some_iff.mp hsrc').1 hidx hmoved
  obtain rfl := hl' hs
  have hentry : l.sourceEntry src = some e := by
    have hat := hread (order.idxOf e)
    rw [hsrc, getElem?_idxOf he] at hat
    exact hat
  have herase : order.erase e = order.eraseIdx (order.idxOf e) := by
    conv_lhs => rw [← List.getElem_idxOf (List.idxOf_lt_length_of_mem he)]
    exact hnodup'.erase_getElem _ _
  have hwritten : (l.reordered l.q.revision cur spans).writeRow
      (l.reordered l.q.revision cur spans).q = l.reordered (l.q.revision + 1) cur spans := rfl
  have horder' : (l.reordered (l.q.revision + 1) cur spans).order =
      (l.order.eraseIdx (order.idxOf e)).take (landing (order.idxOf e) (order.idxOf target) side) ++
        (src : ℤ) ::
          (l.order.eraseIdx (order.idxOf e)).drop
            (landing (order.idxOf e) (order.idxOf target) side) := by
    rw [reordered_order hspans, ← hnew, reordered_order hspans]
  rw [hwritten]
  refine ⟨order, (order.erase e).take (landing (order.idxOf e) (order.idxOf target) side),
    (order.erase e).drop (landing (order.idxOf e) (order.idxOf target) side), horder,
    (List.take_append_drop _ _).symm, ?_, ?_, fun c hc => ?_⟩
  · -- The target's place once the entry is deleted.
    have hget := getElem?_idxOf ((List.mem_erase_of_ne hne).mpr htarget)
    rw [idxOf_erase_of_ne hnodup' he hne] at hget
    have hplace : landing (order.idxOf e) (order.idxOf target) side =
        (if order.idxOf target < order.idxOf e then order.idxOf target
          else order.idxOf target - 1) + if side then 1 else 0 := by
      rw [landing]
      split_ifs <;> omega
    rw [hplace]
    exact beside_take_drop hget side
  · have hmap : ∀ xs : List ℤ, xs.map (l.reordered (l.q.revision + 1) cur spans).sourceEntry =
        xs.map l.sourceEntry := fun xs => List.map_congr_left fun p _ => reordered_sourceEntry p
    rw [horder', hmap, List.map_append, List.map_cons, hentry, List.map_take, List.map_drop,
      ← List.eraseIdx_map, horder, herase, List.eraseIdx_map, List.map_append, List.map_cons,
      List.map_take, List.map_drop]
  · obtain ⟨hw, -⟩ := h.currentEntry_shown hs hc
    have hat := hshown c hc
    rw [hnew, ← horder'] at hat
    obtain ⟨x, hx, hxc⟩ := Option.bind_eq_some_iff.mp hat
    have hlt := (List.getElem?_eq_some_iff.mp hx).1
    have hto := orderToSource_of_lt (l := l.reordered (l.q.revision + 1) cur spans) hs hlt
    rw [currentEntry, if_neg (by simpa using hw), h.reordered.entryAt_eq, reordered_sourceEntry,
      ← hxc]
    congr 1
    exact Option.some.inj (hto.symm.trans hx)

theorem mem_order_nat (hfirst : 0 < l.q.domain → l.q.first < l.q.domain) {src : ℤ}
    (hsrc : src ∈ l.order) : ∃ n : ℕ, src = n := by
  obtain ⟨s, -, hmem⟩ := List.mem_flatMap.mp hsrc
  obtain ⟨o, -, rfl⟩ := List.mem_map.mp hmem
  rw [spanSource]
  split_ifs
  · exact ⟨o, rfl⟩
  · obtain ⟨n, hn, -⟩ := exists_base_source hfirst o
    exact ⟨n, hn⟩

/-- **Editing the spans is editing the list** of source positions they denote, and both directions
of the play order read that list. A move is the list's move of an entry beside another, and keeps
the current entry. -/
theorem span_editing (hs : l.q.shuffle = true) (hfirst : 0 < l.q.domain → l.q.first < l.q.domain)
    (hnodup : l.order.Nodup) :
    (∀ (v : OrderSpan) (pos : ℕ), pos ≤ l.order.length →
      expand l.spanSource (l.insertOrder pos v).spans =
        l.order.take pos ++ v.expand l.spanSource ++ l.order.drop pos) ∧
    (∀ pos : ℕ, pos < l.order.length →
      expand l.spanSource (l.removeOrder pos).spans = l.order.eraseIdx pos) ∧
    (∀ spans l', (l.reordered l.q.revision l.q.current spans).saveOrder = .ok l' →
      l'.order = expand l.spanSource spans) ∧
    (∀ p : ℕ, p < l.order.length → ∃ src : ℕ, l.order[p]? = some (src : ℤ) ∧
      l.orderToSource p = src ∧ l.sourceToOrder src = p) ∧
    (∀ src : ℤ, src ∈ l.order → ∃ p : ℕ, p < l.order.length ∧ l.sourceToOrder src = p ∧
      l.orderToSource p = src) ∧
    (l.WellFormed → l.ShowsLive → ∀ (ifMatch : ℕ) (e target : Entry) (side : Bool),
      some e ∈ l.order.map l.sourceEntry → some target ∈ l.order.map l.sourceEntry →
      (∀ err, l.moveEntry ifMatch e target side = .error err →
        l.q.revision ≠ ifMatch ∨ target = e ∨ err = .tooLarge) ∧
      ∀ l', l.moveEntry ifMatch e target side = .ok l' → MovesShown l l' e target side) := by
  have hforth : ∀ p : ℕ, p < l.order.length → ∃ src : ℕ, l.order[p]? = some (src : ℤ) ∧
      l.orderToSource p = src ∧ l.sourceToOrder src = p := by
    intro p hp
    have hat := orderToSource_of_lt hs hp
    obtain ⟨src, hsrc⟩ := mem_order_nat hfirst (List.mem_of_getElem? hat)
    rw [hsrc] at hat
    refine ⟨src, hat, hsrc, ?_⟩
    rw [sourceToOrder_of_mem hs hfirst hnodup (List.mem_of_getElem? hat),
      idxOf_eq_of_getElem? hnodup hat]
  refine ⟨fun v pos hpos => expand_insertOrder v hpos, fun pos _ => expand_removeOrder pos,
    fun spans l' hok => ?_, hforth, fun src hsrc => ?_,
    fun h hlive ifMatch e target side he htarget => ⟨fun err herr => ?_, fun l' hok => ?_⟩⟩
  · rw [(order_saveOrder hok).1, reordered_spanSource, reordered_spans]
  · obtain ⟨p, hp⟩ := List.mem_iff_getElem?.mp hsrc
    have hlt := (List.getElem?_eq_some_iff.mp hp).1
    obtain ⟨n, hn, hto, hback⟩ := hforth p hlt
    obtain rfl : src = n := Option.some.inj (hp.symm.trans hn)
    exact ⟨p, hlt, hback, hto⟩
  · have hshown : ∀ {a : Entry}, some a ∈ l.order.map l.sourceEntry → a ∈ l.liveEntries := by
      intro a ha
      obtain ⟨src, hsrc, heq⟩ := List.mem_map.mp ha
      obtain ⟨b, hb, hread⟩ := hlive src hsrc
      obtain rfl : b = a := Option.some.inj (hread.symm.trans heq)
      exact hb
    rcases h.moveEntry_shuffled_error hs herr with hrev | hnot | hnot | hsame | hlarge
    · exact Or.inl hrev
    · exact absurd (hshown he) hnot
    · exact absurd (hshown htarget) hnot
    · exact Or.inr (Or.inl hsame)
    · exact Or.inr (Or.inr hlarge)
  · exact h.moveEntry_shown hs hfirst hnodup hlive he htarget hok

/-- Three songs in a shuffled queue, the last one added later. -/
def threeShuffled : Layout where
  q := { shuffle := true, domain := 2, current := 1 }
  segments := [{ id := 0, snapshot := 1, sortKey := [18], first := 0, count := 3 }]
  snapshots := [{ id := 1, count := 3, keys := [10, 11, 12] }]
  spans := [⟨false, 0, 2⟩, ⟨true, 2, 1⟩]
  nextId := 2

theorem threeShuffled_wellFormed : threeShuffled.WellFormed where
  sorted := List.pairwise_singleton _ _
  valid g hg := by
    obtain rfl := List.mem_singleton.mp hg
    exact SortKey.valid_singleton (by decide) (by decide)
  nodup := by decide
  tombstones _ := List.Pairwise.nil
  removed g hg := by
    obtain rfl := List.mem_singleton.mp hg
    rfl
  inside s r hr := absurd hr List.not_mem_nil
  stored g hg := by
    obtain rfl := List.mem_singleton.mp hg
    exact ⟨_, rfl, fun _ => by decide⟩
  fresh s hs := by
    obtain rfl := List.mem_singleton.mp hs
    decide
  keyed := List.nodup_singleton _
  positive g hg := by
    obtain rfl := List.mem_singleton.mp hg
    decide

theorem span_editing_three :
    (∃ l', threeShuffled.moveEntry 1 ⟨1, 2⟩ ⟨1, 0⟩ false = .ok l' ∧
      MovesShown threeShuffled l' ⟨1, 2⟩ ⟨1, 0⟩ false) ∧
    expand threeShuffled.spanSource (threeShuffled.removeOrder (1 : ℕ)).spans =
      threeShuffled.order.eraseIdx 1 := by
  have hnodup : threeShuffled.order.Nodup := by decide +kernel
  have hlive : threeShuffled.ShowsLive := by
    rw [ShowsLive]
    decide +kernel
  obtain ⟨-, hremove, -, -, -, hmove⟩ := span_editing (l := threeShuffled) rfl (by decide) hnodup
  have hok : (threeShuffled.moveEntry 1 ⟨1, 2⟩ ⟨1, 0⟩ false).isOk := by decide +kernel
  cases hl' : threeShuffled.moveEntry 1 ⟨1, 2⟩ ⟨1, 0⟩ false with
  | error err =>
    rw [hl'] at hok
    cases hok
  | ok l' =>
    refine ⟨⟨l', rfl, ?_⟩, hremove 1 (by decide +kernel)⟩
    exact (hmove threeShuffled_wellFormed hlive 1 ⟨1, 2⟩ ⟨1, 0⟩ false (by decide +kernel)
      (by decide +kernel)).2 l' hl'

end Layout

end Portico
