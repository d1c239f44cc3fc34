import Portico.EventFeed.Feed

/-!
# What one page tells

A page tells the rows its reader may see after the reader's position, in order and up to the position
it gives; a page that isn't empty moves the reader on, and one that leaves rows behind says so.

## Main results

* `scan_spec`: what a scan has told, and where it stopped
* `read_page`: what a page tells
* `read_resync`: the other answers
-/

namespace Portico.EventFeed

variable {codec : Codec} {rd : Reader} {r : Ring} {now : ℤ} {rows : List Row} {s t : Scan}
  {stop : Stop} {keys keys' : CursorKeys}

/-- The event is the row, under a cursor at the row's number. -/
def Tells (codec : Codec) (rd : Reader) (e : Event) (row : Row) : Prop :=
  e.id.position = row.id ∧ e = rd.event codec row e.id

/-- The rows that the reader may see, numbered in `(a, b]`. -/
def told (rd : Reader) (rows : List Row) (a b : ℤ) : List Row :=
  (between Row.id rows a b).filter rd.shows

/-! ## The scan -/

/-- What a scan keeps of its own record. -/
structure Scan.Sound (s : Scan) : Prop where
  last : ∀ e ∈ s.events.getLast?, s.lastDelivered = e.id.position ∧ s.lastDelivered ≤ s.consumed
  room : s.events = [] → s.remaining = (pageBytes - pageReserve : ℕ)

theorem Scan.Sound.consume {row : Row} (h : s.Sound) (hrow : s.consumed ≤ row.id) :
    ({ s with consumed := row.id } : Scan).Sound :=
  ⟨fun e he => ⟨(h.last e he).1, (h.last e he).2.trans hrow⟩, h.room⟩

theorem Scan.Sound.deliver {row : Row} {event : Event} {cost : ℕ}
    (hid : event.id.position = row.id) : (s.deliver row keys event cost).Sound := by
  refine ⟨fun e he => ?_, fun h => ?_⟩
  · obtain rfl : event = e := by simpa [Scan.deliver] using he
    exact ⟨hid.symm, le_rfl⟩
  · simp [Scan.deliver] at h

/-- **What a scan has told.** Of rows numbered past the position it starts from, it tells those the
reader may see up to the position it stops at; it stops for want of room only after an event. -/
theorem scan_spec (hsorted : rows.Pairwise fun x y => x.id < y.id)
    (hpast : ∀ row ∈ rows, s.consumed < row.id) (hsound : s.Sound)
    (hscan : rd.scan codec now rows s = (t, stop)) (hstop : stop ≠ .resync) :
    (∃ events, t.events = s.events ++ events ∧ List.Forall₂ (Tells codec rd) events
      ((rows.filter fun row => decide (row.id ≤ t.consumed)).filter rd.shows)) ∧
    s.consumed ≤ t.consumed ∧ (t.consumed = s.consumed ∨ ∃ row ∈ rows, row.id = t.consumed) ∧
    t.Sound ∧ (stop = .exhausted → ∀ row ∈ rows, row.id ≤ t.consumed) ∧
    (stop = .more → t.events ≠ []) := by
  induction rows generalizing s with
  | nil =>
    obtain ⟨rfl, rfl⟩ := Prod.mk.inj hscan
    refine ⟨⟨[], by simp, by simp⟩, le_rfl, Or.inl rfl, hsound, fun _ row hrow => ?_, fun h => ?_⟩
    · exact absurd hrow List.not_mem_nil
    · cases h
  | cons row rows ih =>
    obtain ⟨hfirst, hsorted⟩ := List.pairwise_cons.mp hsorted
    have hrow := hpast row List.mem_cons_self
    rw [Reader.scan] at hscan
    split_ifs at hscan with hhidden hoversize
    · -- a hidden row is consumed
      obtain ⟨⟨events, hevents, htells⟩, hle, hwhere, hsound', hall, hmore⟩ :=
        ih hsorted hfirst (hsound.consume hrow.le) hscan
      dsimp only at hle hevents
      refine ⟨⟨events, hevents, ?_⟩, hrow.le.trans hle, Or.inr ?_, hsound', fun h x hx => ?_, hmore⟩
      · rw [List.filter_cons_of_pos (by simpa using hle), List.filter_cons_of_neg (by simp [hhidden])]
        exact htells
      · rcases hwhere with hwhere | ⟨x, hx, hwhere⟩
        · exact ⟨row, List.mem_cons_self, hwhere.symm⟩
        · exact ⟨x, List.mem_cons_of_mem _ hx, hwhere⟩
      · rcases List.mem_cons.mp hx with rfl | hx
        · exact hle
        · exact hall h x hx
    · obtain ⟨-, rfl⟩ := Prod.mk.inj hscan
      exact absurd rfl hstop
    · dsimp only at hscan
      split_ifs at hscan with htoo hfull
      · obtain ⟨-, rfl⟩ := Prod.mk.inj hscan
        exact absurd rfl hstop
      · -- there is no room for this row, so an event came before it
        obtain ⟨rfl, rfl⟩ := Prod.mk.inj hscan
        have hnone : (row :: rows).filter (fun x => decide (x.id ≤ s.consumed)) = [] := by
          rw [List.filter_eq_nil_iff]
          intro x hx
          simpa using hpast x hx
        refine ⟨⟨[], by simp, ?_⟩, le_rfl, Or.inl rfl, ⟨hsound.last, hsound.room⟩,
          (fun h => nomatch h), fun _ hempty => ?_⟩
        · dsimp only
          rw [hnone]
          exact List.Forall₂.nil
        · have hroom := hsound.room hempty
          rw [hroom] at hfull
          omega
      · -- the row is told
        set id := s.keys.seal row.id rd.cursorBinding now with hid
        set event := rd.event codec row id.1 with hevent
        have hposition : event.id.position = row.id := rfl
        obtain ⟨⟨events, hevents, htells⟩, hle, hwhere, hsound', hall, hmore⟩ :=
          ih hsorted hfirst (Scan.Sound.deliver hposition) hscan
        have hshown : rd.shows row = true := by simpa using hhidden
        have hle : row.id ≤ t.consumed := hle
        refine ⟨⟨event :: events, ?_, ?_⟩, hrow.le.trans hle, Or.inr ?_, hsound',
          fun h x hx => ?_, hmore⟩
        · rw [hevents, Scan.deliver, List.append_assoc, List.singleton_append]
        · rw [List.filter_cons_of_pos (by simpa using hle), List.filter_cons_of_pos hshown]
          exact List.Forall₂.cons ⟨hposition, rfl⟩ htells
        · rcases hwhere with hwhere | ⟨x, hx, hwhere⟩
          · exact ⟨row, List.mem_cons_self, hwhere.symm⟩
          · exact ⟨x, List.mem_cons_of_mem _ hx, hwhere⟩
        · rcases List.mem_cons.mp hx with rfl | hx
          · exact hle
          · exact hall h x hx

/-! ## The page -/

theorem forall₂_told {events : List Event} (h : List.Forall₂ (Tells codec rd) events rows) :
    events.map (fun e => e.id.position) = rows.map Row.id := by
  induction h with
  | nil => rfl
  | cons he _ ih => rw [List.map_cons, List.map_cons, he.1, ih]

/-- The page of a finished scan gives the place the scan stopped at, or the newest. -/
theorem position_page (stop : Stop) (b : Binding) (now : ℤ) {head : Cursor} {newest : ℤ}
    (hsound : s.Sound) (hhead : head.position = newest) :
    (s.page stop newest head b now).1.nextAfter.position =
      if stop = .more then s.consumed else newest := by
  unfold Scan.page
  by_cases hmore : stop = .more
  · rw [if_pos hmore, if_pos hmore]
    rfl
  · rw [if_neg hmore, if_neg hmore]
    cases hlast : s.events.getLast? with
    | none => exact hhead
    | some e =>
      dsimp only
      split_ifs with hnewest
      · rw [← (hsound.last e hlast).1, hnewest]
      · exact hhead

theorem events_page {head : Cursor} {b : Binding} {newest : ℤ} :
    (s.page stop newest head b now).1.events = s.events := by
  unfold Scan.page
  by_cases hmore : stop = .more
  · rw [if_pos hmore]
  · rw [if_neg hmore]
    cases hlast : s.events.getLast? with
    | none => exact (List.getLast?_eq_none_iff.mp hlast).symm
    | some e => rfl

theorem more_page {head : Cursor} {b : Binding} {newest : ℤ} :
    (s.page stop newest head b now).1.more = decide (stop = .more) := by
  unfold Scan.page
  by_cases hmore : stop = .more
  · simp [hmore]
  · rw [if_neg hmore]
    cases s.events.getLast? <;> simp [hmore]

/-- What a page after `after` tells of the ring. -/
structure Page.Follows (codec : Codec) (rd : Reader) (r : Ring) (after : ℤ) (p : Page) : Prop where
  tells : List.Forall₂ (Tells codec rd) p.events (told rd r.rows after p.nextAfter.position)
  forward : after ≤ p.nextAfter.position
  newest : p.nextAfter.position ≤ r.seq
  rest : p.more = false → p.nextAfter.position = r.seq
  full : p.more = true → p.events ≠ []

theorem Ring.le_of_gap {after : ℤ} (h : r.gap after = false) : after ≤ r.seq := by
  by_contra hlate
  rw [Ring.gap, decide_eq_true (not_le.mp hlate)] at h
  simp at h

theorem follows_page {after : ℤ} {head : Cursor} {b : Binding} (hgap : r.gap after = false)
    (hhead : head.position = r.seq) (hstop : stop ≠ .resync)
    (hscan : rd.scan codec now (r.after after) ⟨keys, (pageBytes - pageReserve : ℕ), after, -1, []⟩ =
      (t, stop)) :
    (t.page stop r.seq head b now).1.Follows codec rd r after := by
  have hafter := Ring.le_of_gap hgap
  have hstart : (⟨keys, (pageBytes - pageReserve : ℕ), after, -1, []⟩ : Scan).Sound :=
    ⟨fun e he => by simp at he, fun _ => rfl⟩
  obtain ⟨⟨events, hevents, htells⟩, hle, hwhere, hsound, hall, hmore⟩ :=
    scan_spec (between_pairwise r.sorted) (fun row hrow => (mem_between.mp hrow).2.1) hstart hscan
      hstop
  have hposition := position_page stop b now hsound hhead
  have hstops : t.consumed ≤ r.seq := by
    rcases hwhere with hwhere | ⟨row, hrow, hwhere⟩
    · rw [hwhere]
      exact hafter
    · rw [← hwhere]
      exact (mem_between.mp hrow).2.2
  rw [List.nil_append] at hevents
  refine ⟨?_, ?_, ?_, ?_, ?_⟩
  · rw [events_page, hevents, hposition]
    unfold told
    split_ifs with hfull
    · rw [← between_filter_le hstops]
      exact htells
    · -- all the rows were read
      have hexhausted : stop = .exhausted := by
        cases stop with
        | exhausted => rfl
        | more => exact absurd rfl hfull
        | resync => exact absurd rfl hstop
      have hread : (between Row.id r.rows after r.seq).filter
          (fun row => decide (row.id ≤ t.consumed)) = between Row.id r.rows after r.seq :=
        List.filter_eq_self.mpr fun row hrow => decide_eq_true (hall hexhausted row hrow)
      dsimp only at htells
      rw [hread] at htells
      exact htells
  · rw [hposition]
    split_ifs with hfull
    · exact hle
    · exact hafter
  · rw [hposition]
    split_ifs with hfull
    · exact hstops
    · exact le_rfl
  · intro hrest
    rw [more_page] at hrest
    rw [hposition, if_neg (by simpa using hrest)]
  · intro hfull
    rw [more_page] at hfull
    rw [events_page]
    exact hmore (by simpa using hfull)

/-- **A page** tells the rows after the reader's position that the reader may see, up to the position
it gives, and there is no gap between them. -/
theorem read_page {cursor : Raw} {p : Page}
    (h : read codec rd r keys now cursor = (.page p, keys')) :
    (cursor = .empty ∧ p.events = [] ∧ p.nextAfter.position = r.seq ∧ p.more = false) ∨
    ∃ c, cursor = .sealed c ∧ r.gap c.position = false ∧ p.Follows codec rd r c.position := by
  unfold read at h
  dsimp only at h
  split at h
  · rename_i hempty
    obtain ⟨hp, -⟩ := Prod.mk.inj h
    obtain rfl := Answer.page.inj hp
    exact Or.inl ⟨hempty, rfl, rfl, rfl⟩
  · split at h
    · cases (Prod.mk.inj h).1
    · rename_i after hopened
      obtain ⟨c, hc, rfl, -, -⟩ := eq_of_opened hopened
      split_ifs at h with hbehind hresync
      · cases (Prod.mk.inj h).1
      · cases (Prod.mk.inj h).1
      · have hgap : r.gap c.position = false :=
          Bool.eq_false_iff.mpr fun hgap => hbehind (Or.inl hgap)
        obtain ⟨hp, -⟩ := Prod.mk.inj h
        obtain rfl := Answer.page.inj hp
        exact Or.inr ⟨c, hc, hgap, follows_page hgap position_seal hresync rfl⟩

theorem read_resync {cursor : Raw} {head : Cursor} {at_ : ℤ}
    (h : read codec rd r keys now cursor = (.resync head at_, keys')) : head.position = r.seq := by
  unfold read at h
  dsimp only at h
  split at h
  · cases h
  · split at h
    · obtain ⟨hp, -⟩ := Prod.mk.inj h
      obtain ⟨rfl, -⟩ := Answer.resync.inj hp
      rfl
    · split_ifs at h with hbehind hresync
      · obtain ⟨hp, -⟩ := Prod.mk.inj h
        obtain ⟨rfl, -⟩ := Answer.resync.inj hp
        rfl
      · obtain ⟨hp, -⟩ := Prod.mk.inj h
        obtain ⟨rfl, -⟩ := Answer.resync.inj hp
        rfl
      · cases (Prod.mk.inj h).1

end Portico.EventFeed
