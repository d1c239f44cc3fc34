import Portico.Derive.Worker

/-!
# What a batch does

A batch takes an id off the queue only when its drain finished the id at the revision it was queued
at. It moves the cursor of a rebuild over ids that it queued or that the drain finished, and ends
the rebuild only when no source id is left after the cursor.

## Main results

* `finish_sound`: what the drain of a batch and its acknowledgements do
* `sound_drainDomain`: what a batch does
-/

namespace Portico.Derive

variable {c c' : Catalog} {w w' : Worker} {d : Derivation} {domain limit other : ℕ} {x : ℤ}
  {keys : List (Revised ℤ)} {prefixIDs : List ℤ}

/-- The drain ran on `x` at the revision it had in the queue, from its start to its
acknowledgement, and reported it finished. -/
def Report.Finished (r : Report) (domain : ℕ) (x : ℤ) : Prop :=
  r.domain = domain ∧ x ∈ r.done ∧
    ∃ key ∈ r.keys, key.id = x ∧ key ∈ r.started.rows ∧ key ∈ r.ended.rows

/-- The drain ran on `x` and reported it finished. -/
def Report.Done (r : Report) (domain : ℕ) (x : ℤ) : Prop :=
  r.domain = domain ∧ x ∈ r.done ∧ x ∈ r.keys.map Revised.id

theorem Report.Finished.done {r : Report} (h : r.Finished domain x) : r.Done domain x := by
  obtain ⟨hdomain, hdone, key, hkey, rfl, -, -⟩ := h
  exact ⟨hdomain, hdone, List.mem_map_of_mem hkey⟩

/-- A rebuild's enumeration has passed `x`. -/
def Behind (c : Catalog) (domain : ℕ) (x : ℤ) : Prop :=
  ∃ row, c.derivations domain = some row ∧ row.rebuilding = true ∧ x ≤ row.rebuildCursor

theorem Behind.congr (h : Behind c domain x) (heq : c'.derivations domain = c.derivations domain) :
    Behind c' domain x := by
  obtain ⟨row, hrow, hbehind⟩ := h
  exact ⟨row, heq.trans hrow, hbehind⟩

theorem rebuilding_eq_true : rebuilding c domain = true ↔
    ∃ row, c.derivations domain = some row ∧ row.rebuilding = true := by
  unfold rebuilding
  cases c.derivations domain <;> simp

theorem behind_of_cursor (h : rebuilding c domain = true) (hx : x ≤ cursorOf c domain) :
    Behind c domain x := by
  obtain ⟨row, hrow, hreb⟩ := rebuilding_eq_true.mp h
  exact ⟨row, hrow, hreb, by simpa [cursorOf, hrow] using hx⟩

theorem Behind.rebuilding (h : Behind c domain x) : rebuilding c domain = true := by
  obtain ⟨row, hrow, hreb, -⟩ := h
  exact rebuilding_eq_true.mpr ⟨row, hrow, hreb⟩

/-! ## Enumerations -/

/-- An enumeration that comes to `y` meets every source id up to it. -/
theorem Enumerates.meets {sources : Sources} {after y : ℤ} {ids : List ℤ}
    (h : Enumerates sources after limit ids) (hx : x ∈ sources.ids) (hy : y ∈ ids) (hxy : x ≤ y) :
    x ≤ after ∨ x ∈ ids := by
  by_cases hafter : x ≤ after
  · exact Or.inl hafter
  · rcases eq_or_lt_of_le hxy with rfl | hlt
    · exact Or.inr hy
    · exact Or.inr (h.gapless y hy x hx (not_le.mp hafter) hlt)

/-- In an ordered list, what comes before a member of a prefix is in the prefix. -/
theorem mem_prefix_of_le {l p : List ℤ} (hl : l.Pairwise (· ≤ ·)) (hp : p <+: l) {y : ℤ}
    (hy : y ∈ p) (hx : x ∈ l) (hxy : x ≤ y) : x ∈ p := by
  obtain ⟨rest, rfl⟩ := hp
  rcases List.mem_append.mp hx with hx | hx
  · exact hx
  · have hyx := (List.pairwise_append.mp hl).2.2 y hy x hx
    obtain rfl := le_antisymm hxy hyx
    exact hy

theorem covered_sound (hlimit : 0 < limit) (hx : x ∈ (c.sources domain).ids) {cursor y : ℤ}
    {p : List ℤ} (hp : p <+: covered c d domain cursor limit keys) (hy : y ∈ p) (hxy : x ≤ y) :
    x ≤ cursor ∨ x ∈ p := by
  have henum := d.enumerates (c.sources domain) cursor limit hlimit
  have hsegment : p <+: (d.backfill (c.sources domain) cursor limit).insertionSort (· ≤ ·) :=
    hp.trans (List.takeWhile_prefix _)
  have hy' : y ∈ d.backfill (c.sources domain) cursor limit :=
    (List.mem_insertionSort _).mp (hsegment.subset hy)
  refine (henum.meets hx hy' hxy).imp_right fun hmem => ?_
  exact mem_prefix_of_le (List.pairwise_insertionSort _ _) hsegment hy
    ((List.mem_insertionSort _).mpr hmem) hxy

theorem covered_subset {cursor : ℤ} (h : x ∈ covered c d domain cursor limit keys) :
    x ∈ keys.map Revised.id := by
  simpa using List.mem_takeWhile_imp h

theorem mem_of_through {done : List ℤ} (h : 0 < through prefixIDs done) :
    through prefixIDs done ∈ prefixIDs.takeWhile fun id => id ∈ done := by
  unfold through at h ⊢
  cases hlist : prefixIDs.takeWhile fun id => id ∈ done with
  | nil =>
    rw [hlist] at h
    exact absurd h (lt_irrefl 0)
  | cons id ids =>
    rw [List.getLastD_cons]
    exact List.getLastD_mem_cons

/-! ## The drain and its acknowledgements -/

/-- What a committed transaction may do to a domain: it takes off the queue what its drain finished,
moves the cursor of a rebuild over source ids it queued or that its drain finished, and ends a
rebuild when no source id is left after the cursor. -/
structure Sound (other : ℕ) (c c' : Catalog) (r : Option Report) : Prop where
  takes : ∀ x ∈ c.queued other,
    x ∈ c'.queued other ∨ ∃ report, r = some report ∧ report.Finished other x
  passes : ∀ x ∈ (c.sources other).ids, Behind c' other x →
    Behind c other x ∨ x ∈ c'.queued other ∨ ∃ report, r = some report ∧ report.Done other x
  ends : ∀ x ∈ (c.sources other).ids, rebuilding c other = true → rebuilding c' other = false →
    Behind c other x ∨ x ∈ c'.queued other ∨ ∃ report, r = some report ∧ report.Done other x

theorem queued_write {work : Work} (h : x ∈ c.queued domain) : x ∈ (c.write work).queued domain :=
  Catalog.queued_touchMany h

@[simp] theorem derivations_write {work : Work} : (c.write work).derivations = c.derivations :=
  Catalog.derivations_touchMany

theorem rebuilding_congr (h : c'.derivations domain = c.derivations domain) :
    rebuilding c' domain = rebuilding c domain := by
  rw [rebuilding, h, rebuilding]

theorem sound_of_queues (hq : ∀ x ∈ c.queued other, x ∈ c'.queued other)
    (hrows : c'.derivations other = c.derivations other) {r : Option Report} :
    Sound other c c' r where
  takes x h := Or.inl (hq x h)
  passes x _ h := Or.inl (h.congr hrows.symm)
  ends x _ h h' := by
    rw [rebuilding_congr hrows, h] at h'
    exact absurd h' (by decide)

theorem Sound.refl {r : Option Report} : Sound other c c r := sound_of_queues (fun _ h => h) rfl

theorem Sound.trans {c₁ : Catalog} {r : Option Report} (h : Sound other c c₁ none)
    (h' : Sound other c₁ c' r) (hsources : c₁.sources = c.sources) : Sound other c c' r := by
  have hfirst : ∀ x, Behind c other x ∨ x ∈ c₁.queued other ∨
      (∃ report, (none : Option Report) = some report ∧ report.Done other x) →
      Behind c other x ∨ x ∈ c'.queued other ∨
        ∃ report, r = some report ∧ report.Done other x := by
    rintro x (hb | hq | ⟨report, hr, -⟩)
    · exact Or.inl hb
    · refine Or.inr ((h'.takes x hq).imp_right ?_)
      rintro ⟨report, hr, hfinished⟩
      exact ⟨report, hr, hfinished.done⟩
    · cases hr
  have hpasses : ∀ x ∈ (c.sources other).ids, Behind c₁ other x ∨
      x ∈ c'.queued other ∨ (∃ report, r = some report ∧ report.Done other x) →
      Behind c other x ∨ x ∈ c'.queued other ∨
        ∃ report, r = some report ∧ report.Done other x := by
    rintro x hx (hb | hrest)
    · exact hfirst x (h.passes x hx hb)
    · exact Or.inr hrest
  constructor
  · intro x hx
    rcases h.takes x hx with hx | ⟨report, hr, -⟩
    · exact h'.takes x hx
    · cases hr
  · intro x hx hb
    exact hpasses x hx (h'.passes x (hsources ▸ hx) hb)
  · intro x hx hreb hreb'
    cases hmid : rebuilding c₁ other with
    | true => exact hpasses x hx (h'.ends x (hsources ▸ hx) hmid hreb')
    | false => exact hfirst x (h.ends x hx hreb hmid)

theorem sound_write {work : Work} {r : Option Report} : Sound other c (c.write work) r :=
  sound_of_queues (fun _ => queued_write) (congrFun derivations_write other)

theorem rebuilding_setRow_cursor {y : ℤ} :
    rebuilding (c.setRow domain fun row => { row with rebuildCursor := y }) = rebuilding c := by
  funext d
  rw [rebuilding, Catalog.derivations_setRow]
  split_ifs
  · cases h : c.derivations d <;> simp [rebuilding, h]
  · rfl

theorem behind_setRow_cursor {y : ℤ}
    (h : Behind (c.setRow domain fun row => { row with rebuildCursor := y }) other x) :
    Behind c other x ∨ other = domain ∧ x ≤ y := by
  obtain ⟨row, hrow, hreb, hx⟩ := h
  rw [Catalog.derivations_setRow] at hrow
  split_ifs at hrow with hd
  · obtain ⟨row, -, rfl⟩ := Option.map_eq_some_iff.mp hrow
    exact Or.inr ⟨hd, hx⟩
  · exact Or.inl ⟨row, hrow, hreb, hx⟩

/-- **A drain and its acknowledgements.** The batch is of queued rows, and the covered prefix holds
every source id after the cursor up to each of its members. -/
theorem finish_sound {backfilled : Bool} {drain : Option Drain} {units : ℕ} {id : ℤ}
    {r : Option Report} (hkeys : ∀ key ∈ keys, key ∈ (c.dirty domain).rows)
    (hin : ∀ x ∈ prefixIDs, x ∈ keys.map Revised.id)
    (hsegment : ∀ x ∈ (c.sources domain).ids, ∀ p, p <+: prefixIDs → ∀ y ∈ p, x ≤ y →
      x ≤ cursorOf c domain ∨ x ∈ p)
    (h : finish c w domain keys prefixIDs backfilled drain = .committed c' w' units id r) :
    Sound other c c' r := by
  cases drain with
  | none => cases h
  | some drain =>
    simp only [finish, Turned.committed.injEq] at h
    obtain ⟨rfl, -, -, -, rfl⟩ := h
    set worked := c.write { touched := drain.touched, sources := drain.sources } with hworked
    have hrows : worked.derivations = c.derivations := derivations_write
    -- The move of the cursor leaves the queue, and every flag, as they are.
    set moved := if 0 < through prefixIDs drain.done then
        worked.setRow domain fun row => { row with rebuildCursor := through prefixIDs drain.done }
      else worked with hmoved
    have hqueue : moved.dirty = worked.dirty := by
      rw [hmoved]
      split_ifs <;> rfl
    have hflags : rebuilding moved = rebuilding c := by
      rw [hmoved]
      split_ifs
      · rw [rebuilding_setRow_cursor]
        funext d
        exact rebuilding_congr (congrFun hrows d)
      · funext d
        exact rebuilding_congr (congrFun hrows d)
    constructor
    · intro x hx
      have hmid : x ∈ moved.queued other := by
        rw [Catalog.queued, hqueue]
        exact queued_write hx
      refine (Catalog.acknowledgeDone_takes domain keys drain.done hmid).imp_right ?_
      rintro ⟨rfl, hdone, key, hkey, hid, hrow⟩
      refine ⟨_, rfl, rfl, hdone, key, hkey, hid, hkeys key hkey, ?_⟩
      rwa [hqueue] at hrow
    · intro x hx hbehind
      have hback : Behind moved other x :=
        hbehind.congr (congrFun Catalog.derivations_acknowledgeDone.symm other)
      by_cases hthrough : 0 < through prefixIDs drain.done
      · rw [hmoved, if_pos hthrough] at hback
        rcases behind_setRow_cursor hback with hback | ⟨rfl, hle⟩
        · exact Or.inl (hback.congr (congrFun hrows.symm other))
        · -- An id up to the new cursor was passed before, or is in the finished prefix.
          have hlast := mem_of_through hthrough
          rcases hsegment x hx _ (List.takeWhile_prefix _) _ hlast hle with hcursor | hmem
          · obtain ⟨row, hrow, hreb, -⟩ := hbehind
            have hflag : rebuilding moved other = true := by
              apply Behind.rebuilding (x := x)
              rw [hmoved, if_pos hthrough]
              exact hback
            exact Or.inl (behind_of_cursor (hflags ▸ hflag) hcursor)
          · refine Or.inr (Or.inr ⟨_, rfl, rfl, ?_, ?_⟩)
            · simpa using List.mem_takeWhile_imp hmem
            · exact hin x ((List.takeWhile_prefix _).subset hmem)
      · rw [hmoved, if_neg hthrough] at hback
        exact Or.inl (hback.congr (congrFun hrows.symm other))
    · intro x _ hreb hreb'
      rw [rebuilding_congr (congrFun Catalog.derivations_acknowledgeDone other), hflags, hreb]
        at hreb'
      exact absurd hreb' (by decide)

/-! ## Batches -/

theorem takeQueued_keys (w : Worker) (rows : List (Revised ℤ)) (domain limit : ℕ)
    (reb retry : Bool) :
    ∀ key ∈ (takeQueued w rows domain limit reb retry).1, key ∈ rows := by
  intro key hkey
  have hfilter : ∀ {p : Revised ℤ → Bool} {n : ℕ} {l : List (Revised ℤ)},
      key ∈ (l.filter p).take n → key ∈ l :=
    fun h => List.mem_of_mem_filter (List.mem_of_mem_take h)
  unfold takeQueued at hkey
  simp only at hkey
  split_ifs at hkey with hretry hagain hturn hassets hnone
  · exact hfilter hkey
  · exact hfilter hkey
  · exact List.mem_of_mem_filter (List.mem_of_mem_take hkey)
  · exact List.mem_of_mem_filter (hfilter hkey)
  · exact hfilter hkey
  · exact absurd hkey List.not_mem_nil

/-- The registry and a set-aside that is due stay. -/
def Worker.Kept (w w' : Worker) : Prop := w'.registry = w.registry ∧ w'.failing = w.failing

theorem Worker.Kept.refl (w : Worker) : w.Kept w := ⟨rfl, rfl⟩

theorem takeQueued_kept (w : Worker) (rows : List (Revised ℤ)) (domain limit : ℕ)
    (reb retry : Bool) :
    w.Kept (takeQueued w rows domain limit reb retry).2 := by
  have hturned : w.Kept (w.turned domain reb) := by
    unfold Worker.turned
    split_ifs
    · exact ⟨rfl, rfl⟩
    · exact Worker.Kept.refl w
  unfold takeQueued
  simp only
  split_ifs <;> exact hturned

theorem derivations_setRow_other {f : Row → Row} (h : other ≠ domain) :
    (c.setRow domain f).derivations other = c.derivations other := by
  rw [Catalog.derivations_setRow, if_neg h]

theorem sound_setRow {f : Row → Row} (hflag : ∀ row, (f row).rebuilding = row.rebuilding)
    (hcursor : ∀ row, (f row).rebuildCursor = row.rebuildCursor) :
    Sound other c (c.setRow domain f) none where
  takes x h := Or.inl h
  passes x _ h := by
    obtain ⟨row, hrow, hreb, hx⟩ := h
    rw [Catalog.derivations_setRow] at hrow
    split_ifs at hrow
    · obtain ⟨old, hold, rfl⟩ := Option.map_eq_some_iff.mp hrow
      exact Or.inl ⟨old, hold, hflag old ▸ hreb, hcursor old ▸ hx⟩
    · exact Or.inl ⟨row, hrow, hreb, hx⟩
  ends x _ h h' := by
    obtain ⟨row, hrow, hreb⟩ := rebuilding_eq_true.mp h
    refine absurd (rebuilding_eq_true.mpr ?_) (Bool.eq_false_iff.mp h')
    rw [Catalog.derivations_setRow]
    split_ifs
    · exact ⟨f row, by rw [hrow, Option.map_some], (hflag row).trans hreb⟩
    · exact ⟨row, hrow, hreb⟩

theorem enumerate_exhausted (hlimit : 0 < limit)
    (h : enumerate c d domain (cursorOf c domain) limit = .exhausted c') :
    Sound other c c' none := by
  have henum := d.enumerates (c.sources domain) (cursorOf c domain) limit hlimit
  unfold enumerate at h
  split at h
  · rename_i hsorted
    have hnil : d.backfill (c.sources domain) (cursorOf c domain) limit = [] :=
      List.eq_nil_iff_forall_not_mem.mpr fun id hid =>
        List.not_mem_nil (hsorted ▸ (List.mem_insertionSort (· ≤ ·)).mpr hid)
    obtain rfl := Enumeration.exhausted.inj h
    constructor
    · intro x hx
      exact Or.inl hx
    · intro x _ hbehind
      by_cases hother : other = domain
      · obtain ⟨row, hrow, hreb, -⟩ := hbehind
        rw [Catalog.derivations_setRow, if_pos hother] at hrow
        obtain ⟨old, -, rfl⟩ := Option.map_eq_some_iff.mp hrow
        cases hreb
      · exact Or.inl (hbehind.congr (derivations_setRow_other hother).symm)
    · intro x hx hreb hreb'
      by_cases hother : other = domain
      · subst hother
        exact Or.inl (behind_of_cursor hreb (henum.exhausted hnil x hx))
      · rw [rebuilding_congr (derivations_setRow_other hother), hreb] at hreb'
        exact absurd hreb' (by decide)
  · cases h

/-- The next ids of a rebuild are queued, and the cursor is at the last of them. -/
theorem enumerate_next (hlimit : 0 < limit) (hreb : rebuilding c domain = true)
    (h : enumerate c d domain (cursorOf c domain) limit = .next c' keys) :
    Sound other c c' none ∧ c'.sources = c.sources ∧ (∀ key ∈ keys, key ∈ (c'.dirty domain).rows) ∧
      ∀ x ∈ (c.sources domain).ids, ∀ key, keys = [key] → x < key.id → Behind c domain x := by
  have henum := d.enumerates (c.sources domain) (cursorOf c domain) limit hlimit
  unfold enumerate at h
  split at h
  · cases h
  · rename_i id ids hsorted
    simp only [Enumeration.next.injEq] at h
    obtain ⟨rfl, rfl⟩ := h
    have hmem : ∀ y, y ∈ id :: ids ↔ y ∈ d.backfill (c.sources domain) (cursorOf c domain) limit :=
      fun y => by rw [← hsorted, List.mem_insertionSort]
    have hlast : ids.getLastD id ∈ id :: ids := List.getLastD_mem_cons
    have hmeets : ∀ x ∈ (c.sources domain).ids, ∀ y ∈ id :: ids, x ≤ y →
        Behind c domain x ∨ x ∈ id :: ids := by
      intro x hx y hy hxy
      refine (henum.meets hx ((hmem y).mp hy) hxy).imp (behind_of_cursor hreb) (hmem x).mpr
    refine ⟨⟨?_, ?_, ?_⟩, rfl, fun key hkey => List.mem_of_mem_filter hkey, ?_⟩
    · intro x hx
      exact Or.inl (Catalog.mem_queued_touch.mpr (Or.inr hx))
    · intro x hx hbehind
      rcases behind_setRow_cursor hbehind with hbehind | ⟨rfl, hle⟩
      · exact Or.inl hbehind
      · refine (hmeets x hx _ hlast hle).imp_right fun hin => Or.inl ?_
        exact Catalog.mem_queued_touch.mpr (Or.inl ⟨rfl, hin⟩)
    · intro x _ h h'
      change rebuilding (c.setRow domain fun row => { row with rebuildCursor := _ }) other = _ at h'
      rw [rebuilding_setRow_cursor, h] at h'
      exact absurd h' (by decide)
    · -- The batch holds every id of the answer, so a batch of one is all of it.
      intro x hx key hkey hlt
      have hall : ∀ y ∈ id :: ids, y = key.id := by
        intro y hy
        have hqueued := Catalog.mem_queued_touch (c := c.setRow domain fun row =>
          { row with rebuildCursor := ids.getLastD id }) (d := domain) (x := y).mpr
          (Or.inl ⟨rfl, hy⟩)
        obtain ⟨row, hrow, rfl⟩ := RevisionQueue.mem_ids.mp hqueued
        have hone : row ∈ [key] := by
          rw [← hkey]
          exact List.mem_filter.mpr ⟨hrow, decide_eq_true hy⟩
        rw [List.mem_singleton.mp hone]
      have hid : key.id ∈ id :: ids := by
        rw [← hall id List.mem_cons_self]
        exact List.mem_cons_self
      rcases hmeets x hx key.id hid hlt.le with hbehind | hin
      · exact hbehind
      · exact absurd (hall x hin) hlt.ne

theorem batch_pos (h : 1 ≤ limit) {retry : Bool} : 0 < w.batch domain limit retry := by
  unfold Worker.batch
  split_ifs
  · exact Nat.one_pos
  · exact h

theorem covered_prefix (c : Catalog) (d : Derivation) (domain : ℕ) (keys : List (Revised ℤ))
    (covers : Bool) (hlimit : 0 < limit) :
    (∀ x ∈ (if covers then covered c d domain (cursorOf c domain) limit keys else []),
      x ∈ keys.map Revised.id) ∧
    ∀ x ∈ (c.sources domain).ids, ∀ p,
      p <+: (if covers then covered c d domain (cursorOf c domain) limit keys else []) →
        ∀ y ∈ p, x ≤ y → x ≤ cursorOf c domain ∨ x ∈ p := by
  cases covers with
  | true =>
    exact ⟨fun x hx => covered_subset hx, fun x hx p hp y hy => covered_sound hlimit hx hp hy⟩
  | false =>
    refine ⟨fun x hx => absurd hx List.not_mem_nil, fun x _ p hp y hy => ?_⟩
    exact absurd (hp.subset hy) List.not_mem_nil

/-- What a batch comes to: it committed something sound, or it failed, and then an id that the
enumeration gave it alone has no source id before it that wasn't passed. -/
def Turned.Sound (other : ℕ) (c : Catalog) (w : Worker) (domain : ℕ) : Turned → Prop
  | .committed c' w' _ _ r => Derive.Sound other c c' r ∧ w.Kept w'
  | .failed w' id backfilled =>
    w.Kept w' ∧
      (backfilled = true → id ≠ 0 → ∀ x ∈ (c.sources domain).ids, x < id → Behind c domain x)

theorem finish_turned {c₁ : Catalog} {backfilled : Bool} {drain : Option Drain}
    (hw : w.Kept w') (hfirst : Sound other c c₁ none) (hsources : c₁.sources = c.sources)
    (hkeys : ∀ key ∈ keys, key ∈ (c₁.dirty domain).rows)
    (hin : ∀ x ∈ prefixIDs, x ∈ keys.map Revised.id)
    (hsegment : ∀ x ∈ (c₁.sources domain).ids, ∀ p, p <+: prefixIDs → ∀ y ∈ p, x ≤ y →
      x ≤ cursorOf c₁ domain ∨ x ∈ p)
    (hone : backfilled = true → ∀ x ∈ (c.sources domain).ids, ∀ key, keys = [key] → x < key.id →
      Behind c domain x) :
    (finish c₁ w' domain keys prefixIDs backfilled drain).Sound other c w domain := by
  cases hfinish : finish c₁ w' domain keys prefixIDs backfilled drain with
  | committed c' w'' units id r =>
    have hworker : w'' = w' := by
      cases drain with
      | none => cases hfinish
      | some drain => exact (Turned.committed.inj hfinish).2.1.symm
    exact ⟨hfirst.trans (finish_sound hkeys hin hsegment hfinish) hsources, hworker ▸ hw⟩
  | failed w'' id backfilled' =>
    cases drain with
    | some drain => cases hfinish
    | none =>
      obtain ⟨rfl, rfl, rfl⟩ := Turned.failed.inj hfinish
      refine ⟨hw, fun hback hid x hx hlt => ?_⟩
      match keys, hone, hid, hlt with
      | [key], hone, _, hlt => exact hone hback x hx key rfl hlt
      | [], _, hid, _ => exact absurd rfl hid
      | _ :: _ :: _, _, hid, _ => exact absurd rfl hid

theorem sound_drainBatch (c : Catalog) (domain : ℕ) (retry : Bool) (drain : Option Drain)
    (hlimit : 1 ≤ limit) (hother : (w.registry other).isSome) :
    (drainBatch c w domain limit (rebuilding c domain) retry drain).Sound other c w domain := by
  have hbatch : 0 < w.batch domain limit retry := batch_pos hlimit
  have hkeys := takeQueued_keys w (c.dirty domain).rows domain limit (rebuilding c domain) retry
  have hkept := takeQueued_kept w (c.dirty domain).rows domain limit (rebuilding c domain) retry
  unfold drainBatch
  cases hd : w.registry domain with
  | none =>
    -- What an older build queued is dropped, and the domain that is looked at is another.
    have hne : other ≠ domain := by
      rintro rfl
      rw [hd] at hother
      cases hother
    refine ⟨sound_of_queues (fun x hx => ?_) ?_, Worker.Kept.refl w⟩
    · rw [Catalog.queued_setRow, Catalog.queued, Catalog.dirty_setQueue, if_neg hne]
      exact hx
    · exact derivations_setRow_other (c := c.setQueue domain _) hne
  | some d =>
    simp only
    generalize (rebuilding c domain && w.queueTurn domain (rebuilding c domain) && !retry) = covers
    generalize takeQueued w (c.dirty domain).rows domain limit (rebuilding c domain) retry = taken
      at hkeys hkept ⊢
    obtain ⟨keys, w'⟩ := taken
    cases keys with
    | cons key keys =>
      obtain ⟨hin, hsegment⟩ := covered_prefix c d domain (key :: keys) covers hbatch
      exact finish_turned hkept Sound.refl rfl hkeys hin hsegment fun hno => by cases hno
    | nil =>
      cases hreb : rebuilding c domain with
      | false => exact ⟨Sound.refl, hkept⟩
      | true =>
        simp only [if_pos]
        cases henum : enumerate c d domain (cursorOf c domain) (w.batch domain limit retry) with
        | exhausted c' => exact ⟨enumerate_exhausted hbatch henum, hkept⟩
        | next c' keys =>
          obtain ⟨hnext, hsources, hrows, hone⟩ := enumerate_next hbatch hreb henum
          obtain ⟨hin, hsegment⟩ := covered_prefix c' d domain keys covers hbatch
          exact finish_turned hkept hnext hsources hrows hin hsegment fun _ => hone

/-- **Batches.** To a registered domain a batch, of whichever domain, does something sound, or it
fails. -/
theorem sound_drainDomain {retry : Bool} {stale : ℕ} {drain : Option Drain} (hlimit : 1 ≤ limit)
    (hother : (w.registry other).isSome) :
    (drainDomain c w domain limit (rebuilding c domain) retry stale drain).Sound other c w
      domain := by
  unfold drainDomain
  split_ifs with hcleans hstale
  · exact ⟨Sound.refl, Worker.Kept.refl w⟩
  · -- Ending the cleaning leaves the queue, the flag and the cursor.
    set c₀ := c.setRow domain fun row => { row with cleaning := false } with hc₀
    have hsound : Sound other c c₀ none := sound_setRow (fun _ => rfl) fun _ => rfl
    have hflag : rebuilding c₀ domain = rebuilding c domain := by
      rw [rebuilding, rebuilding, hc₀, Catalog.derivations_setRow, if_pos rfl]
      cases c.derivations domain <;> rfl
    rw [← hflag]
    have hbatch := sound_drainBatch c₀ domain retry drain hlimit hother
    revert hbatch
    cases drainBatch c₀ w domain limit (rebuilding c₀ domain) retry drain with
    | committed c' w' units id r =>
      rintro ⟨hbatch, hw⟩
      exact ⟨hsound.trans hbatch rfl, hw⟩
    | failed w' id backfilled =>
      rintro ⟨hw, hone⟩
      refine ⟨hw, fun hback hid x hx hlt => ?_⟩
      obtain ⟨row, hrow, hreb, hle⟩ := hone hback hid x hx hlt
      rw [hc₀, Catalog.derivations_setRow, if_pos rfl] at hrow
      obtain ⟨old, hold, rfl⟩ := Option.map_eq_some_iff.mp hrow
      exact ⟨old, hold, hreb, hle⟩
  · exact sound_drainBatch c domain retry drain hlimit hother

end Portico.Derive
