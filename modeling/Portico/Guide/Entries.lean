import Portico.Lib.Table
import Portico.Guide.Store

/-!
# The guide: what its entries wait for

Every page and tile that is loading waits for a request or a timer, whatever is evicted, aborted or
replaced meanwhile.

## Main results

* `Sound.evict`, `Sound.pump`: the parts of planning keep it
-/

namespace Portico.Guide.Store

variable {χ δ : Type*} {s s' : Store χ δ} {p : ℕ} {b : ℤ} {k : ℕ × ℤ} {page : Page χ} {tile : Tile δ}
  {task : Task} {uid : ℕ} {timer : Option ℕ}

/-- An entry has a request under way that can still answer it, or a timer. -/
def Awaited (s : Store χ δ) (task : Task) (uid : ℕ) (timer : Option ℕ) : Prop :=
  (∃ r ∈ s.requests, r.task = task ∧ r.uid = uid ∧ r.aborted = false ∧ r.answered = false) ∨
    ∃ t ∈ s.timers, t.task = task ∧ t.uid = uid ∧ timer = some t.id

/-- Whether an entry is loading. -/
def Loading (s : Store χ δ) : Task → Prop
  | .page p => ∃ page, s.pages.get p = some page ∧ page.status = .loading
  | .tile p b => ∃ tile, s.tiles.get (p, b) = some tile ∧ tile.status = .loading

structure Counted (s : Store χ δ) : Prop where
  flight : s.inFlightCount = s.requests.length
  distinct : (s.requests.map Request.uid).Nodup
  numbered : ∀ r ∈ s.requests, r.uid < s.next
  timed : ∀ t ∈ s.timers, t.uid < s.next
  nested : ∀ k ∈ s.interestTiles, k.1 ∈ s.interestPages
  unseen : s.viewport = none → s.interestPages = [] ∧ s.interestTiles = []

/-- **What holds while the store plans.** -/
structure Sound (s : Store χ δ) : Prop extends Counted s where
  pageNumbered : ∀ p page, s.pages.get p = some page → page.uid < s.next
  tileNumbered : ∀ k tile, s.tiles.get k = some tile → tile.uid < s.next
  fenced : s.fence ≤ s.next
  dated : ∀ k tile, s.tiles.get k = some tile → tile.generation ≤ s.generation
  current : ∀ k tile, s.tiles.get k = some tile →
    tile.generation = s.generation ∨ tile.stale = false → s.fence ≤ tile.uid
  pageAwaited : ∀ p page, s.pages.get p = some page → page.status = .loading →
    s.Awaited (.page p) page.uid page.timer
  tileAwaited : ∀ p b tile, s.tiles.get (p, b) = some tile → tile.status = .loading →
    s.Awaited (.tile p b) tile.uid tile.timer
  /-- A tile that waits after a failure is not loading. -/
  failed : ∀ t ∈ s.timers, t.limited = false → ∀ p b tile, t.task = .tile p b →
    s.tiles.get (p, b) = some tile → tile.uid = t.uid → tile.status ≠ .loading
  idle : s.viewport = none ∨ s.disposed = true →
    s.pages.entries = [] ∧ s.tiles.entries = [] ∧ s.queue = []

/-! ## Aborting and clearing -/

@[simp] theorem abort_pages (gone : List (Task × ℕ)) : (s.abort gone).pages = s.pages := rfl
@[simp] theorem abort_tiles (gone : List (Task × ℕ)) : (s.abort gone).tiles = s.tiles := rfl
@[simp] theorem abort_timers (gone : List (Task × ℕ)) : (s.abort gone).timers = s.timers := rfl
@[simp] theorem clearTimers_pages (gone : List (Task × ℕ)) : (s.clearTimers gone).pages = s.pages := rfl
@[simp] theorem clearTimers_tiles (gone : List (Task × ℕ)) : (s.clearTimers gone).tiles = s.tiles := rfl
@[simp] theorem clearTimers_requests (gone : List (Task × ℕ)) :
    (s.clearTimers gone).requests = s.requests := rfl

/-- What is not loading needs no request and no timer: these may go. -/
theorem Awaited.abort {gone : List (Task × ℕ)} (h : s.Awaited task uid timer)
    (hgone : ∀ e ∈ gone, e.1 ≠ task) : (s.abort gone).Awaited task uid timer := by
  rcases h with ⟨r, hr, htask, huid, hab, han⟩ | htimer
  · refine .inl ⟨r, List.mem_map.mpr ⟨r, hr, if_neg fun hmem => ?_⟩, htask, huid, hab, han⟩
    exact hgone _ hmem htask
  · exact .inr htimer

theorem Awaited.clearTimers {gone : List (Task × ℕ)} (h : s.Awaited task uid timer)
    (hgone : ∀ e ∈ gone, e.1 ≠ task) : (s.clearTimers gone).Awaited task uid timer := by
  rcases h with hrequest | ⟨t, ht, htask, huid, htimer⟩
  · exact .inl hrequest
  · refine .inr ⟨t, List.mem_filter.mpr ⟨ht, decide_eq_true fun hmem => ?_⟩, htask, huid, htimer⟩
    exact hgone _ hmem htask

theorem uids_abort (gone : List (Task × ℕ)) :
    (s.abort gone).requests.map Request.uid = s.requests.map Request.uid := by
  unfold Store.abort
  rw [List.map_map]
  apply List.map_congr_left
  intro r _
  rw [Function.comp_apply]
  split_ifs <;> rfl

theorem Sound.abort {gone : List (Task × ℕ)} (h : Sound s) (hgone : ∀ e ∈ gone, ¬ s.Loading e.1) :
    Sound (s.abort gone) := by
  have huid := uids_abort (s := s) gone
  exact { h with
    flight := by
      rw [← List.length_map (f := Request.uid), huid, List.length_map]
      exact h.flight
    distinct := huid ▸ h.distinct
    numbered := fun r hr => by
      have := List.mem_map_of_mem (f := Request.uid) hr
      rw [huid] at this
      obtain ⟨x, hx, heq⟩ := List.mem_map.mp this
      exact heq ▸ h.numbered x hx
    pageAwaited := fun p page hget hloading =>
      (h.pageAwaited p page hget hloading).abort fun e he heq =>
        hgone e he (heq ▸ ⟨page, hget, hloading⟩)
    tileAwaited := fun p b tile hget hloading =>
      (h.tileAwaited p b tile hget hloading).abort fun e he heq =>
        hgone e he (heq ▸ ⟨tile, hget, hloading⟩) }

theorem Sound.clearTimers {gone : List (Task × ℕ)} (h : Sound s)
    (hgone : ∀ e ∈ gone, ¬ s.Loading e.1) : Sound (s.clearTimers gone) :=
  { h with
    timed := fun t ht => h.timed t (List.mem_filter.mp ht).1
    failed := fun t ht => h.failed t (List.mem_filter.mp ht).1
    pageAwaited := fun p page hget hloading =>
      (h.pageAwaited p page hget hloading).clearTimers fun e he heq =>
        hgone e he (heq ▸ ⟨page, hget, hloading⟩)
    tileAwaited := fun p b tile hget hloading =>
      (h.tileAwaited p b tile hget hloading).clearTimers fun e he heq =>
        hgone e he (heq ▸ ⟨tile, hget, hloading⟩) }

/-! ## Entries that go -/

theorem keep_nil {κ α : Type*} [DecidableEq κ] {m : OrderedMap κ α} {q : κ → α → Bool}
    (h : m.entries = []) : (m.keep q).entries = [] := by
  change m.entries.filter (fun e => q e.1 e.2) = []
  rw [h]
  rfl

theorem Sound.keepPages {q : ℕ → Page χ → Bool} (h : Sound s) :
    Sound { s with pages := s.pages.keep q } :=
  { h with
    pageNumbered := fun p page hget => h.pageNumbered p page (OrderedMap.get_keep_eq_some.mp hget).1
    pageAwaited := fun p page hget => h.pageAwaited p page (OrderedMap.get_keep_eq_some.mp hget).1
    idle := fun hidle => ⟨keep_nil (h.idle hidle).1, (h.idle hidle).2⟩ }

theorem Sound.keepTiles {q : ℕ × ℤ → Tile δ → Bool} (h : Sound s) :
    Sound { s with tiles := s.tiles.keep q } :=
  { h with
    tileNumbered := fun k tile hget => h.tileNumbered k tile (OrderedMap.get_keep_eq_some.mp hget).1
    dated := fun k tile hget => h.dated k tile (OrderedMap.get_keep_eq_some.mp hget).1
    current := fun k tile hget => h.current k tile (OrderedMap.get_keep_eq_some.mp hget).1
    tileAwaited := fun p b tile hget =>
      h.tileAwaited p b tile (OrderedMap.get_keep_eq_some.mp hget).1
    failed := fun t ht hlimited p b tile htask hget =>
      h.failed t ht hlimited p b tile htask (OrderedMap.get_keep_eq_some.mp hget).1
    idle := fun hidle => ⟨(h.idle hidle).1, keep_nil (h.idle hidle).2.1, (h.idle hidle).2.2⟩ }

theorem get_dropPages {gone : List (ℕ × Page χ)} :
    (s.dropPages gone).pages.get p = some page ↔
      s.pages.get p = some page ∧ p ∉ gone.map Prod.fst := by
  refine OrderedMap.get_keep_eq_some.trans ?_
  rw [decide_eq_true_eq]

theorem get_dropTiles {gone : List ((ℕ × ℤ) × Tile δ)} :
    (s.dropTiles gone).tiles.get k = some tile ↔
      s.tiles.get k = some tile ∧ k ∉ gone.map Prod.fst := by
  refine OrderedMap.get_keep_eq_some.trans ?_
  rw [decide_eq_true_eq]

theorem not_loading_page {gone : List (ℕ × Page χ)} {e : ℕ × Page χ} (he : e ∈ gone) :
    ¬ (s.dropPages gone).Loading (.page e.1) := by
  rintro ⟨page, hget, -⟩
  exact (get_dropPages.mp hget).2 (List.mem_map_of_mem he)

theorem not_loading_tile {gone : List ((ℕ × ℤ) × Tile δ)} {e : (ℕ × ℤ) × Tile δ} (he : e ∈ gone) :
    ¬ (s.dropTiles gone).Loading (.tile e.1.1 e.1.2) := by
  rintro ⟨tile, hget, -⟩
  exact (get_dropTiles.mp hget).2 (List.mem_map_of_mem he)

theorem Sound.dropPages (h : Sound s) (gone : List (ℕ × Page χ)) : Sound (s.dropPages gone) := by
  apply h.keepPages.abort
  intro e he
  obtain ⟨x, hx, rfl⟩ := List.mem_map.mp he
  exact not_loading_page hx

theorem Sound.dropTiles (h : Sound s) (gone : List ((ℕ × ℤ) × Tile δ)) : Sound (s.dropTiles gone) := by
  apply h.keepTiles.abort
  intro e he
  obtain ⟨x, hx, rfl⟩ := List.mem_map.mp he
  exact not_loading_tile hx

theorem Sound.evictPages (h : Sound s) (gone : List (ℕ × Page χ)) : Sound (s.evictPages gone) := by
  apply (h.dropPages gone).clearTimers
  intro e he
  obtain ⟨x, hx, heq⟩ := List.mem_filterMap.mp he
  obtain ⟨id, -, rfl⟩ := Option.map_eq_some_iff.mp heq
  exact not_loading_page hx

theorem Sound.evictTiles (h : Sound s) (gone : List ((ℕ × ℤ) × Tile δ)) : Sound (s.evictTiles gone) := by
  apply (h.dropTiles gone).clearTimers
  intro e he
  obtain ⟨x, hx, heq⟩ := List.mem_filterMap.mp he
  obtain ⟨id, -, rfl⟩ := Option.map_eq_some_iff.mp heq
  exact not_loading_tile hx

theorem Sound.evict (h : Sound s) : Sound s.evict :=
  ((h.evictPages _).evictTiles _).evictTiles _

/-! ## What the parts of planning leave alone -/

/-- Only entries, requests, timers and the queue are touched. -/
structure Frame (s s' : Store χ δ) : Prop where
  o : s'.o = s.o
  now : s'.now = s.now
  fence : s'.fence = s.fence
  total : s'.total = s.total
  viewport : s'.viewport = s.viewport
  disposed : s'.disposed = s.disposed
  interestPages : s'.interestPages = s.interestPages
  interestTiles : s'.interestTiles = s.interestTiles
  generation : s'.generation = s.generation
  next : s.next ≤ s'.next

theorem Frame.refl (s : Store χ δ) : Frame s s := ⟨rfl, rfl, rfl, rfl, rfl, rfl, rfl, rfl, rfl, le_rfl⟩

theorem Frame.trans {s'' : Store χ δ} (h : Frame s s') (h' : Frame s' s'') : Frame s s'' :=
  ⟨h'.o.trans h.o, h'.now.trans h.now, h'.fence.trans h.fence, h'.total.trans h.total,
    h'.viewport.trans h.viewport, h'.disposed.trans h.disposed,
    h'.interestPages.trans h.interestPages, h'.interestTiles.trans h.interestTiles,
    h'.generation.trans h.generation, h.next.trans h'.next⟩

theorem frame_evictPages (gone : List (ℕ × Page χ)) : Frame s (s.evictPages gone) :=
  ⟨rfl, rfl, rfl, rfl, rfl, rfl, rfl, rfl, rfl, le_rfl⟩

theorem frame_evictTiles (gone : List ((ℕ × ℤ) × Tile δ)) : Frame s (s.evictTiles gone) :=
  ⟨rfl, rfl, rfl, rfl, rfl, rfl, rfl, rfl, rfl, le_rfl⟩

theorem frame_evict : Frame s s.evict :=
  ((frame_evictPages _).trans (frame_evictTiles _)).trans (frame_evictTiles _)

theorem fetchPage_of_present (h : (s.pages.get p).any fun page =>
    page.status = .loading || page.status = .ready) : s.fetchPage p = s := by
  unfold fetchPage
  simp only
  rw [if_pos h]

/-- The page that a request is started for. -/
def newPage (s : Store χ δ) (p : ℕ) : Page χ :=
  ⟨s.next, .loading, [], ((s.pages.get p).map Page.attempts).getD 0, none⟩

/-- A request is started for a page. -/
def loadPage (s : Store χ δ) (p : ℕ) : Store χ δ :=
  ({ s with pages := s.pages.set p (s.newPage p) }.use (.page p)).start (.page p)

theorem fetchPage_eq (h : ¬ (s.pages.get p).any fun page =>
    page.status = .loading || page.status = .ready) : s.fetchPage p = (s.loadPage p).evict := by
  unfold fetchPage
  simp only
  rw [if_neg h]
  rfl

def newTile (s : Store χ δ) (p : ℕ) (b : ℤ) : Tile δ :=
  ⟨s.next, .loading, (s.tiles.get (p, b)).any Tile.stale, (s.tiles.get (p, b)).bind Tile.data,
    ((s.tiles.get (p, b)).map Tile.attempts).getD 0, none, s.generation⟩

/-- A request is started for a tile. -/
def loadTile (s : Store χ δ) (p : ℕ) (b : ℤ) : Store χ δ :=
  ({ s with tiles := s.tiles.set (p, b) (s.newTile p b) }.use (.tile p b)).start (.tile p b)

/-- Whether a tile is to be fetched. -/
def fetchesTile (s : Store χ δ) (p : ℕ) (b : ℤ) : Bool :=
  ((s.pages.get p).any fun page => page.status = .ready) &&
    !((s.tiles.get (p, b)).any fun tile =>
      tile.status = .loading || (tile.status = .ready && !tile.stale))

theorem fetchTile_eq : s.fetchTile p b = if s.fetchesTile p b then (s.loadTile p b).evict else s := rfl

theorem frame_loadPage : Frame s (s.loadPage p) :=
  ⟨rfl, rfl, rfl, rfl, rfl, rfl, rfl, rfl, rfl, Nat.le_succ _⟩

theorem frame_loadTile : Frame s (s.loadTile p b) :=
  ⟨rfl, rfl, rfl, rfl, rfl, rfl, rfl, rfl, rfl, Nat.le_succ _⟩

theorem frame_fetch (task : Task) : Frame s (s.fetch task) := by
  cases task with
  | page p =>
    change Frame s (s.fetchPage p)
    by_cases h : (s.pages.get p).any fun page => page.status = .loading || page.status = .ready
    · rw [fetchPage_of_present h]
      exact Frame.refl s
    · rw [fetchPage_eq h]
      exact frame_loadPage.trans frame_evict
  | tile p b =>
    change Frame s (s.fetchTile p b)
    rw [fetchTile_eq]
    split_ifs
    · exact frame_loadTile.trans frame_evict
    · exact Frame.refl s

theorem frame_pumpFrom (s : Store χ δ) (queue : List Task) : Frame s (s.pumpFrom queue) := by
  induction queue generalizing s with
  | nil => exact ⟨rfl, rfl, rfl, rfl, rfl, rfl, rfl, rfl, rfl, le_rfl⟩
  | cons task queue ih =>
    rw [pumpFrom]
    split_ifs
    · exact (frame_fetch task).trans (ih _)
    · exact ⟨rfl, rfl, rfl, rfl, rfl, rfl, rfl, rfl, rfl, le_rfl⟩

/-! ## Requests that are started -/

theorem Awaited.more {t : Store χ δ} (h : s.Awaited task uid timer)
    (hrequests : ∀ r ∈ s.requests, r ∈ t.requests) (htimers : ∀ x ∈ s.timers, x ∈ t.timers) :
    t.Awaited task uid timer := by
  rcases h with ⟨r, hr, hrest⟩ | ⟨x, hx, hrest⟩
  · exact .inl ⟨r, hrequests r hr, hrest⟩
  · exact .inr ⟨x, htimers x hx, hrest⟩

/-- The store has a viewport and is not disposed. -/
def Active (s : Store χ δ) : Prop := s.viewport ≠ none ∧ s.disposed = false

theorem Active.not_idle (h : s.Active) : ¬ (s.viewport = none ∨ s.disposed = true) := by
  rintro (hnone | hdisposed)
  · exact h.1 hnone
  · rw [h.2] at hdisposed
    cases hdisposed

theorem Active.frame (h : s.Active) (hf : Frame s s') : s'.Active :=
  ⟨hf.viewport ▸ h.1, hf.disposed ▸ h.2⟩

theorem awaited_start {task : Task} : (s.start task).Awaited task s.next none :=
  .inl ⟨_, List.mem_append_right _ (List.mem_singleton_self _), rfl, rfl, rfl, rfl⟩

theorem nodup_start (h : Sound s) (task : Task) : ((s.start task).requests.map Request.uid).Nodup :=
  nodup_append_row h.distinct fun r hr => (h.numbered r hr).ne

theorem numbered_start (h : Sound s) (task : Task) : ∀ r ∈ (s.start task).requests, r.uid < s.next + 1 := by
  intro r hr
  rcases List.mem_append.mp hr with hr | hr
  · exact (h.numbered r hr).trans (Nat.lt_succ_self _)
  · obtain rfl := List.mem_singleton.mp hr
    exact Nat.lt_succ_self _

theorem Sound.loadPage (h : Sound s) (hactive : s.Active) : Sound (s.loadPage p) where
  flight := by
    change s.inFlightCount + 1 = (s.requests ++ [_]).length
    rw [List.length_append, h.flight]
    rfl
  distinct := nodup_start h (.page p)
  numbered := numbered_start h (.page p)
  pageNumbered := fun j page hget => by
    rcases OrderedMap.get_set_eq_some.mp hget with hset
    split_ifs at hset with hj
    · subst hset
      exact Nat.lt_succ_self _
    · exact (h.pageNumbered j page hset).trans (Nat.lt_succ_self _)
  tileNumbered := fun k tile hget => (h.tileNumbered k tile hget).trans (Nat.lt_succ_self _)
  fenced := h.fenced.trans (Nat.le_succ _)
  dated := h.dated
  current := h.current
  pageAwaited := fun j page hget hloading => by
    have hset := OrderedMap.get_set_eq_some.mp hget
    split_ifs at hset with hj
    · subst hset hj
      exact awaited_start (s := s)
    · exact (h.pageAwaited j page hset hloading).more
        (fun r hr => List.mem_append_left _ hr) fun t ht => ht
  tileAwaited := fun j b tile hget hloading =>
    (h.tileAwaited j b tile hget hloading).more (fun r hr => List.mem_append_left _ hr) fun t ht => ht
  timed := fun t ht => (h.timed t ht).trans (Nat.lt_succ_self _)
  failed := h.failed
  nested := h.nested
  idle := fun hidle => absurd hidle hactive.not_idle
  unseen := h.unseen

theorem Sound.loadTile (h : Sound s) (hactive : s.Active) : Sound (s.loadTile p b) where
  flight := by
    change s.inFlightCount + 1 = (s.requests ++ [_]).length
    rw [List.length_append, h.flight]
    rfl
  distinct := nodup_start h (.tile p b)
  numbered := numbered_start h (.tile p b)
  pageNumbered := fun j page hget => (h.pageNumbered j page hget).trans (Nat.lt_succ_self _)
  tileNumbered := fun k tile hget => by
    have hset := OrderedMap.get_set_eq_some.mp hget
    split_ifs at hset with hk
    · subst hset
      exact Nat.lt_succ_self _
    · exact (h.tileNumbered k tile hset).trans (Nat.lt_succ_self _)
  fenced := h.fenced.trans (Nat.le_succ _)
  dated := fun k tile hget => by
    have hset := OrderedMap.get_set_eq_some.mp hget
    split_ifs at hset with hk
    · subst hset
      exact le_rfl
    · exact h.dated k tile hset
  current := fun k tile hget hcurrent => by
    have hset := OrderedMap.get_set_eq_some.mp hget
    split_ifs at hset with hk
    · subst hset
      exact h.fenced
    · exact h.current k tile hset hcurrent
  pageAwaited := fun j page hget hloading =>
    (h.pageAwaited j page hget hloading).more (fun r hr => List.mem_append_left _ hr) fun t ht => ht
  tileAwaited := fun j c tile hget hloading => by
    have hset := OrderedMap.get_set_eq_some.mp hget
    split_ifs at hset with hk
    · obtain ⟨rfl, rfl⟩ := Prod.mk.inj hk
      subst hset
      exact awaited_start (s := s)
    · exact (h.tileAwaited j c tile hset hloading).more
        (fun r hr => List.mem_append_left _ hr) fun t ht => ht
  timed := fun t ht => (h.timed t ht).trans (Nat.lt_succ_self _)
  failed := fun t ht hlimited j c tile htask hget huid => by
    have hset := OrderedMap.get_set_eq_some.mp hget
    split_ifs at hset with hk
    · -- the new tile has a number of its own
      subst hset
      exact absurd huid (h.timed t ht).ne'
    · exact h.failed t ht hlimited j c tile htask hset huid
  nested := h.nested
  idle := fun hidle => absurd hidle hactive.not_idle
  unseen := h.unseen

theorem Sound.fetch (h : Sound s) (hactive : s.Active) (task : Task) : Sound (s.fetch task) := by
  cases task with
  | page p =>
    change Sound (s.fetchPage p)
    by_cases hpresent : (s.pages.get p).any fun page => page.status = .loading || page.status = .ready
    · rwa [fetchPage_of_present hpresent]
    · rw [fetchPage_eq hpresent]
      exact (h.loadPage hactive).evict
  | tile p b =>
    change Sound (s.fetchTile p b)
    rw [fetchTile_eq]
    split_ifs
    · exact (h.loadTile hactive).evict
    · exact h

theorem Sound.pumpFrom (h : Sound s) {queue : List Task} (hactive : queue ≠ [] → s.Active) :
    Sound (s.pumpFrom queue) := by
  induction queue generalizing s with
  | nil => exact { h with idle := fun hidle => ⟨(h.idle hidle).1, (h.idle hidle).2.1, rfl⟩ }
  | cons task queue ih =>
    have hactive := hactive (List.cons_ne_nil _ _)
    rw [Store.pumpFrom]
    split_ifs
    · exact ih (h.fetch hactive task) fun _ => hactive.frame (frame_fetch task)
    · exact { h with idle := fun hidle => absurd hidle hactive.not_idle }

theorem Sound.active (h : Sound s) (hqueue : s.queue ≠ []) : s.Active := by
  refine ⟨fun hnone => hqueue (h.idle (.inl hnone)).2.2, ?_⟩
  by_contra hdisposed
  exact hqueue (h.idle (.inr (Bool.of_not_eq_false hdisposed))).2.2

theorem Sound.pump (h : Sound s) : Sound s.pump := h.pumpFrom h.active

end Portico.Guide.Store
