import Portico.Guide.Consistency

/-!
# The guide: runs of the store

Every call, answer and timer keeps what holds between events, whatever their order.

## Main results

* `Whole.step`: every event keeps what holds between events
* `store_consistent`: every state that a store comes to is consistent, and every event lawful
-/

namespace Portico.Guide.Store

variable {χ δ : Type*} {s s' : Store χ δ} {p : ℕ} {b : ℤ} {k : ℕ × ℤ} {page page' : Page χ}
  {tile tile' : Tile δ} {task : Task} {r : Request} {n : ℕ}

/-! ## Calls -/

theorem Sound.active_of_page (h : Sound s) (hget : s.pages.get p = some page) : s.Active := by
  refine ⟨fun hnone => ?_, ?_⟩
  · rw [OrderedMap.get_eq_some, (h.idle (.inl hnone)).1] at hget
    cases hget
  · by_contra hdisposed
    rw [OrderedMap.get_eq_some, (h.idle (.inr (Bool.of_not_eq_false hdisposed))).1] at hget
    cases hget

theorem Sound.active_of_tile (h : Sound s) (hget : s.tiles.get k = some tile) : s.Active := by
  refine ⟨fun hnone => ?_, ?_⟩
  · rw [OrderedMap.get_eq_some, (h.idle (.inl hnone)).2.1] at hget
    cases hget
  · by_contra hdisposed
    rw [OrderedMap.get_eq_some, (h.idle (.inr (Bool.of_not_eq_false hdisposed))).2.1] at hget
    cases hget

theorem map_nil {κ α β : Type*} {m : OrderedMap κ α} {f : α → β} (h : m.entries = []) :
    (m.map f).entries = [] := by
  change m.entries.map (fun e => (e.1, f e.2)) = []
  rw [h]
  rfl

/-- Tiles may change, as long as they keep their numbers, no fresh one is made out of a stale one, and
none goes back to loading. -/
theorem Sound.mapTiles {f : Tile δ → Tile δ} (h : Sound s)
    (hf : ∀ tile, (f tile).uid = tile.uid ∧ (f tile).generation = tile.generation ∧
      (f tile).timer = tile.timer ∧ ((f tile).stale = false → tile.stale = false) ∧
      ((f tile).status = .loading → tile.status = .loading)) :
    Sound { s with tiles := s.tiles.map f } := by
  have hget {k : ℕ × ℤ} {tile : Tile δ} (hget : (s.tiles.map f).get k = some tile) :
      ∃ x, s.tiles.get k = some x ∧ f x = tile := by
    rw [OrderedMap.get_map] at hget
    exact Option.map_eq_some_iff.mp hget
  exact { h with
    tileNumbered := fun k tile hk => by
      obtain ⟨x, hx, rfl⟩ := hget hk
      exact (hf x).1 ▸ h.tileNumbered k x hx
    dated := fun k tile hk => by
      obtain ⟨x, hx, rfl⟩ := hget hk
      exact (hf x).2.1 ▸ h.dated k x hx
    current := fun k tile hk hcurrent => by
      obtain ⟨x, hx, rfl⟩ := hget hk
      obtain ⟨huid, hgeneration, -, hstale, -⟩ := hf x
      rw [hgeneration] at hcurrent
      exact huid ▸ h.current k x hx (hcurrent.imp_right hstale)
    tileAwaited := fun p b tile hk hloading => by
      obtain ⟨x, hx, rfl⟩ := hget hk
      obtain ⟨huid, -, htimer, -, hstatus⟩ := hf x
      rw [huid, htimer]
      exact h.tileAwaited p b x hx (hstatus hloading)
    failed := fun t ht hlimited p b tile htask hk huid hloading => by
      obtain ⟨x, hx, rfl⟩ := hget hk
      exact h.failed t ht hlimited p b x htask hx ((hf x).1 ▸ huid) ((hf x).2.2.2.2 hloading)
    idle := fun hidle => ⟨(h.idle hidle).1, map_nil (h.idle hidle).2.1, (h.idle hidle).2.2⟩ }

theorem Sound.setViewport (h : Sound s) (v : Viewport) (hd : s.disposed = false) :
    Sound { s with viewport := some v } :=
  { h with
    idle := fun hidle => by
      rcases hidle with hnone | hdisposed
      · cases hnone
      · rw [show s.disposed = true from hdisposed] at hd
        cases hd
    unseen := fun hnone => by cases hnone }

theorem Whole.setViewport (h : Whole s) (v : Viewport) : Whole (s.setViewport v) := by
  unfold Store.setViewport
  split_ifs with hd
  · exact h
  · exact (h.sound.setViewport v (Bool.of_not_eq_true hd)).whole_plan

theorem renew_spec (tile : Tile δ) : (renew tile).uid = tile.uid ∧
    (renew tile).generation = tile.generation ∧ (renew tile).timer = tile.timer ∧
    ((renew tile).stale = false → tile.stale = false) ∧
    ((renew tile).status = .loading → tile.status = .loading) := by
  unfold renew
  split_ifs <;> simp

theorem Sound.renewed (h : Sound s) : Sound s.renewed := by
  apply Sound.clearTimers
  · exact (h.keepPages (q := fun _ page => decide (page.status ≠ .error))).mapTiles renew_spec
  · intro e he
    rcases List.mem_append.mp he with he | he
    · obtain ⟨x, hx, heq⟩ := List.mem_filterMap.mp he
      obtain ⟨id, -, rfl⟩ := Option.map_eq_some_iff.mp heq
      obtain ⟨hx, herror⟩ := List.mem_filter.mp hx
      rintro ⟨page, hget, hloading⟩
      have := (OrderedMap.get_keep_eq_some.mp hget).1
      rw [OrderedMap.get_eq_some.mpr hx] at this
      obtain rfl := Option.some.inj this
      rw [hloading] at herror
      cases herror
    · obtain ⟨x, hx, heq⟩ := List.mem_filterMap.mp he
      obtain ⟨id, -, rfl⟩ := Option.map_eq_some_iff.mp heq
      obtain ⟨hx, herror⟩ := List.mem_filter.mp hx
      rintro ⟨tile, hget, hloading⟩
      have hmap : (s.tiles.map renew).get x.1 = some tile := hget
      rw [OrderedMap.get_map, OrderedMap.get_eq_some.mpr hx, Option.map_some] at hmap
      obtain rfl := Option.some.inj hmap
      rw [(renew_spec x.2).2.2.2.2 hloading] at herror
      cases herror

theorem get_outdated (hk : s.outdated.tiles.get k = some tile) :
    ∃ x, s.tiles.get k = some x ∧ outdate x = tile := by
  have := (OrderedMap.get_keep_eq_some.mp hk).1
  rw [OrderedMap.get_map] at this
  exact Option.map_eq_some_iff.mp this

theorem outdate_idle (tile : Tile δ) : (outdate tile).status ≠ .loading := by
  unfold outdate
  dsimp only
  split_ifs with hloading
  · exact (nomatch ·)
  · exact (nomatch ·)
  · exact hloading

theorem Sound.outdated (h : Sound s) : Sound s.outdated := by
  have hget {k : ℕ × ℤ} {tile : Tile δ}
      (hk : ((s.tiles.map outdate).keep fun _ tile => tile.data.isSome).get k = some tile) :
      ∃ x, s.tiles.get k = some x ∧ outdate x = tile := get_outdated hk
  apply Sound.abort
  · exact { h with
      tileNumbered := fun k tile hk => by
        obtain ⟨x, hx, rfl⟩ := hget hk
        exact h.tileNumbered k x hx
      fenced := le_rfl
      dated := fun k tile hk => by
        obtain ⟨x, hx, rfl⟩ := hget hk
        exact (h.dated k x hx).trans (Nat.le_succ _)
      current := fun k tile hk hcurrent => by
        obtain ⟨x, hx, rfl⟩ := hget hk
        rcases hcurrent with hgeneration | hstale
        · exact absurd hgeneration (Nat.lt_succ_of_le (h.dated k x hx)).ne
        · cases hstale
      tileAwaited := fun p b tile hk hloading => by
        obtain ⟨x, hx, rfl⟩ := hget hk
        exact absurd hloading (outdate_idle x)
      failed := fun t ht hlimited p b tile htask hk huid => by
        obtain ⟨x, hx, rfl⟩ := hget hk
        exact outdate_idle x
      idle := fun hno =>
        ⟨(h.idle hno).1, keep_nil (map_nil (h.idle hno).2.1), (h.idle hno).2.2⟩ }
  · intro e he
    obtain ⟨x, -, rfl⟩ := List.mem_map.mp he
    rintro ⟨tile, hk, hloading⟩
    obtain ⟨x, hx, rfl⟩ := hget hk
    exact outdate_idle x hloading

theorem Counted.clear (h : Counted s) (disposed : Bool) : Sound { s.clear with disposed := disposed } where
  flight := by
    change s.inFlightCount = (s.clear).requests.length
    rw [← List.length_map (f := Request.uid), show s.clear.requests.map Request.uid = _ from uids_abort _,
      List.length_map]
    exact h.flight
  distinct := by
    change (s.clear.requests.map Request.uid).Nodup
    rw [show s.clear.requests.map Request.uid = _ from uids_abort _]
    exact h.distinct
  numbered := fun r hr => by
    have hmem : r.uid ∈ s.clear.requests.map Request.uid := List.mem_map_of_mem hr
    rw [show s.clear.requests.map Request.uid = _ from uids_abort _] at hmem
    obtain ⟨x, hx, heq⟩ := List.mem_map.mp hmem
    exact heq ▸ h.numbered x hx
  pageNumbered := fun p page hget => (nomatch hget)
  tileNumbered := fun k tile hget => (nomatch hget)
  fenced := le_rfl
  dated := fun k tile hget => (nomatch hget)
  current := fun k tile hget => (nomatch hget)
  pageAwaited := fun p page hget => (nomatch hget)
  tileAwaited := fun p b tile hget => (nomatch hget)
  timed := fun t ht => h.timed t (List.mem_filter.mp ht).1
  failed := fun t ht hlimited p b tile htask hget => (nomatch hget)
  nested := h.nested
  idle := fun _ => ⟨rfl, rfl, rfl⟩
  unseen := h.unseen

theorem Whole.retry (h : Whole s) : Whole s.retry := h.sound.renewed.whole_plan

theorem Whole.invalidate (h : Whole s) : Whole s.invalidate := h.sound.outdated.whole_plan

theorem Whole.reset (h : Whole s) : Whole s.reset := (h.sound.toCounted.clear s.disposed).whole_plan

theorem Whole.dispose (h : Whole s) : Whole s.dispose := (h.sound.toCounted.clear true).whole_plan

/-! ## Answers -/

theorem uids_mark (r : Request) : (s.mark r).requests.map Request.uid = s.requests.map Request.uid := by
  unfold mark
  dsimp only
  rw [List.map_map]
  apply List.map_congr_left
  intro x _
  rw [Function.comp_apply]
  split_ifs <;> rfl

theorem Awaited.mark {uid : ℕ} {timer : Option ℕ} (h : s.Awaited task uid timer)
    (hother : r.task ≠ task ∨ r.uid ≠ uid ∨ r.aborted = true) : (s.mark r).Awaited task uid timer := by
  rcases h with ⟨x, hx, htask, huid, hab, han⟩ | htimer
  · refine .inl ⟨x, List.mem_map.mpr ⟨x, hx, if_neg ?_⟩, htask, huid, hab, han⟩
    rintro rfl
    rcases hother with hne | hne | hne
    · exact hne htask
    · exact hne huid
    · rw [hab] at hne
      cases hne
  · exact .inr htimer

theorem Counted.mark (h : Counted s) (r : Request) : Counted (s.mark r) :=
  { h with
    flight := by
      rw [← List.length_map (f := Request.uid), uids_mark, List.length_map]
      exact h.flight
    distinct := (uids_mark (s := s) r).symm ▸ h.distinct
    numbered := fun x hx => by
      have hmem : x.uid ∈ (s.mark r).requests.map Request.uid := List.mem_map_of_mem hx
      rw [uids_mark] at hmem
      obtain ⟨y, hy, heq⟩ := List.mem_map.mp hmem
      exact heq ▸ h.numbered y hy }

theorem Sound.mark (h : Sound s) (r : Request)
    (hpages : ∀ p page, s.pages.get p = some page → page.status = .loading →
      (s.mark r).Awaited (.page p) page.uid page.timer)
    (htiles : ∀ p b tile, s.tiles.get (p, b) = some tile → tile.status = .loading →
      (s.mark r).Awaited (.tile p b) tile.uid tile.timer) : Sound (s.mark r) :=
  { h.toCounted.mark r, h with
    pageAwaited := hpages
    tileAwaited := htiles }

theorem Awaited.of_mark {uid : ℕ} {timer : Option ℕ} (h : (s.mark r).Awaited task uid timer) :
    s.Awaited task uid timer := by
  rcases h with ⟨x, hx, htask, huid, hab, han⟩ | htimer
  · obtain ⟨y, hy, heq⟩ := List.mem_map.mp hx
    split_ifs at heq with hr
    · subst heq
      cases han
    · subst heq
      exact .inl ⟨y, hy, htask, huid, hab, han⟩
  · exact .inr htimer

theorem Sound.setPage (h : Sound s) (htask : r.task = .page p) (hget : s.pages.get p = some page)
    (huid : page'.uid = page.uid)
    (hloading : page'.status = .loading → (s.mark r).Awaited (.page p) page'.uid page'.timer) :
    Sound { s.mark r with pages := s.pages.set p page' } := by
  have hset : Sound { s with pages := s.pages.set p page' } :=
    { h with
      pageNumbered := fun j x hx => by
        have hx := OrderedMap.get_set_eq_some.mp hx
        split_ifs at hx with hj
        · rw [hx, huid]
          exact h.pageNumbered p page hget
        · exact h.pageNumbered j x hx
      pageAwaited := fun j x hx hl => by
        have hx := OrderedMap.get_set_eq_some.mp hx
        split_ifs at hx with hj
        · subst hx hj
          exact (hloading hl).of_mark
        · exact h.pageAwaited j x hx hl
      idle := fun hidle => absurd hidle (h.active_of_page hget).not_idle }
  refine hset.mark r (fun j x hx hl => ?_) fun j b x hx hl => ?_
  · have hx := OrderedMap.get_set_eq_some.mp hx
    split_ifs at hx with hj
    · subst hx hj
      exact hloading hl
    · refine (h.pageAwaited j x hx hl).mark (.inl ?_)
      rw [htask]
      exact fun heq => hj (Task.page.inj heq).symm
  · refine (h.tileAwaited j b x hx hl).mark (.inl ?_)
    rw [htask]
    intro hno
    cases hno

theorem Sound.putTile (h : Sound s) (hget : s.tiles.get (p, b) = some tile)
    (huid : tile'.uid = tile.uid) (hgeneration : tile'.generation = tile.generation)
    (hstale : tile'.stale = false → tile.stale = false ∨ tile.generation = s.generation)
    (hstatus : tile'.status = .loading → tile.status = .loading)
    (hloading : tile'.status = .loading → s.Awaited (.tile p b) tile'.uid tile'.timer) :
    Sound { s with tiles := s.tiles.set (p, b) tile' } :=
  { h with
    tileNumbered := fun k x hx => by
      have hx := OrderedMap.get_set_eq_some.mp hx
      split_ifs at hx with hk
      · rw [hx, huid]
        exact h.tileNumbered (p, b) tile hget
      · exact h.tileNumbered k x hx
    dated := fun k x hx => by
      have hx := OrderedMap.get_set_eq_some.mp hx
      split_ifs at hx with hk
      · rw [hx, hgeneration]
        exact h.dated (p, b) tile hget
      · exact h.dated k x hx
    current := fun k x hx hcurrent => by
      have hx := OrderedMap.get_set_eq_some.mp hx
      split_ifs at hx with hk
      · subst hx
        rw [huid]
        rw [hgeneration] at hcurrent
        refine h.current (p, b) tile hget (hcurrent.elim .inl fun hfresh => ?_)
        exact (hstale hfresh).symm
      · exact h.current k x hx hcurrent
    tileAwaited := fun j c x hx hl => by
      have hx := OrderedMap.get_set_eq_some.mp hx
      split_ifs at hx with hk
      · subst hx
        obtain ⟨rfl, rfl⟩ := Prod.mk.inj hk
        exact hloading hl
      · exact h.tileAwaited j c x hx hl
    failed := fun t ht hlimited j c x hj hx hx' hl => by
      have hx := OrderedMap.get_set_eq_some.mp hx
      split_ifs at hx with hk
      · subst hx
        obtain ⟨rfl, rfl⟩ := Prod.mk.inj hk
        exact h.failed t ht hlimited _ _ tile hj hget (huid ▸ hx') (hstatus hl)
      · exact h.failed t ht hlimited j c x hj hx hx' hl
    idle := fun hidle => absurd hidle (h.active_of_tile hget).not_idle }

theorem Sound.setTile (h : Sound s) (htask : r.task = .tile p b)
    (hget : s.tiles.get (p, b) = some tile) (huid : tile'.uid = tile.uid)
    (hgeneration : tile'.generation = tile.generation)
    (hstale : tile'.stale = false → tile.stale = false ∨ tile.generation = s.generation)
    (hstatus : tile'.status = .loading → tile.status = .loading)
    (hloading : tile'.status = .loading → (s.mark r).Awaited (.tile p b) tile'.uid tile'.timer) :
    Sound { s.mark r with tiles := s.tiles.set (p, b) tile' } := by
  have hset := h.putTile hget huid hgeneration hstale hstatus fun hl => (hloading hl).of_mark
  refine hset.mark r (fun j x hx hl => ?_) fun j c x hx hl => ?_
  · refine (h.pageAwaited j x hx hl).mark (.inl ?_)
    rw [htask]
    exact (nomatch ·)
  · have hx := OrderedMap.get_set_eq_some.mp hx
    split_ifs at hx with hk
    · subst hx
      obtain ⟨rfl, rfl⟩ := Prod.mk.inj hk
      exact hloading hl
    · refine (h.tileAwaited j c x hx hl).mark (.inl ?_)
      rw [htask]
      exact fun heq => hk (Prod.ext (Task.tile.inj heq).1.symm (Task.tile.inj heq).2.symm)

theorem Sound.setTimer {uid delay : ℕ} {limited : Bool} (h : Sound s) (huid : uid < s.next)
    (hfailed : limited = false → ∀ p b tile, task = .tile p b → s.tiles.get (p, b) = some tile →
      tile.uid = uid → tile.status ≠ .loading) : Sound (s.setTimer uid task limited delay) :=
  { h with
    pageAwaited := fun p page hget hl => (h.pageAwaited p page hget hl).more (fun r hr => hr)
      fun t ht => List.mem_append_left _ ht
    tileAwaited := fun p b tile hget hl => (h.tileAwaited p b tile hget hl).more (fun r hr => hr)
      fun t ht => List.mem_append_left _ ht
    timed := fun t ht => by
      rcases List.mem_append.mp ht with ht | ht
      · exact h.timed t ht
      · obtain rfl := List.mem_singleton.mp ht
        exact huid
    failed := fun t ht hlimited => by
      rcases List.mem_append.mp ht with ht | ht
      · exact h.failed t ht hlimited
      · obtain rfl := List.mem_singleton.mp ht
        exact hfailed hlimited }

theorem awaited_setTimer {uid delay : ℕ} {limited : Bool} :
    (s.setTimer uid task limited delay).Awaited task uid (some s.nextTimer) :=
  .inr ⟨_, List.mem_append_right _ (List.mem_singleton_self _), rfl, rfl, rfl⟩

/-! ## What stays while entries change -/

theorem Kept.setPage (h : Kept s) (hget : s.pages.get p = some page) :
    Kept { s with pages := s.pages.set p page' } where
  resident := fun k tile hk => by
    have := h.resident k tile hk
    dsimp only
    rw [OrderedMap.get_set]
    split_ifs
    · rfl
    · exact this
  pageCap := by
    dsimp only
    rw [OrderedMap.length_set hget]
    refine h.pageCap.imp_right fun hall j x hx => ?_
    have hx := OrderedMap.get_set_eq_some.mp hx
    split_ifs at hx with hj
    · exact hj ▸ hall p page hget
    · exact hall j x hx
  tileCap := h.tileCap

theorem Kept.setTile (h : Kept s) (hget : s.tiles.get k = some tile) :
    Kept { s with tiles := s.tiles.set k tile' } where
  resident := fun j x hx => by
    have hx := OrderedMap.get_set_eq_some.mp hx
    split_ifs at hx with hj
    · exact hj ▸ h.resident k tile hget
    · exact h.resident j x hx
  pageCap := h.pageCap
  tileCap := by
    dsimp only
    rw [OrderedMap.length_set hget]
    refine h.tileCap.imp_right fun hall j x hx => ?_
    have hx := OrderedMap.get_set_eq_some.mp hx
    split_ifs at hx with hj
    · exact hj ▸ hall k tile hget
    · exact hall j x hx

theorem Wanted.setPage {queue : List Task} (h : Wanted s queue) (hget : s.pages.get p = some page)
    (hready : page'.status = .ready → page.status = .ready) :
    Wanted { s with pages := s.pages.set p page' } queue where
  pages := fun j hj hnone => by
    dsimp only at hnone
    rw [OrderedMap.get_set] at hnone
    split_ifs at hnone with hj'
    exact h.pages j hj hnone
  tiles := fun j b x hk hx hxready hnone => by
    have hx := OrderedMap.get_set_eq_some.mp hx
    split_ifs at hx with hj
    · subst hx hj
      exact h.tiles j b page hk hget (hready hxready) hnone
    · exact h.tiles j b x hk hx hxready hnone

theorem Wanted.setTile {queue : List Task} (h : Wanted s queue) :
    Wanted { s with tiles := s.tiles.set k tile' } queue where
  pages := h.pages
  tiles := fun j b x hk hx hready hnone => by
    dsimp only at hnone
    rw [OrderedMap.get_set] at hnone
    split_ifs at hnone with hj
    exact h.tiles j b x hk hx hready hnone

/-! ## Whole steps -/

theorem Whole.mark (h : Whole s) (r : Request)
    (hpages : ∀ p page, r.task = .page p → s.pages.get p = some page →
      ¬ (r.aborted = false ∧ page.uid = r.uid))
    (htiles : ∀ p b tile, r.task = .tile p b → s.tiles.get (p, b) = some tile →
      ¬ (r.aborted = false ∧ tile.uid = r.uid)) : Whole (s.mark r) := by
  have hother {uid : ℕ} (hnot : ¬ (r.aborted = false ∧ uid = r.uid)) : r.uid ≠ uid ∨ r.aborted = true := by
    by_cases hab : r.aborted = true
    · exact .inr hab
    · exact .inl fun heq => hnot ⟨Bool.of_not_eq_true hab, heq.symm⟩
  refine ⟨h.sound.mark r (fun p page hget hl => ?_) fun p b tile hget hl => ?_, { h.kept with },
    fun hd => { h.wanted hd with }⟩
  · refine (h.sound.pageAwaited p page hget hl).mark ?_
    by_cases htask : r.task = .page p
    · exact .inr (hother (hpages p page htask hget))
    · exact .inl htask
  · refine (h.sound.tileAwaited p b tile hget hl).mark ?_
    by_cases htask : r.task = .tile p b
    · exact .inr (hother (htiles p b tile htask hget))
    · exact .inl htask

theorem Whole.pageFailed (h : Whole s) (htask : r.task = .page p) (hget : s.pages.get p = some page) :
    Whole ((s.mark r).pageFailed p page) := by
  have huid := h.sound.pageNumbered p page hget
  have hset (timer : Option ℕ) : Sound { s.mark r with
      pages := s.pages.set p
        { page with status := .error, attempts := page.attempts + 1, timer := timer } } :=
    h.sound.setPage htask hget rfl (nomatch ·)
  have hwanted (timer : Option ℕ) (hd : s.disposed = false) : Wanted { s with
      pages := s.pages.set p
        { page with status := .error, attempts := page.attempts + 1, timer := timer } } s.queue :=
    (h.wanted hd).setPage hget (nomatch ·)
  unfold Store.pageFailed retryLater
  dsimp only
  split_ifs
  · exact ⟨{ hset _ with }, { h.kept.setPage hget with }, fun hd => { hwanted _ hd with }⟩
  · exact ⟨Sound.setTimer { hset _ with } huid fun _ j b tile hj => (nomatch hj),
      { h.kept.setPage hget with }, fun hd => { hwanted _ hd with }⟩

theorem Whole.pageAnswered (h : Whole s) (htask : r.task = .page p)
    (hget : s.pages.get p = some page) (generation : ℕ) (answer : Except Failure (List χ × ℕ)) :
    Whole ((s.mark r).pageAnswered p generation page answer) := by
  have huid := h.sound.pageNumbered p page hget
  cases answer with
  | ok reply =>
    obtain ⟨items, total⟩ := reply
    have hset : Sound { s.mark r with
        pages := s.pages.set p { page with status := .ready, items := items, attempts := 0 } } :=
      h.sound.setPage htask hget rfl fun hno => by cases hno
    exact Sound.whole_plan { hset with }
  | error failure =>
    cases failure with
    | refreshRequired =>
      exact ((h.sound.toCounted.mark r).clear s.disposed).whole_plan
    | rateLimited delay =>
      unfold Store.pageAnswered
      dsimp only
      split_ifs
      · -- the timer is set first
        have htimer : Sound (s.setTimer page.uid (.page p) true delay) :=
          h.sound.setTimer huid fun hno => by cases hno
        have hset : Sound { (s.setTimer page.uid (.page p) true delay).mark r with
            pages := s.pages.set p { page with timer := some s.nextTimer } } :=
          htimer.setPage htask hget rfl fun _ => awaited_setTimer (s := s.mark r)
        have hwanted (hd : s.disposed = false) : Wanted { s with
            pages := s.pages.set p { page with timer := some s.nextTimer } } s.queue :=
          (h.wanted hd).setPage hget fun hready => hready
        exact ⟨{ hset with }, { h.kept.setPage hget with }, fun hd => { hwanted hd with }⟩
      · exact h.pageFailed htask hget
    | other => exact h.pageFailed htask hget

theorem Whole.tileFailed (h : Whole s) (htask : r.task = .tile p b)
    (hget : s.tiles.get (p, b) = some tile) : Whole ((s.mark r).tileFailed p b tile) := by
  have huid := h.sound.tileNumbered (p, b) tile hget
  have hset (timer : Option ℕ) : Sound { s.mark r with
      tiles := s.tiles.set (p, b)
        { tile with status := .error, attempts := tile.attempts + 1, timer := timer } } :=
    h.sound.setTile htask hget rfl rfl .inl (nomatch ·) (nomatch ·)
  unfold Store.tileFailed retryLater
  dsimp only
  split_ifs
  · exact ⟨{ hset _ with }, { h.kept.setTile hget with }, fun hd => { (h.wanted hd).setTile with }⟩
  · refine ⟨Sound.setTimer { hset _ with } huid fun _ j c x hj hx hx' hl => ?_,
      { h.kept.setTile hget with }, fun hd => { (h.wanted hd).setTile with }⟩
    obtain ⟨rfl, rfl⟩ := Task.tile.inj hj
    have hx : (s.tiles.set (p, b) _).get (p, b) = some x := hx
    rw [OrderedMap.get_set_self] at hx
    obtain rfl := Option.some.inj hx
    cases hl

theorem Whole.tileAnswered (h : Whole s) (htask : r.task = .tile p b)
    (hget : s.tiles.get (p, b) = some tile) (answer : Except Failure δ) :
    Whole ((s.mark r).tileAnswered p b tile answer) := by
  have huid := h.sound.tileNumbered (p, b) tile hget
  match answer with
  | .ok data =>
    have hset : Sound { s.mark r with
        tiles := s.tiles.set (p, b)
          { tile with
            status := .ready, stale := tile.generation != s.generation, data := some data,
            attempts := 0 } } :=
      h.sound.setTile htask hget rfl rfl (fun hfresh => .inr (by simpa using hfresh))
        (nomatch ·) (nomatch ·)
    exact ⟨hset, { h.kept.setTile hget with }, fun hd => { (h.wanted hd).setTile with }⟩
  | .error (.rateLimited delay) =>
    unfold Store.tileAnswered
    dsimp only
    split_ifs
    · have htimer : Sound (s.setTimer tile.uid (.tile p b) true delay) :=
        h.sound.setTimer huid (nomatch ·)
      have hset : Sound { (s.setTimer tile.uid (.tile p b) true delay).mark r with
          tiles := s.tiles.set (p, b)
            { tile with attempts := tile.attempts + 1, timer := some s.nextTimer } } :=
        htimer.setTile htask hget rfl rfl .inl (fun hl => hl) fun _ => awaited_setTimer (s := s.mark r)
      exact ⟨{ hset with }, { h.kept.setTile hget with }, fun hd => { (h.wanted hd).setTile with }⟩
    · exact h.tileFailed htask hget
  | .error .refreshRequired => exact h.tileFailed htask hget
  | .error .other => exact h.tileFailed htask hget

theorem Whole.answerPage (h : Whole s) (htask : r.task = .page p)
    (answer : Except Failure (List χ × ℕ)) : Whole ((s.mark r).answerPage r p answer) := by
  unfold Store.answerPage
  cases hget : (s.mark r).pages.get p with
  | none =>
    refine h.mark r (fun j page hj hpage => ?_) fun j b tile hj => ?_
    · rw [htask] at hj
      obtain rfl := Task.page.inj hj
      rw [show s.pages.get p = none from hget] at hpage
      cases hpage
    · rw [htask] at hj
      cases hj
  | some page =>
    dsimp only
    split_ifs with hlive
    · exact h.pageAnswered htask hget r.generation answer
    · refine h.mark r (fun j x hj hx => ?_) fun j b tile hj => ?_
      · rw [htask] at hj
        obtain rfl := Task.page.inj hj
        rw [show s.pages.get p = some page from hget] at hx
        exact Option.some.inj hx ▸ hlive
      · rw [htask] at hj
        cases hj

theorem Whole.answerTile (h : Whole s) (htask : r.task = .tile p b) (answer : Except Failure δ) :
    Whole ((s.mark r).answerTile r p b answer) := by
  unfold Store.answerTile
  cases hget : (s.mark r).tiles.get (p, b) with
  | none =>
    refine h.mark r (fun j page hj => ?_) fun j c tile hj htile => ?_
    · rw [htask] at hj
      cases hj
    · rw [htask] at hj
      obtain ⟨rfl, rfl⟩ := Task.tile.inj hj
      rw [show s.tiles.get (p, b) = none from hget] at htile
      cases htile
  | some tile =>
    dsimp only
    split_ifs with hlive
    · exact h.tileAnswered htask hget answer
    · refine h.mark r (fun j x hj => ?_) fun j c x hj hx => ?_
      · rw [htask] at hj
        cases hj
      · rw [htask] at hj
        obtain ⟨rfl, rfl⟩ := Task.tile.inj hj
        rw [show s.tiles.get (p, b) = some tile from hget] at hx
        exact Option.some.inj hx ▸ hlive

/-! ## Timers and settling -/

theorem Awaited.eraseTimer {t : Timer} {uid : ℕ} {timer : Option ℕ} (h : s.Awaited task uid timer)
    (hother : t.task ≠ task ∨ t.uid ≠ uid) :
    ({ s with timers := s.timers.erase t } : Store χ δ).Awaited task uid timer := by
  rcases h with hrequest | ⟨x, hx, htask, huid, htimer⟩
  · exact .inl hrequest
  · refine .inr ⟨x, (List.mem_erase_of_ne ?_).mpr hx, htask, huid, htimer⟩
    rintro rfl
    rcases hother with hne | hne
    · exact hne htask
    · exact hne huid

/-- A timer of an entry that is gone, or no longer loading, runs out. -/
theorem Sound.eraseTimer (h : Sound s) (t : Timer)
    (hpages : ∀ p page, t.task = .page p → s.pages.get p = some page → page.status = .loading →
      page.uid ≠ t.uid)
    (htiles : ∀ p b tile, t.task = .tile p b → s.tiles.get (p, b) = some tile →
      tile.status = .loading → tile.uid ≠ t.uid) : Sound { s with timers := s.timers.erase t } :=
  { h with
    timed := fun x hx => h.timed x (List.mem_of_mem_erase hx)
    failed := fun x hx => h.failed x (List.mem_of_mem_erase hx)
    pageAwaited := fun p page hget hl => by
      refine (h.pageAwaited p page hget hl).eraseTimer ?_
      by_cases htask : t.task = .page p
      · exact .inr (hpages p page htask hget hl).symm
      · exact .inl htask
    tileAwaited := fun p b tile hget hl => by
      refine (h.tileAwaited p b tile hget hl).eraseTimer ?_
      by_cases htask : t.task = .tile p b
      · exact .inr (htiles p b tile htask hget hl).symm
      · exact .inl htask }

theorem Whole.eraseTimer {t : Timer} (h : Whole s)
    (hpages : ∀ p page, t.task = .page p → s.pages.get p = some page →
      ¬ (s.disposed = false ∧ page.uid = t.uid))
    (htiles : ∀ p b tile, t.task = .tile p b → s.tiles.get (p, b) = some tile →
      ¬ (s.disposed = false ∧ tile.uid = t.uid)) : Whole { s with timers := s.timers.erase t } := by
  refine ⟨h.sound.eraseTimer t (fun p page htask hget _ huid => ?_) fun p b tile htask hget _ huid => ?_,
    { h.kept with }, fun hd => { h.wanted hd with }⟩
  · exact hpages p page htask hget ⟨(h.sound.active_of_page hget).2, huid⟩
  · exact htiles p b tile htask hget ⟨(h.sound.active_of_tile hget).2, huid⟩

theorem Sound.pageFired {t : Timer} (h : Sound s) (htask : t.task = .page p) :
    Sound { s with pages := s.pages.erase p, timers := s.timers.erase t } := by
  have herase : Sound { s with pages := s.pages.erase p } := h.keepPages
  refine herase.eraseTimer t (fun j x hj hx => ?_) fun j b tile hj => ?_
  · rw [htask] at hj
    obtain rfl := Task.page.inj hj
    exact absurd rfl (OrderedMap.get_erase_eq_some.mp hx).2
  · rw [htask] at hj
    cases hj

theorem Sound.tileFired {t : Timer} (h : Sound s) (ht : t ∈ s.timers) (htask : t.task = .tile p b)
    (hget : s.tiles.get (p, b) = some tile) (huid : tile.uid = t.uid) :
    Sound { s with
      timers := s.timers.erase t
      tiles := s.tiles.set (p, b)
        { tile with
          timer := none, stale := true, status := if t.limited then .ready else tile.status } } := by
  have hidle : (if t.limited then Status.ready else tile.status) ≠ .loading := by
    split_ifs with hlimited
    · exact (nomatch ·)
    · exact h.failed t ht (Bool.of_not_eq_true hlimited) p b tile htask hget huid
  have hput : Sound { s with
      tiles := s.tiles.set (p, b)
        { tile with
          timer := none, stale := true, status := if t.limited then .ready else tile.status } } :=
    h.putTile hget rfl rfl (nomatch ·) (fun hl => absurd hl hidle) fun hl => absurd hl hidle
  refine hput.eraseTimer t (fun j x hj hx => ?_) fun j c x hj hx hl => ?_
  · rw [htask] at hj
    cases hj
  · rw [htask] at hj
    obtain ⟨rfl, rfl⟩ := Task.tile.inj hj
    have hx : (s.tiles.set (p, b) _).get (p, b) = some x := hx
    rw [OrderedMap.get_set_self] at hx
    obtain rfl := Option.some.inj hx
    exact absurd hl hidle

theorem Whole.fired (h : Whole s) {t : Timer} (ht : t ∈ s.timers) :
    Whole (({ s with timers := s.timers.erase t } : Store χ δ).fired t) := by
  unfold Store.fired
  cases htask : t.task with
  | page p =>
    dsimp only
    cases hget : s.pages.get p with
    | none =>
      refine h.eraseTimer (fun j page hj hpage => ?_) fun j b tile hj => ?_
      · rw [htask] at hj
        obtain rfl := Task.page.inj hj
        rw [hget] at hpage
        cases hpage
      · rw [htask] at hj
        cases hj
    | some page =>
      dsimp only
      split_ifs with hlive
      · exact (h.sound.pageFired htask).whole_plan
      · refine h.eraseTimer (fun j x hj hx => ?_) fun j b tile hj => ?_
        · rw [htask] at hj
          obtain rfl := Task.page.inj hj
          rw [hget] at hx
          exact Option.some.inj hx ▸ hlive
        · rw [htask] at hj
          cases hj
  | tile p b =>
    dsimp only
    cases hget : s.tiles.get (p, b) with
    | none =>
      refine h.eraseTimer (fun j page hj => ?_) fun j c tile hj htile => ?_
      · rw [htask] at hj
        cases hj
      · rw [htask] at hj
        obtain ⟨rfl, rfl⟩ := Task.tile.inj hj
        rw [hget] at htile
        cases htile
    | some tile =>
      dsimp only
      by_cases hlive : s.disposed = false ∧ tile.uid = t.uid
      · rw [if_pos hlive]
        exact (h.sound.tileFired ht htask hget hlive.2).whole_plan
      · rw [if_neg hlive]
        refine h.eraseTimer (fun j x hj => ?_) fun j c x hj hx => ?_
        · rw [htask] at hj
          cases hj
        · rw [htask] at hj
          obtain ⟨rfl, rfl⟩ := Task.tile.inj hj
          rw [hget] at hx
          exact Option.some.inj hx ▸ hlive

theorem asked_spec {uid : ℕ} (h : s.asked uid = some r) :
    r ∈ s.requests ∧ r.uid = uid ∧ r.answered = false := by
  have := List.find?_some h
  simp only [Bool.and_eq_true, decide_eq_true_eq, Bool.not_eq_true'] at this
  exact ⟨List.mem_of_find?_eq_some h, this⟩

theorem settling_spec {uid : ℕ} (h : s.settling uid = some r) :
    r ∈ s.requests ∧ r.uid = uid ∧ r.answered = true := by
  have := List.find?_some h
  simp only [Bool.and_eq_true, decide_eq_true_eq] at this
  exact ⟨List.mem_of_find?_eq_some h, this⟩

/-- A store without a request that was answered. -/
def settled (s : Store χ δ) (r : Request) : Store χ δ :=
  { s with inFlightCount := s.inFlightCount - 1, requests := s.requests.erase r }

theorem Awaited.settled {uid : ℕ} {timer : Option ℕ} (h : s.Awaited task uid timer)
    (hanswered : r.answered = true) : (s.settled r).Awaited task uid timer := by
  rcases h with ⟨x, hx, htask, huid, hab, han⟩ | htimer
  · refine .inl ⟨x, (List.mem_erase_of_ne ?_).mpr hx, htask, huid, hab, han⟩
    rintro rfl
    rw [hanswered] at han
    cases han
  · exact .inr htimer

theorem Sound.settled (h : Sound s) (hr : r ∈ s.requests) (hanswered : r.answered = true) :
    Sound (s.settled r) :=
  { h with
    flight := by
      unfold Store.settled
      dsimp only
      rw [List.length_erase_of_mem hr, h.flight]
    distinct := h.distinct.sublist (List.erase_sublist.map _)
    numbered := fun x hx => h.numbered x (List.mem_of_mem_erase hx)
    pageAwaited := fun p page hget hl => (h.pageAwaited p page hget hl).settled hanswered
    tileAwaited := fun p b tile hget hl => (h.tileAwaited p b tile hget hl).settled hanswered }

theorem Whole.settle (h : Whole s) (hr : r ∈ s.requests) (hanswered : r.answered = true) :
    Whole (s.settled r).pump := by
  have hkept : Kept (s.settled r) := { h.kept with }
  refine ⟨(h.sound.settled hr hanswered).pump, hkept.pumpFrom _, fun hd => ?_⟩
  rw [pump, (frame_pumpFrom _ _).disposed] at hd
  have hwanted : Wanted (s.settled r) s.queue := { h.wanted hd with }
  exact hwanted.pumpFrom

/-- **Every event** keeps what holds between events. -/
theorem Whole.step (h : Whole s) (e : Event χ δ) (hs : s.step e = some s') : Whole s' := by
  cases e with
  | setViewport v => exact Option.some.inj hs ▸ h.setViewport v
  | retry => exact Option.some.inj hs ▸ h.retry
  | invalidate => exact Option.some.inj hs ▸ h.invalidate
  | reset => exact Option.some.inj hs ▸ h.reset
  | dispose => exact Option.some.inj hs ▸ h.dispose
  | read tasks =>
    obtain ⟨clock, pageUsed, tileUsed, heq⟩ := foldl_use tasks s
    obtain rfl := Option.some.inj hs
    rw [heq]
    exact ⟨{ h.sound with }, { h.kept with }, fun hd => { h.wanted hd with }⟩
  | pass ms =>
    obtain rfl := Option.some.inj hs
    exact ⟨{ h.sound with }, { h.kept with }, fun hd => { h.wanted hd with }⟩
  | answerPage uid answer =>
    obtain ⟨r, hr, hs⟩ := Option.bind_eq_some_iff.mp hs
    cases htask : r.task with
    | page p =>
      rw [htask] at hs
      exact Option.some.inj hs ▸ h.answerPage htask answer
    | tile p b =>
      rw [htask] at hs
      cases hs
  | answerTile uid answer =>
    obtain ⟨r, hr, hs⟩ := Option.bind_eq_some_iff.mp hs
    cases htask : r.task with
    | page p =>
      rw [htask] at hs
      cases hs
    | tile p b =>
      rw [htask] at hs
      exact Option.some.inj hs ▸ h.answerTile htask answer
  | settle uid =>
    obtain ⟨r, hr, rfl⟩ := Option.map_eq_some_iff.mp hs
    obtain ⟨hmem, -, hanswered⟩ := settling_spec hr
    exact h.settle hmem hanswered
  | fire id =>
    obtain ⟨t, ht, rfl⟩ := Option.map_eq_some_iff.mp hs
    exact h.fired (List.mem_of_find?_eq_some ht)

/-! ## Runs -/

theorem whole_start₀ (o : Options) : Whole (start₀ o : Store χ δ) where
  sound :=
    { flight := rfl
      distinct := List.nodup_nil
      numbered := fun _ => (nomatch ·)
      timed := fun _ => (nomatch ·)
      nested := fun _ => (nomatch ·)
      unseen := fun _ => ⟨rfl, rfl⟩
      pageNumbered := fun _ _ => (nomatch ·)
      tileNumbered := fun _ _ => (nomatch ·)
      fenced := le_rfl
      dated := fun _ _ => (nomatch ·)
      current := fun _ _ => (nomatch ·)
      pageAwaited := fun _ _ => (nomatch ·)
      tileAwaited := fun _ _ _ => (nomatch ·)
      failed := fun _ => (nomatch ·)
      idle := fun _ => ⟨rfl, rfl, rfl⟩ }
  kept := ⟨fun _ _ => (nomatch ·), .inl (Nat.zero_le _), .inl (Nat.zero_le _)⟩
  wanted := fun _ => ⟨fun _ => (nomatch ·), fun _ _ _ => (nomatch ·)⟩

/-! ## Requests that an event starts -/

theorem requests_retryLater {uid attempts : ℕ} : (s.retryLater uid attempts task).requests = s.requests := by
  unfold retryLater
  split_ifs <;> rfl

theorem bounded_answerPage (h : ∀ uid ∈ s.requests.map Request.uid, uid < n)
    (answer : Except Failure (List χ × ℕ)) : Bounded n (s.answerPage r p answer) := by
  unfold Store.answerPage
  split
  · split_ifs
    · rename_i page _ _
      match answer with
      | .ok (items, total) => exact Bounded.plan (.inl h)
      | .error .refreshRequired =>
        refine Bounded.plan (.inl fun uid huid => h uid ?_)
        rwa [show s.clear.requests.map Request.uid = _ from uids_abort _] at huid
      | .error (.rateLimited delay) =>
        unfold Store.pageAnswered
        dsimp only
        split_ifs
        · exact .inl h
        · exact .inl (by rw [Store.pageFailed, requests_retryLater]; exact h)
      | .error .other => exact .inl (by
          rw [Store.pageAnswered, Store.pageFailed, requests_retryLater]
          exact h)
    · exact .inl h
  · exact .inl h

theorem bounded_answerTile (h : ∀ uid ∈ s.requests.map Request.uid, uid < n)
    (answer : Except Failure δ) : Bounded n (s.answerTile r p b answer) := by
  have hfailed (tile : Tile δ) : Bounded n (s.tileFailed p b tile) := .inl (by
    rw [Store.tileFailed, requests_retryLater]
    exact h)
  unfold Store.answerTile
  split
  · split_ifs
    · rename_i tile _ _
      match answer with
      | .ok data => exact .inl h
      | .error .refreshRequired => exact hfailed tile
      | .error (.rateLimited delay) =>
        unfold Store.tileAnswered
        dsimp only
        split_ifs
        · exact .inl h
        · exact hfailed tile
      | .error .other => exact hfailed tile
    · exact .inl h
  · exact .inl h

theorem bounded_fired (h : ∀ uid ∈ s.requests.map Request.uid, uid < n) (t : Timer) :
    Bounded n (s.fired t) := by
  unfold Store.fired
  split <;> split
  · split_ifs
    · exact Bounded.plan (.inl h)
    · exact .inl h
  · exact .inl h
  · split_ifs
    · exact Bounded.plan (.inl h)
    · exact Bounded.plan (.inl h)
    · exact .inl h
  · exact .inl h

/-- **The requests of an event** are started within the bound. -/
theorem Whole.bounded_step (h : Whole s) (e : Event χ δ) (hs : s.step e = some s') :
    Bounded s.next s' := by
  have huids : ∀ uid ∈ s.requests.map Request.uid, uid < s.next := fun uid huid => by
    obtain ⟨r, hr, rfl⟩ := List.mem_map.mp huid
    exact h.sound.numbered r hr
  cases e with
  | setViewport v =>
    obtain rfl := Option.some.inj hs
    unfold Store.setViewport
    split_ifs
    · exact .inl huids
    · exact Bounded.plan (.inl huids)
  | retry =>
    obtain rfl := Option.some.inj hs
    exact Bounded.plan (.inl huids)
  | invalidate =>
    obtain rfl := Option.some.inj hs
    refine Bounded.plan (.inl ?_)
    rw [show s.outdated.requests.map Request.uid = _ from uids_abort _]
    exact huids
  | reset =>
    obtain rfl := Option.some.inj hs
    refine Bounded.plan (.inl fun uid huid => huids uid ?_)
    rwa [show s.clear.requests.map Request.uid = _ from uids_abort _] at huid
  | dispose =>
    obtain rfl := Option.some.inj hs
    refine Bounded.plan (.inl fun uid huid => huids uid ?_)
    rwa [show (({ s with disposed := true } : Store χ δ).clear).requests.map Request.uid = _ from
      uids_abort _] at huid
  | read tasks =>
    obtain ⟨clock, pageUsed, tileUsed, heq⟩ := foldl_use tasks s
    obtain rfl := Option.some.inj hs
    rw [heq]
    exact .inl huids
  | pass ms =>
    obtain rfl := Option.some.inj hs
    exact .inl huids
  | answerPage uid answer =>
    obtain ⟨r, hr, hs⟩ := Option.bind_eq_some_iff.mp hs
    split at hs
    · obtain rfl := Option.some.inj hs
      exact bounded_answerPage (by rwa [uids_mark]) answer
    · cases hs
  | answerTile uid answer =>
    obtain ⟨r, hr, hs⟩ := Option.bind_eq_some_iff.mp hs
    split at hs
    · cases hs
    · obtain rfl := Option.some.inj hs
      exact bounded_answerTile (by rwa [uids_mark]) answer
  | settle uid =>
    obtain ⟨r, hr, rfl⟩ := Option.map_eq_some_iff.mp hs
    refine Bounded.pumpFrom (.inl fun uid huid => huids uid ?_) _
    exact (List.erase_sublist.map _).subset huid
  | fire id =>
    obtain ⟨t, ht, rfl⟩ := Option.map_eq_some_iff.mp hs
    refine bounded_fired ?_ t
    exact huids

/-! ## The whole store -/

/-- **What holds of a state.** -/
structure Consistent (s : Store χ δ) : Prop where
  inFlight : s.inFlightCount = s.requests.length
  resident : ∀ p b tile, s.tiles.get (p, b) = some tile → ∃ page, s.pages.get p = some page
  pageCap : s.o.maxChannelPages < s.pages.entries.length →
    ∀ p page, s.pages.get p = some page → p ∈ s.interestPages
  tileCap : s.o.maxTiles < s.tiles.entries.length →
    ∀ k tile, s.tiles.get k = some tile → k ∈ s.interestTiles
  /-- A tile that is not stale was requested after the last invalidation. -/
  fresh : ∀ k tile, s.tiles.get k = some tile → tile.stale = false → s.fence ≤ tile.uid
  pages : s.disposed = false → ∀ p ∈ s.interestPages,
    (∃ page, s.pages.get p = some page ∧
      (page.status = .loading → s.Awaited (.page p) page.uid page.timer)) ∨ .page p ∈ s.queue
  tiles : s.disposed = false → ∀ p b page, (p, b) ∈ s.interestTiles → s.pages.get p = some page →
    page.status = .ready →
      (∃ tile, s.tiles.get (p, b) = some tile ∧
        (tile.status = .loading → s.Awaited (.tile p b) tile.uid tile.timer)) ∨
        .tile p b ∈ s.queue

/-- A request whose answer is of no use any more: it was aborted, or its entry is gone or another. -/
def Outlived (s : Store χ δ) (r : Request) : Prop :=
  r.aborted = true ∨
    match r.task with
    | .page p => ∀ page, s.pages.get p = some page → page.uid ≠ r.uid
    | .tile p b => ∀ tile, s.tiles.get (p, b) = some tile → tile.uid ≠ r.uid

/-- **What holds of an event.** -/
structure Lawful (s : Store χ δ) (e : Event χ δ) (s' : Store χ δ) : Prop where
  started : ∀ r ∈ s'.requests, s.next ≤ r.uid → s'.inFlightCount ≤ s'.o.maxInFlight
  ignoredPage : ∀ uid answer r, e = .answerPage uid answer → s.asked uid = some r → s.Outlived r →
    s' = s.mark r
  ignoredTile : ∀ uid answer r, e = .answerTile uid answer → s.asked uid = some r → s.Outlived r →
    s' = s.mark r

theorem Whole.consistent (h : Whole s) : Consistent s where
  inFlight := h.sound.flight
  resident := fun p b tile hget => Option.isSome_iff_exists.mp (h.kept.resident (p, b) tile hget)
  pageCap := fun hlt => h.kept.pageCap.resolve_left (not_le.mpr hlt)
  tileCap := fun hlt => h.kept.tileCap.resolve_left (not_le.mpr hlt)
  fresh := fun k tile hget hfresh => h.sound.current k tile hget (.inr hfresh)
  pages := fun hd p hp => by
    cases hget : s.pages.get p with
    | none => exact .inr ((h.wanted hd).pages p hp hget)
    | some page => exact .inl ⟨page, rfl, h.sound.pageAwaited p page hget⟩
  tiles := fun hd p b page hk hpage hready => by
    cases hget : s.tiles.get (p, b) with
    | none => exact .inr ((h.wanted hd).tiles p b page hk hpage hready hget)
    | some tile => exact .inl ⟨tile, rfl, h.sound.tileAwaited p b tile hget⟩

theorem answerPage_outlived {answer : Except Failure (List χ × ℕ)} (htask : r.task = .page p)
    (h : s.Outlived r) : s.answerPage r p answer = s := by
  unfold Store.answerPage
  split
  · rename_i page hget
    refine if_neg ?_
    rintro ⟨hab, huid⟩
    rcases h with haborted | hgone
    · rw [hab] at haborted
      cases haborted
    · rw [htask] at hgone
      exact hgone page hget huid
  · rfl

theorem answerTile_outlived {answer : Except Failure δ} (htask : r.task = .tile p b)
    (h : s.Outlived r) : s.answerTile r p b answer = s := by
  unfold Store.answerTile
  split
  · rename_i tile hget
    refine if_neg ?_
    rintro ⟨hab, huid⟩
    rcases h with haborted | hgone
    · rw [hab] at haborted
      cases haborted
    · rw [htask] at hgone
      exact hgone tile hget huid
  · rfl

theorem Whole.lawful (h : Whole s) (e : Event χ δ) (hs : s.step e = some s') : Lawful s e s' where
  started := fun r hr huid => by
    refine (h.bounded_step e hs).resolve_left fun hold => ?_
    exact absurd (hold r.uid (List.mem_map_of_mem hr)) (not_lt.mpr huid)
  ignoredPage := fun uid answer r he hasked hgone => by
    subst he
    obtain ⟨x, hx, hs⟩ := Option.bind_eq_some_iff.mp hs
    obtain rfl := Option.some.inj (hasked.symm.trans hx)
    split at hs
    · rename_i p htask
      obtain rfl := Option.some.inj hs
      exact answerPage_outlived htask hgone
    · cases hs
  ignoredTile := fun uid answer r he hasked hgone => by
    subst he
    obtain ⟨x, hx, hs⟩ := Option.bind_eq_some_iff.mp hs
    obtain rfl := Option.some.inj (hasked.symm.trans hx)
    split at hs
    · cases hs
    · rename_i p b htask
      obtain rfl := Option.some.inj hs
      exact answerTile_outlived htask hgone

/-- **The guide's store.** Every state that it comes to is consistent, and every event lawful. -/
theorem store_consistent (o : Options) (es : List (Event χ δ)) (s : Store χ δ)
    (hrun : Machine.run step (start₀ o) es = some s) :
    Consistent s ∧ ∀ e s', s.step e = some s' → Lawful s e s' := by
  have h : Whole s := Machine.run_invariant (fun s e s' h hs => h.step e hs) (whole_start₀ o) hrun
  exact ⟨h.consistent, fun e s' hs => h.lawful e hs⟩

/-- A guide of one hour. -/
def hour : Viewport := ⟨0, 11, 0, 3600000⟩

def guideOptions : Options := ⟨50, 10800000, 6, 24, 4, 1, 1, [5000, 15000, 45000]⟩

theorem store_consistent_hour :
    Consistent ((start₀ guideOptions : Store Unit Unit).setViewport hour) ∧
      ∀ e s', ((start₀ guideOptions : Store Unit Unit).setViewport hour).step e = some s' →
        Lawful ((start₀ guideOptions).setViewport hour) e s' :=
  store_consistent guideOptions [.setViewport hour] _ rfl

/-- A tile of the interest is neither there nor waited for while its page is loading. -/
theorem early_tile : ¬ ∀ es : List (Event Unit Unit), ∀ s ∈ Machine.run step (start₀ guideOptions) es,
    ∀ p b, (p, b) ∈ s.interestTiles →
      (s.tiles.get (p, b)).any (fun tile => tile.status ≠ .loading) ∨ .tile p b ∈ s.queue ∨
        (∃ r ∈ s.requests, r.task = .tile p b) ∨ ∃ t ∈ s.timers, t.task = .tile p b := by
  intro h
  have htile := h [.setViewport hour] _ rfl 0 0 (by decide +kernel)
  revert htile
  decide +kernel

end Portico.Guide.Store
