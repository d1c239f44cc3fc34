import Portico.Guide.Failures

/-!
# The guide: how failures are tried again

A page or tile that fails is to be requested again after the first delay, after its next failure after
the second, and so on, and after the last delay no more. That holds as long as every event is patient:
a page loses its count when its timer runs out, and a failed tile that is stale is requested again
whenever the store plans.

## Main results

* `Kept'.step`: a patient event keeps what is known of the failures
* `guide_retries`: in a run of patient events nothing is requested again too early
-/

namespace Portico.Guide.Store

variable {χ δ : Type*} {s s' : Store χ δ} {p : ℕ} {b : ℤ} {k : ℕ × ℤ} {page page' : Page χ}
  {tile tile' : Tile δ} {task : Task} {queue : List Task} {n : ℕ} {r : Request} {m m' : Fails}

/-! ## Nothing failed -/

theorem Begun.of_lt (h : ∀ r ∈ s.requests, r.uid < n) : Begun n s m :=
  fun r hr huid => absurd (h r hr) (not_lt.mpr huid)

theorem Primed.clean (h : Watched s fun _ => (0, 0)) (hlined : Lined s s.queue) :
    Primed n s fun _ => (0, 0) where
  watched := h
  waited := fun _ _ => .inl rfl
  lined := hlined
  begun := fun _ _ _ => .inl rfl

theorem Watched.clean
    (ready : ∀ p b tile, s.tiles.get (p, b) = some tile →
      ∃ page, s.pages.get p = some page ∧ page.status = .ready)
    (asking : ∀ r ∈ s.requests, r.answered = false → ∀ p page, r.task = .page p →
      s.pages.get p = some page → page.uid = r.uid → page.status = .loading)
    (askingTile : ∀ r ∈ s.requests, r.answered = false → r.aborted = false → ∀ p b tile,
      r.task = .tile p b → s.tiles.get (p, b) = some tile → tile.uid = r.uid → tile.status = .loading)
    (answered : ∀ t ∈ s.timers, ∀ r ∈ s.requests, r.uid = t.uid → r.answered = true)
    (pageFresh : ∀ p page, s.pages.get p = some page → page.status = .loading → page.attempts = 0)
    (pageWaiting : ∀ t ∈ s.timers, ∀ p page, t.task = .page p → s.pages.get p = some page →
      page.uid = t.uid → page.status ≠ .ready) : Watched s fun _ => (0, 0) where
  ready := ready
  asking := asking
  askingTile := askingTile
  answered := answered
  pageFresh := pageFresh
  pageWaiting := pageWaiting
  pageGone := fun _ _ => .inl rfl
  tileGone := fun _ _ _ => rfl
  tileCount := fun _ _ _ _ => Nat.zero_le _
  tileReady := fun _ _ _ _ _ => rfl
  pageLimited := fun _ _ _ _ _ _ _ _ => rfl
  tileLimited := fun _ _ _ _ _ _ _ _ _ => rfl
  pageTimer := fun _ _ _ _ _ _ _ _ => (nomatch ·)
  tileTimer := fun _ _ _ _ _ _ _ _ _ hne => absurd rfl hne

theorem renew_status (tile : Tile δ) : (renew tile).status = tile.status := by
  unfold renew
  split_ifs <;> rfl

theorem get_renewed (hk : s.renewed.tiles.get k = some tile) :
    ∃ x, s.tiles.get k = some x ∧ renew x = tile := by
  change (s.tiles.map renew).get k = some tile at hk
  rw [OrderedMap.get_map] at hk
  exact Option.map_eq_some_iff.mp hk

theorem get_renewed_page (hp : s.renewed.pages.get p = some page) :
    s.pages.get p = some page ∧ page.status ≠ .error := by
  obtain ⟨hget, hstatus⟩ := OrderedMap.get_keep_eq_some.mp hp
  exact ⟨hget, of_decide_eq_true hstatus⟩

theorem Watched.renewed (h : Watched s m) : Watched s.renewed fun _ => (0, 0) := by
  apply Watched.clean
  · intro p b tile hk
    obtain ⟨x, hx, -⟩ := get_renewed hk
    obtain ⟨page, hpage, hready⟩ := h.ready p b x hx
    refine ⟨page, OrderedMap.get_keep_eq_some.mpr ⟨hpage, decide_eq_true ?_⟩, hready⟩
    rw [hready]
    exact (nomatch ·)
  · exact fun r hr hanswered p page htask hp =>
      h.asking r hr hanswered p page htask (get_renewed_page hp).1
  · intro r hr hanswered haborted p b tile htask hk huid
    obtain ⟨x, hx, rfl⟩ := get_renewed hk
    rw [renew_status]
    exact h.askingTile r hr hanswered haborted p b x htask hx ((renew_spec x).1 ▸ huid)
  · exact fun t ht => h.answered t (List.mem_filter.mp ht).1
  · exact fun p page hp => h.pageFresh p page (get_renewed_page hp).1
  · exact fun t ht p page htask hp =>
      h.pageWaiting t (List.mem_filter.mp ht).1 p page htask (get_renewed_page hp).1

theorem Lined.renewed (h : Lined s s.queue) : Lined s.renewed s.queue where
  once := h.once
  page := fun p hp => get_drop_of_none (fun _ hget => (get_renewed_page hget).1) (h.page p hp)
  tile := fun p b hk tile hget => by
    obtain ⟨x, hx, rfl⟩ := get_renewed hget
    rw [renew_status]
    exact h.tile p b hk x hx

theorem Watched.outdated (h : Watched s m) : Watched s.outdated fun _ => (0, 0) := by
  apply Watched.clean
  · intro p b tile hk
    obtain ⟨x, hx, -⟩ := get_outdated hk
    exact h.ready p b x hx
  · intro r hr hanswered p page htask hp huid
    obtain ⟨x, hx, hxuid, hxtask, hxanswered, -⟩ := before_abort hr
    exact h.asking x hx (hxanswered.trans hanswered) p page (hxtask.trans htask) hp
      (huid.trans hxuid.symm)
  · -- the request of a tile that was loading was aborted
    intro r hr hanswered haborted p b tile htask hk huid
    obtain ⟨x, hx, rfl⟩ := get_outdated hk
    obtain ⟨y, hy, rfl⟩ := List.mem_map.mp hr
    split_ifs at hanswered haborted htask huid with hgone
    have hloading := h.askingTile y hy hanswered haborted p b x htask hx huid
    refine absurd (List.mem_map.mpr ⟨((p, b), x), List.mem_filter.mpr ⟨?_, ?_⟩, ?_⟩) hgone
    · exact OrderedMap.get_eq_some.mp hx
    · exact decide_eq_true hloading
    · exact Prod.ext htask.symm huid
  · intro t ht r hr huid
    obtain ⟨x, hx, hxuid, -, hxanswered, -⟩ := before_abort hr
    exact hxanswered ▸ h.answered t ht x hx (hxuid.trans huid)
  · exact h.pageFresh
  · exact h.pageWaiting

theorem Lined.outdated (h : Lined s s.queue) : Lined s.outdated s.queue where
  once := h.once
  page := h.page
  tile := fun p b _ tile hget => by
    obtain ⟨x, -, rfl⟩ := get_outdated hget
    exact outdate_idle x

theorem Watched.clear (h : Watched s m) : Watched s.clear fun _ => (0, 0) := by
  apply Watched.clean
  · exact fun _ _ _ => (nomatch ·)
  · exact fun _ _ _ _ _ _ => (nomatch ·)
  · exact fun _ _ _ _ _ _ _ _ => (nomatch ·)
  · intro t ht r hr huid
    obtain ⟨x, hx, hxuid, -, hxanswered, -⟩ := before_abort hr
    exact hxanswered ▸ h.answered t (List.mem_filter.mp ht).1 x hx (hxuid.trans huid)
  · exact fun _ _ => (nomatch ·)
  · exact fun _ _ _ _ _ => (nomatch ·)

theorem Watched.plan_clear (h : Watched s m) (hsound : Sound s.clear) :
    Kept' n s.clear.plan (restrict (fun _ => (0, 0)) s.clear.plan) := by
  refine (Primed.clean h.clear ?_).plan hsound fun _ _ _ _ _ _ _ _ _ _ => .inl rfl
  exact ⟨List.nodup_nil, fun _ => (nomatch ·), fun _ _ => (nomatch ·)⟩

/-! ## Answers -/

theorem of_mem_mark {x : Request} (hx : x ∈ (s.mark r).requests) :
    (x ∈ s.requests ∧ x ≠ r) ∨ (r ∈ s.requests ∧ x = { r with answered := true }) := by
  obtain ⟨y, hy, rfl⟩ := List.mem_map.mp hx
  split_ifs with heq
  · subst heq
    exact .inr ⟨hy, rfl⟩
  · exact .inl ⟨hy, heq⟩

theorem Watched.mark (h : Watched s m) (r : Request) : Watched (s.mark r) m :=
  { h with
    asking := fun x hx hanswered p page => by
      rcases of_mem_mark hx with ⟨hx, -⟩ | ⟨-, rfl⟩
      · exact h.asking x hx hanswered p page
      · cases hanswered
    askingTile := fun x hx hanswered haborted p b tile => by
      rcases of_mem_mark hx with ⟨hx, -⟩ | ⟨-, rfl⟩
      · exact h.askingTile x hx hanswered haborted p b tile
      · cases hanswered
    answered := fun t ht x hx huid => by
      rcases of_mem_mark hx with ⟨hx, -⟩ | ⟨-, rfl⟩
      · exact h.answered t ht x hx huid
      · rfl }

theorem Primed.mark (h : Primed n s m) (r : Request) : Primed n (s.mark r) m where
  watched := h.watched.mark r
  waited := h.waited
  lined := { h.lined with }
  begun := fun x hx huid => by
    rcases of_mem_mark hx with ⟨hx, -⟩ | ⟨hr, rfl⟩
    · exact h.begun x hx huid
    · exact h.begun r hr huid

/-- The entry of an answer that is awaited: its requests are answered, and it has no timer. -/
structure Single (s : Store χ δ) (uid : ℕ) : Prop where
  requests : ∀ r ∈ s.requests, r.uid = uid → r.answered = true
  timers : ∀ t ∈ s.timers, t.uid ≠ uid

theorem single_mark (h : Watched s m) (hsound : Counted s) (hr : r ∈ s.requests)
    (hanswered : r.answered = false) : Single (s.mark r) r.uid where
  requests := fun x hx huid => by
    rcases of_mem_mark hx with ⟨hx, hne⟩ | ⟨-, rfl⟩
    · exact absurd (List.inj_on_of_nodup_map hsound.distinct hx hr huid) hne
    · rfl
  timers := fun t ht huid => by
    have := h.answered t ht r hr huid.symm
    rw [hanswered] at this
    cases this

theorem update_of_ne' {f : ℕ × ℕ} {x : Task} (h : x ≠ task) :
    Function.update m task f x = m x := Function.update_of_ne h f m

theorem Watched.setPage (h : Watched s m) (hget : s.pages.get p = some page)
    (hloading : page.status = .loading) (huid : page'.uid = page.uid) (hsingle : Single s page.uid)
    (hfresh : page'.status = .loading → page'.attempts = 0) (f : ℕ × ℕ) :
    Watched { s with pages := s.pages.set p page' } (Function.update m (.page p) f) := by
  have hother {j : ℕ} {x : Page χ} (hx : (s.pages.set p page').get j = some x) :
      (j = p ∧ x = page') ∨ (j ≠ p ∧ s.pages.get j = some x) := by
    have hset := OrderedMap.get_set_eq_some.mp hx
    split_ifs at hset with hj
    · exact .inl ⟨hj, hset⟩
    · exact .inr ⟨hj, hset⟩
  have hpage {j : ℕ} (hj : j ≠ p) : Function.update m (.page p) f (.page j) = m (.page j) :=
    update_of_ne' fun heq => hj (Task.page.inj heq)
  have htile {j : ℕ} {c : ℤ} : Function.update m (.page p) f (.tile j c) = m (.tile j c) :=
    update_of_ne' fun hno => by cases hno
  exact { h with
    ready := fun j c tile hk => by
      obtain ⟨x, hx, hready⟩ := h.ready j c tile hk
      refine ⟨x, ?_, hready⟩
      change (s.pages.set p page').get j = some x
      rw [OrderedMap.get_set_of_ne, hx]
      rintro rfl
      rw [hget] at hx
      rw [← Option.some.inj hx, hloading] at hready
      cases hready
    asking := fun r hr hanswered j x htask hx hxuid => by
      rcases hother hx with ⟨-, rfl⟩ | ⟨-, hx⟩
      · rw [hsingle.requests r hr (hxuid.symm.trans huid)] at hanswered
        cases hanswered
      · exact h.asking r hr hanswered j x htask hx hxuid
    pageFresh := fun j x hx hl => by
      rcases hother hx with ⟨-, rfl⟩ | ⟨-, hx⟩
      · exact hfresh hl
      · exact h.pageFresh j x hx hl
    pageWaiting := fun t ht j x htask hx hxuid => by
      rcases hother hx with ⟨-, rfl⟩ | ⟨-, hx⟩
      · exact absurd (hxuid.symm.trans huid) (hsingle.timers t ht)
      · exact h.pageWaiting t ht j x htask hx hxuid
    pageGone := fun j hx => by
      have hx : (s.pages.set p page').get j = none := hx
      rw [OrderedMap.get_set] at hx
      split_ifs at hx with hj
      rw [hpage hj]
      exact h.pageGone j hx
    tileGone := fun j c hk => htile ▸ h.tileGone j c hk
    tileCount := fun j c x hk => htile ▸ h.tileCount j c x hk
    tileReady := fun j c x hk hready => htile ▸ h.tileReady j c x hk hready
    pageLimited := fun t ht hl j x htask hx hxuid => by
      rcases hother hx with ⟨-, rfl⟩ | ⟨hj, hx⟩
      · exact absurd (hxuid.symm.trans huid) (hsingle.timers t ht)
      · rw [hpage hj]
        exact h.pageLimited t ht hl j x htask hx hxuid
    tileLimited := fun t ht hl j c x htask hk hxuid =>
      htile ▸ h.tileLimited t ht hl j c x htask hk hxuid
    pageTimer := fun t ht hl j x htask hx hxuid => by
      rcases hother hx with ⟨-, rfl⟩ | ⟨hj, hx⟩
      · exact absurd (hxuid.symm.trans huid) (hsingle.timers t ht)
      · rw [hpage hj]
        exact h.pageTimer t ht hl j x htask hx hxuid
    tileTimer := fun t ht hl j c x htask hk hxuid => by
      rw [htile]
      exact h.tileTimer t ht hl j c x htask hk hxuid }

theorem Watched.setTile (h : Watched s m) (tile' : Tile δ) (hget : s.tiles.get (p, b) = some tile)
    (huid : tile'.uid = tile.uid) (hanswered : ∀ r ∈ s.requests, r.uid = tile.uid → r.answered = true)
    {f : ℕ × ℕ} (hf : Single s tile.uid ∨ (f = m (.tile p b) ∧ tile'.attempts = tile.attempts))
    (hcount : f.1 ≤ tile'.attempts) (hready : tile'.status = .ready → f.1 = 0) :
    Watched { s with tiles := s.tiles.set (p, b) tile' } (Function.update m (.tile p b) f) := by
  have hother {j : ℕ} {c : ℤ} {x : Tile δ} (hx : (s.tiles.set (p, b) tile').get (j, c) = some x) :
      (j = p ∧ c = b ∧ x = tile') ∨ ((j, c) ≠ (p, b) ∧ s.tiles.get (j, c) = some x) := by
    have hset := OrderedMap.get_set_eq_some.mp hx
    split_ifs at hset with hk
    · exact .inl ⟨(Prod.mk.inj hk).1, (Prod.mk.inj hk).2, hset⟩
    · exact .inr ⟨hk, hset⟩
  have hpage {j : ℕ} : Function.update m (.tile p b) f (.page j) = m (.page j) :=
    update_of_ne' fun hno => by cases hno
  have htile {j : ℕ} {c : ℤ} (hk : (j, c) ≠ (p, b)) :
      Function.update m (.tile p b) f (.tile j c) = m (.tile j c) :=
    update_of_ne' fun heq => hk (Prod.ext (Task.tile.inj heq).1 (Task.tile.inj heq).2)
  have hself : Function.update m (.tile p b) f (.tile p b) = f := Function.update_self ..
  exact { h with
    ready := fun j c x hx => by
      rcases hother hx with ⟨rfl, rfl, -⟩ | ⟨-, hx⟩
      · exact h.ready j c tile hget
      · exact h.ready j c x hx
    askingTile := fun r hr hr' haborted j c x htask hx hxuid => by
      rcases hother hx with ⟨rfl, rfl, rfl⟩ | ⟨-, hx⟩
      · rw [hanswered r hr (hxuid.symm.trans huid)] at hr'
        cases hr'
      · exact h.askingTile r hr hr' haborted j c x htask hx hxuid
    pageGone := fun j hx => hpage ▸ h.pageGone j hx
    tileGone := fun j c hx => by
      have hx : (s.tiles.set (p, b) tile').get (j, c) = none := hx
      rw [OrderedMap.get_set] at hx
      split_ifs at hx with hk
      rw [htile hk]
      exact h.tileGone j c hx
    tileCount := fun j c x hx => by
      rcases hother hx with ⟨rfl, rfl, rfl⟩ | ⟨hk, hx⟩
      · rwa [hself]
      · rw [htile hk]
        exact h.tileCount j c x hx
    tileReady := fun j c x hx hxready => by
      rcases hother hx with ⟨rfl, rfl, rfl⟩ | ⟨hk, hx⟩
      · rw [hself]
        exact hready hxready
      · rw [htile hk]
        exact h.tileReady j c x hx hxready
    pageLimited := fun t ht hl j x htask hx hxuid =>
      hpage ▸ h.pageLimited t ht hl j x htask hx hxuid
    tileLimited := fun t ht hl j c x htask hx hxuid => by
      rcases hother hx with ⟨rfl, rfl, rfl⟩ | ⟨hk, hx⟩
      · rw [hself]
        rcases hf with hsingle | ⟨rfl, -⟩
        · exact absurd (hxuid.symm.trans huid) (hsingle.timers t ht)
        · exact h.tileLimited t ht hl j c tile htask hget (huid.symm.trans hxuid)
      · rw [htile hk]
        exact h.tileLimited t ht hl j c x htask hx hxuid
    pageTimer := fun t ht hl j x htask hx hxuid => by
      rw [hpage]
      exact h.pageTimer t ht hl j x htask hx hxuid
    tileTimer := fun t ht hl j c x htask hx hxuid => by
      rcases hother hx with ⟨rfl, rfl, rfl⟩ | ⟨hk, hx⟩
      · rw [hself]
        rcases hf with hsingle | ⟨rfl, hattempts⟩
        · exact absurd (hxuid.symm.trans huid) (hsingle.timers t ht)
        · rw [hattempts]
          exact h.tileTimer t ht hl j c tile htask hget (huid.symm.trans hxuid)
      · rw [htile hk]
        exact h.tileTimer t ht hl j c x htask hx hxuid }

theorem Watched.setPageTimer {limited : Bool} {ms : ℕ} (h : Watched s m) (page : Page χ)
    (hget : s.pages.get p = some page)
    (hanswered : ∀ r ∈ s.requests, r.uid = page.uid → r.answered = true)
    (hstatus : page.status ≠ .ready) (hlimited : limited = true → (m (.page p)).1 = 0)
    (hone : limited = false → (m (.page p)).1 = 1 →
      1 ≤ s.o.retryMs.length ∧ (m (.page p)).2 + delay s.o 1 ≤ s.now + ms) :
    Watched (s.setTimer page.uid (.page p) limited ms) m := by
  have hown {j : ℕ} {x : Page χ} (hj : Task.page p = .page j) (hx : s.pages.get j = some x) :
      j = p ∧ x = page := by
    obtain rfl := Task.page.inj hj
    rw [hget] at hx
    exact ⟨rfl, (Option.some.inj hx).symm⟩
  exact { h with
    answered := fun t ht r hr huid => by
      rcases List.mem_append.mp ht with ht | ht
      · exact h.answered t ht r hr huid
      · obtain rfl := List.mem_singleton.mp ht
        exact hanswered r hr huid
    pageWaiting := fun t ht j x htask hx huid => by
      rcases List.mem_append.mp ht with ht | ht
      · exact h.pageWaiting t ht j x htask hx huid
      · obtain rfl := List.mem_singleton.mp ht
        obtain ⟨rfl, rfl⟩ := hown htask hx
        exact hstatus
    pageLimited := fun t ht hl j x htask hx huid => by
      rcases List.mem_append.mp ht with ht | ht
      · exact h.pageLimited t ht hl j x htask hx huid
      · obtain rfl := List.mem_singleton.mp ht
        obtain ⟨rfl, rfl⟩ := hown htask hx
        exact hlimited hl
    tileLimited := fun t ht hl j c x htask hx huid => by
      rcases List.mem_append.mp ht with ht | ht
      · exact h.tileLimited t ht hl j c x htask hx huid
      · obtain rfl := List.mem_singleton.mp ht
        cases htask
    pageTimer := fun t ht hl j x htask hx huid => by
      rcases List.mem_append.mp ht with ht | ht
      · exact h.pageTimer t ht hl j x htask hx huid
      · obtain rfl := List.mem_singleton.mp ht
        obtain ⟨rfl, rfl⟩ := hown htask hx
        exact hone hl
    tileTimer := fun t ht hl j c x htask hx huid => by
      rcases List.mem_append.mp ht with ht | ht
      · exact h.tileTimer t ht hl j c x htask hx huid
      · obtain rfl := List.mem_singleton.mp ht
        cases htask }

theorem Watched.setTileTimer {limited : Bool} {ms : ℕ} (h : Watched s m) (tile : Tile δ)
    (hget : s.tiles.get (p, b) = some tile)
    (hanswered : ∀ r ∈ s.requests, r.uid = tile.uid → r.answered = true)
    (hlimited : limited = true → (m (.tile p b)).1 = 0)
    (hsome : limited = false → (m (.tile p b)).1 ≠ 0 →
      tile.attempts ≤ s.o.retryMs.length ∧ (m (.tile p b)).2 + delay s.o tile.attempts ≤ s.now + ms) :
    Watched (s.setTimer tile.uid (.tile p b) limited ms) m := by
  have hown {j : ℕ} {c : ℤ} {x : Tile δ} (hj : Task.tile p b = .tile j c)
      (hx : s.tiles.get (j, c) = some x) : j = p ∧ c = b ∧ x = tile := by
    obtain ⟨rfl, rfl⟩ := Task.tile.inj hj
    rw [hget] at hx
    exact ⟨rfl, rfl, (Option.some.inj hx).symm⟩
  exact { h with
    answered := fun t ht r hr huid => by
      rcases List.mem_append.mp ht with ht | ht
      · exact h.answered t ht r hr huid
      · obtain rfl := List.mem_singleton.mp ht
        exact hanswered r hr huid
    pageWaiting := fun t ht j x htask hx huid => by
      rcases List.mem_append.mp ht with ht | ht
      · exact h.pageWaiting t ht j x htask hx huid
      · obtain rfl := List.mem_singleton.mp ht
        cases htask
    pageLimited := fun t ht hl j x htask hx huid => by
      rcases List.mem_append.mp ht with ht | ht
      · exact h.pageLimited t ht hl j x htask hx huid
      · obtain rfl := List.mem_singleton.mp ht
        cases htask
    tileLimited := fun t ht hl j c x htask hx huid => by
      rcases List.mem_append.mp ht with ht | ht
      · exact h.tileLimited t ht hl j c x htask hx huid
      · obtain rfl := List.mem_singleton.mp ht
        obtain ⟨rfl, rfl, rfl⟩ := hown htask hx
        exact hlimited hl
    pageTimer := fun t ht hl j x htask hx huid => by
      rcases List.mem_append.mp ht with ht | ht
      · exact h.pageTimer t ht hl j x htask hx huid
      · obtain rfl := List.mem_singleton.mp ht
        cases htask
    tileTimer := fun t ht hl j c x htask hx huid => by
      rcases List.mem_append.mp ht with ht | ht
      · exact h.tileTimer t ht hl j c x htask hx huid
      · obtain rfl := List.mem_singleton.mp ht
        obtain ⟨rfl, rfl, rfl⟩ := hown htask hx
        exact hsome hl }

theorem Primed.setPage (h : Primed n s m) (page' : Page χ) (hlt : ∀ r ∈ s.requests, r.uid < n)
    (hget : s.pages.get p = some page) (hloading : page.status = .loading)
    (huid : page'.uid = page.uid) (hsingle : Single s page.uid)
    (hfresh : page'.status = .loading → page'.attempts = 0) (f : ℕ × ℕ) :
    Primed n { s with pages := s.pages.set p page' } (Function.update m (.page p) f) := by
  have hqueue : .page p ∉ s.queue := fun hp => by
    have := h.lined.page p hp
    rw [hget] at this
    cases this
  refine ⟨h.watched.setPage hget hloading huid hsingle hfresh f, fun task htask => ?_, ?_,
    Begun.of_lt hlt⟩
  · rw [update_of_ne' (ne_of_mem_of_not_mem htask hqueue)]
    exact h.waited task htask
  · refine ⟨h.lined.once, fun j hj => ?_, h.lined.tile⟩
    change (s.pages.set p page').get j = none
    rw [OrderedMap.get_set_of_ne, h.lined.page j hj]
    rintro rfl
    exact hqueue hj

theorem Primed.setTile (h : Primed n s m) (tile' : Tile δ) (hlt : ∀ r ∈ s.requests, r.uid < n)
    (hget : s.tiles.get (p, b) = some tile) (hloading : tile.status = .loading)
    (huid : tile'.uid = tile.uid) (hsingle : Single s tile.uid) {f : ℕ × ℕ}
    (hcount : f.1 ≤ tile'.attempts) (hready : tile'.status = .ready → f.1 = 0) :
    Primed n { s with tiles := s.tiles.set (p, b) tile' } (Function.update m (.tile p b) f) := by
  have hqueue : .tile p b ∉ s.queue := fun hk => h.lined.tile p b hk tile hget hloading
  refine ⟨h.watched.setTile tile' hget huid hsingle.requests (.inl hsingle) hcount hready,
    fun task htask => ?_, ?_, Begun.of_lt hlt⟩
  · rw [update_of_ne' (ne_of_mem_of_not_mem htask hqueue)]
    exact h.waited task htask
  · refine ⟨h.lined.once, h.lined.page, fun j c hj x hx => ?_⟩
    have hset := OrderedMap.get_set_eq_some.mp hx
    split_ifs at hset with hk
    · obtain ⟨rfl, rfl⟩ := Prod.mk.inj hk
      exact absurd hj hqueue
    · exact h.lined.tile j c hj x hset

theorem Primed.pageFailed (h : Primed n s m) (hlt : ∀ r ∈ s.requests, r.uid < n)
    (hget : s.pages.get p = some page) (hloading : page.status = .loading)
    (hsingle : Single s page.uid) {f : ℕ × ℕ} (hf : f.1 ≠ 0 → f.2 = s.now) :
    Primed n (s.pageFailed p page) (Function.update m (.page p) f) := by
  have hattempts := h.watched.pageFresh p page hget hloading
  have hself : Function.update m (.page p) f (.page p) = f := Function.update_self ..
  have hset (timer : Option ℕ) : Primed n { s with
      pages := s.pages.set p
        { page with status := .error, attempts := page.attempts + 1, timer := timer } }
      (Function.update m (.page p) f) :=
    h.setPage
      { page with status := .error, attempts := page.attempts + 1, timer := timer }
      hlt hget hloading rfl hsingle (nomatch ·) f
  unfold Store.pageFailed retryLater
  dsimp only
  have hprimed := hset (s.retryTimer (page.attempts + 1))
  split_ifs with hlast
  · exact { hprimed with watched := { hprimed.watched with }, lined := { hprimed.lined with } }
  · have hwatched : Watched { s with
        rateLimitPages := s.rateLimitPages.erase p
        channelsError := true
        pages := s.pages.set p
          { page with
            status := .error, attempts := page.attempts + 1
            timer := s.retryTimer (page.attempts + 1) } } (Function.update m (.page p) f) :=
      { hprimed.watched with }
    refine { hprimed with watched := ?_, lined := { hprimed.lined with } }
    refine hwatched.setPageTimer
      { page with
        status := .error, attempts := page.attempts + 1
        timer := s.retryTimer (page.attempts + 1) }
      OrderedMap.get_set_self hsingle.requests (nomatch ·) (nomatch ·) fun _ hone => ?_
    rw [hself] at hone ⊢
    rw [hattempts] at hlast ⊢
    -- the first delay from now on
    refine ⟨not_lt.mp hlast, ?_⟩
    rw [hf (hone ▸ one_ne_zero)]
    exact le_rfl

theorem Primed.tileFailed (h : Primed n s m) (hlt : ∀ r ∈ s.requests, r.uid < n)
    (hget : s.tiles.get (p, b) = some tile) (hloading : tile.status = .loading)
    (hsingle : Single s tile.uid) {f : ℕ × ℕ} (hcount : f.1 ≤ tile.attempts + 1)
    (hf : f.1 ≠ 0 → f.2 = s.now) :
    Primed n (s.tileFailed p b tile) (Function.update m (.tile p b) f) := by
  have hself : Function.update m (.tile p b) f (.tile p b) = f := Function.update_self ..
  have hset (timer : Option ℕ) : Primed n { s with
      tiles := s.tiles.set (p, b)
        { tile with status := .error, attempts := tile.attempts + 1, timer := timer } }
      (Function.update m (.tile p b) f) :=
    h.setTile
      { tile with status := .error, attempts := tile.attempts + 1, timer := timer }
      hlt hget hloading rfl hsingle hcount (nomatch ·)
  unfold Store.tileFailed retryLater
  dsimp only
  split_ifs with hlast
  · exact hset _
  · have hprimed := hset (s.retryTimer (tile.attempts + 1))
    refine { hprimed with watched := ?_, lined := { hprimed.lined with } }
    refine hprimed.watched.setTileTimer
      { tile with
        status := .error, attempts := tile.attempts + 1
        timer := s.retryTimer (tile.attempts + 1) }
      OrderedMap.get_set_self hsingle.requests (nomatch ·) fun _ hsome => ?_
    rw [hself] at hsome ⊢
    -- the delay of the tries so far
    refine ⟨not_lt.mp hlast, ?_⟩
    rw [hf hsome, delay]
    dsimp only
    rw [show min (tile.attempts + 1 - 1) (s.o.retryMs.length - 1) = tile.attempts + 1 - 1 by omega]

theorem Primed.pageAnswered (h : Primed n s m) (hlt : ∀ r ∈ s.requests, r.uid < n)
    (hsound : Counted s) (hget : s.pages.get p = some page) (hloading : page.status = .loading)
    (hsingle : Single s page.uid) (generation : ℕ) {answer : Except Failure (List χ × ℕ)}
    (hplan : ∀ items total, answer = .ok (items, total) → Sound { s with
      pages := s.pages.set p { page with status := .ready, items := items, attempts := 0 } })
    (hdue : ∀ items total v, answer = .ok (items, total) → s.viewport = some v →
      Due s m ({ s with total := some total }.aim v).interestTiles) :
    Kept' n (s.pageAnswered p generation page answer)
      (restrict (match answer with
        | .error .refreshRequired => fun _ => (0, 0)
        | .error .other => Function.update m (.page p) (failures s.now (m (.page p)))
        | _ => Function.update m (.page p) (0, 0)) (s.pageAnswered p generation page answer)) := by
  have hattempts := h.watched.pageFresh p page hget hloading
  cases answer with
  | ok reply =>
    obtain ⟨items, total⟩ := reply
    have hset := h.setPage { page with status := .ready, items := items, attempts := 0 }
      hlt hget hloading rfl hsingle (fun hno => by cases hno) (0, 0)
    refine Primed.plan ?_ { hplan items total rfl with } fun v hv _ => ?_
    · exact { hset with watched := { hset.watched with }, lined := { hset.lined with } }
    · intro j c tile hk htile herror hstale
      change Allowed s.o s.now (Function.update m (.page p) (0, 0) (.tile j c))
      rw [update_of_ne' (show Task.tile j c ≠ .page p from fun hno => by cases hno)]
      exact hdue items total v rfl hv j c tile hk htile herror hstale
  | error failure =>
    cases failure with
    | refreshRequired => exact h.watched.plan_clear (hsound.clear s.disposed)
    | rateLimited ms =>
      apply Primed.between
      unfold Store.pageAnswered
      dsimp only
      split_ifs
      · have hset := h.setPage { page with timer := some s.nextTimer }
          hlt hget hloading rfl hsingle (fun _ => hattempts) (0, 0)
        refine { hset with watched := ?_, lined := { hset.lined with } }
        have hwatched : Watched { s with
            rateLimitPages := s.rateLimitPages.set p ((s.rateLimitPages.get p).getD 0 + 1)
            pages := s.pages.set p { page with timer := some s.nextTimer } }
            (Function.update m (.page p) (0, 0)) := { hset.watched with }
        refine hwatched.setPageTimer { page with timer := some s.nextTimer }
          OrderedMap.get_set_self hsingle.requests ?_ (fun _ => ?_) fun hno => by cases hno
        · dsimp only
          rw [hloading]
          intro hno
          cases hno
        · rw [Function.update_self]
      · exact h.pageFailed hlt hget hloading hsingle fun hne => absurd rfl hne
    | other =>
      exact (h.pageFailed hlt hget hloading hsingle fun _ => rfl).between

theorem Primed.tileAnswered (h : Primed n s m) (hlt : ∀ r ∈ s.requests, r.uid < n)
    (hget : s.tiles.get (p, b) = some tile) (hloading : tile.status = .loading)
    (hsingle : Single s tile.uid) (answer : Except Failure δ) :
    Primed n (s.tileAnswered p b tile answer) (match answer with
      | .ok _ | .error (.rateLimited _) => Function.update m (.tile p b) (0, 0)
      | .error _ => Function.update m (.tile p b) (failures s.now (m (.tile p b)))) := by
  have hcount := h.watched.tileCount p b tile hget
  match answer with
  | .ok data =>
    exact h.setTile (f := (0, 0))
      { tile with
        status := .ready, stale := tile.generation != s.generation, data := some data, attempts := 0 }
      hlt hget hloading rfl hsingle (Nat.zero_le _) fun _ => rfl
  | .error (.rateLimited ms) =>
    unfold Store.tileAnswered
    dsimp only
    split_ifs
    · have hset := h.setTile (f := (0, 0))
        { tile with attempts := tile.attempts + 1, timer := some s.nextTimer }
        hlt hget hloading rfl hsingle (Nat.zero_le _) fun _ => rfl
      refine { hset with watched := ?_, lined := { hset.lined with } }
      refine hset.watched.setTileTimer
        { tile with attempts := tile.attempts + 1, timer := some s.nextTimer }
        OrderedMap.get_set_self hsingle.requests (fun _ => ?_) (nomatch ·)
      rw [Function.update_self]
    · exact h.tileFailed hlt hget hloading hsingle (Nat.zero_le _) fun hne => absurd rfl hne
  | .error .refreshRequired =>
    exact h.tileFailed hlt hget hloading hsingle (Nat.succ_le_succ hcount) fun _ => rfl
  | .error .other =>
    exact h.tileFailed hlt hget hloading hsingle (Nat.succ_le_succ hcount) fun _ => rfl

/-! ## Timers -/

theorem Watched.eraseTimer (h : Watched s m) (t : Timer) :
    Watched { s with timers := s.timers.erase t } m :=
  { h with
    answered := fun x hx => h.answered x (List.mem_of_mem_erase hx)
    pageWaiting := fun x hx => h.pageWaiting x (List.mem_of_mem_erase hx)
    pageLimited := fun x hx => h.pageLimited x (List.mem_of_mem_erase hx)
    tileLimited := fun x hx => h.tileLimited x (List.mem_of_mem_erase hx)
    pageTimer := fun x hx => h.pageTimer x (List.mem_of_mem_erase hx)
    tileTimer := fun x hx => h.tileTimer x (List.mem_of_mem_erase hx) }

theorem Watched.erasePage (h : Watched s m) (hget : s.pages.get p = some page)
    (hstatus : page.status ≠ .ready) (hallowed : Allowed s.o s.now (m (.page p))) :
    Watched { s with pages := s.pages.erase p } m := by
  have hold {j : ℕ} {x : Page χ} (hx : (s.pages.erase p).get j = some x) : s.pages.get j = some x :=
    (OrderedMap.get_erase_eq_some.mp hx).1
  exact { h with
    ready := fun j c tile hk => by
      obtain ⟨x, hx, hready⟩ := h.ready j c tile hk
      refine ⟨x, OrderedMap.get_erase_eq_some.mpr ⟨hx, ?_⟩, hready⟩
      rintro rfl
      rw [hget] at hx
      exact hstatus (Option.some.inj hx ▸ hready)
    asking := fun r hr hanswered j x htask hx => h.asking r hr hanswered j x htask (hold hx)
    pageFresh := fun j x hx => h.pageFresh j x (hold hx)
    pageWaiting := fun t ht j x htask hx => h.pageWaiting t ht j x htask (hold hx)
    pageGone := fun j hx => by
      by_cases hj : j = p
      · exact hj ▸ hallowed
      · exact h.pageGone j ((OrderedMap.get_erase_of_ne hj).symm.trans hx)
    pageLimited := fun t ht hl j x htask hx => h.pageLimited t ht hl j x htask (hold hx)
    pageTimer := fun t ht hl j x htask hx => h.pageTimer t ht hl j x htask (hold hx) }

theorem Watched.page_due {t : Timer} (h : Watched s m) (ht : t ∈ s.timers) (hdue : t.due ≤ s.now)
    (htask : t.task = .page p) (hget : s.pages.get p = some page) (huid : page.uid = t.uid)
    (hpatient : (m (.page p)).1 ≤ 1 ∨ Allowed s.o s.now (m (.page p))) :
    Allowed s.o s.now (m (.page p)) := by
  rcases hpatient with hle | hallowed
  · rcases Nat.le_one_iff_eq_zero_or_eq_one.mp hle with hzero | hone
    · exact .inl hzero
    · cases hl : t.limited with
      | true => exact .inl (h.pageLimited t ht hl p page htask hget huid)
      | false =>
        obtain ⟨hlength, hwaited⟩ := h.pageTimer t ht hl p page htask hget huid hone
        refine .inr ⟨hone ▸ hlength, ?_⟩
        rw [hone]
        exact hwaited.trans hdue
  · exact hallowed

theorem Watched.tile_due {t : Timer} (h : Watched s m) (ht : t ∈ s.timers) (hdue : t.due ≤ s.now)
    (htask : t.task = .tile p b) (hget : s.tiles.get (p, b) = some tile) (huid : tile.uid = t.uid)
    (hpatient : (m (.tile p b)).1 = 0 ∨
      delay s.o (m (.tile p b)).1 ≤ delay s.o tile.attempts) :
    Allowed s.o s.now (m (.tile p b)) := by
  by_cases hzero : (m (.tile p b)).1 = 0
  · exact .inl hzero
  · cases hl : t.limited with
    | true => exact .inl (h.tileLimited t ht hl p b tile htask hget huid)
    | false =>
      obtain ⟨hlength, hwaited⟩ := h.tileTimer t ht hl p b tile htask hget huid hzero
      have hcount := h.tileCount p b tile hget
      have hdelay := hpatient.resolve_left hzero
      exact .inr ⟨hcount.trans hlength, by omega⟩

theorem Primed.eraseTimer (h : Primed n s m) (t : Timer) :
    Primed n { s with timers := s.timers.erase t } m :=
  { h with watched := h.watched.eraseTimer t, lined := { h.lined with } }

theorem Primed.erasePage (h : Primed n s m) (hget : s.pages.get p = some page)
    (hstatus : page.status ≠ .ready) (hallowed : Allowed s.o s.now (m (.page p))) :
    Primed n { s with pages := s.pages.erase p } m :=
  { h with
    watched := h.watched.erasePage hget hstatus hallowed
    lined := h.lined.shrink (List.Sublist.refl _)
      (fun _ _ hx => (OrderedMap.get_erase_eq_some.mp hx).1) fun _ _ hx => hx }

theorem Primed.tileFired {t : Timer} (h : Primed n s m) (hsound : Sound s) (ht : t ∈ s.timers)
    (htask : t.task = .tile p b) (hget : s.tiles.get (p, b) = some tile) (huid : tile.uid = t.uid) :
    Primed n { s with
      tiles := s.tiles.set (p, b)
        { tile with
          timer := none, stale := true,
          status := if t.limited then .ready else tile.status } } m := by
  refine { h with watched := ?_, lined := ⟨h.lined.once, h.lined.page, fun j c hj x hx => ?_⟩ }
  · have hset := h.watched.setTile (f := m (.tile p b))
      { tile with
        timer := none, stale := true, status := if t.limited then .ready else tile.status } hget rfl
      (fun r hr hruid => h.watched.answered t ht r hr (hruid.trans huid)) (.inr ⟨rfl, rfl⟩)
      (h.watched.tileCount p b tile hget) fun hready => ?_
    · rwa [Function.update_eq_self] at hset
    · split_ifs at hready with hlimited
      · exact h.watched.tileLimited t ht hlimited p b tile htask hget huid
      · exact h.watched.tileReady p b tile hget hready
  · have hset := OrderedMap.get_set_eq_some.mp hx
    by_cases hk : (j, c) = (p, b)
    · rw [if_pos hk] at hset
      rw [hset]
      dsimp only
      split_ifs with hlimited
      · exact (nomatch ·)
      · exact hsound.failed t ht (Bool.of_not_eq_true hlimited) p b tile htask hget huid
    · rw [if_neg hk] at hset
      exact h.lined.tile j c hj x hset

/-- Whether a timer's entry is still the one it was set for. -/
abbrev timely (s : Store χ δ) (t : Timer) : Bool := s.live ⟨t.uid, t.task, 0, false, false⟩

theorem Kept'.fired {t : Timer} (h : Kept' n s m) (hwhole : Whole s) (ht : t ∈ s.timers)
    (hdue : t.due ≤ s.now)
    (hpage : ∀ p page, t.task = .page p → s.pages.get p = some page → page.uid = t.uid →
      (m (.page p)).1 ≤ 1 ∨ Allowed s.o s.now (m (.page p)))
    (htile : ∀ p b tile, t.task = .tile p b → s.tiles.get (p, b) = some tile → tile.uid = t.uid →
      (m (.tile p b)).1 = 0 ∨ delay s.o (m (.tile p b)).1 ≤ delay s.o tile.attempts)
    (hplan : ∀ v, s.timely t → s.viewport = some v → Due s m (s.aim v).interestTiles) :
    Kept' n (({ s with timers := s.timers.erase t } : Store χ δ).fired t)
      (restrict m (({ s with timers := s.timers.erase t } : Store χ δ).fired t)) := by
  have hbetween := (h.toPrimed.eraseTimer t).between
  unfold Store.fired
  cases htask : t.task with
  | page p =>
    dsimp only
    cases hget : s.pages.get p with
    | none => exact hbetween
    | some page =>
      dsimp only
      split_ifs with hlive
      · have hlimit := hpage p page htask hget hlive.2
        have hallowed := h.watched.page_due ht hdue htask hget hlive.2 hlimit
        have hstatus := h.watched.pageWaiting t ht p page htask hget hlive.2
        have hprimed := (h.toPrimed.erasePage hget hstatus hallowed).eraseTimer t
        refine hprimed.plan (hwhole.sound.pageFired htask) fun v hv _ => hplan v ?_ hv
        unfold timely live
        rw [htask]
        dsimp only
        rw [hget, Option.any_some, decide_eq_true hlive.2]
        rfl
      · exact hbetween
  | tile p b =>
    dsimp only
    cases hget : s.tiles.get (p, b) with
    | none => exact hbetween
    | some tile =>
      dsimp only
      by_cases hlive : s.disposed = false ∧ tile.uid = t.uid
      · rw [if_pos hlive]
        have hallowed := h.watched.tile_due ht hdue htask hget hlive.2
          (htile p b tile htask hget hlive.2)
        have hprimed := (h.toPrimed.tileFired hwhole.sound ht htask hget hlive.2).eraseTimer t
        refine hprimed.plan (hwhole.sound.tileFired ht htask hget hlive.2)
          fun v hv _ j c x hk hx herror hstale => ?_
        have hset := OrderedMap.get_set_eq_some.mp hx
        by_cases heq : (j, c) = (p, b)
        · obtain ⟨rfl, rfl⟩ := Prod.mk.inj heq
          exact hallowed
        · rw [if_neg heq] at hset
          refine hplan v ?_ hv j c x hk hset herror hstale
          unfold timely live
          rw [htask]
          dsimp only
          rw [hget, Option.any_some, decide_eq_true hlive.2]
          rfl
      · rw [if_neg hlive]
        exact hbetween

/-! ## Events -/

theorem live_iff_page (htask : r.task = .page p) : s.live r = true ↔
    ∃ page, s.pages.get p = some page ∧ r.aborted = false ∧ page.uid = r.uid := by
  unfold live
  rw [htask]
  dsimp only
  cases s.pages.get p <;> simp

theorem live_iff_tile (htask : r.task = .tile p b) : s.live r = true ↔
    ∃ tile, s.tiles.get (p, b) = some tile ∧ r.aborted = false ∧ tile.uid = r.uid := by
  unfold live
  rw [htask]
  dsimp only
  cases s.tiles.get (p, b) <;> simp

theorem Kept'.answerPage (h : Kept' n s m) (hwhole : Whole s) (hlt : ∀ r ∈ s.requests, r.uid < n)
    (hr : r ∈ s.requests) (hanswered : r.answered = false) (htask : r.task = .page p)
    {answer : Except Failure (List χ × ℕ)} (hasked : s.asked r.uid = some r)
    (hdue : ∀ items total v, answer = .ok (items, total) → s.live r = true →
      s.viewport = some v → Due s m ({ s with total := some total }.aim v).interestTiles) :
    Kept' n ((s.mark r).answerPage r p answer)
      (restrict (s.count m (.answerPage r.uid answer)) ((s.mark r).answerPage r p answer)) := by
  have hmark := h.toPrimed.mark r
  unfold count
  dsimp only
  rw [hasked]
  dsimp only
  by_cases hlive : s.live r = true
  · rw [if_pos hlive, htask]
    obtain ⟨page, hget, haborted, huid⟩ := (live_iff_page htask).mp hlive
    have hloading := h.watched.asking r hr hanswered p page htask hget huid
    have hsingle : Single (s.mark r) page.uid :=
      huid ▸ single_mark h.watched hwhole.sound.toCounted hr hanswered
    have heq : (s.mark r).answerPage r p answer =
        (s.mark r).pageAnswered p r.generation page answer := by
      unfold Store.answerPage
      rw [show (s.mark r).pages.get p = some page from hget]
      exact if_pos ⟨haborted, huid⟩
    rw [heq]
    refine hmark.pageAnswered ?_ (hwhole.sound.toCounted.mark r) hget hloading hsingle r.generation
      (fun items total _ => ?_) fun items total v hok hv => ?_
    · intro x hx
      rcases of_mem_mark hx with ⟨hx, -⟩ | ⟨-, rfl⟩
      · exact hlt x hx
      · exact hlt r hr
    · exact hwhole.sound.setPage htask hget rfl (nomatch ·)
    · exact hdue items total v hok hlive hv
  · rw [if_neg hlive]
    have heq : (s.mark r).answerPage r p answer = s.mark r := by
      unfold Store.answerPage
      cases hget : (s.mark r).pages.get p with
      | none => rfl
      | some page =>
        refine if_neg fun hboth => hlive ((live_iff_page htask).mpr ⟨page, hget, hboth⟩)
    rw [heq]
    exact hmark.between

theorem Kept'.answerTile (h : Kept' n s m) (hwhole : Whole s) (hlt : ∀ r ∈ s.requests, r.uid < n)
    (hr : r ∈ s.requests) (hanswered : r.answered = false) (htask : r.task = .tile p b)
    {answer : Except Failure δ} (hasked : s.asked r.uid = some r) :
    Kept' n ((s.mark r).answerTile r p b answer)
      (restrict (s.count m (.answerTile r.uid answer : Event χ δ))
        ((s.mark r).answerTile r p b answer)) := by
  have hmark := h.toPrimed.mark r
  unfold count
  dsimp only
  rw [hasked]
  dsimp only
  by_cases hlive : s.live r = true
  · rw [if_pos hlive, htask]
    obtain ⟨tile, hget, haborted, huid⟩ := (live_iff_tile htask).mp hlive
    have hloading := h.watched.askingTile r hr hanswered haborted p b tile htask hget huid
    have hsingle : Single (s.mark r) tile.uid :=
      huid ▸ single_mark h.watched hwhole.sound.toCounted hr hanswered
    have heq : (s.mark r).answerTile r p b answer = (s.mark r).tileAnswered p b tile answer := by
      unfold Store.answerTile
      rw [show (s.mark r).tiles.get (p, b) = some tile from hget]
      exact if_pos ⟨haborted, huid⟩
    rw [heq]
    refine (hmark.tileAnswered ?_ hget hloading hsingle answer).between
    intro x hx
    rcases of_mem_mark hx with ⟨hx, -⟩ | ⟨-, rfl⟩
    · exact hlt x hx
    · exact hlt r hr
  · rw [if_neg hlive]
    have heq : (s.mark r).answerTile r p b answer = s.mark r := by
      unfold Store.answerTile
      cases hget : (s.mark r).tiles.get (p, b) with
      | none => rfl
      | some tile =>
        refine if_neg fun hboth => hlive ((live_iff_tile htask).mpr ⟨tile, hget, hboth⟩)
    rw [heq]
    exact hmark.between

theorem Watched.settled (h : Watched s m) (r : Request) : Watched (s.settled r) m :=
  { h with
    asking := fun x hx => h.asking x (List.mem_of_mem_erase hx)
    askingTile := fun x hx => h.askingTile x (List.mem_of_mem_erase hx)
    answered := fun t ht x hx => h.answered t ht x (List.mem_of_mem_erase hx) }

theorem Kept'.settle (h : Kept' n s m) (hwhole : Whole s) (hr : r ∈ s.requests)
    (hanswered : r.answered = true) :
    Kept' n (s.settled r).pump (restrict m (s.settled r).pump) := by
  have hsound := hwhole.sound.settled hr hanswered
  have hkept : Kept' n (s.settled r).pump m :=
    pumpFrom_kept hsound hsound.active (h.watched.settled r) h.away h.waited { h.lined with }
      fun x hx => h.begun x (List.mem_of_mem_erase hx)
  exact hkept.between

/-- **A patient event** keeps what is known of the failures. -/
theorem Kept'.step {e : Event χ δ} (h : Kept' n s m) (hwhole : Whole s) (hpatient : Patient (s, m) e)
    (hs : watch (s, m) e = some (s', m')) : Kept' s.next s' m' := by
  obtain ⟨t, ht, heq⟩ := Option.map_eq_some_iff.mp hs
  obtain ⟨rfl, rfl⟩ := Prod.mk.inj heq
  dsimp only at ht ⊢
  have hlt : ∀ r ∈ s.requests, r.uid < s.next := hwhole.sound.numbered
  have hprimed : Primed s.next s m := { h with begun := Begun.of_lt hlt }
  have h : Kept' s.next s m := { hprimed with away := h.away }
  cases e with
  | setViewport v =>
    obtain rfl := Option.some.inj ht
    unfold Store.setViewport
    split_ifs with hd
    · exact hprimed.between
    · have hview : Primed s.next { s with viewport := some v } m :=
        { hprimed with watched := { hprimed.watched with }, lined := { hprimed.lined with } }
      refine hview.plan (hwhole.sound.setViewport v (Bool.of_not_eq_true hd)) fun w hw _ => ?_
      obtain rfl := Option.some.inj hw
      exact fun p b tile hk => hpatient.2 _ (if_neg hd) (p, b) hk tile
  | retry =>
    obtain rfl := Option.some.inj ht
    exact (Primed.clean h.watched.renewed h.lined.renewed).plan hwhole.sound.renewed
      fun _ _ _ _ _ _ _ _ _ _ => .inl rfl
  | invalidate =>
    obtain rfl := Option.some.inj ht
    exact (Primed.clean h.watched.outdated h.lined.outdated).plan hwhole.sound.outdated
      fun _ _ _ _ _ _ _ _ _ _ => .inl rfl
  | reset =>
    obtain rfl := Option.some.inj ht
    exact h.watched.plan_clear (hwhole.sound.toCounted.clear s.disposed)
  | dispose =>
    obtain rfl := Option.some.inj ht
    have hdisposed : Watched { s with disposed := true } m := { h.watched with }
    exact hdisposed.plan_clear (hwhole.sound.toCounted.clear true)
  | read tasks =>
    obtain ⟨clock, pageUsed, tileUsed, huse⟩ := foldl_use tasks s
    obtain rfl := Option.some.inj ht
    rw [huse]
    exact Primed.between
      { hprimed with watched := { hprimed.watched with }, lined := { hprimed.lined with } }
  | pass ms =>
    obtain rfl := Option.some.inj ht
    have hlater {f : ℕ × ℕ} (hf : Allowed s.o s.now f) : Allowed s.o (s.now + ms) f :=
      hf.imp_right fun hwaited => ⟨hwaited.1, hwaited.2.trans (Nat.le_add_right _ _)⟩
    exact Primed.between
      { watched := { hprimed.watched with
          pageGone := fun p hget => hlater (hprimed.watched.pageGone p hget) }
        waited := fun task htask => hlater (hprimed.waited task htask)
        lined := { hprimed.lined with }
        begun := Begun.of_lt hlt }
  | answerPage uid answer =>
    obtain ⟨r, hasked, hstep⟩ := Option.bind_eq_some_iff.mp ht
    obtain ⟨hr, rfl, hanswered⟩ := asked_spec hasked
    split at hstep
    · rename_i p htask
      obtain rfl := Option.some.inj hstep
      refine h.answerPage hwhole hlt hr hanswered htask hasked fun items total v hok hlive hv => ?_
      subst hok
      refine fun p b tile hk => hpatient.2 _ ?_ (p, b) hk tile
      unfold planned'
      dsimp only
      rw [hasked, Option.bind_some, if_pos hlive, hv]
      rfl
    · cases hstep
  | answerTile uid answer =>
    obtain ⟨r, hasked, hstep⟩ := Option.bind_eq_some_iff.mp ht
    obtain ⟨hr, rfl, hanswered⟩ := asked_spec hasked
    split at hstep
    · cases hstep
    · rename_i p b htask
      obtain rfl := Option.some.inj hstep
      exact h.answerTile hwhole hlt hr hanswered htask hasked
  | settle uid =>
    obtain ⟨r, hr, rfl⟩ := Option.map_eq_some_iff.mp ht
    obtain ⟨hmem, -, hanswered⟩ := settling_spec hr
    exact h.settle hwhole hmem hanswered
  | fire id =>
    obtain ⟨x, hx, rfl⟩ := Option.map_eq_some_iff.mp ht
    have hdue : x.due ≤ s.now := by
      have := List.find?_some hx
      rw [Bool.and_eq_true] at this
      exact of_decide_eq_true this.2
    have hfire : Timely (s, m) x := hpatient.1 x hx
    unfold Timely at hfire
    refine h.fired hwhole (List.mem_of_find?_eq_some hx) hdue (fun p page htask hget huid => ?_)
      (fun p b tile htask hget huid => ?_) fun v hlive hv => ?_
    · rw [htask] at hfire
      exact hfire page hget huid
    · rw [htask] at hfire
      exact hfire tile hget huid
    · refine fun p b tile hk => hpatient.2 _ ?_ (p, b) hk tile
      unfold planned'
      dsimp only
      rw [hx, Option.bind_some, if_pos hlive, hv]
      rfl

theorem kept_start₀ (o : Options) : Kept' n (start₀ o : Store χ δ) fun _ => (0, 0) where
  watched := Watched.clean (fun _ _ _ => (nomatch ·)) (fun _ => (nomatch ·)) (fun _ => (nomatch ·))
    (fun _ => (nomatch ·)) (fun _ _ => (nomatch ·)) fun _ => (nomatch ·)
  waited := fun _ => (nomatch ·)
  lined := ⟨List.nodup_nil, fun _ => (nomatch ·), fun _ _ => (nomatch ·)⟩
  begun := fun _ => (nomatch ·)
  away := fun _ _ => rfl

/-- **Retries.** In a run of patient events nothing is requested again before the delay of its failures
is over, and after the last delay nothing is. -/
theorem guide_retries (o : Options) (es : List (Event χ δ))
    (hpatient : Machine.Each watch Patient (start₀ o, fun _ => (0, 0)) es) :
    Machine.Each watch Disciplined (start₀ o, fun _ => (0, 0)) es := by
  refine Machine.each_of_invariant (I := fun x => Whole x.1 ∧ ∃ n, Kept' n x.1 x.2)
    (fun x e y h he hs => ?_) (fun x e h he y hs => ?_) ⟨whole_start₀ o, 0, kept_start₀ o⟩ hpatient
  · obtain ⟨hwhole, n, hkept⟩ := h
    obtain ⟨t, ht, heq⟩ := Option.map_eq_some_iff.mp hs
    exact ⟨heq ▸ hwhole.step e ht, x.1.next, hkept.step hwhole he hs⟩
  · obtain ⟨hwhole, n, hkept⟩ := h
    exact (hkept.step hwhole he hs).begun

/-- A page fails, and when its timer runs out it is requested again. -/
def once : List (Event Unit Unit) :=
  [.setViewport hour, .answerPage 0 (.error .other), .settle 0, .pass 5000, .fire 0]

theorem guide_retries_once :
    Machine.Each watch Disciplined (start₀ guideOptions, fun _ => (0, 0)) once :=
  guide_retries guideOptions once (by decide +kernel)

/-- A page that fails twice is requested again after the first delay each time. -/
theorem page_forgets :
    ¬ Machine.Each watch Disciplined (start₀ guideOptions, fun _ => (0, 0))
      (once ++ [.answerPage 2 (.error .other), .settle 2, .pass 5000, .fire 1]) := by
  decide +kernel

end Portico.Guide.Store
