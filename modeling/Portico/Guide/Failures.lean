import Portico.Guide.Events

/-!
# The guide: failures in a row

How often each page and tile failed in a row, and when last, is counted beside the store, and with it
what may be requested again. Planning requests no more than that, as long as no failed tile that is stale
still has to wait.

## Main definitions

* `Fails`: the failures in a row of each page and tile
* `Allowed`: what may be requested again
* `watch`: a store with the failures beside it
* `Watched`: what the entries and the timers say of the failures

## Main results

* `Primed.plan`: planning keeps what is known of the failures
-/

namespace Portico.Guide.Store

variable {χ δ : Type*} {s s' : Store χ δ} {p : ℕ} {b : ℤ} {k : ℕ × ℤ} {page : Page χ} {tile : Tile δ}
  {task : Task} {queue : List Task} {n : ℕ} {r : Request}

/-- How often each page and tile failed in a row, and when last. -/
abbrev Fails := Task → ℕ × ℕ

/-- The delay after so many failures in a row. -/
def delay (o : Options) (n : ℕ) : ℕ := o.retryMs.getD (n - 1) 0

/-- **What may be requested again**: what did not fail, or did not fail too often and has waited. -/
def Allowed (o : Options) (now : ℕ) (f : ℕ × ℕ) : Prop :=
  f.1 = 0 ∨ (f.1 ≤ o.retryMs.length ∧ f.2 + delay o f.1 ≤ now)

instance (o : Options) (now : ℕ) (f : ℕ × ℕ) : Decidable (Allowed o now f) :=
  inferInstanceAs (Decidable (_ ∨ _))

/-- Whether an answer is still awaited. -/
def live (s : Store χ δ) (r : Request) : Bool :=
  !r.aborted && match r.task with
    | .page p => (s.pages.get p).any fun page => page.uid = r.uid
    | .tile p b => (s.tiles.get (p, b)).any fun tile => tile.uid = r.uid

/-- The failures that a failed answer makes. -/
def failures (now : ℕ) (f : ℕ × ℕ) : ℕ × ℕ := (f.1 + 1, now)

/-- The failures after an event, of what stays in the interest. -/
def count (s : Store χ δ) (m : Fails) : Event χ δ → Fails
  | .retry | .invalidate | .reset | .dispose => fun _ => (0, 0)
  | .answerPage uid answer =>
    match s.asked uid with
    | none => m
    | some r =>
      if s.live r then
        match answer with
        | .error .refreshRequired => fun _ => (0, 0)
        | .error .other => Function.update m r.task (failures s.now (m r.task))
        | _ => Function.update m r.task (0, 0)
      else m
  | .answerTile uid answer =>
    match s.asked uid with
    | none => m
    | some r =>
      if s.live r then
        match answer with
        | .ok _ | .error (.rateLimited _) => Function.update m r.task (0, 0)
        | .error _ => Function.update m r.task (failures s.now (m r.task))
      else m
  | _ => m

/-- What leaves the interest is forgotten. -/
def restrict (m : Fails) (s : Store χ δ) : Fails := fun task => if s.inInterest task then m task else (0, 0)

/-- A store with the failures beside it. -/
def watch (x : Store χ δ × Fails) (e : Event χ δ) : Option (Store χ δ × Fails) :=
  (x.1.step e).map fun s' => (s', restrict (x.1.count x.2 e) s')

/-- The tiles of interest once an event has made the store plan; `none` when it doesn't. -/
def planned' (s : Store χ δ) : Event χ δ → Option (List (ℕ × ℤ))
  | .setViewport v => if s.disposed then none else some (s.aim v).interestTiles
  | .answerPage uid (.ok (_, total)) =>
    (s.asked uid).bind fun r =>
      if s.live r then s.viewport.map fun v => ({ s with total := some total }.aim v).interestTiles
      else none
  | .fire id =>
    (s.due id).bind fun t =>
      if s.live ⟨t.uid, t.task, 0, false, false⟩ then
        s.viewport.map fun v => (s.aim v).interestTiles
      else none
  | _ => none

/-- The timer that runs out. -/
def firing (s : Store χ δ) : Event χ δ → Option Timer
  | .fire id => s.due id
  | _ => none

/-- What a timer's entry asks: that a page has failed once, or waited for as long as its failures ask,
and that the timer of a tile was not set for a shorter delay than its failures ask. -/
def Timely (x : Store χ δ × Fails) (t : Timer) : Prop :=
  match t.task with
  | .page p => ∀ page ∈ x.1.pages.get p, page.uid = t.uid →
      (x.2 (.page p)).1 ≤ 1 ∨ Allowed x.1.o x.1.now (x.2 (.page p))
  | .tile p b => ∀ tile ∈ x.1.tiles.get (p, b), tile.uid = t.uid →
      (x.2 (.tile p b)).1 = 0 ∨ delay x.1.o (x.2 (.tile p b)).1 ≤ delay x.1.o tile.attempts

instance (x : Store χ δ × Fails) (t : Timer) : Decidable (Timely x t) := by
  unfold Timely
  split <;> infer_instance

/-- **A patient event.** Its timer is in time, and when the store plans, no failed tile that is stale
still has to wait. -/
def Patient (x : Store χ δ × Fails) (e : Event χ δ) : Prop :=
  (∀ t ∈ x.1.firing e, Timely x t) ∧
  ∀ tiles ∈ x.1.planned' e, ∀ k ∈ tiles, ∀ tile ∈ x.1.tiles.get k,
    tile.status = .error → tile.stale = true → Allowed x.1.o x.1.now (x.2 (.tile k.1 k.2))

instance (x : Store χ δ × Fails) (e : Event χ δ) : Decidable (Patient x e) := by
  unfold Patient
  infer_instance

/-- **A disciplined event** requests again only what may be. -/
def Disciplined (x : Store χ δ × Fails) (e : Event χ δ) : Prop :=
  ∀ y ∈ watch x e, ∀ r ∈ y.1.requests, x.1.next ≤ r.uid → Allowed y.1.o y.1.now (y.2 r.task)

instance (x : Store χ δ × Fails) (e : Event χ δ) : Decidable (Disciplined x e) := by
  unfold Disciplined
  infer_instance

/-! ## What is known of the failures -/

variable {m m' : Fails}

/-- What the timers and the entries say of the failures. -/
structure Watched (s : Store χ δ) (m : Fails) : Prop where
  ready : ∀ p b tile, s.tiles.get (p, b) = some tile →
    ∃ page, s.pages.get p = some page ∧ page.status = .ready
  asking : ∀ r ∈ s.requests, r.answered = false → ∀ p page, r.task = .page p →
    s.pages.get p = some page → page.uid = r.uid → page.status = .loading
  askingTile : ∀ r ∈ s.requests, r.answered = false → r.aborted = false → ∀ p b tile,
    r.task = .tile p b → s.tiles.get (p, b) = some tile → tile.uid = r.uid → tile.status = .loading
  answered : ∀ t ∈ s.timers, ∀ r ∈ s.requests, r.uid = t.uid → r.answered = true
  pageFresh : ∀ p page, s.pages.get p = some page → page.status = .loading → page.attempts = 0
  pageWaiting : ∀ t ∈ s.timers, ∀ p page, t.task = .page p → s.pages.get p = some page →
    page.uid = t.uid → page.status ≠ .ready
  pageGone : ∀ p, s.pages.get p = none → Allowed s.o s.now (m (.page p))
  tileGone : ∀ p b, s.tiles.get (p, b) = none → (m (.tile p b)).1 = 0
  tileCount : ∀ p b tile, s.tiles.get (p, b) = some tile → (m (.tile p b)).1 ≤ tile.attempts
  tileReady : ∀ p b tile, s.tiles.get (p, b) = some tile → tile.status = .ready →
    (m (.tile p b)).1 = 0
  pageLimited : ∀ t ∈ s.timers, t.limited = true → ∀ p page, t.task = .page p →
    s.pages.get p = some page → page.uid = t.uid → (m (.page p)).1 = 0
  tileLimited : ∀ t ∈ s.timers, t.limited = true → ∀ p b tile, t.task = .tile p b →
    s.tiles.get (p, b) = some tile → tile.uid = t.uid → (m (.tile p b)).1 = 0
  pageTimer : ∀ t ∈ s.timers, t.limited = false → ∀ p page, t.task = .page p →
    s.pages.get p = some page → page.uid = t.uid → (m (.page p)).1 = 1 →
      1 ≤ s.o.retryMs.length ∧ (m (.page p)).2 + delay s.o 1 ≤ t.due
  tileTimer : ∀ t ∈ s.timers, t.limited = false → ∀ p b tile, t.task = .tile p b →
    s.tiles.get (p, b) = some tile → tile.uid = t.uid → (m (.tile p b)).1 ≠ 0 →
      tile.attempts ≤ s.o.retryMs.length ∧ (m (.tile p b)).2 + delay s.o tile.attempts ≤ t.due

/-- What is outside the interest has no failures. -/
def Away (s : Store χ δ) (m : Fails) : Prop := ∀ task, s.inInterest task = false → (m task).1 = 0

/-- Tasks that may be requested. -/
def Waited (s : Store χ δ) (m : Fails) (queue : List Task) : Prop :=
  ∀ task ∈ queue, Allowed s.o s.now (m task)

/-- Requests from a number on may be made. -/
def Begun (n : ℕ) (s : Store χ δ) (m : Fails) : Prop :=
  ∀ r ∈ s.requests, n ≤ r.uid → Allowed s.o s.now (m r.task)

theorem Away.ofPage (h : Away s m) (hp : p ∉ s.interestPages) : (m (.page p)).1 = 0 :=
  h _ (decide_eq_false hp)

theorem Away.ofTile (h : Away s m) (hk : (p, b) ∉ s.interestTiles) : (m (.tile p b)).1 = 0 :=
  h _ (decide_eq_false hk)

theorem Watched.below (h : Watched s m) (hm : ∀ task, m' task = m task ∨ (m' task).1 = 0) :
    Watched s m' :=
  { h with
    pageGone := fun p hget => by
      rcases hm (.page p) with heq | hzero
      · exact heq ▸ h.pageGone p hget
      · exact .inl hzero
    tileGone := fun p b hget => by
      rcases hm (.tile p b) with heq | hzero
      · exact heq ▸ h.tileGone p b hget
      · exact hzero
    tileCount := fun p b tile hget => by
      rcases hm (.tile p b) with heq | hzero
      · exact heq ▸ h.tileCount p b tile hget
      · exact hzero ▸ Nat.zero_le _
    tileReady := fun p b tile hget hready => by
      rcases hm (.tile p b) with heq | hzero
      · exact heq ▸ h.tileReady p b tile hget hready
      · exact hzero
    pageLimited := fun t ht hl p page htask hget huid => by
      rcases hm (.page p) with heq | hzero
      · exact heq ▸ h.pageLimited t ht hl p page htask hget huid
      · exact hzero
    tileLimited := fun t ht hl p b tile htask hget huid => by
      rcases hm (.tile p b) with heq | hzero
      · exact heq ▸ h.tileLimited t ht hl p b tile htask hget huid
      · exact hzero
    pageTimer := fun t ht hl p page htask hget huid hone => by
      rcases hm (.page p) with heq | hzero
      · rw [heq] at hone ⊢
        exact h.pageTimer t ht hl p page htask hget huid hone
      · rw [hone] at hzero
        cases hzero
    tileTimer := fun t ht hl p b tile htask hget huid hne => by
      rcases hm (.tile p b) with heq | hzero
      · rw [heq] at hne ⊢
        exact h.tileTimer t ht hl p b tile htask hget huid hne
      · exact absurd hzero hne }

/-- What a request was before some were aborted. -/
def Before (s : Store χ δ) (r : Request) : Prop :=
  ∃ x ∈ s.requests, x.uid = r.uid ∧ x.task = r.task ∧ x.answered = r.answered ∧
    (r.aborted = false → x.aborted = false)

/-- Entries outside the interest may go, and with them requests and timers. -/
theorem Watched.shrink {t : Store χ δ} (h : Watched s m) (haway : Away s m) (ho : t.o = s.o)
    (hnow : t.now = s.now) (hpages : ∀ p page, t.pages.get p = some page → s.pages.get p = some page)
    (hkeptPages : ∀ p ∈ s.interestPages, t.pages.get p = s.pages.get p)
    (htiles : ∀ k tile, t.tiles.get k = some tile → s.tiles.get k = some tile)
    (hkeptTiles : ∀ k ∈ s.interestTiles, t.tiles.get k = s.tiles.get k)
    (hresident : ∀ k tile, t.tiles.get k = some tile → (t.pages.get k.1).isSome)
    (htimers : ∀ x ∈ t.timers, x ∈ s.timers)
    (hrequests : ∀ r ∈ t.requests, s.Before r) : Watched t m where
  ready := fun p b tile hget => by
    obtain ⟨page, hpage, hready⟩ := h.ready p b tile (htiles _ tile hget)
    obtain ⟨page', hpage'⟩ := Option.isSome_iff_exists.mp (hresident _ tile hget)
    have := hpages p page' hpage'
    rw [hpage] at this
    obtain rfl := Option.some.inj this
    exact ⟨page, hpage', hready⟩
  asking := fun r hr hanswered p page htask hget huid => by
    obtain ⟨x, hx, hxuid, hxtask, hxanswered, -⟩ := hrequests r hr
    exact h.asking x hx (hxanswered.trans hanswered) p page (hxtask.trans htask) (hpages p page hget)
      (huid.trans hxuid.symm)
  askingTile := fun r hr hanswered haborted p b tile htask hget huid => by
    obtain ⟨x, hx, hxuid, hxtask, hxanswered, hxaborted⟩ := hrequests r hr
    exact h.askingTile x hx (hxanswered.trans hanswered) (hxaborted haborted) p b tile
      (hxtask.trans htask) (htiles _ tile hget) (huid.trans hxuid.symm)
  answered := fun t ht r hr huid => by
    obtain ⟨x, hx, hxuid, -, hxanswered, -⟩ := hrequests r hr
    exact hxanswered ▸ h.answered t (htimers t ht) x hx (hxuid.trans huid)
  pageFresh := fun p page hget => h.pageFresh p page (hpages p page hget)
  pageWaiting := fun t ht p page htask hget =>
    h.pageWaiting t (htimers t ht) p page htask (hpages p page hget)
  pageGone := fun p hget => by
    rw [ho, hnow]
    by_cases hp : p ∈ s.interestPages
    · exact h.pageGone p (hkeptPages p hp ▸ hget)
    · exact .inl (haway.ofPage hp)
  tileGone := fun p b hget => by
    by_cases hk : (p, b) ∈ s.interestTiles
    · exact h.tileGone p b (hkeptTiles _ hk ▸ hget)
    · exact haway.ofTile hk
  tileCount := fun p b tile hget => h.tileCount p b tile (htiles _ tile hget)
  tileReady := fun p b tile hget => h.tileReady p b tile (htiles _ tile hget)
  pageLimited := fun t ht hl p page htask hget =>
    h.pageLimited t (htimers t ht) hl p page htask (hpages p page hget)
  tileLimited := fun t ht hl p b tile htask hget =>
    h.tileLimited t (htimers t ht) hl p b tile htask (htiles _ tile hget)
  pageTimer := fun t ht hl p page htask hget => by
    rw [ho]
    exact h.pageTimer t (htimers t ht) hl p page htask (hpages p page hget)
  tileTimer := fun t ht hl p b tile htask hget => by
    rw [ho]
    exact h.tileTimer t (htimers t ht) hl p b tile htask (htiles _ tile hget)

theorem Before.step (h : s'.Before r) (hstep : ∀ x ∈ s'.requests, s.Before x) : s.Before r := by
  obtain ⟨x, hx, huid, htask, hanswered, haborted⟩ := h
  obtain ⟨y, hy, huid', htask', hanswered', haborted'⟩ := hstep x hx
  exact ⟨y, hy, huid'.trans huid, htask'.trans htask, hanswered'.trans hanswered,
    fun hr => haborted' (haborted hr)⟩

theorem before_abort {gone : List (Task × ℕ)} (hr : r ∈ (s.abort gone).requests) : s.Before r := by
  obtain ⟨x, hx, rfl⟩ := List.mem_map.mp hr
  refine ⟨x, hx, ?_⟩
  split_ifs
  · exact ⟨rfl, rfl, rfl, (nomatch ·)⟩
  · exact ⟨rfl, rfl, rfl, id⟩

theorem before_evict (hr : r ∈ s.evict.requests) : s.Before r := by
  rw [evict_eq] at hr
  apply (before_abort hr).step
  intro x hx
  apply (before_abort hx).step
  exact fun y hy => before_abort hy

theorem before_leave (hr : r ∈ s.leave.requests) : s.Before r := by
  apply (before_abort hr).step
  exact fun x hx => before_abort hx

/-! ## Evicting and fetching -/

theorem get_drop_of_none {κ α : Type*} [DecidableEq κ] {m m' : OrderedMap κ α} {k : κ}
    (hsub : ∀ a, m'.get k = some a → m.get k = some a) (h : m.get k = none) : m'.get k = none := by
  rw [OrderedMap.get_eq_none]
  intro a ha
  rw [hsub a ha] at h
  cases h

theorem Watched.evict (h : Watched s m) (haway : Away s m)
    (hnested : ∀ k ∈ s.interestTiles, k.1 ∈ s.interestPages) : Watched s.evict m := by
  refine h.shrink haway frame_evict.o frame_evict.now (fun p page hget => (get_evict_pages.mp hget).1)
    (fun p hp => get_evict_of_interest hp) (fun k tile hget => (of_get_evict_tiles hget).1)
    (fun k hk => ?_) (kept_evict s).resident (fun x hx => ?_) fun r hr => ?_
  · cases hget : s.tiles.get k with
    | none => exact get_drop_of_none (fun a ha => (of_get_evict_tiles ha).1) hget
    | some tile =>
      -- the page of a tile of interest stays, and so does the tile
      obtain ⟨page, hpage, -⟩ := h.ready k.1 k.2 tile hget
      rw [get_evict_tiles_of_interest hk, hget]
      rw [get_evict_of_interest (hnested k hk), hpage]
      rfl
  · rw [evict_eq] at hx
    exact (List.mem_filter.mp (List.mem_filter.mp (List.mem_filter.mp hx).1).1).1
  · exact before_evict hr

theorem get_leave_pages : s.leave.pages.get p = some page ↔
    s.pages.get p = some page ∧ ¬ (p ∉ s.interestPages ∧ page.status = .loading) := by
  refine get_dropPages.trans (and_congr_right fun hget => not_congr ?_)
  refine (OrderedMap.mem_keys_filter hget).trans ?_
  rw [Bool.and_eq_true, decide_eq_true_eq, decide_eq_true_eq]

theorem get_leave_tiles : s.leave.tiles.get k = some tile ↔
    s.tiles.get k = some tile ∧ ¬ (k ∉ s.interestTiles ∧ tile.status = .loading) := by
  refine get_dropTiles.trans (and_congr_right fun hget => not_congr ?_)
  refine (OrderedMap.mem_keys_filter hget).trans ?_
  rw [Bool.and_eq_true, decide_eq_true_eq, decide_eq_true_eq]
  rfl

theorem Watched.leave (h : Watched s m) (haway : Away s m) : Watched s.leave m := by
  refine h.shrink haway rfl rfl (fun p page hget => (get_leave_pages.mp hget).1) (fun p hp => ?_)
    (fun k tile hget => (get_leave_tiles.mp hget).1) (fun k hk => ?_) (fun k tile hget => ?_)
    (fun x hx => hx) fun r hr => ?_
  · apply Option.ext
    intro page
    rw [get_leave_pages]
    exact and_iff_left fun hout => hout.1 hp
  · apply Option.ext
    intro tile
    rw [get_leave_tiles]
    exact and_iff_left fun hout => hout.1 hk
  · obtain ⟨page, hpage, hready⟩ := h.ready k.1 k.2 tile (get_leave_tiles.mp hget).1
    refine Option.isSome_of_eq_some (get_leave_pages.mpr ⟨hpage, fun hout => ?_⟩)
    rw [hready] at hout
    cases hout.2
  · exact before_leave hr

theorem Watched.loadPage (h : Watched s m) (hsound : Sound s) (hnew : s.pages.get p = none) :
    Watched (s.loadPage p) m := by
  have hold {t : Timer} {j : ℕ} {x : Page χ} (ht : t ∈ s.timers)
      (hget : (s.pages.set p (s.newPage p)).get j = some x) (huid : x.uid = t.uid) :
      s.pages.get j = some x := by
    have hset := OrderedMap.get_set_eq_some.mp hget
    split_ifs at hset with hj
    · subst hset
      exact absurd huid (hsound.timed t ht).ne'
    · exact hset
  exact { h with
    ready := fun j b tile hget => by
      obtain ⟨page, hpage, hready⟩ := h.ready j b tile hget
      refine ⟨page, ?_, hready⟩
      change (s.pages.set p (s.newPage p)).get j = some page
      rw [OrderedMap.get_set_of_ne, hpage]
      rintro rfl
      rw [hpage] at hnew
      cases hnew
    asking := fun r hr hanswered j page htask hget huid => by
      have hset := OrderedMap.get_set_eq_some.mp hget
      split_ifs at hset with hj
      · subst hset
        rfl
      · rcases List.mem_append.mp hr with hr | hr
        · exact h.asking r hr hanswered j page htask hset huid
        · obtain rfl := List.mem_singleton.mp hr
          exact absurd huid (hsound.pageNumbered j page hset).ne
    askingTile := fun r hr hanswered haborted j c tile htask hget huid => by
      rcases List.mem_append.mp hr with hr | hr
      · exact h.askingTile r hr hanswered haborted j c tile htask hget huid
      · obtain rfl := List.mem_singleton.mp hr
        cases htask
    answered := fun t ht r hr huid => by
      rcases List.mem_append.mp hr with hr | hr
      · exact h.answered t ht r hr huid
      · obtain rfl := List.mem_singleton.mp hr
        exact absurd huid (hsound.timed t ht).ne'
    pageFresh := fun j page hget hl => by
      have hset := OrderedMap.get_set_eq_some.mp hget
      split_ifs at hset with hj
      · subst hset
        change ((s.pages.get p).map Page.attempts).getD 0 = 0
        rw [hnew]
        rfl
      · exact h.pageFresh j page hset hl
    pageWaiting := fun t ht j x htask hget huid =>
      h.pageWaiting t ht j x htask (hold ht hget huid) huid
    pageGone := fun j hget => by
      have hget : (s.pages.set p (s.newPage p)).get j = none := hget
      rw [OrderedMap.get_set] at hget
      split_ifs at hget
      exact h.pageGone j hget
    pageLimited := fun t ht hl j x htask hget huid =>
      h.pageLimited t ht hl j x htask (hold ht hget huid) huid
    pageTimer := fun t ht hl j x htask hget huid =>
      h.pageTimer t ht hl j x htask (hold ht hget huid) huid }

theorem Watched.loadTile (h : Watched s m) (hsound : Sound s) (hnew : s.fetchesTile p b) :
    Watched (s.loadTile p b) m := by
  have hold {t : Timer} {k : ℕ × ℤ} {x : Tile δ} (ht : t ∈ s.timers)
      (hget : (s.tiles.set (p, b) (s.newTile p b)).get k = some x) (huid : x.uid = t.uid) :
      s.tiles.get k = some x := by
    have hset := OrderedMap.get_set_eq_some.mp hget
    split_ifs at hset with hk
    · subst hset
      exact absurd huid (hsound.timed t ht).ne'
    · exact hset
  exact { h with
    ready := fun j c tile hget => by
      have hset := OrderedMap.get_set_eq_some.mp hget
      split_ifs at hset with hk
      · obtain ⟨rfl, rfl⟩ := Prod.mk.inj hk
        obtain ⟨page, hpage, hready⟩ := (Option.any_eq_true _ _).mp (Bool.and_eq_true_iff.mp hnew).1
        exact ⟨page, hpage, of_decide_eq_true hready⟩
      · exact h.ready j c tile hset
    asking := fun r hr hanswered j page htask hget huid => by
      rcases List.mem_append.mp hr with hr | hr
      · exact h.asking r hr hanswered j page htask hget huid
      · obtain rfl := List.mem_singleton.mp hr
        exact absurd huid (hsound.pageNumbered j page hget).ne
    askingTile := fun r hr hanswered haborted j c tile htask hget huid => by
      have hset := OrderedMap.get_set_eq_some.mp hget
      split_ifs at hset with hk
      · subst hset
        rfl
      · rcases List.mem_append.mp hr with hr | hr
        · exact h.askingTile r hr hanswered haborted j c tile htask hset huid
        · obtain rfl := List.mem_singleton.mp hr
          exact absurd huid (hsound.tileNumbered _ tile hset).ne
    answered := fun t ht r hr huid => by
      rcases List.mem_append.mp hr with hr | hr
      · exact h.answered t ht r hr huid
      · obtain rfl := List.mem_singleton.mp hr
        exact absurd huid (hsound.timed t ht).ne'
    tileGone := fun j c hget => by
      have hget : (s.tiles.set (p, b) (s.newTile p b)).get (j, c) = none := hget
      rw [OrderedMap.get_set] at hget
      split_ifs at hget
      exact h.tileGone j c hget
    tileCount := fun j c x hget => by
      have hset := OrderedMap.get_set_eq_some.mp hget
      split_ifs at hset with hk
      · obtain ⟨rfl, rfl⟩ := Prod.mk.inj hk
        subst hset
        change (m (.tile j c)).1 ≤ ((s.tiles.get (j, c)).map Tile.attempts).getD 0
        cases hx : s.tiles.get (j, c) with
        | none => exact (h.tileGone j c hx).le
        | some x => exact h.tileCount j c x hx
      · exact h.tileCount j c x hset
    tileReady := fun j c x hget hready => by
      have hset := OrderedMap.get_set_eq_some.mp hget
      split_ifs at hset with hk
      · subst hset
        cases hready
      · exact h.tileReady j c x hset hready
    tileLimited := fun t ht hl j c x htask hget huid =>
      h.tileLimited t ht hl j c x htask (hold ht hget huid) huid
    tileTimer := fun t ht hl j c x htask hget huid =>
      h.tileTimer t ht hl j c x htask (hold ht hget huid) huid }

/-- What is queued is queued once, a page that is queued is not there, and a tile is not loading. -/
structure Lined (s : Store χ δ) (queue : List Task) : Prop where
  once : queue.Nodup
  page : ∀ p, .page p ∈ queue → s.pages.get p = none
  tile : ∀ p b, .tile p b ∈ queue → ∀ tile, s.tiles.get (p, b) = some tile → tile.status ≠ .loading

theorem fetchPage_of_none (h : s.pages.get p = none) : s.fetchPage p = (s.loadPage p).evict :=
  fetchPage_eq (by rw [h]; exact Bool.false_ne_true)

theorem Lined.shrink {queue' : List Task} (h : Lined s queue) (hqueue : queue'.Sublist queue)
    (hpages : ∀ p page, s'.pages.get p = some page → s.pages.get p = some page)
    (htiles : ∀ k tile, s'.tiles.get k = some tile → s.tiles.get k = some tile) :
    Lined s' queue' where
  once := h.once.sublist hqueue
  page := fun p hp => get_drop_of_none (hpages p) (h.page p (hqueue.subset hp))
  tile := fun p b hk tile hget => h.tile p b (hqueue.subset hk) tile (htiles _ tile hget)

theorem Lined.evict (h : Lined s queue) : Lined s.evict queue :=
  h.shrink (List.Sublist.refl _) (fun _ _ hget => (get_evict_pages.mp hget).1)
    fun _ _ hget => (of_get_evict_tiles hget).1

theorem Lined.loadPage (h : Lined s queue) (hp : .page p ∉ queue) : Lined (s.loadPage p) queue where
  once := h.once
  page := fun j hj => by
    change (s.pages.set p (s.newPage p)).get j = none
    rw [OrderedMap.get_set_of_ne, h.page j hj]
    rintro rfl
    exact hp hj
  tile := h.tile

theorem Lined.loadTile (h : Lined s queue) (hk : .tile p b ∉ queue) :
    Lined (s.loadTile p b) queue where
  once := h.once
  page := h.page
  tile := fun j c hj tile hget => by
    have hset := OrderedMap.get_set_eq_some.mp hget
    split_ifs at hset with heq
    · obtain ⟨rfl, rfl⟩ := Prod.mk.inj heq
      exact absurd hj hk
    · exact h.tile j c hj tile hset

theorem Lined.fetch (h : Lined s (task :: queue)) : Lined (s.fetch task) queue := by
  have htail : Lined s queue := h.shrink (List.sublist_cons_self _ _) (fun _ _ => id) fun _ _ => id
  have hnew := (List.nodup_cons.mp h.once).1
  cases task with
  | page p =>
    change Lined (s.fetchPage p) queue
    rw [fetchPage_of_none (h.page p List.mem_cons_self)]
    exact (htail.loadPage hnew).evict
  | tile p b =>
    change Lined (s.fetchTile p b) queue
    rw [fetchTile_eq]
    split_ifs
    · exact (htail.loadTile hnew).evict
    · exact htail

theorem Watched.fetch (h : Watched s m) (hsound : Sound s) (haway : Away s m)
    (hlined : Lined s (task :: queue)) : Watched (s.fetch task) m := by
  cases task with
  | page p =>
    have hnone := hlined.page p List.mem_cons_self
    change Watched (s.fetchPage p) m
    rw [fetchPage_of_none hnone]
    exact (h.loadPage hsound hnone).evict haway hsound.nested
  | tile p b =>
    change Watched (s.fetchTile p b) m
    rw [fetchTile_eq]
    split_ifs with hfetches
    · exact (h.loadTile hsound hfetches).evict haway hsound.nested
    · exact h

theorem Away.frame (h : Away s m) (hf : Frame s s') : Away s' m := by
  intro task hout
  refine h task ?_
  cases task with
  | page p =>
    unfold inInterest at hout ⊢
    rwa [hf.interestPages] at hout
  | tile p b =>
    unfold inInterest at hout ⊢
    rwa [hf.interestTiles] at hout

theorem Waited.frame (h : Waited s m queue) (hf : Frame s s') : Waited s' m queue := by
  intro task htask
  rw [hf.o, hf.now]
  exact h task htask

theorem Begun.fetch (h : Begun n s m) (hallowed : Allowed s.o s.now (m task)) :
    Begun n (s.fetch task) m := by
  have hf := frame_fetch (s := s) task
  intro r hr huid
  rw [hf.o, hf.now]
  have hload {t : Store χ δ} (hr : r ∈ t.requests)
      (ht : ∀ x ∈ t.requests, x ∈ s.requests ∨ x.task = task) : Allowed s.o s.now (m r.task) := by
    rcases ht r hr with hr | rfl
    · exact h r hr huid
    · exact hallowed
  have hevict {t : Store χ δ} (hr : r ∈ t.evict.requests)
      (ht : ∀ x ∈ t.requests, x ∈ s.requests ∨ x.task = task) : Allowed s.o s.now (m r.task) := by
    obtain ⟨x, hx, hxuid, hxtask, -⟩ := before_evict hr
    rw [← hxtask]
    rcases ht x hx with hx | hx
    · exact h x hx (hxuid ▸ huid)
    · rwa [hx]
  cases task with
  | page p =>
    have hr : r ∈ (s.fetchPage p).requests := hr
    by_cases hpresent : (s.pages.get p).any fun page => page.status = .loading || page.status = .ready
    · rw [fetchPage_of_present hpresent] at hr
      exact h r hr huid
    · rw [fetchPage_eq hpresent] at hr
      refine hevict hr fun x hx => ?_
      rcases List.mem_append.mp hx with hx | hx
      · exact .inl hx
      · exact .inr (by rw [List.mem_singleton.mp hx])
  | tile p b =>
    have hr : r ∈ (s.fetchTile p b).requests := hr
    rw [fetchTile_eq] at hr
    split_ifs at hr
    · refine hevict hr fun x hx => ?_
      rcases List.mem_append.mp hx with hx | hx
      · exact .inl hx
      · exact .inr (by rw [List.mem_singleton.mp hx])
    · exact h r hr huid

/-- What is known of the failures before the store plans. -/
structure Primed (n : ℕ) (s : Store χ δ) (m : Fails) : Prop where
  watched : Watched s m
  waited : Waited s m s.queue
  lined : Lined s s.queue
  begun : Begun n s m

/-- **What is known of the failures** between events. -/
structure Kept' (n : ℕ) (s : Store χ δ) (m : Fails) : Prop extends Primed n s m where
  away : Away s m

theorem pumpFrom_kept (hsound : Sound s) (hactive : queue ≠ [] → s.Active) (h : Watched s m)
    (haway : Away s m) (hwaited : Waited s m queue) (hlined : Lined s queue)
    (hbegun : Begun n s m) : Kept' n (s.pumpFrom queue) m := by
  induction queue generalizing s with
  | nil =>
    exact ⟨⟨{ h with }, fun _ => (nomatch ·),
      ⟨List.nodup_nil, fun _ => (nomatch ·), fun _ _ => (nomatch ·)⟩, hbegun⟩, haway⟩
  | cons task queue ih =>
    have hactive := hactive (List.cons_ne_nil _ _)
    rw [pumpFrom]
    split_ifs
    · have hf := frame_fetch (s := s) task
      exact ih (hsound.fetch hactive task) (fun _ => hactive.frame hf)
        (h.fetch hsound haway hlined) (haway.frame hf)
        (Waited.frame (fun x hx => hwaited x (List.mem_cons_of_mem _ hx)) hf) hlined.fetch
        (hbegun.fetch (hwaited task List.mem_cons_self))
    · exact ⟨⟨{ h with }, hwaited, { hlined with }, hbegun⟩, haway⟩

/-! ## Planning -/

/-- Failed tiles of the interest that are stale have waited. -/
def Due (s : Store χ δ) (m : Fails) (tiles : List (ℕ × ℤ)) : Prop :=
  ∀ p b tile, (p, b) ∈ tiles → s.tiles.get (p, b) = some tile → tile.status = .error →
    tile.stale = true → Allowed s.o s.now (m (.tile p b))

theorem restrict_or (m : Fails) (s : Store χ δ) (task : Task) :
    restrict m s task = m task ∨ (restrict m s task).1 = 0 := by
  unfold restrict
  split_ifs
  · exact .inl rfl
  · exact .inr rfl

theorem away_restrict (m : Fails) (s : Store χ δ) : Away s (restrict m s) := by
  intro task hout
  unfold restrict
  rw [hout]
  rfl

theorem Allowed.below {o : Options} {now : ℕ} (h : Allowed o now (m task))
    (hm : m' task = m task ∨ (m' task).1 = 0) : Allowed o now (m' task) := by
  rcases hm with heq | hzero
  · rwa [heq]
  · exact .inl hzero

theorem allowed_missing {v : Viewport} (h : Watched s m) (hdue : Due s m s.interestTiles)
    (hinterest : s.interestTiles = s.interestPages.flatMap fun p => (s.wantedBlocks v).map (p, ·))
    (htask : task ∈ s.interestPages.flatMap (s.missing (s.wantedBlocks v))) :
    Allowed s.o s.now (m task) := by
  obtain ⟨p, hp, htask⟩ := List.mem_flatMap.mp htask
  unfold missing at htask
  cases hget : s.pages.get p with
  | none =>
    rw [hget] at htask
    obtain rfl := List.mem_singleton.mp htask
    exact h.pageGone p hget
  | some page =>
    rw [hget] at htask
    dsimp only at htask
    split_ifs at htask with hready
    · obtain ⟨b, hb, rfl⟩ := List.mem_map.mp htask
      obtain ⟨hb, hwants⟩ := List.mem_filter.mp hb
      unfold wantsTile at hwants
      cases htile : s.tiles.get (p, b) with
      | none => exact .inl (h.tileGone p b htile)
      | some tile =>
        rw [htile] at hwants
        dsimp only at hwants
        rw [Bool.and_eq_true, bne_iff_ne] at hwants
        cases hstatus : tile.status with
        | loading => exact absurd hstatus hwants.2
        | ready => exact .inl (h.tileReady p b tile htile hstatus)
        | error =>
          refine hdue p b tile ?_ htile hstatus hwants.1
          rw [hinterest]
          exact List.mem_flatMap.mpr ⟨p, hp, List.mem_map.mpr ⟨b, hb, rfl⟩⟩
    · cases htask

theorem Begun.same (h : Begun n s m) {t : Store χ δ} (ho : t.o = s.o) (hnow : t.now = s.now)
    (hrequests : ∀ r ∈ t.requests, s.Before r) : Begun n t m := by
  intro r hr huid
  obtain ⟨x, hx, hxuid, hxtask, -⟩ := hrequests r hr
  rw [ho, hnow, ← hxtask]
  exact h x hx (hxuid ▸ huid)

theorem mem_blocksFrom {stop blockMs : ℤ} {fuel : ℕ} {t x : ℤ}
    (h : x ∈ blocksFrom stop blockMs fuel t) : ∃ i : ℕ, x = t + i * blockMs := by
  induction fuel generalizing t with
  | zero => cases h
  | succ fuel ih =>
    rw [blocksFrom] at h
    split_ifs at h
    · rcases List.mem_cons.mp h with rfl | h
      · exact ⟨0, by simp⟩
      · obtain ⟨i, rfl⟩ := ih h
        exact ⟨i + 1, by push_cast; ring⟩
    · cases h

theorem nodup_blocksFrom {stop blockMs : ℤ} (hb : blockMs ≠ 0) (fuel : ℕ) (t : ℤ) :
    (blocksFrom stop blockMs fuel t).Nodup := by
  induction fuel generalizing t with
  | zero => exact List.nodup_nil
  | succ fuel ih =>
    rw [blocksFrom]
    split_ifs
    · refine List.nodup_cons.mpr ⟨fun hmem => ?_, ih _⟩
      obtain ⟨i, hi⟩ := mem_blocksFrom hmem
      have : ((i : ℤ) + 1) * blockMs = 0 := by linarith
      rcases mul_eq_zero.mp this with hzero | hzero
      · omega
      · exact hb hzero
    · exact List.nodup_nil

theorem nodup_blocksCovering (start stop blockMs : ℤ) :
    (blocksCovering start stop blockMs).Nodup := by
  unfold blocksCovering
  split_ifs with h
  · exact nodup_blocksFrom h.2 _ _
  · exact List.nodup_nil

def taskPage : Task → ℕ
  | .page p => p
  | .tile p _ => p

theorem missing_spec {blocks : List ℤ} (h : task ∈ s.missing blocks p) : taskPage task = p ∧
    (∀ j, task = .page j → s.pages.get j = none) ∧
    ∀ j c, task = .tile j c → ∀ tile, s.tiles.get (j, c) = some tile → tile.status ≠ .loading := by
  unfold missing at h
  cases hget : s.pages.get p with
  | none =>
    rw [hget] at h
    obtain rfl := List.mem_singleton.mp h
    refine ⟨rfl, fun j hj => ?_, fun _ _ => (nomatch ·)⟩
    obtain rfl := Task.page.inj hj
    exact hget
  | some page =>
    rw [hget] at h
    dsimp only at h
    split_ifs at h
    · obtain ⟨b, hb, rfl⟩ := List.mem_map.mp h
      refine ⟨rfl, fun _ => (nomatch ·), fun j c hj tile htile hl => ?_⟩
      obtain ⟨rfl, rfl⟩ := Task.tile.inj hj
      have := (List.mem_filter.mp hb).2
      unfold wantsTile at this
      rw [htile] at this
      dsimp only at this
      rw [hl, Bool.and_eq_true] at this
      exact absurd this.2 (by decide)
    · cases h

theorem nodup_missing {blocks : List ℤ} (hblocks : blocks.Nodup) (p : ℕ) :
    (s.missing blocks p).Nodup := by
  unfold missing
  split
  · exact List.nodup_singleton _
  · split_ifs
    · exact (hblocks.filter _).map fun b c heq => (Task.tile.inj heq).2
    · exact List.nodup_nil

theorem nodup_wanted {blocks : List ℤ} (hblocks : blocks.Nodup) {pages : List ℕ}
    (hpages : pages.Nodup) : (pages.flatMap (s.missing blocks)).Nodup := by
  induction pages with
  | nil => exact List.nodup_nil
  | cons p pages ih =>
    obtain ⟨hp, hpages⟩ := List.nodup_cons.mp hpages
    rw [List.flatMap_cons]
    refine List.nodup_append.mpr ⟨nodup_missing hblocks p, ih hpages, ?_⟩
    rintro task htask x hx rfl
    obtain ⟨j, hj, hx⟩ := List.mem_flatMap.mp hx
    exact hp ((missing_spec htask).1 ▸ (missing_spec hx).1 ▸ hj)

theorem Lined.enqueue {v : Viewport} (h : Lined s s.queue) (hpages : s.interestPages.Nodup) :
    Lined (s.enqueue v) (s.enqueue v).queue := by
  obtain ⟨clock, pageUsed, tileUsed, queue, heq, hqueue⟩ := enqueue_spec s v
  rw [heq]
  refine ⟨?_, fun p hp => ?_, fun p b hk => ?_⟩
  · dsimp only
    rw [hqueue.nodup_iff]
    refine List.nodup_append.mpr ⟨?_, h.once, ?_⟩
    · exact (nodup_wanted (nodup_blocksCovering _ _ _) hpages).filter _
    · rintro task hnew x hold rfl
      exact of_decide_eq_true (List.mem_filter.mp hnew).2 hold
  · rcases (mem_enqueue hqueue).mp hp with hold | hnew
    · exact h.page p hold
    · obtain ⟨j, -, hnew⟩ := List.mem_flatMap.mp hnew
      exact (missing_spec hnew).2.1 p rfl
  · rcases (mem_enqueue hqueue).mp hk with hold | hnew
    · exact h.tile p b hold
    · obtain ⟨j, -, hnew⟩ := List.mem_flatMap.mp hnew
      exact (missing_spec hnew).2.2 p b rfl

theorem enqueue_kept {v : Viewport} (h : Watched s m) (haway : Away s m) (hwaited : Waited s m s.queue)
    (hlined : Lined s s.queue) (hpages : s.interestPages.Nodup) (hbegun : Begun n s m) (hdue : Due s m s.interestTiles)
    (hinterest : s.interestTiles = s.interestPages.flatMap fun p => (s.wantedBlocks v).map (p, ·)) :
    Kept' n (s.enqueue v) m := by
  have hline := hlined.enqueue (v := v) hpages
  obtain ⟨clock, pageUsed, tileUsed, queue, heq, hqueue⟩ := enqueue_spec s v
  rw [heq] at hline ⊢
  refine ⟨⟨{ h with }, fun task htask => ?_, hline, hbegun⟩, haway⟩
  rcases (mem_enqueue hqueue).mp htask with hold | hnew
  · exact hwaited task hold
  · exact allowed_missing (s := s) h hdue hinterest hnew

theorem frame_enqueue (v : Viewport) : Frame s (s.enqueue v) := by
  obtain ⟨clock, pageUsed, tileUsed, queue, heq, -⟩ := enqueue_spec s v
  rw [heq]
  exact ⟨rfl, rfl, rfl, rfl, rfl, rfl, rfl, rfl, rfl, le_rfl⟩

theorem frame_plan {v : Viewport} (hv : s.viewport = some v) (hd : s.disposed = false) :
    Frame (s.aim v) s.plan := by
  rw [plan_of_active hv hd]
  exact ((frame_leave.trans (frame_enqueue v)).trans frame_evict).trans (frame_pumpFrom _ _)

theorem restrict_frame (hf : Frame s s') (m : Fails) : restrict m s' = restrict m s := by
  funext task
  unfold restrict inInterest
  rw [hf.interestPages, hf.interestTiles]

theorem Primed.between (h : Primed n s m) : Kept' n s (restrict m s) where
  watched := h.watched.below (restrict_or m s)
  waited := fun task htask => (h.waited task htask).below (restrict_or m s task)
  lined := h.lined
  begun := fun r hr huid => (h.begun r hr huid).below (restrict_or m s r.task)
  away := away_restrict m s

theorem plan_kept_of_active {v : Viewport} (hv : s.viewport = some v) (hd : s.disposed = false)
    (hsound : Sound s) (h : Primed n s m) (hdue : Due s m (s.aim v).interestTiles) :
    Kept' n s.plan (restrict m (s.aim v)) := by
  obtain ⟨hwatched, hwaited, hlined, hbegun⟩ := h
  have hor := restrict_or m (s.aim v)
  have haway := away_restrict m (s.aim v)
  have haim : Watched (s.aim v) (restrict m (s.aim v)) := Watched.below { hwatched with } hor
  have hsound := (hsound.aim hv).leave
  have hactive : (s.aim v).leave.Active := by
    refine ⟨?_, hd⟩
    change s.viewport ≠ none
    rw [hv]
    exact Option.some_ne_none v
  have hkept : Kept' n ((s.aim v).leave.enqueue v) (restrict m (s.aim v)) := by
    apply enqueue_kept (haim.leave haway) (haway.frame frame_leave)
    · intro task htask
      exact (hwaited task (List.mem_filter.mp htask).1).below (hor task)
    · exact hlined.shrink List.filter_sublist (fun _ _ hget => (get_leave_pages.mp hget).1)
        fun _ _ hget => (get_leave_tiles.mp hget).1
    · exact List.nodup_range.filter _
    · refine Begun.same (s := s.aim v) (fun r hr huid => ?_) rfl rfl fun r hr => before_leave hr
      exact (hbegun r hr huid).below (hor r.task)
    · intro p b tile hk hget herror hstale
      exact (hdue p b tile hk (get_leave_tiles.mp hget).1 herror hstale).below (hor _)
    · rfl
  have hsound := hsound.enqueue hactive v
  rw [plan_of_active hv hd]
  exact pumpFrom_kept hsound.evict hsound.evict.active (hkept.watched.evict hkept.away hsound.nested)
    (hkept.away.frame frame_evict) (Waited.frame hkept.waited frame_evict) hkept.lined.evict
    (hkept.begun.same frame_evict.o frame_evict.now fun r hr => before_evict hr)

/-- **Planning** for what has waited. -/
theorem Primed.plan (h : Primed n s m) (hsound : Sound s)
    (hdue : ∀ v, s.viewport = some v → s.disposed = false → Due s m (s.aim v).interestTiles) :
    Kept' n s.plan (restrict m s.plan) := by
  cases hv : s.viewport with
  | none =>
    rw [plan_of_none hv]
    exact h.between
  | some v =>
    cases hd : s.disposed with
    | true =>
      rw [plan_of_disposed hd]
      exact h.between
    | false =>
      rw [restrict_frame (frame_plan hv hd)]
      exact plan_kept_of_active hv hd hsound h (hdue v hv hd)

end Portico.Guide.Store
