import Portico.Derive.Batches

/-!
# Derived data is not left stale

An id leaves a domain's queue only in a transaction whose drain finished it at its revision. When a
rebuild ends, every source id that was there throughout was finished since it began, or is queued,
unless a rebuild began between a step that failed at one enumerated id and that id's set-aside: the
set-aside then moves the new rebuild's cursor over ids that it hasn't met.

## Main results

* `leaves_finished`: the first law, of every run
* `never_stale`: both laws, of every run whose events are undisturbed
* `rebuild_skips`: a run in which a rebuild skips an id
-/

namespace Portico.Derive

open Machine

variable {s t : State} {e : Event} {es : List Event} {domain other : ℕ} {x : ℤ} {P : Prop}

def Registered (s : State) (domain : ℕ) : Prop := (s.worker.registry domain).isSome

/-- The drain of an event finished `x`, at its revision. -/
def FinishedAt (domain : ℕ) (x : ℤ) (s : State) (e : Event) : Prop :=
  ∃ r, report s e = some r ∧ r.Finished domain x

/-- The drain of an event reported `x` finished. -/
def DoneAt (domain : ℕ) (x : ℤ) (s : State) (e : Event) : Prop :=
  ∃ r, report s e = some r ∧ r.Done domain x

/-- The event begins a rebuild of the domain. -/
def Begins (s : State) (e : Event) (domain : ℕ) : Prop :=
  match e with
  | .rebuild d => d = domain ∧ (s.catalog.derivations domain).isSome
  | .prepare _ =>
    ∃ d, s.worker.registry domain = some d ∧
      ∀ row, s.catalog.derivations domain = some row → row.version < d.version
  | _ => False

/-- No rebuild begins between a step that failed at an enumerated id and its set-aside. -/
def Undisturbed (s : State) : Event → Prop
  | .rebuild domain =>
    ∀ f, s.worker.failing = some f → f.domain = domain →
      ¬ (f.backfilled = true ∧ s.worker.alone f = true)
  | _ => True

/-! ## The two laws -/

/-- An id leaves the queue of a registered domain only where a drain finished it at its revision. -/
def LeavesFinished (s : State) (es : List Event) : Prop :=
  Each step
    (fun s e => ∀ domain x t, Registered s domain → step s e = some t →
      x ∈ s.catalog.queued domain → x ∉ t.catalog.queued domain → FinishedAt domain x s e)
    s es

/-- When the event `last` clears the flag of a rebuild that `first` began, every source id of the
events between was finished since it began, or is queued. -/
def RebuildsAll (s : State) (es : List Event) : Prop :=
  ∀ before first during last a b u v domain, es = before ++ first :: (during ++ [last]) →
    run step s before = some a → step a first = some b → Begins a first domain →
    run step b during = some u → step u last = some v →
    rebuilding u.catalog domain = true → rebuilding v.catalog domain = false →
    Along step (fun s => Registered s domain) b during →
    ∀ x, Along step (fun s => x ∈ (s.catalog.sources domain).ids) b during →
      Happened step (DoneAt domain x) b (during ++ [last]) ∨ x ∈ v.catalog.queued domain

/-! ## What an event does -/

/-- What a step that fails leaves to be set aside: an id that an enumeration gave it alone, with no
source id before it that wasn't passed. -/
def Marks (s t : State) (domain : ℕ) : Prop :=
  ∀ f, t.worker.failing = some f → f.domain = domain → f.backfilled = true → f.id ≠ 0 →
    ∀ x ∈ (s.catalog.sources domain).ids, x < f.id → Behind s.catalog domain x

theorem marks_of_none (h : t.worker.failing = none) : Marks s t domain := by
  intro f hf
  rw [h] at hf
  cases hf

theorem settleTurn_sound {turned : Turned} {retried : Bool} {r : Option Report}
    (hfailing : s.worker.failing = none) (hother : turned.Sound other s.catalog s.worker domain)
    (h : settleTurn s domain retried turned = (t, r)) :
    Sound other s.catalog t.catalog r ∧ Marks s t other := by
  cases turned with
  | committed c w units id report =>
    obtain ⟨rfl, rfl⟩ := Prod.mk.inj h
    exact ⟨hother.1, marks_of_none (hother.2.2.trans hfailing)⟩
  | failed w id backfilled =>
    obtain ⟨rfl, rfl⟩ := Prod.mk.inj h
    refine ⟨Sound.refl, ?_⟩
    intro f hf hdomain hback hid
    obtain rfl := Option.some.inj hf
    obtain rfl : domain = other := hdomain
    exact hother.2 hback hid

theorem stepTx_sound {turn : Turn} {r : Option Report} (hlimit : 1 ≤ turn.limit)
    (hfailing : s.worker.failing = none) (hreg : Registered s other) (h : stepTx s turn = (t, r)) :
    Sound other s.catalog t.catalog r ∧ Marks s t other := by
  unfold stepTx at h
  simp only at h
  split at h
  · obtain ⟨rfl, rfl⟩ := Prod.mk.inj h
    exact ⟨sound_write, marks_of_none hfailing⟩
  · split at h
    · exact settleTurn_sound hfailing (sound_drainDomain hlimit hreg) h
    · split_ifs at h
      · obtain ⟨rfl, rfl⟩ := Prod.mk.inj h
        exact ⟨Sound.refl, marks_of_none hfailing⟩
      · split at h
        · exact settleTurn_sound hfailing (sound_drainDomain hlimit hreg) h
        · obtain ⟨rfl, rfl⟩ := Prod.mk.inj h
          exact ⟨Sound.refl, marks_of_none hfailing⟩

theorem queued_setAside {w : Worker} {f : Failing} {now : ℕ} {c : Catalog}
    (h : x ∈ c.queued domain) : x ∈ (c.setAside w f now).queued domain := by
  unfold Catalog.setAside
  split_ifs
  · exact Catalog.mem_queued_touch.mpr (Or.inr h)
  · exact h
  · exact h

/-- **Leaving the queue.** One event, from any state. -/
theorem act_takes {r : Option Report} (hreg : Registered s domain) (h : act s e = some (t, r))
    (hx : x ∈ s.catalog.queued domain) :
    x ∈ t.catalog.queued domain ∨ ∃ report, r = some report ∧ report.Finished domain x := by
  cases e with
  | prepare now =>
    obtain ⟨-, hcatalog, -, -⟩ := act_prepare h
    exact Or.inl (hcatalog ▸ hx)
  | step turn =>
    obtain ⟨hfailing, hlimit, htx⟩ := act_step h
    exact (stepTx_sound hlimit hfailing hreg htx).1.takes x hx
  | setAside now stored =>
    obtain ⟨f, -, hcatalog, -, -⟩ := act_setAside h
    rw [hcatalog]
    cases stored with
    | true => exact Or.inl (queued_setAside hx)
    | false => exact Or.inl hx
  | rebuild d =>
    cases h
    exact Or.inl hx
  | write work =>
    cases h
    exact Or.inl (queued_write hx)
  | restart registry =>
    cases h
    exact Or.inl hx

theorem report_eq {r : Option Report} (h : act s e = some (t, r)) : report s e = r := by
  rw [report, h, Option.bind_some]

/-- **The first law**, of every run. -/
theorem leaves_finished : LeavesFinished s es := by
  unfold LeavesFinished
  apply each_of_invariant (I := fun _ => True) (Q := fun _ _ => True)
  · exact fun _ _ _ _ _ _ => trivial
  · intro s e _ _ domain x t hreg hstep hx hgone
    obtain ⟨r, hact⟩ := step_eq_some.mp hstep
    rcases act_takes hreg hact hx with hstill | ⟨report, rfl, hfinished⟩
    · exact absurd hstill hgone
    · exact ⟨report, report_eq hact, hfinished⟩
  · trivial
  · induction es generalizing s with
    | nil => trivial
    | cons e es ih => exact ⟨trivial, fun t _ => ih⟩

/-! ## What a rebuild has passed -/

/-- A source id that a rebuild's enumeration has passed, or will have with the set-aside that is
due, meets `P` or is queued. -/
structure Passed (s : State) (domain : ℕ) (x : ℤ) (P : Prop) : Prop where
  cursor : Behind s.catalog domain x → P ∨ x ∈ s.catalog.queued domain
  failing : ∀ f, s.worker.failing = some f → f.domain = domain → f.backfilled = true →
    s.worker.alone f = true → x < f.id → P ∨ x ∈ s.catalog.queued domain

theorem Passed.mono {Q : Prop} (h : Passed s domain x P) (hPQ : P → Q) : Passed s domain x Q where
  cursor hb := (h.cursor hb).imp_left hPQ
  failing f hf hd hb ha hx := (h.failing f hf hd hb ha hx).imp_left hPQ

theorem behind_rebuild {d : ℕ} {c : Catalog} (hx : 0 < x)
    (h : Behind (c.rebuild d) domain x) : d ≠ domain ∧ Behind c domain x := by
  obtain ⟨row, hrow, hreb, hle⟩ := h
  unfold Catalog.rebuild at hrow
  rw [Catalog.derivations_setRow] at hrow
  split_ifs at hrow with hd
  · obtain ⟨old, -, rfl⟩ := Option.map_eq_some_iff.mp hrow
    exact absurd hx (not_lt.mpr hle)
  · exact ⟨Ne.symm hd, row, hrow, hreb, hle⟩

theorem behind_prepare {c : Catalog} {w : Worker} (hx : 0 < x)
    (h : Behind (c.prepare w) domain x) :
    Behind c domain x ∧ ∀ d, w.registry domain = some d →
      ∃ row, c.derivations domain = some row ∧ ¬ row.version < d.version := by
  obtain ⟨row, hrow, hreb, hle⟩ := h
  simp only [Catalog.prepare] at hrow
  split at hrow
  · rename_i d hd
    cases hold : c.derivations domain with
    | none =>
      rw [hold] at hrow
      obtain rfl := Option.some.inj hrow
      exact absurd hx (not_lt.mpr hle)
    | some old =>
      rw [hold] at hrow
      obtain rfl := Option.some.inj hrow
      simp only [prepareRow] at hreb hle
      split_ifs at hreb hle with hversion
      · exact absurd hx (not_lt.mpr hle)
      · refine ⟨⟨old, hold, hreb, hle⟩, fun d' hd' => ⟨old, rfl, ?_⟩⟩
        obtain rfl := Option.some.inj (hd.symm.trans hd')
        exact hversion
  · rename_i hnone
    refine ⟨⟨row, hrow, hreb, hle⟩, fun d hd => ?_⟩
    rw [hnone] at hd
    cases hd

theorem alone_id {w : Worker} {f : Failing} (h : w.alone f = true) : f.id ≠ 0 := by
  unfold Worker.alone at h
  simp only [Bool.and_eq_true, decide_eq_true_eq] at h
  exact h.1

/-- A set-aside moves the cursor to its id at most, and queues the id. -/
theorem behind_setAside {w : Worker} {f : Failing} {now : ℕ} {c : Catalog}
    (h : Behind (c.setAside w f now) domain x) :
    Behind c domain x ∨ f.domain = domain ∧ f.backfilled = true ∧ w.alone f = true ∧
      (x < f.id ∨ x ∈ (c.setAside w f now).queued domain) := by
  unfold Catalog.setAside at h ⊢
  split_ifs at h ⊢ with halone hback
  · obtain ⟨row, hrow, hreb, hle⟩ := h
    rw [Catalog.derivations_setRow] at hrow
    split_ifs at hrow with hdomain
    · obtain ⟨old, hold, rfl⟩ := Option.map_eq_some_iff.mp hrow
      rcases le_max_iff.mp hle with hle | hle
      · exact Or.inl ⟨old, hold, hreb, hle⟩
      · refine Or.inr ⟨hdomain.symm, hback, halone, ?_⟩
        rcases lt_or_eq_of_le hle with hlt | rfl
        · exact Or.inl hlt
        · refine Or.inr (Catalog.mem_queued_touch.mpr (Or.inl ⟨hdomain, ?_⟩))
          exact List.mem_singleton_self _
    · exact Or.inl ⟨row, hrow, hreb, hle⟩
  · exact Or.inl h
  · exact Or.inl h

/-! A rebuild that is under way stays so where no batch runs. -/

theorem rebuilding_rebuild {d : ℕ} {c : Catalog} (h : rebuilding c domain = true) :
    rebuilding (c.rebuild d) domain = true := by
  obtain ⟨row, hrow, hreb⟩ := rebuilding_eq_true.mp h
  rw [rebuilding_eq_true, Catalog.rebuild, Catalog.derivations_setRow, hrow]
  split_ifs
  · exact ⟨_, rfl, rfl⟩
  · exact ⟨row, rfl, hreb⟩

theorem rebuilding_prepare {c : Catalog} {w : Worker} (h : rebuilding c domain = true) :
    rebuilding (c.prepare w) domain = true := by
  obtain ⟨row, hrow, hreb⟩ := rebuilding_eq_true.mp h
  rw [rebuilding_eq_true]
  simp only [Catalog.prepare, hrow]
  cases w.registry domain with
  | none => exact ⟨row, rfl, hreb⟩
  | some d =>
    refine ⟨_, rfl, ?_⟩
    simp only [prepareRow]
    split_ifs
    · rfl
    · exact hreb

theorem rebuilding_setAside {c : Catalog} {w : Worker} {f : Failing} {now : ℕ} :
    rebuilding (c.setAside w f now) domain = rebuilding c domain := by
  unfold Catalog.setAside
  split_ifs
  · rw [rebuilding, rebuilding, Catalog.derivations_setRow, Catalog.derivations_touch,
      Catalog.derivations_fail]
    split_ifs
    · cases c.derivations domain <;> rfl
    · rfl
  · rfl
  · rfl

theorem done_of_act {r : Option Report} (hact : act s e = some (t, r))
    (h : x ∈ t.catalog.queued domain ∨ ∃ report, r = some report ∧ report.Done domain x) :
    (P ∨ DoneAt domain x s e) ∨ x ∈ t.catalog.queued domain := by
  rcases h with hq | ⟨report, rfl, hdone⟩
  · exact Or.inr hq
  · exact Or.inl (Or.inr ⟨report, report_eq hact, hdone⟩)

/-- **One event of a rebuild.** The ids it has passed stay finished or queued. -/
theorem passed_step (hreg : Registered s domain) (hx : x ∈ (s.catalog.sources domain).ids)
    (hpassed : Passed s domain x P) (hstep : step s e = some t) :
    Passed t domain x (P ∨ DoneAt domain x s e) := by
  obtain ⟨r, hact⟩ := step_eq_some.mp hstep
  have hpos : 0 < x := (s.catalog.sources domain).positive x hx
  -- What was finished or queued still is.
  have hkept : P ∨ x ∈ s.catalog.queued domain →
      (P ∨ DoneAt domain x s e) ∨ x ∈ t.catalog.queued domain := by
    rintro (hP | hq)
    · exact Or.inl (Or.inl hP)
    · apply done_of_act hact
      refine (act_takes hreg hact hq).imp_right ?_
      rintro ⟨report, hr, hfinished⟩
      exact ⟨report, hr, hfinished.done⟩
  cases e with
  | prepare now =>
    obtain ⟨hnone, hcatalog, hworker, -⟩ := act_prepare hact
    refine ⟨fun hb => hkept (hpassed.cursor ?_), fun f hf => ?_⟩
    · exact (behind_prepare hpos (hcatalog ▸ hb)).1
    · rw [hworker] at hf
      exact nomatch hnone.symm.trans hf
  | step turn =>
    obtain ⟨hfailing, hlimit, htx⟩ := act_step hact
    obtain ⟨hsound, hmarks⟩ := stepTx_sound hlimit hfailing hreg htx
    refine ⟨fun hb => ?_, fun f hf hd hb ha hlt => ?_⟩
    · rcases hsound.passes x hx hb with hb | hrest
      · exact hkept (hpassed.cursor hb)
      · exact done_of_act hact hrest
    · exact hkept (hpassed.cursor (hmarks f hf hd hb (alone_id ha) x hx hlt))
  | setAside now stored =>
    obtain ⟨f, hf, hcatalog, hworker, -⟩ := act_setAside hact
    refine ⟨fun hb => ?_, fun f' hf' => ?_⟩
    · rw [hcatalog] at hb
      cases stored with
      | false => exact hkept (hpassed.cursor hb)
      | true =>
        rcases behind_setAside hb with hb | ⟨hd, hback, halone, hlt | hq⟩
        · exact hkept (hpassed.cursor hb)
        · exact hkept (hpassed.failing f hf hd hback halone hlt)
        · exact Or.inr (hcatalog ▸ hq)
    · rw [hworker] at hf'
      exact nomatch hf'
  | rebuild d =>
    cases hact
    exact ⟨fun hb => hkept (hpassed.cursor (behind_rebuild hpos hb).2),
      fun f hf hd hb ha hlt => hkept (hpassed.failing f hf hd hb ha hlt)⟩
  | write work =>
    cases hact
    refine ⟨fun hb => hkept (hpassed.cursor (hb.congr ?_)),
      fun f hf hd hb ha hlt => hkept (hpassed.failing f hf hd hb ha hlt)⟩
    exact (congrFun derivations_write domain).symm
  | restart registry =>
    cases hact
    exact ⟨fun hb => hkept (hpassed.cursor hb), fun f hf => nomatch hf⟩

/-- A rebuild that begins has passed nothing, when no set-aside of the domain is due. -/
theorem passed_begins (hbegins : Begins s e domain) (hundisturbed : Undisturbed s e) (hpos : 0 < x)
    (hstep : step s e = some t) : Passed t domain x False := by
  obtain ⟨r, hact⟩ := step_eq_some.mp hstep
  cases e with
  | prepare now =>
    obtain ⟨d, hd, hversion⟩ := hbegins
    obtain ⟨hnone, hcatalog, hworker, -⟩ := act_prepare hact
    refine ⟨fun hb => ?_, fun f hf => ?_⟩
    · obtain ⟨row, hrow, hnewer⟩ := (behind_prepare hpos (hcatalog ▸ hb)).2 d hd
      exact absurd (hversion row hrow) hnewer
    · rw [hworker] at hf
      exact nomatch hnone.symm.trans hf
  | rebuild d =>
    cases hact
    refine ⟨fun hb => absurd hbegins.1 (behind_rebuild hpos hb).1, fun f hf hd hb ha _ => ?_⟩
    exact absurd ⟨hb, ha⟩ (hundisturbed f hf (hd.trans hbegins.1.symm))
  | step turn => exact hbegins.elim
  | setAside now stored => exact hbegins.elim
  | write work => exact hbegins.elim
  | restart registry => exact hbegins.elim

/-- **The end of a rebuild.** Whatever event clears the flag, what was passed is finished or queued,
and nothing else is left. -/
theorem ends_step (hreg : Registered s domain) (hx : x ∈ (s.catalog.sources domain).ids)
    (hpassed : Passed s domain x P) (hstep : step s e = some t)
    (hreb : rebuilding s.catalog domain = true) (hcleared : rebuilding t.catalog domain = false) :
    (P ∨ DoneAt domain x s e) ∨ x ∈ t.catalog.queued domain := by
  obtain ⟨r, hact⟩ := step_eq_some.mp hstep
  cases e with
  | prepare now =>
    obtain ⟨-, hcatalog, -, -⟩ := act_prepare hact
    rw [hcatalog, rebuilding_prepare hreb] at hcleared
    cases hcleared
  | step turn =>
    obtain ⟨hfailing, hlimit, htx⟩ := act_step hact
    obtain ⟨hsound, -⟩ := stepTx_sound hlimit hfailing hreg htx
    rcases hsound.ends x hx hreb hcleared with hb | hrest
    · rcases hpassed.cursor hb with hP | hq
      · exact Or.inl (Or.inl hP)
      · apply done_of_act hact
        refine (hsound.takes x hq).imp_right ?_
        rintro ⟨report, hr, hfinished⟩
        exact ⟨report, hr, hfinished.done⟩
    · exact done_of_act hact hrest
  | setAside now stored =>
    obtain ⟨f, -, hcatalog, -, -⟩ := act_setAside hact
    rw [hcatalog] at hcleared
    cases stored with
    | true =>
      rw [if_pos rfl, rebuilding_setAside, hreb] at hcleared
      cases hcleared
    | false =>
      rw [if_neg (by decide), hreb] at hcleared
      cases hcleared
  | rebuild d =>
    cases hact
    rw [rebuilding_rebuild hreb] at hcleared
    cases hcleared
  | write work =>
    cases hact
    rw [rebuilding_congr (congrFun derivations_write domain), hreb] at hcleared
    cases hcleared
  | restart registry =>
    cases hact
    rw [hreb] at hcleared
    cases hcleared

/-! ## Whole runs -/

/-- **A whole rebuild.** From where nothing was passed, every source id that is passed was finished
in the run, or is queued. -/
theorem passed_run (h0 : Passed s domain x False) (hrun : run step s es = some t)
    (hreg : Along step (fun s => Registered s domain) s es)
    (hsource : Along step (fun s => x ∈ (s.catalog.sources domain).ids) s es) :
    Passed t domain x (Happened step (DoneAt domain x) s es) := by
  have heach := hreg.each.and hsource.each
  have hgoal : run step s es = some t ∧
      Passed t domain x (Happened step (DoneAt domain x) s es) := by
    refine run_history (P := fun es t => run step s es = some t ∧
      Passed t domain x (Happened step (DoneAt domain x) s es)) ?_ ?_ hrun heach
    · exact ⟨rfl, h0.mono False.elim⟩
    · rintro es u e v ⟨hbefore, hpassed⟩ ⟨hreg, hx⟩ hstep
      refine ⟨run_concat.mpr ⟨u, hbefore, hstep⟩, (passed_step hreg hx hpassed hstep).mono ?_⟩
      exact (happened_concat hbefore).mpr
  exact hgoal.2

/-- **The second law.** -/
theorem rebuilds_all (h : Each step Undisturbed s es) : RebuildsAll s es := by
  intro before first during last a b u v domain hes ha hb hbegins hu hv hreb hcleared hreg x hsource
  subst hes
  have hfirst : Undisturbed a first := (h.append ha).1
  have hpos : 0 < x := (b.catalog.sources domain).positive x hsource.head
  have hpassed := passed_run (passed_begins hbegins hfirst hpos hb) hu hreg hsource
  have hends := ends_step (hreg.last hu) (hsource.last hu) hpassed hv hreb hcleared
  exact hends.imp_left (happened_concat hu).mpr

/-- **Derived data is never left stale**, in a run in which no rebuild of a domain begins between a
step that failed at an enumerated id of it and the set-aside of that id. -/
theorem never_stale (s : State) (es : List Event) (h : Each step Undisturbed s es) :
    LeavesFinished s es ∧ RebuildsAll s es :=
  ⟨leaves_finished, rebuilds_all h⟩

/-! ## A rebuild between a failure and its set-aside -/

theorem ordered_nil : List.Pairwise (fun a b : Revised ℤ => a.id < b.id) [] := List.Pairwise.nil

/-- A domain with the source ids 1 and 2, built before. -/
def built : State where
  catalog :=
    { dirty := fun _ => ⟨[], ordered_nil⟩
      derivations := fun d =>
        if d = 21 then some { version := 1, rebuilding := false, firstBuild := false } else none
      sources := fun d => if d = 21 then { ids := [1, 2] } else {} }
  worker :=
    { registry := fun d =>
        if d = 21 then
          some { version := 1, backfill := scanIDs, enumerates := enumerates_scanIDs }
        else none }

/-- A turn of the domain whose drain finishes the ids given, or fails. -/
def turnOf (done : Option (List ℤ)) : Event :=
  .step
    { limit := 1, now := 0, candidates := [21], drain := done.map fun done => { done } }

/-- A rebuild in which the drain fails at 2 twice, once in a batch and once by itself. -/
def failedAlone : List Event :=
  [.rebuild 21, .prepare 0, turnOf (some [1]), turnOf none, .setAside 0 true, turnOf none]

theorem never_stale_failing :
    (run step built (failedAlone ++ [.setAside 0 true, turnOf none])).map
        (fun s => (rebuilding s.catalog 21, s.catalog.queued 21)) = some (false, [2]) ∧
      LeavesFinished built (failedAlone ++ [.setAside 0 true, turnOf none]) ∧
      RebuildsAll built (failedAlone ++ [.setAside 0 true, turnOf none]) := by
  refine ⟨by decide +kernel, never_stale built _ ⟨?_, fun _ _ => ?_⟩⟩
  · intro f hf
    cases hf
  · exact ⟨trivial, fun _ _ => ⟨trivial, fun _ _ => ⟨trivial, fun _ _ => ⟨trivial, fun _ _ =>
      ⟨trivial, fun _ _ => ⟨trivial, fun _ _ => ⟨trivial, fun _ _ => trivial⟩⟩⟩⟩⟩⟩⟩

theorem shown {β : Type} {f : State → β} {y : β} (hrun : run step built es = some s)
    (h : (run step built es).map f = some y) : f s = y := by
  rw [hrun] at h
  exact Option.some.inj h

/-- A second rebuild begins before the set-aside of 2, whose cursor it takes: 1 is neither finished
nor queued when it ends. -/
theorem rebuild_skips :
    ¬ ∀ (s : State) (es : List Event), LeavesFinished s es ∧ RebuildsAll s es := by
  intro h
  have hlaw := (h built (failedAlone ++ .rebuild 21 :: ([.setAside 0 true] ++ [turnOf none]))).2
  have hsome : ∀ es, (run step built es).isSome → ∃ t, run step built es = some t :=
    fun es h => Option.isSome_iff_exists.mp h
  obtain ⟨a, ha⟩ := hsome failedAlone (by decide +kernel)
  obtain ⟨b, hb⟩ := hsome (failedAlone ++ [.rebuild 21]) (by decide +kernel)
  obtain ⟨u, hu⟩ := hsome (failedAlone ++ [.rebuild 21] ++ [.setAside 0 true]) (by decide +kernel)
  obtain ⟨v, hv⟩ := hsome (failedAlone ++ [.rebuild 21] ++ [.setAside 0 true] ++ [turnOf none])
    (by decide +kernel)
  have hab : step a (.rebuild 21) = some b := by
    obtain ⟨a', ha', hab⟩ := run_concat.mp hb
    obtain rfl := Option.some.inj (ha.symm.trans ha')
    exact hab
  have hbu : step b (.setAside 0 true) = some u := by
    obtain ⟨b', hb', hbu⟩ := run_concat.mp hu
    obtain rfl := Option.some.inj (hb.symm.trans hb')
    exact hbu
  have huv : step u (turnOf none) = some v := by
    obtain ⟨u', hu', huv⟩ := run_concat.mp hv
    obtain rfl := Option.some.inj (hu.symm.trans hu')
    exact huv
  have hduring : run step b [.setAside 0 true] = some u := run_cons.mpr ⟨u, hbu, rfl⟩
  have halong : ∀ {Q : State → Prop}, Q b → Q u → Along step Q b [.setAside 0 true] :=
    fun hb hu => (along_cons hbu).mpr ⟨hb, hu⟩
  have hsource : (run step built (failedAlone ++ [.rebuild 21])).map
      (fun s => decide ((1 : ℤ) ∈ (s.catalog.sources 21).ids)) = some true := by decide +kernel
  have hsource' : (run step built (failedAlone ++ [.rebuild 21] ++ [.setAside 0 true])).map
      (fun s => decide ((1 : ℤ) ∈ (s.catalog.sources 21).ids)) = some true := by decide +kernel
  rcases hlaw _ _ _ _ a b u v 21 rfl ha hab
      ⟨rfl, shown (f := fun s => (s.catalog.derivations 21).isSome) ha (by decide +kernel)⟩
      hduring huv
      (shown (f := fun s => rebuilding s.catalog 21) hu (by decide +kernel))
      (shown (f := fun s => rebuilding s.catalog 21) hv (by decide +kernel))
      (halong (shown (f := fun s => (s.worker.registry 21).isSome) hb (by decide +kernel))
        (shown (f := fun s => (s.worker.registry 21).isSome) hu (by decide +kernel)))
      1
      (halong (of_decide_eq_true (shown hb hsource)) (of_decide_eq_true (shown hu hsource')))
    with hdone | hqueued
  · -- Neither the set-aside nor the last turn runs a drain.
    rcases (happened_concat hduring).mp hdone with hdone | ⟨r, hr, -⟩
    · rcases (happened_concat (run_nil : run step b [] = some b)).mp hdone with hdone | ⟨r, hr, -⟩
      · exact not_happened_nil hdone
      · have hnone := shown (f := fun s => (report s (.setAside 0 true)).isSome) hb
          (by decide +kernel : _ = some false)
        rw [hr] at hnone
        cases hnone
    · have hnone := shown (f := fun s => (report s (turnOf none)).isSome) hu
        (by decide +kernel : _ = some false)
      rw [hr] at hnone
      cases hnone
  · have hnot := shown (f := fun s => decide ((1 : ℤ) ∈ s.catalog.queued 21)) hv
      (by decide +kernel : _ = some false)
    exact of_decide_eq_false hnot hqueued

end Portico.Derive
