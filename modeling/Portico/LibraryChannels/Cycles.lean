import Portico.Lib.Machine
import Portico.LibraryChannels.Slots

/-!
# Library channels: the cycles of a looping rule

A looping rule walks its pool by sort key and begins again when every candidate was selected. What is
skipped, because it didn't fit or would repeat, stays behind the walk's cursor: it isn't selected in
this cycle any more, and the next one doesn't begin without it. A rule that nothing was skipped for
comes back to every candidate.

## Main definitions

* `Rule.Looping`: the rules this is about
* `Walk.Ready`: a candidate is ahead of the cursor, or all were selected and one is at hand
* `Turn`, `turn`: slots, and generations that go on where the one before stands
* `Fresh`, `Steady`: where runs start, and the condition on their turns

## Main results

* `Sound.turn`: what every turn keeps
* `Steady.turn`: the selections that are left before a candidate comes back
* `rule_cycles`: a looping rule answers just when it is ready, and then comes back to every candidate
-/

namespace Portico.LibraryChannels

open Machine

/-- A looping sequential rule. -/
def Rule.Looping (r : Rule) : Prop := r.mode = .sequential ∧ r.exhaustion = .loop

variable {w : Walk} {r : Rule} {cursor cursor' : RuleCursor} {chance : Chance} {seed : String}
  {c : Candidate} {found : Option Candidate}

/-! ## One attempt -/

theorem firstBy_mem {α : Type*} {before : α → α → Bool} {l : List α} {a : α}
    (h : firstBy before l = some a) : a ∈ l := by
  induction l generalizing a with
  | nil => cases h
  | cons b l ih =>
    unfold firstBy at h
    cases hl : firstBy before l with
    | none =>
      rw [hl] at h
      obtain rfl := Option.some.inj h
      exact List.mem_cons_self
    | some d =>
      rw [hl] at h
      simp only at h
      split_ifs at h with hbefore
      · obtain rfl := Option.some.inj h
        exact List.mem_cons_of_mem _ (ih hl)
      · obtain rfl := Option.some.inj h
        exact List.mem_cons_self

theorem firstBy_eq_none {α : Type*} {before : α → α → Bool} {l : List α} :
    firstBy before l = none ↔ l = [] := by
  cases l with
  | nil => exact iff_of_true rfl rfl
  | cons b l =>
    refine iff_of_false ?_ (List.cons_ne_nil b l)
    unfold firstBy
    cases firstBy before l with
    | none => exact Option.some_ne_none b
    | some d =>
      simp only
      split_ifs <;> simp

theorem Rule.Looping.bag (h : r.Looping) : r.bag = true := by
  unfold Rule.bag
  simp [h.1]

variable (cursor) in
/-- A looping sequential rule walks, unless its episodes are randomized. -/
theorem Rule.Looping.sequential (h : r.Looping) :
    r.sequential cursor = true ∨ r.sequential cursor = false ∧ r.inOrder = false := by
  unfold Rule.sequential Rule.inOrder
  rw [h.1]
  cases r.episodeMode <;> simp

theorem Walk.marathon_mem (h : w.marathon cursor = some c) : c ∈ w.pool ∧ w.admits cursor c = true := by
  unfold Walk.marathon at h
  split_ifs at h
  have hmem := List.mem_filter.mp (firstBy_mem h)
  exact ⟨hmem.1, (Bool.and_eq_true _ _ ▸ hmem.2).1⟩

theorem Walk.proposeCandidate_mem (h : w.proposeCandidate chance seed cursor = some c) :
    c ∈ w.pool ∧ w.admits cursor c = true := by
  unfold Walk.proposeCandidate at h
  obtain ⟨i, -, hi⟩ := List.exists_of_findSome?_eq_some h
  obtain ⟨hget, hok⟩ := Option.filter_eq_some_iff.mp hi
  exact ⟨List.mem_of_getElem? hget, (Bool.and_eq_true _ _ ▸ hok).2⟩

variable (chance seed) in
theorem Walk.countedDraw_spec (hmode : w.rule.mode = .sequential)
    (hwalk : w.rule.sequential cursor = false) (horder : w.rule.inOrder = false) :
    (∀ c, w.countedDraw chance seed cursor = some c → c ∈ w.pool ∧ w.admits cursor c = true) ∧
      (w.countedDraw chance seed cursor = none → ∀ c ∈ w.pool, w.admits cursor c = false) := by
  have hadmits : ∀ c, w.admits cursor c = w.where_ cursor c := by
    intro c
    unfold Walk.admits
    simp [hwalk, horder]
  unfold Walk.countedDraw
  rw [if_neg (by simp [hmode])]
  simp only [horder, Bool.not_false, Bool.true_or, Bool.and_true]
  constructor
  · intro c hc
    obtain ⟨hmem, hwhere⟩ := List.mem_filter.mp (List.mem_of_getElem? hc)
    exact ⟨hmem, (hadmits c).trans hwhere⟩
  · intro hnone c hc
    by_contra hok
    rw [Bool.not_eq_false, hadmits] at hok
    have hin : c ∈ w.pool.filter fun c => w.where_ cursor c := List.mem_filter.mpr ⟨hc, hok⟩
    have hpos := List.length_pos_of_mem hin
    have hlen := List.getElem?_eq_none_iff.mp hnone
    generalize (w.pool.filter fun c => w.where_ cursor c).length = n at hpos hlen
    -- a fraction less than one of the count is an index
    have hfloor : ⌊chance.unit seed cursor.draw * n⌋ < (n : ℤ) := by
      have hcast : (0 : ℚ) < n := by exact_mod_cast hpos
      rw [Int.floor_lt]
      calc chance.unit seed cursor.draw * n
          < 1 * n := mul_lt_mul_of_pos_right (chance.unit_lt seed cursor.draw) hcast
        _ = ((n : ℤ) : ℚ) := by push_cast; ring
    omega

variable (cursor chance seed) in
/-- **One attempt** finds what the rule admits, if there is any. -/
theorem Walk.pick_spec (hr : w.rule.Looping) :
    (∀ c, w.pick chance seed cursor = some c → c ∈ w.pool ∧ w.admits cursor c = true) ∧
      (w.pick chance seed cursor = none → ∀ c ∈ w.pool, w.admits cursor c = false) := by
  unfold Walk.pick
  simp only
  cases hmarathon : w.marathon cursor with
  | some c =>
    rw [Option.some_or]
    refine ⟨fun d hd => ?_, fun hnone => absurd hnone (Option.some_ne_none c)⟩
    obtain rfl := Option.some.inj hd
    exact marathon_mem hmarathon
  | none =>
    rw [Option.none_or]
    rcases hr.sequential cursor with hwalk | ⟨hwalk, horder⟩
    · rw [if_pos hwalk]
      constructor
      · intro c hc
        exact List.mem_filter.mp (firstBy_mem hc)
      · intro hnone c hc
        have hnil := firstBy_eq_none.mp hnone
        exact Bool.eq_false_iff.mpr (List.filter_eq_nil_iff.mp hnil c hc)
    · rw [if_neg (by simp [hwalk])]
      obtain ⟨hsome, hnone⟩ := w.countedDraw_spec chance _ hr.1 hwalk horder
      cases hpropose : w.proposeCandidate chance _ cursor with
      | some c =>
        rw [Option.some_or]
        refine ⟨fun d hd => ?_, fun hnone => absurd hnone (Option.some_ne_none c)⟩
        obtain rfl := Option.some.inj hd
        exact proposeCandidate_mem hpropose
      | none =>
        rw [Option.none_or]
        exact ⟨hsome, hnone⟩

/-! ## A selection -/

/-- The walk finds a candidate: one that may be selected in the cycle, after the last one; or all
were selected in the cycle, and one may be selected in the next. -/
def Walk.Ready (w : Walk) (cursor : RuleCursor) : Prop :=
  (∃ c ∈ w.pool, w.admits cursor c = true) ∨
    w.unused cursor = false ∧ ∃ c ∈ w.pool, w.admits cursor.restart c = true

/-- Some candidate satisfies the duration, repeat and consecutive constraints. -/
def Walk.Fitting (w : Walk) : Prop := ∃ c ∈ w.pool, w.fits c = true

/-- The rule answers: when some candidate fits, one is selected. -/
def Walk.Answers (w : Walk) (chance : Chance) (seed : String) (cursor : RuleCursor) : Prop :=
  w.Fitting → (w.selectCandidate chance seed cursor).2.isSome = true

/-- What the attempts of a looping rule come to: a candidate of this cycle, one of the next, or none
because nothing may be selected. -/
inductive Walk.Outcome (w : Walk) (cursor : RuleCursor) : RuleCursor → Option Candidate → Prop
  | found {c : Candidate} (mem : c ∈ w.pool) (ok : w.admits cursor c = true) :
    Outcome w cursor (w.advance cursor c) (some c)
  | next {c : Candidate} (all : w.unused cursor = false) (mem : c ∈ w.pool)
      (ok : w.admits cursor.restart c = true) :
    Outcome w cursor (w.advance cursor.restart c) (some c)
  | stuck (not : ¬ w.Ready cursor) : Outcome w cursor cursor none
  | restarted (not : ¬ w.Ready cursor) (all : w.unused cursor = false) :
    Outcome w cursor cursor.restart none
  | again (not : ¬ w.Ready cursor) (all : w.unused cursor = false)
      (all' : w.unused cursor.restart = false) : Outcome w cursor cursor.restart.restart none

theorem Walk.attempts_outcome (hr : w.rule.Looping) :
    w.Outcome cursor (w.attempts chance seed 2 cursor).1 (w.attempts chance seed 2 cursor).2 := by
  have hloop : w.rule.exhaustion ≠ .slate := by simp [hr.2]
  obtain ⟨hsome, hnone⟩ := w.pick_spec cursor chance seed hr
  obtain ⟨hsome', hnone'⟩ :=
    w.pick_spec cursor.restart chance seed hr
  rw [attempts]
  cases hpick : w.pick chance seed cursor with
  | some c => exact .found (hsome c hpick).1 (hsome c hpick).2
  | none =>
    have hhere : ¬ ∃ c ∈ w.pool, w.admits cursor c = true := by
      rintro ⟨c, hc, hok⟩
      rw [hnone hpick c hc] at hok
      cases hok
    simp only
    cases hunused : w.unused cursor with
    | true =>
      rw [if_pos rfl]
      refine .stuck ?_
      rintro (h | ⟨h, -⟩)
      · exact hhere h
      · rw [hunused] at h
        cases h
    | false =>
      -- every candidate was selected: the next cycle begins
      rw [if_neg Bool.false_ne_true, if_neg hloop, attempts]
      cases hpick' : w.pick chance seed cursor.restart with
      | some c => exact .next hunused (hsome' c hpick').1 (hsome' c hpick').2
      | none =>
        have hnot : ¬ w.Ready cursor := by
          rintro (h | ⟨-, c, hc, hok⟩)
          · exact hhere h
          · rw [hnone' hpick' c hc] at hok
            cases hok
        simp only
        cases hagain : w.unused cursor.restart with
        | true =>
          rw [if_pos rfl]
          exact .restarted hnot hunused
        | false =>
          rw [if_neg Bool.false_ne_true, if_neg hloop, attempts]
          exact .again hnot hunused hagain

theorem Walk.Outcome.isSome_iff (h : w.Outcome cursor cursor' found) :
    found.isSome = true ↔ w.Ready cursor := by
  cases h with
  | found mem ok => exact iff_of_true rfl (Or.inl ⟨_, mem, ok⟩)
  | next all mem ok => exact iff_of_true rfl (Or.inr ⟨all, _, mem, ok⟩)
  | stuck not => exact iff_of_false Bool.false_ne_true not
  | restarted not => exact iff_of_false Bool.false_ne_true not
  | again not => exact iff_of_false Bool.false_ne_true not

/-- A cursor after attempts is of the same cycle or a later one, and done only if it was before. -/
theorem Walk.Outcome.kept (h : w.Outcome cursor cursor' found) :
    cursor.cycle ≤ cursor'.cycle ∧ cursor'.done = cursor.done := by
  cases h with
  | found => exact ⟨le_rfl, rfl⟩
  | next => exact ⟨Nat.le_succ _, rfl⟩
  | stuck => exact ⟨le_rfl, rfl⟩
  | restarted => exact ⟨Nat.le_succ _, rfl⟩
  | again => exact ⟨(Nat.le_succ _).trans (Nat.le_succ _), rfl⟩

theorem Walk.anchored_cycle (w : Walk) (cursor : RuleCursor) :
    cursor.cycle ≤ (w.anchored cursor).cycle := by
  unfold Walk.anchored
  split_ifs
  · exact Nat.le_succ _
  · exact le_rfl

theorem Walk.anchored_done (h : cursor.done = false) : (w.anchored cursor).done = false := by
  unfold Walk.anchored
  split_ifs
  · rfl
  · exact h

variable (chance seed) in
theorem Walk.selectCandidate_outcome (hr : w.rule.Looping) (hdone : cursor.done = false) :
    ∃ cursor' found, w.selectCandidate chance seed cursor = (some cursor', found) ∧
      w.Outcome (w.anchored cursor) cursor' found := by
  unfold Walk.selectCandidate
  simp only
  rw [if_neg (by simp [anchored_done hdone])]
  exact ⟨_, _, rfl, attempts_outcome hr⟩

/-- **The exact condition.** A looping rule answers just when no candidate fits, or the walk is
ready. -/
theorem Walk.answers_iff (hr : w.rule.Looping) (hdone : cursor.done = false) :
    w.Answers chance seed cursor ↔ (w.Fitting → w.Ready (w.anchored cursor)) := by
  obtain ⟨cursor', found, hselect, houtcome⟩ :=
    w.selectCandidate_outcome chance seed hr hdone
  unfold Walk.Answers
  rw [hselect]
  exact imp_congr_right fun _ => houtcome.isSome_iff

/-! ## Slots -/

/-- The slot, when the rule is asked for a candidate in it: it is the rule's turn, or the rule is the
fallback of the one whose turn it is, and that finds nothing. -/
def callOf (cal : Calendar) (chance : Chance) (r : Rule) (g : Generation) : Option ResolvedBlock :=
  if g.endMS ≤ g.cursor then none
  else
    match currentSlot g cal with
    | .error _ => none
    | .ok slot =>
      match g.config.rule slot.ruleID with
      | none => none
      | some r' =>
        if r'.id = r.id then some slot
        else if (selectFor g chance (.empty g) r' slot).2 = none && slot.fallback = some r.id then
          some slot
        else none

/-- A turn of a channel's schedule: a slot, or a generation that goes on from the one before. -/
inductive Turn
  | slot
  | renew (g : Generation)

/-- What a new generation has of the rule: its cursor, and what was selected in its cycle. -/
def carries (r : Rule) (g g' : Generation) : Bool :=
  g'.config.rule r.id = some r && g'.tables.ruleState r.id = g.tables.ruleState r.id &&
    decide ((g'.tables.used.filter fun u => u.rule = r.id).Perm
      ((g.tables.used.filter g.keepsUse).filter fun u => u.rule = r.id))

def turn (cal : Calendar) (chance : Chance) (r : Rule) (g : Generation) : Turn → Option Generation
  | .slot => if g.phase = .scheduling then (scheduleOne g cal chance).toOption else none
  | .renew g' => if carries r g g' then some g' else none

/-- A generation in which nothing was selected yet for the rule. -/
structure Fresh (r : Rule) (g : Generation) : Prop where
  rule : g.config.rule r.id = some r
  state : g.tables.ruleState r.id = none
  used : ∀ u ∈ g.tables.used, u.rule ≠ r.id

variable {cal : Calendar} {g g' : Generation} {w' : SlotWrites} {writes : SlotWrites}
  {slot block : ResolvedBlock} {r' r'' : Rule} {item cycle : ℕ} {u : Use}

/-! ## What a slot does to a rule -/

theorem id_of_rule {id : String} (h : g.config.rule id = some r) : r.id = id := by
  simpa using List.find?_some h

theorem isUsed_iff {t : Tables} {rule : String} :
    t.isUsed rule item cycle = true ↔ (⟨rule, item, cycle⟩ : Use) ∈ t.used := by
  unfold Tables.isUsed
  rw [List.any_eq_true]
  constructor
  · rintro ⟨u, hu, heq⟩
    simp only [Bool.and_eq_true, decide_eq_true_eq] at heq
    obtain ⟨⟨rfl, rfl⟩, rfl⟩ := heq
    exact hu
  · intro h
    exact ⟨_, h, by simp⟩

theorem mem_markUsed {v : Use} {used : List Use} :
    v ∈ markUsed u used ↔ v = u ∨ v ∈ used ∧ ¬ (v.rule = u.rule ∧ v.item = u.item) := by
  unfold markUsed
  split_ifs with hany
  · rw [List.mem_map]
    constructor
    · rintro ⟨a, ha, rfl⟩
      split_ifs with hkey
      · exact Or.inl rfl
      · exact Or.inr ⟨ha, by simpa using hkey⟩
    · rintro (rfl | ⟨hv, hkey⟩)
      · obtain ⟨a, ha, hkey⟩ := List.any_eq_true.mp hany
        exact ⟨a, ha, if_pos hkey⟩
      · exact ⟨v, hv, if_neg (by simpa using hkey)⟩
  · have hnone : ∀ v ∈ used, ¬ (v.rule = u.rule ∧ v.item = u.item) := by
      simpa using hany
    rw [List.mem_append, List.mem_singleton]
    constructor
    · rintro (hv | rfl)
      · exact Or.inr ⟨hv, hnone v hv⟩
      · exact Or.inl rfl
    · rintro (rfl | ⟨hv, -⟩)
      · exact Or.inr rfl
      · exact Or.inl hv

/-- What a slot's writes say of a rule, so far. -/
structure Fine (r : Rule) (g : Generation) (writes : SlotWrites) : Prop where
  done : (writes.ruleCursor g.tables r.id).done = false
  cycle : (g.tables.readRuleCursor r.id).cycle ≤ (writes.ruleCursor g.tables r.id).cycle
  used : ∀ u, writes.used = some u → u.rule = r.id →
    u.cycle ≤ (writes.ruleCursor g.tables r.id).cycle ∧ (writes.cursorOf r.id).isSome = true

theorem ruleCursor_congr (h : w'.cursorOf r.id = writes.cursorOf r.id) :
    w'.ruleCursor g.tables r.id = writes.ruleCursor g.tables r.id := by
  unfold SlotWrites.ruleCursor
  rw [h]

variable (chance g writes block) in
theorem selectFor_of_ne (h : r'.id ≠ r.id) :
    (selectFor g chance writes r' block).1.cursorOf r.id = writes.cursorOf r.id ∧
      ((selectFor g chance writes r' block).1.used = writes.used ∨
        ∃ u, (selectFor g chance writes r' block).1.used = some u ∧ u.rule = r'.id) := by
  unfold selectFor
  obtain ⟨cursor, found⟩ := (walkFor g r' block).selectCandidate chance g.key.seed
    (writes.ruleCursor g.tables r'.id)
  constructor
  · unfold SlotWrites.cursorOf
    cases cursor with
    | none => rfl
    | some k => simp [h]
  · cases found with
    | none => exact Or.inl rfl
    | some c =>
      cases cursor with
      | none => exact Or.inl rfl
      | some k => exact Or.inr ⟨_, rfl, rfl⟩

variable (chance g writes block) in
theorem selectFor_self (hr : r.Looping) (hdone : (writes.ruleCursor g.tables r.id).done = false) :
    ∃ cursor' found,
      (walkFor g r block).selectCandidate chance g.key.seed (writes.ruleCursor g.tables r.id) =
          (some cursor', found) ∧
        (walkFor g r block).Outcome
          ((walkFor g r block).anchored (writes.ruleCursor g.tables r.id)) cursor' found ∧
        (selectFor g chance writes r block).1.cursorOf r.id = some cursor' ∧
        (selectFor g chance writes r block).1.used =
          (found.map fun c => ⟨r.id, c.item, cursor'.cycle⟩).or writes.used ∧
        (selectFor g chance writes r block).2 = found := by
  obtain ⟨cursor', found, hselect, houtcome⟩ :=
    (walkFor g r block).selectCandidate_outcome chance g.key.seed hr hdone
  refine ⟨cursor', found, hselect, houtcome, ?_⟩
  unfold selectFor
  rw [hselect]
  refine ⟨?_, ?_, rfl⟩
  · unfold SlotWrites.cursorOf
    simp
  · cases found <;> rfl

variable (chance block) in
theorem Fine.selectFor (h : Fine r g writes) (hr : r.Looping) (hrule : g.config.rule r.id = some r)
    (hrule' : g.config.rule r'.id = some r') : Fine r g (selectFor g chance writes r' block).1 := by
  by_cases hid : r'.id = r.id
  · -- it is the rule itself
    obtain rfl : r' = r := Option.some.inj ((hid ▸ hrule').symm.trans hrule)
    obtain ⟨cursor', found, -, houtcome, hcursor, hused, -⟩ :=
      selectFor_self chance g writes block hr h.done
    obtain ⟨hcycle, hdone⟩ := houtcome.kept
    have hanchored := (walkFor g r' block).anchored_cycle (writes.ruleCursor g.tables r'.id)
    have hread : (LibraryChannels.selectFor g chance writes r' block).1.ruleCursor g.tables r'.id =
        cursor' := by
      unfold SlotWrites.ruleCursor
      rw [hcursor, Option.getD_some]
    refine ⟨?_, ?_, ?_⟩
    · rw [hread, hdone]
      exact Walk.anchored_done h.done
    · rw [hread]
      exact h.cycle.trans (hanchored.trans hcycle)
    · rw [hread, hused, hcursor]
      intro u hu hur
      refine ⟨?_, rfl⟩
      cases found with
      | none => exact (h.used u hu hur).1.trans (hanchored.trans hcycle)
      | some c =>
        obtain rfl := Option.some.inj hu
        exact le_rfl
  · obtain ⟨hcursor, hused⟩ := selectFor_of_ne chance g writes block hid
    have hread := ruleCursor_congr (g := g) hcursor
    refine ⟨?_, ?_, ?_⟩
    · rw [hread]
      exact h.done
    · rw [hread]
      exact h.cycle
    · rw [hread, hcursor]
      intro u hu hur
      rcases hused with hused | ⟨v, hv, hvr⟩
      · exact h.used u (hused ▸ hu) hur
      · obtain rfl := Option.some.inj (hv.symm.trans hu)
        exact absurd (hvr.symm.trans hur) hid

theorem selectSlot_cases (h : selectSlot g chance r' slot = .ok (writes, r, found)) :
    (selectFor g chance (.empty g) r' slot = (writes, found) ∧ r = r' ∧
        (found = none → slot.fallback = none)) ∨
      ∃ id, (selectFor g chance (.empty g) r' slot).2 = none ∧ slot.fallback = some id ∧
        g.config.rule id = some r ∧
        selectFor g chance (selectFor g chance (.empty g) r' slot).1 r slot = (writes, found) := by
  unfold selectSlot at h
  rcases hfirst : selectFor g chance (.empty g) r' slot with ⟨w, first⟩
  rw [hfirst] at h
  cases first with
  | some c =>
    obtain ⟨rfl, rfl, rfl⟩ : w = writes ∧ r' = r ∧ some c = found := by simpa using h
    exact Or.inl ⟨rfl, rfl, fun h => nomatch h⟩
  | none =>
    cases hfallback : slot.fallback with
    | none =>
      rw [hfallback] at h
      obtain ⟨rfl, rfl, rfl⟩ : w = writes ∧ r' = r ∧ none = found := by simpa using h
      exact Or.inl ⟨rfl, rfl, fun _ => rfl⟩
    | some id =>
      rw [hfallback] at h
      obtain ⟨r'', hr'', heq⟩ := exists_of_map_eq_ok h
      obtain ⟨rfl, rfl, rfl⟩ :
          (selectFor g chance w r'' slot).1 = writes ∧ r'' = r ∧
            (selectFor g chance w r'' slot).2 = found := by simpa using heq
      exact Or.inr ⟨id, rfl, rfl, require_eq_ok.mp hr'', rfl⟩

theorem readRuleCursor_applySlot (h : applySlot g writes = .ok g') (rule : String) :
    g'.tables.readRuleCursor rule = writes.ruleCursor g.tables rule := by
  obtain ⟨entries, -, rfl⟩ := applySlot_cases h
  exact Option.getD_or

theorem mem_used_applySlot (h : applySlot g writes = .ok g') :
    u ∈ g'.tables.used ↔ match writes.used with
      | none => u ∈ g.tables.used
      | some v => u = v ∨ u ∈ g.tables.used ∧ ¬ (u.rule = v.rule ∧ u.item = v.item) := by
  obtain ⟨entries, -, rfl⟩ := applySlot_cases h
  cases writes.used with
  | none => exact Iff.rfl
  | some v => exact mem_markUsed

/-! ## What every turn keeps -/

/-- A generation's rows are sound for a rule: it isn't done, and nothing was selected in a cycle to
come. -/
structure Sound (r : Rule) (g : Generation) : Prop where
  rule : g.config.rule r.id = some r
  done : (g.tables.readRuleCursor r.id).done = false
  behind : ∀ u ∈ g.tables.used, u.rule = r.id → u.cycle ≤ (g.tables.readRuleCursor r.id).cycle
  begun : ∀ u ∈ g.tables.used, u.rule = r.id → (g.tables.ruleState r.id).isSome = true

theorem Fresh.sound (h : Fresh r g) : Sound r g := by
  refine ⟨h.rule, ?_, fun u hu hur => absurd hur (h.used u hu),
    fun u hu hur => absurd hur (h.used u hu)⟩
  unfold Tables.readRuleCursor
  rw [h.state]
  rfl

theorem Sound.fine (h : Sound r g) : Fine r g (.empty g) :=
  ⟨h.done, le_rfl, fun _ hu => nomatch hu⟩

theorem Sound.selectSlot (h : Sound r g) (hr : r.Looping) {id : String}
    (hrule : g.config.rule id = some r')
    (hselect : selectSlot g chance r' slot = .ok (writes, r'', found)) : Fine r g writes := by
  have hfirst := h.fine.selectFor chance slot hr h.rule
    (id_of_rule hrule ▸ hrule)
  rcases selectSlot_cases hselect with ⟨heq, -, -⟩ | ⟨id', -, -, hrule', heq⟩
  · rw [heq] at hfirst
    exact hfirst
  · have hsecond := hfirst.selectFor chance slot hr h.rule
      (id_of_rule hrule' ▸ hrule')
    rw [heq] at hsecond
    exact hsecond

theorem Fine.applySlot (h : Fine r g writes) (hs : Sound r g)
    (happly : applySlot g writes = .ok g') : Sound r g' := by
  have hcursor := readRuleCursor_applySlot happly r.id
  -- a used row of the rule was there before, or is the slot's mark
  have hcases : ∀ u ∈ g'.tables.used, u ∈ g.tables.used ∨ writes.used = some u := by
    intro u hu
    rw [mem_used_applySlot happly] at hu
    cases hused : writes.used with
    | none =>
      rw [hused] at hu
      exact Or.inl hu
    | some v =>
      rw [hused] at hu
      rcases hu with rfl | ⟨hu, -⟩
      · exact Or.inr rfl
      · exact Or.inl hu
  have hstate : g'.tables.ruleState r.id = (writes.cursorOf r.id).or (g.tables.ruleState r.id) := by
    obtain ⟨entries, -, rfl⟩ := applySlot_cases happly
    rfl
  refine ⟨?_, hcursor ▸ h.done, ?_, ?_⟩
  · obtain ⟨entries, -, rfl⟩ := applySlot_cases happly
    exact hs.rule
  · rw [hcursor]
    intro u hu hur
    rcases hcases u hu with hu | hused
    · exact (hs.behind u hu hur).trans h.cycle
    · exact (h.used u hused hur).1
  · rw [hstate, Option.isSome_or]
    intro u hu hur
    rcases hcases u hu with hu | hused
    · rw [hs.begun u hu hur, Bool.or_true]
    · rw [(h.used u hused hur).2, Bool.true_or]

theorem Sound.scheduleOne (h : Sound r g) (hr : r.Looping)
    (hslot : scheduleOne g cal chance = .ok g') : Sound r g' := by
  obtain ⟨writes, hplan, happly⟩ := scheduleOne_cases hslot
  rcases planSlot_cases hplan with ⟨-, rfl⟩ |
    ⟨-, slot, r', w', r'', found, v, -, hrule, hselect, -, rfl⟩
  · have hfine : Fine r g { SlotWrites.empty g with phase := .validating } :=
      ⟨h.done, le_rfl, fun _ hu => nomatch hu⟩
    exact hfine.applySlot h happly
  · have hfine := h.selectSlot hr hrule hselect
    have hfine' : Fine r g { w' with
        entry := some v
        cursor := v.endMS
        phase := if g.endMS ≤ v.endMS then .validating else g.phase } :=
      ⟨hfine.done, hfine.cycle, hfine.used⟩
    exact hfine'.applySlot h happly

theorem carries_spec (h : carries r g g' = true) :
    g'.config.rule r.id = some r ∧ g'.tables.ruleState r.id = g.tables.ruleState r.id ∧
      ∀ u, u.rule = r.id → (u ∈ g'.tables.used ↔ u ∈ g.tables.used ∧ g.keepsUse u = true) := by
  unfold carries at h
  simp only [Bool.and_eq_true, decide_eq_true_eq] at h
  obtain ⟨⟨hrule, hstate⟩, hperm⟩ := h
  refine ⟨hrule, hstate, fun u hur => ?_⟩
  have hmem := hperm.mem_iff (a := u)
  simpa [List.mem_filter, hur] using hmem

/-- **Every turn keeps the rows sound.** -/
theorem Sound.turn (h : Sound r g) (hr : r.Looping) {e : Turn}
    (ht : turn cal chance r g e = some g') : Sound r g' := by
  cases e with
  | slot =>
    simp only [LibraryChannels.turn] at ht
    split_ifs at ht
    cases hslot : LibraryChannels.scheduleOne g cal chance with
    | error f =>
      rw [hslot] at ht
      cases ht
    | ok g'' =>
      rw [hslot] at ht
      obtain rfl := Option.some.inj ht
      exact h.scheduleOne hr hslot
  | renew g'' =>
    simp only [LibraryChannels.turn] at ht
    split_ifs at ht with hcarries
    obtain rfl := Option.some.inj ht
    obtain ⟨hrule, hstate, hused⟩ := carries_spec hcarries
    have hcursor : g''.tables.readRuleCursor r.id = g.tables.readRuleCursor r.id := by
      unfold Tables.readRuleCursor
      rw [hstate]
    refine ⟨hrule, hcursor ▸ h.done, fun u hu hur => ?_, fun u hu hur => ?_⟩
    · rw [hcursor]
      exact h.behind u ((hused u hur).mp hu).1 hur
    · rw [hstate]
      exact h.begun u ((hused u hur).mp hu).1 hur

/-! ## Coming back -/

/-- A turn in which the rule can go on: when it is asked, it is ready, and its block doesn't begin
its cycle again; and a generation that goes on has its pool. -/
def Steady (cal : Calendar) (chance : Chance) (r : Rule) (g : Generation) : Turn → Prop
  | .slot => ∀ block, callOf cal chance r g = some block →
      (walkFor g r block).anchored (g.tables.readRuleCursor r.id) = g.tables.readRuleCursor r.id ∧
        (walkFor g r block).Ready (g.tables.readRuleCursor r.id)
  | .renew g' => ((g'.tables.pool r.id).map Candidate.item).Perm
      ((g.tables.pool r.id).map Candidate.item)

/-- A turn in which the rule is asked. -/
def called (cal : Calendar) (chance : Chance) (r : Rule) (g : Generation) : Turn → Bool
  | .slot => (callOf cal chance r g).isSome
  | .renew _ => false

/-- A turn in which the rule selects an item. -/
def Selects (cal : Calendar) (chance : Chance) (r : Rule) (item : ℕ) (g : Generation) (e : Turn) :
    Prop :=
  e = .slot ∧ ∃ block c, callOf cal chance r g = some block ∧ c.item = item ∧
    ((walkFor g r block).selectCandidate chance g.key.seed (g.tables.readRuleCursor r.id)).2 = some c

/-- The items of the rule's pool. -/
def items (r : Rule) (g : Generation) : List ℕ := (g.tables.pool r.id).map Candidate.item

/-- An item was selected in the rule's cycle. -/
def usedNow (r : Rule) (g : Generation) (item : ℕ) : Bool :=
  g.tables.isUsed r.id item (g.tables.readRuleCursor r.id).cycle

/-- How many selections are left, at most, before an item comes back. -/
def turnsLeft (r : Rule) (item : ℕ) (g : Generation) : ℕ :=
  ((items r g).filter fun i => !usedNow r g i).length +
    if usedNow r g item then (items r g).length else 0

theorem turnsLeft_lt (h : item ∈ items r g) : turnsLeft r item g < 2 * (items r g).length := by
  have hpos := List.length_pos_of_mem h
  have hle := List.length_filter_le (fun i => !usedNow r g i) (items r g)
  unfold turnsLeft
  split_ifs with hused
  · have hlt : ((items r g).filter fun i => !usedNow r g i).length < (items r g).length := by
      apply List.length_filter_lt_length_iff_exists.mpr
      exact ⟨item, h, by simp [hused]⟩
    omega
  · omega

theorem uncalled (hslot : LibraryChannels.scheduleOne g cal chance = .ok g')
    (hcall : callOf cal chance r g = none) :
    g'.tables.readRuleCursor r.id = g.tables.readRuleCursor r.id ∧
      ∀ u, u.rule = r.id → (u ∈ g'.tables.used ↔ u ∈ g.tables.used) := by
  obtain ⟨writes, hplan, happly⟩ := scheduleOne_cases hslot
  -- another rule's writes
  suffices hother : writes.cursorOf r.id = none ∧ ∀ u, writes.used = some u → u.rule ≠ r.id by
    refine ⟨?_, fun u hur => ?_⟩
    · rw [readRuleCursor_applySlot happly, SlotWrites.ruleCursor, hother.1, Option.getD_none]
    rw [mem_used_applySlot happly]
    cases hused : writes.used with
    | none => exact Iff.rfl
    | some v =>
      have hv := hother.2 v hused
      constructor
      · rintro (rfl | ⟨hu, -⟩)
        · exact absurd hur hv
        · exact hu
      · intro hu
        exact Or.inr ⟨hu, fun hkey => hv (hkey.1.symm.trans hur)⟩
  rcases planSlot_cases hplan with ⟨-, rfl⟩ |
    ⟨hend, slot, r', w', r'', found, v, hcurrent, hrule, hselect, -, rfl⟩
  · exact ⟨rfl, fun _ hu => nomatch hu⟩
  · unfold callOf at hcall
    rw [if_neg (not_le.mpr hend), hcurrent] at hcall
    simp only [hrule] at hcall
    split_ifs at hcall with hid hfallback
    have hfirst := selectFor_of_ne chance g (.empty g) slot hid
    change w'.cursorOf r.id = none ∧ ∀ u, w'.used = some u → u.rule ≠ r.id
    rcases selectSlot_cases hselect with ⟨heq, -, -⟩ | ⟨id', hnone, hback, hrule', heq⟩
    · rw [heq] at hfirst
      refine ⟨hfirst.1, fun u hu => ?_⟩
      rcases hfirst.2 with hnone | ⟨v, hv, hvr⟩
      · rw [hnone] at hu
        cases hu
      · obtain rfl := Option.some.inj (hv.symm.trans hu)
        rwa [hvr]
    · have hid' : r''.id ≠ r.id := by
        rintro hsame
        apply hfallback
        rw [id_of_rule hrule'] at hsame
        simp [hnone, hback, hsame]
      have hsecond := selectFor_of_ne chance g
        (selectFor g chance (.empty g) r' slot).1 slot hid'
      rw [heq] at hsecond
      refine ⟨hsecond.1.trans hfirst.1, fun u hu => ?_⟩
      rcases hsecond.2 with hsame | ⟨v, hv, hvr⟩
      · rw [hsame] at hu
        rcases hfirst.2 with hnone | ⟨v, hv, hvr⟩
        · rw [hnone] at hu
          cases hu
        · obtain rfl := Option.some.inj (hv.symm.trans hu)
          rwa [hvr]
      · obtain rfl := Option.some.inj (hv.symm.trans hu)
        rwa [hvr]

/-- The last selection of a slot that asks the rule is the rule's, from its cursor. -/
theorem Sound.lastCall (h : Sound r g) (hplan : planSlot g cal chance = .ok writes)
    (hcall : callOf cal chance r g = some block)
    (hfound : (selectFor g chance (.empty g) r block).2.isSome = true) :
    ∃ before, before.cursorOf r.id = none ∧
      writes.cursorOf r.id = (selectFor g chance before r block).1.cursorOf r.id ∧
      writes.used = (selectFor g chance before r block).1.used := by
  unfold callOf at hcall
  rcases planSlot_cases hplan with ⟨hend, -⟩ |
    ⟨hend, slot, r', w', r'', found, v, hcurrent, hrule, hselect, -, rfl⟩
  · rw [if_pos hend] at hcall
    cases hcall
  · rw [if_neg (not_le.mpr hend), hcurrent] at hcall
    simp only [hrule] at hcall
    split_ifs at hcall with hid hfallback
    · -- it is the rule's turn
      obtain rfl := Option.some.inj hcall
      obtain rfl : r' = r := by
        rw [← id_of_rule hrule, hid, h.rule] at hrule
        exact (Option.some.inj hrule).symm
      rcases selectSlot_cases hselect with ⟨heq, -, -⟩ | ⟨id', hnone, -⟩
      · exact ⟨.empty g, rfl, by rw [heq]; rfl, by rw [heq]⟩
      · rw [hnone] at hfound
        cases hfound
    · -- it is the fallback of a rule that finds nothing
      obtain rfl := Option.some.inj hcall
      simp only [Bool.and_eq_true, decide_eq_true_eq] at hfallback
      obtain ⟨hnone, hback⟩ := hfallback
      have hfirst := selectFor_of_ne chance g (.empty g) slot hid
      rcases selectSlot_cases hselect with ⟨heq, -, hno⟩ | ⟨id', -, hback', hrule', heq⟩
      · rw [heq] at hnone
        rw [hno hnone] at hback
        cases hback
      · obtain rfl := Option.some.inj (hback.symm.trans hback')
        obtain rfl := Option.some.inj (h.rule.symm.trans hrule')
        exact ⟨(selectFor g chance (.empty g) r' slot).1, hfirst.1, by rw [heq]; rfl, by rw [heq]⟩

/-- A slot that asks the rule when it is ready gets a candidate of it. -/
theorem Sound.called (h : Sound r g) (hr : r.Looping)
    (hslot : LibraryChannels.scheduleOne g cal chance = .ok g')
    (hcall : callOf cal chance r g = some block)
    (hanchored : (walkFor g r block).anchored (g.tables.readRuleCursor r.id) =
      g.tables.readRuleCursor r.id)
    (hready : (walkFor g r block).Ready (g.tables.readRuleCursor r.id)) :
    ∃ c, ((walkFor g r block).selectCandidate chance g.key.seed
          (g.tables.readRuleCursor r.id)).2 = some c ∧
      (walkFor g r block).Outcome (g.tables.readRuleCursor r.id)
        (g'.tables.readRuleCursor r.id) (some c) ∧
      ∀ u, u ∈ g'.tables.used ↔
        u = ⟨r.id, c.item, (g'.tables.readRuleCursor r.id).cycle⟩ ∨
          u ∈ g.tables.used ∧ ¬ (u.rule = r.id ∧ u.item = c.item) := by
  obtain ⟨writes, hplan, happly⟩ := scheduleOne_cases hslot
  -- whatever the writes before are, the selection is the one from the rule's cursor
  have hself : ∀ before : SlotWrites, before.cursorOf r.id = none → ∃ c cursor',
        (walkFor g r block).selectCandidate chance g.key.seed (g.tables.readRuleCursor r.id) =
            (some cursor', some c) ∧
          (walkFor g r block).Outcome (g.tables.readRuleCursor r.id) cursor' (some c) ∧
          (selectFor g chance before r block).1.cursorOf r.id = some cursor' ∧
          (selectFor g chance before r block).1.used = some ⟨r.id, c.item, cursor'.cycle⟩ ∧
          (selectFor g chance before r block).2 = some c := by
    intro before hnone
    have hbefore : before.ruleCursor g.tables r.id = g.tables.readRuleCursor r.id := by
      rw [SlotWrites.ruleCursor, hnone, Option.getD_none]
    obtain ⟨cursor', found, hselect, houtcome, hcursor, hused, hfound⟩ :=
      selectFor_self chance g before block hr
        (hbefore ▸ h.done)
    rw [hbefore, hanchored] at houtcome
    rw [hbefore] at hselect
    obtain ⟨c, rfl⟩ := Option.isSome_iff_exists.mp (houtcome.isSome_iff.mpr hready)
    exact ⟨c, cursor', hselect, houtcome, hcursor, hused, hfound⟩
  obtain ⟨c₀, -, -, -, -, -, hfound⟩ := hself (.empty g) rfl
  obtain ⟨before, hbefore, hcursor, hused⟩ :=
    h.lastCall hplan hcall (by rw [hfound]; rfl)
  obtain ⟨c, cursor', hselect, houtcome, hcursor', hused', -⟩ := hself before hbefore
  have hread : g'.tables.readRuleCursor r.id = cursor' := by
    rw [readRuleCursor_applySlot happly, SlotWrites.ruleCursor, hcursor.trans hcursor',
      Option.getD_some]
  refine ⟨c, by rw [hselect], by rw [hread]; exact houtcome, fun u => ?_⟩
  rw [mem_used_applySlot happly, hused.trans hused', hread]

theorem pool_scheduleOne (hslot : scheduleOne g cal chance = .ok g') :
    g'.tables.pool = g.tables.pool := by
  obtain ⟨writes, -, happly⟩ := scheduleOne_cases hslot
  obtain ⟨entries, -, rfl⟩ := applySlot_cases happly
  rfl

theorem usedNow_iff : usedNow r g item = true ↔
    (⟨r.id, item, (g.tables.readRuleCursor r.id).cycle⟩ : Use) ∈ g.tables.used := isUsed_iff

theorem Walk.admits_unused (hr : w.rule.Looping) (h : w.admits cursor c = true) :
    w.isUsed cursor c = false := by
  unfold Walk.admits Walk.where_ at h
  simp only [Bool.and_eq_true] at h
  simpa [hr.bag] using h.1.1.1

/-- **A selection** that isn't of an item brings it nearer. -/
theorem Sound.turnsLeft_called (h : Sound r g) (hr : r.Looping)
    (hpool : g'.tables.pool = g.tables.pool) (hc : c.item ≠ item) (hmem : item ∈ items r g)
    (houtcome : (walkFor g r block).Outcome (g.tables.readRuleCursor r.id)
      (g'.tables.readRuleCursor r.id) (some c))
    (hused : ∀ u, u ∈ g'.tables.used ↔
      u = ⟨r.id, c.item, (g'.tables.readRuleCursor r.id).cycle⟩ ∨
        u ∈ g.tables.used ∧ ¬ (u.rule = r.id ∧ u.item = c.item)) :
    turnsLeft r item g' + 1 ≤ turnsLeft r item g := by
  have hitems : items r g' = items r g := by
    unfold items
    rw [hpool]
  have hused' : ∀ i, usedNow r g' i = true ↔ i = c.item ∨
      (⟨r.id, i, (g'.tables.readRuleCursor r.id).cycle⟩ : Use) ∈ g.tables.used ∧ i ≠ c.item := by
    intro i
    rw [usedNow_iff, hused]
    simp
  unfold turnsLeft
  rw [hitems]
  generalize hk : g'.tables.readRuleCursor r.id = k at houtcome hused'
  cases houtcome with
  | found mem ok =>
    -- one less is left in the cycle
    have hfree : usedNow r g c.item = false := Walk.admits_unused hr ok
    have hsame : ∀ i, usedNow r g' i = true ↔ i = c.item ∨ usedNow r g i = true ∧ i ≠ c.item := by
      intro i
      rw [hused', usedNow_iff]
      rfl
    have hnow : usedNow r g' item = usedNow r g item := by
      rw [Bool.eq_iff_iff, hsame]
      simp [hc.symm]
    have hfilter : (items r g).filter (fun i => !usedNow r g' i) =
        ((items r g).filter fun i => !usedNow r g i).filter fun i => i ≠ c.item := by
      rw [List.filter_filter]
      apply List.filter_congr
      intro i _
      by_cases heq : i = c.item
      · simp [heq, (hsame c.item).mpr (Or.inl rfl)]
      · have hi : usedNow r g' i = usedNow r g i := by
          rw [Bool.eq_iff_iff, hsame]
          simp [heq]
        simp [hi, heq]
    have hlt : ((items r g).filter fun i => !usedNow r g' i).length <
        ((items r g).filter fun i => !usedNow r g i).length := by
      rw [hfilter]
      apply List.length_filter_lt_length_iff_exists.mpr
      refine ⟨c.item, List.mem_filter.mpr ⟨List.mem_map_of_mem mem, by simp [hfree]⟩, by simp⟩
    rw [hnow]
    omega
  | next all mem ok =>
    -- a cycle ended: every item had been selected in it
    have hall : ∀ i ∈ items r g, usedNow r g i = true := by
      intro i hi
      obtain ⟨d, hd, rfl⟩ := List.mem_map.mp hi
      unfold Walk.unused at all
      have hused : (walkFor g r block).isUsed (g.tables.readRuleCursor r.id) d = true := by
        simpa using List.any_eq_false.mp all d hd
      exact hused
    have hnew : ∀ i, usedNow r g' i = true ↔ i = c.item := by
      intro i
      rw [hused']
      constructor
      · rintro (hi | ⟨hi, -⟩)
        · exact hi
        · -- nothing was selected in the cycle that begins
          have hle : (g.tables.readRuleCursor r.id).cycle + 1 ≤
              (g.tables.readRuleCursor r.id).cycle := h.behind _ hi rfl
          omega
      · exact Or.inl
    have hitem : usedNow r g' item = false := by
      rw [← Bool.not_eq_true, hnew]
      exact hc.symm
    have hlt : ((items r g).filter fun i => !usedNow r g' i).length < (items r g).length := by
      apply List.length_filter_lt_length_iff_exists.mpr
      exact ⟨c.item, List.mem_map_of_mem mem, by simp [(hnew c.item).mpr rfl]⟩
    rw [hitem, if_neg Bool.false_ne_true, if_pos (hall item hmem)]
    omega

theorem turnsLeft_congr (hitems : (items r g').Perm (items r g))
    (hused : ∀ i, usedNow r g' i = usedNow r g i) :
    turnsLeft r item g' = turnsLeft r item g := by
  have hnow : (fun i => !usedNow r g' i) = fun i => !usedNow r g i := by
    funext i
    rw [hused]
  unfold turnsLeft
  rw [hused, hnow, (hitems.filter _).length_eq, hitems.length_eq]

/-- **Every steady turn** selects an item or brings it nearer, when it is a turn of the rule. -/
theorem Steady.turn (h : Sound r g) (hr : r.Looping) {e : Turn} (hmem : item ∈ items r g)
    (hsteady : Steady cal chance r g e) (ht : turn cal chance r g e = some g') :
    Selects cal chance r item g e ∨
      (Sound r g' ∧ item ∈ items r g') ∧
        turnsLeft r item g' + (LibraryChannels.called cal chance r g e).toNat ≤
          turnsLeft r item g := by
  have hsound := h.turn hr ht
  cases e with
  | slot =>
    simp only [LibraryChannels.turn] at ht
    split_ifs at ht
    cases hslot : LibraryChannels.scheduleOne g cal chance with
    | error f =>
      rw [hslot] at ht
      cases ht
    | ok g'' =>
      rw [hslot] at ht
      obtain rfl := Option.some.inj ht
      have hpool := pool_scheduleOne hslot
      have hitems : items r g'' = items r g := by
        unfold items
        rw [hpool]
      cases hcall : callOf cal chance r g with
      | none =>
        obtain ⟨hcursor, hused⟩ := uncalled hslot hcall
        refine Or.inr ⟨⟨hsound, hitems ▸ hmem⟩, ?_⟩
        have hcalled : LibraryChannels.called cal chance r g .slot = false := by
          unfold LibraryChannels.called
          rw [hcall]
          rfl
        rw [hcalled, turnsLeft_congr (List.Perm.of_eq hitems)]
        · rfl
        · intro i
          rw [Bool.eq_iff_iff, usedNow_iff, usedNow_iff, hcursor]
          exact hused _ rfl
      | some block =>
        obtain ⟨hanchored, hready⟩ := hsteady block hcall
        obtain ⟨c, hselect, houtcome, hused⟩ := h.called hr hslot hcall hanchored hready
        by_cases hc : c.item = item
        · exact Or.inl ⟨rfl, block, c, hcall, hc, hselect⟩
        · refine Or.inr ⟨⟨hsound, hitems ▸ hmem⟩, ?_⟩
          have hcalled : LibraryChannels.called cal chance r g .slot = true := by
            unfold LibraryChannels.called
            rw [hcall]
            rfl
          rw [hcalled]
          exact h.turnsLeft_called hr hpool hc hmem houtcome hused
  | renew g'' =>
    simp only [LibraryChannels.turn] at ht
    split_ifs at ht with hcarries
    obtain rfl := Option.some.inj ht
    obtain ⟨-, hstate, hused⟩ := carries_spec hcarries
    have hcursor : g''.tables.readRuleCursor r.id = g.tables.readRuleCursor r.id := by
      unfold Tables.readRuleCursor
      rw [hstate]
    refine Or.inr ⟨⟨hsound, hsteady.mem_iff.mpr hmem⟩, le_of_eq ?_⟩
    change turnsLeft r item g'' = turnsLeft r item g
    apply turnsLeft_congr hsteady
    intro i
    rw [Bool.eq_iff_iff, usedNow_iff, usedNow_iff, hcursor, hused _ rfl, and_iff_left_iff_imp]
    -- what is of the current cycle is kept
    intro hi
    obtain ⟨k, hk⟩ := Option.isSome_iff_exists.mp (h.begun _ hi rfl)
    unfold Generation.keepsUse Tables.readRuleCursor
    simp [hk]

/-- **The cycles of a looping rule.** In every state that turns from a fresh generation come to, the
rule answers just when no candidate fits or the walk is ready; and from there, in a run whose turns
are all steady, each candidate is selected by the time the rule was asked twice for each one. -/
theorem rule_cycles (cal : Calendar) (chance : Chance) (hr : r.Looping) {start : Generation}
    (hfresh : Fresh r start) {es : List Turn} (hrun : run (turn cal chance r) start es = some g) :
    (∀ block, (walkFor g r block).Answers chance g.key.seed (g.tables.readRuleCursor r.id) ↔
        ((walkFor g r block).Fitting → (walkFor g r block).Ready
          ((walkFor g r block).anchored (g.tables.readRuleCursor r.id)))) ∧
      ∀ es' g', run (turn cal chance r) g es' = some g' →
        Each (turn cal chance r) (Steady cal chance r) g es' →
          2 * (items r g).length ≤ count (turn cal chance r) (called cal chance r) g es' →
            ∀ item ∈ items r g, Happened (turn cal chance r) (Selects cal chance r item) g es' := by
  have hsound : Sound r g :=
    run_invariant (fun _ _ _ h hs => h.turn hr hs) hfresh.sound hrun
  refine ⟨fun block => Walk.answers_iff hr hsound.done, ?_⟩
  intro es' g' hrun' hsteady hcount item hmem
  -- the selections that are left before the item comes back
  exact happened_of_count (I := fun g => Sound r g ∧ item ∈ items r g) (m := turnsLeft r item)
    (fun _ _ _ h hsteady ht => Steady.turn h.1 hr h.2 hsteady ht) ⟨hsound, hmem⟩ hsteady hrun'
    ((turnsLeft_lt hmem).trans_le hcount)

instance : Decidable (w.Ready cursor) := inferInstanceAs (Decidable (_ ∨ _))
instance : Decidable w.Fitting := inferInstanceAs (Decidable (∃ c ∈ w.pool, _))
instance : Decidable (w.Answers chance seed cursor) := inferInstanceAs (Decidable (_ → _))

instance decidableSteady : ∀ g e, Decidable (Steady cal chance r g e)
  | g, .slot => decidable_of_iff ((callOf cal chance r g).all fun block => decide
      ((walkFor g r block).anchored (g.tables.readRuleCursor r.id) = g.tables.readRuleCursor r.id ∧
        (walkFor g r block).Ready (g.tables.readRuleCursor r.id)) = true) (by
      unfold Steady
      simp [Option.all_eq_true])
  | g, .renew g' => inferInstanceAs (Decidable (List.Perm _ _))

/-- One day with one block, of fifty milliseconds. -/
def dayCalendar : Calendar where
  days _ _ _ := some [("2026-01-01", 4)]
  resolveBlock _ _ _ _ := some (0, 50)
  sevenDayWindow _ now := some (now, now + 7 * 86400000)
  window_end zone now start stop h := by
    obtain ⟨rfl, rfl⟩ := Prod.mk.inj (Option.some.inj h)
    omega

def noChance : Chance where
  unit _ _ := 0
  ordinal _ _ _ := 0
  threshold _ _ _ := 0
  unit_nonneg _ _ := le_rfl
  unit_lt _ _ := zero_lt_one

def loopRule : Rule :=
  { id := "loop", leastPlayed := false, mode := .sequential, episodeMode := .none, exhaustion := .loop
    deduplicationWindow := 0, maxConsecutive := 10, limit := 0, weights := [] }

def film (item : ℕ) (sortKey : String) (durationMS : ℤ) (h : 0 < durationMS) : Candidate :=
  { item, library := "films", asset := "file", sourceFence := "fence", durationMS, title := "Film"
    showID := 0, season := 0, episode := 0, weight := 1, sortKey, duration_pos := h
    weight_pos := zero_lt_one }

/-- A generation of the rule that is about to be scheduled. -/
def scheduleOf (blocks : List Block) (films : List Candidate) : Generation :=
  { number := 0
    key := { channelID := "channel", revision := 1, fence := "", boundary := 0, stop := 1000000
             base := none, seed := "seed", historyFence := none }
    revision := 1
    config := { timezone := "UTC", seed := "seed", defaultRuleID := "loop", rules := [loopRule], blocks }
    status := .pending, phase := .scheduling, startMS := 0, endMS := 1000000, copyAfter := -1
    scanRule := 1, scanAfter := "", usedAfter := none, cursor := 0, count := films.length
    unresolved := 0, leaseToken := none, leaseUntil := 0, createdMS := 0
    tables :=
      { pool := fun rule => if rule = "loop" then films else [], entries := []
        ruleState := fun _ => none, used := [] } }

/-- A block that only takes what fits into it. -/
def fitBlock : Block :=
  { id := "evening", weekdays := [4], startMinute := 0, endMinute := 1, priority := 0
    ruleID := "loop", fallbackRuleID := none, anchor := .channelCursor, overrun := .fit }

/-- Two films, of which the first doesn't fit into the block that the schedule begins with. -/
def fitSchedule : Generation :=
  scheduleOf [fitBlock] [film 1 "a" 100 (by decide), film 2 "b" 10 (by decide)]

theorem rule_cycles_one :
    Happened (turn dayCalendar noChance loopRule) (Selects dayCalendar noChance loopRule 1)
      (scheduleOf [] [film 1 "a" 100 (by decide)]) [.slot, .slot] :=
  (rule_cycles dayCalendar noChance ⟨rfl, rfl⟩ ⟨rfl, rfl, fun _ hu => absurd hu List.not_mem_nil⟩
    run_nil).2 _ _
    (Option.some_get (by decide +kernel)).symm (by decide +kernel) (by decide +kernel) 1 (by decide)

/-- The same after the block: the second film was selected, and then nothing. -/
def skippedSchedule : Generation :=
  (run (turn dayCalendar noChance loopRule) fitSchedule [.slot, .slot]).getD fitSchedule

/-- After the block, the film that was skipped fits, and isn't selected. -/
theorem rule_stuck : ¬ ∀ es g block, run (turn dayCalendar noChance loopRule) fitSchedule es = some g →
    callOf dayCalendar noChance loopRule g = some block →
      (walkFor g loopRule block).Answers noChance g.key.seed
        (g.tables.readRuleCursor loopRule.id) := by
  intro h
  have hsome : (run (turn dayCalendar noChance loopRule) fitSchedule [.slot, .slot]).isSome = true := by
    decide +kernel
  have hrun : run (turn dayCalendar noChance loopRule) fitSchedule [.slot, .slot] =
      some skippedSchedule := by
    obtain ⟨g, hg⟩ := Option.isSome_iff_exists.mp hsome
    rw [skippedSchedule, hg, Option.getD_some]
  have hcall : callOf dayCalendar noChance loopRule skippedSchedule =
      some (defaultBlock skippedSchedule.config 50 1000000) := by
    decide +kernel
  have hanswers := h _ _ _ hrun hcall
  revert hanswers
  decide +kernel

end Portico.LibraryChannels
