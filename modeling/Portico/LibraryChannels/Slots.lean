import Portico.Lib.Outcome
import Portico.LibraryChannels.Selection

/-!
# Library channels: slots

The schedule of a generation is filled slot by slot, from its cursor to its end. A slot is what plays
from the cursor on: a candidate of the rule whose turn it is, of its block's fallback, or a slate.
Planning a slot only reads; applying it writes its entry and moves the cursor past it.

## Main definitions

* `Config`, `Generation`: a channel's configuration and a row of `lc_generations` with its tables
* `slotAt`: the block, or the default one, that the cursor is in, up to the next change
* `planSlot`, `applySlot`, `scheduleOne`
-/

namespace Portico.LibraryChannels

/-- A block of the week: weekdays with Sunday zero, minutes of the day. -/
structure Block where
  id : String
  weekdays : List ℕ
  startMinute : ℕ
  endMinute : ℕ
  priority : ℤ
  ruleID : String
  fallbackRuleID : Option String
  anchor : Anchor
  overrun : Overrun
deriving DecidableEq, Repr

/-- A channel's configuration, as far as a schedule needs it. -/
structure Config where
  timezone : String
  seed : String
  defaultRuleID : String
  rules : List Rule
  blocks : List Block
deriving DecidableEq

/-- `rules[id]` of a map that was filled in order. -/
def Config.rule (c : Config) (id : String) : Option Rule := c.rules.reverse.find? fun r => r.id = id

/-- What time zones make of local times: the days around a range, with their weekdays, the instants
of a block of a day, and the window of seven days that a day begins, which ends four to ten days
after any instant of that day. -/
structure Calendar where
  days : String → ℤ → ℤ → Option (List (String × ℕ))
  resolveBlock : String → String → ℕ → ℕ → Option (ℤ × ℤ)
  sevenDayWindow : String → ℤ → Option (ℤ × ℤ)
  window_end : ∀ zone now start stop, sevenDayWindow zone now = some (start, stop) →
    now + 4 * 86400000 ≤ stop ∧ stop ≤ now + 10 * 86400000

/-- The blocks of a range, at their instants. -/
def resolvedBlocks (cal : Calendar) (c : Config) (start stop : ℤ) : Option (List ResolvedBlock) := do
  let days ← cal.days c.timezone start stop
  let out ← days.mapM fun day => (c.blocks.filter fun b => b.weekdays.contains day.2).mapM fun b => do
    let v ← cal.resolveBlock c.timezone day.1 b.startMinute b.endMinute
    return ({ id := b.id ++ ":" ++ day.1, ruleID := b.ruleID, start := v.1, stop := v.2
              priority := b.priority, overrun := b.overrun, anchor := b.anchor
              fallback := b.fallbackRuleID } : ResolvedBlock)
  return out.flatten.filter fun b => start < b.stop && b.start < stop && b.start < b.stop

inductive Status
  | pending
  | superseded
  | published
deriving DecidableEq, Repr

inductive Phase
  | copying
  | copyUsed
  | candidates
  | scheduling
  | validating
  | published
deriving DecidableEq, Repr

/-- Why a call fails. -/
inductive Fault
  | invalid
  | unavailable
  | conflict
  | moved
deriving DecidableEq, Repr

/-- What the id of a generation is a hash of. The base is the generation it goes on from. -/
structure Key where
  channelID : String
  revision : ℕ
  fence : String
  boundary : ℤ
  stop : ℤ
  base : Option ℕ
  seed : String
  historyFence : Option ℤ
deriving DecidableEq, Repr

/-- A row of `lc_generations` with the rows of its tables, numbered in the order of insertion. -/
structure Generation where
  number : ℕ
  key : Key
  revision : ℕ
  config : Config
  status : Status
  phase : Phase
  startMS : ℤ
  endMS : ℤ
  copyAfter : ℤ
  scanRule : ℕ
  scanAfter : String
  usedAfter : Option (String × ℕ)
  cursor : ℤ
  count : ℕ
  unresolved : ℕ
  leaseToken : Option ℕ
  leaseUntil : ℤ
  createdMS : ℤ
  tables : Tables

variable (g : Generation)

/-! ## Slots -/

def defaultBlock (c : Config) (instant stop : ℤ) : ResolvedBlock :=
  { id := "default", ruleID := c.defaultRuleID, start := instant, stop, priority := -100001
    overrun := .finish, anchor := .channelCursor, fallback := none }

/-- The block of an instant: the one of the highest priority, then of the least id. -/
def winner (c : Config) (blocks : List ResolvedBlock) (stop instant : ℤ) : ResolvedBlock :=
  blocks.foldl (fun selected b =>
    if b.start ≤ instant && instant < b.stop &&
        (selected.priority < b.priority || b.priority = selected.priority && b.id < selected.id) then b
    else selected) (defaultBlock c instant stop)

/-- The block of an instant, up to the next change of block. -/
def slotAt (c : Config) (blocks : List ResolvedBlock) (at_ stop : ℤ) : ResolvedBlock :=
  let selected := winner c blocks stop at_
  let edges := (stop :: (blocks.flatMap fun b => [b.start, b.stop]).filter fun edge =>
    at_ < edge && edge < stop).insertionSort (· ≤ ·)
  let next := (edges.find? fun edge =>
    edge = stop || (winner c blocks stop edge).id ≠ selected.id).getD stop
  { selected with stop := next }

/-- What one slot changes. -/
structure SlotWrites where
  cursors : List (String × RuleCursor)
  used : Option Use
  entry : Option Entry
  cursor : ℤ
  phase : Phase

/-- A rule's cursor, when the slot has changed it. -/
def SlotWrites.cursorOf (w : SlotWrites) (rule : String) : Option RuleCursor :=
  (w.cursors.find? fun c => c.1 = rule).map Prod.snd

/-- A rule's cursor as the slot leaves it so far. -/
def SlotWrites.ruleCursor (w : SlotWrites) (t : Tables) (rule : String) : RuleCursor :=
  (w.cursorOf rule).getD (t.readRuleCursor rule)

/-- The selection of a rule for a slot. -/
def walkFor (r : Rule) (block : ResolvedBlock) : Walk :=
  { tables := g.tables, rule := r, block
    history := g.tables.history (g.config.rules.map Rule.id) r
    remaining := block.stop - g.cursor }

/-- A selection for a slot, and what it adds to the slot's writes. -/
def selectFor (chance : Chance) (w : SlotWrites) (r : Rule) (block : ResolvedBlock) :
    SlotWrites × Option Candidate :=
  let (cursor, found) := (walkFor g r block).selectCandidate chance g.key.seed
    (w.ruleCursor g.tables r.id)
  let cursors := (cursor.map fun c => (r.id, c)).toList ++ w.cursors
  let used := (found.bind fun c => cursor.map fun k => ⟨r.id, c.item, k.cycle⟩).or w.used
  ({ w with cursors, used }, found)

def unavailableTitle : String := "Unavailable program"

/-- Thirty minutes. -/
def slateMS : ℤ := 1800000

/-- The entry of a slot, when it has a length. -/
def slotEntry (r : Rule) (slot : ResolvedBlock) : Option Candidate → Except Fault Entry
  | some c =>
    let stop := if slot.overrun = .cut then min (g.cursor + c.durationMS) slot.stop
      else g.cursor + c.durationMS
    if h : g.cursor < stop then
      .ok { id := .slot g.key.channelID r.id g.cursor stop c.item c.sourceFence
            startMS := g.cursor, endMS := stop, item := c.item, asset := c.asset
            library := c.library, sourceFence := c.sourceFence, title := c.title
            ruleID := r.id, blockID := slot.id, slateReason := "", positive := h, started := rfl }
    else .error .invalid
  | none =>
    let stop := min (g.cursor + slateMS) slot.stop
    if h : g.cursor < stop then
      .ok { id := .slot g.key.channelID r.id g.cursor stop 0 ""
            startMS := g.cursor, endMS := stop, item := 0, asset := "", library := ""
            sourceFence := "", title := unavailableTitle, ruleID := r.id, blockID := slot.id
            slateReason := "no-eligible-media", positive := h, started := rfl }
    else .error .invalid

/-- Nothing is written yet. -/
def SlotWrites.empty : SlotWrites :=
  { cursors := [], used := none, entry := none, cursor := g.cursor, phase := g.phase }

/-- The selections of a slot: that of its rule and, when it finds nothing, that of its fallback. -/
def selectSlot (chance : Chance) (r : Rule) (slot : ResolvedBlock) :
    Except Fault (SlotWrites × Rule × Option Candidate) :=
  match selectFor g chance (.empty g) r slot, slot.fallback with
  | (w, none), some id =>
    (require .invalid (g.config.rule id)).map fun r' =>
      let (w, found) := selectFor g chance w r' slot
      (w, r', found)
  | (w, found), _ => .ok (w, r, found)

/-- The slot at the cursor. -/
def currentSlot (cal : Calendar) : Except Fault ResolvedBlock :=
  (require .invalid (resolvedBlocks cal g.config g.startMS g.endMS)).map fun blocks =>
    slotAt g.config blocks g.cursor g.endMS

/-- **The next slot** of a schedule, without writing anything. -/
def planSlot (cal : Calendar) (chance : Chance) : Except Fault SlotWrites :=
  if g.endMS ≤ g.cursor then .ok { SlotWrites.empty g with phase := .validating }
  else do
    let slot ← currentSlot g cal
    let r ← require .invalid (g.config.rule slot.ruleID)
    let (w, r, found) ← selectSlot g chance r slot
    let v ← slotEntry g r slot found
    return { w with
      entry := some v
      cursor := v.endMS
      phase := if g.endMS ≤ v.endMS then .validating else g.phase }

/-! ## Writes -/

/-- `insertEntry`: an occurrence that is there is kept, a start that is taken is refused. -/
def insertEntry (entries : List Entry) (v : Entry) : Except Fault (List Entry) :=
  if entries.any fun e => e.id = v.id then .ok entries
  else if entries.any fun e => e.startMS = v.startMS then .error .unavailable
  else .ok (entries.orderedInsert (fun a b => a.startMS ≤ b.startMS) v)

/-- The rule cursors of a slot, over those of the table. -/
def saveRuleCursors (w : SlotWrites) (ruleState : String → Option RuleCursor) (rule : String) :
    Option RuleCursor :=
  (w.cursorOf rule).or (ruleState rule)

/-- The mark of an item, whose row is kept or added. -/
def markUsed (u : Use) (used : List Use) : List Use :=
  if used.any fun v => v.rule = u.rule && v.item = u.item then
    used.map fun v => if v.rule = u.rule && v.item = u.item then u else v
  else used ++ [u]

/-- **A planned slot** is written, and the generation moved past it. -/
def applySlot (w : SlotWrites) : Except Fault Generation := do
  let entries ← (w.entry.map (insertEntry g.tables.entries)).getD (.ok g.tables.entries)
  return { g with
    cursor := w.cursor
    phase := w.phase
    tables := { g.tables with
      entries
      ruleState := saveRuleCursors w g.tables.ruleState
      used := (w.used.map fun u => markUsed u g.tables.used).getD g.tables.used } }

/-- The used rows of the rules' current cycles, which a generation that goes on from another one
keeps. -/
def Generation.keepsUse (g : Generation) (u : Use) : Bool :=
  (g.tables.ruleState u.rule).any fun c => c.cycle = u.cycle

/-- A slot that is planned and written at once. -/
def scheduleOne (cal : Calendar) (chance : Chance) : Except Fault Generation := do
  let w ← planSlot g cal chance
  applySlot g w

/-! ## What a slot does -/

variable {g : Generation} {cal : Calendar} {chance : Chance} {w : SlotWrites} {g' : Generation}
  {slot : ResolvedBlock} {r : Rule} {found : Option Candidate} {v : Entry}

theorem planSlot_cases (h : planSlot g cal chance = .ok w) :
    g.endMS ≤ g.cursor ∧ w = { SlotWrites.empty g with phase := .validating } ∨
      g.cursor < g.endMS ∧ ∃ slot r w' r' found v,
        currentSlot g cal = .ok slot ∧ g.config.rule slot.ruleID = some r ∧
          selectSlot g chance r slot = .ok (w', r', found) ∧ slotEntry g r' slot found = .ok v ∧
            w = { w' with
              entry := some v
              cursor := v.endMS
              phase := if g.endMS ≤ v.endMS then .validating else g.phase } := by
  unfold planSlot at h
  split_ifs at h with hend
  · exact Or.inl ⟨hend, (Except.ok.inj h).symm⟩
  · obtain ⟨slot, hslot, h⟩ := bind_eq_ok.mp h
    obtain ⟨r, hr, h⟩ := bind_eq_ok.mp h
    obtain ⟨⟨w', r', found⟩, hselect, h⟩ := bind_eq_ok.mp h
    obtain ⟨v, hv, h⟩ := bind_eq_ok.mp h
    exact Or.inr ⟨not_le.mp hend, slot, r, w', r', found, v, hslot, require_eq_ok.mp hr, hselect,
      hv, (Except.ok.inj h).symm⟩

theorem startMS_of_slotEntry (h : slotEntry g r slot found = .ok v) : v.startMS = g.cursor := by
  cases found with
  | none =>
    unfold slotEntry at h
    simp only at h
    split_ifs at h
    obtain rfl := Except.ok.inj h
    rfl
  | some c =>
    unfold slotEntry at h
    simp only at h
    split_ifs at h <;>
    · obtain rfl := Except.ok.inj h
      rfl

theorem applySlot_cases (h : applySlot g w = .ok g') :
    ∃ entries, (w.entry.map (insertEntry g.tables.entries)).getD (.ok g.tables.entries) =
        .ok entries ∧
      g' = { g with
        cursor := w.cursor
        phase := w.phase
        tables := { g.tables with
          entries
          ruleState := saveRuleCursors w g.tables.ruleState
          used := (w.used.map fun u => markUsed u g.tables.used).getD g.tables.used } } := by
  unfold applySlot at h
  obtain ⟨entries, hentries, h⟩ := bind_eq_ok.mp h
  exact ⟨entries, hentries, (Except.ok.inj h).symm⟩

theorem scheduleOne_cases (h : scheduleOne g cal chance = .ok g') :
    ∃ w, planSlot g cal chance = .ok w ∧ applySlot g w = .ok g' :=
  bind_eq_ok.mp h

end Portico.LibraryChannels
