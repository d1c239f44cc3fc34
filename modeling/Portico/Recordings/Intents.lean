import Portico.LiveChannels.Conflicts
import Portico.Recordings.Claim

/-!
# What owners ask for

The time of a programme wins over padding. A recording whose padding finds no tuner is captured
without it when the programmes fit; else until the first interval in which it has no tuner.

An owner schedules the recording of a programme, changes its options, cancels it or deletes it. A
rule of an owner records the programmes that match it. The interval of a recording is stored with
it, and once more in its reservation.

## Main definitions

* `State.reservationsTx`: the reservations of a source that touch an interval
* `State.captureWindowTx`: the interval that is left, and whether there is no tuner now
* `Store`: the guide with the rules, the recordings, and the work that the rules are due
* `State.insertTx`: one recording for each owner and programme
* `Store.schedule`, `Store.change`, `Store.cancel`, `Store.delete`: what an owner asks for
* `Store.saveRule`, `Store.deleteRule`: the rules
* `State.hasSharedCaptureTx`: a capture that a recording takes part in may still supply it

## Main results

* `captureWindowTx_of_unreserved`: a recording without a reservation keeps its interval
-/

namespace Portico.Recordings

open LiveChannels (Capacity conflicts)

namespace State

variable (s : State)

/-- The reservations of a source that touch an interval, each with its channel. -/
def reservationsTx (source : String) (start stop : ℤ) : List LiveChannels.Conflicts.Reservation :=
  ((s.reservations.filter fun v =>
      v.source = source && v.enabled && v.start < stop && start < v.stop).insertionSort
    fun v w => v.start < w.start ∨ (v.start = w.start ∧ v.id ≤ w.id)).map fun v =>
      { channelID := ((rowOf Recording.id v.id s.recordings).map Recording.channel).getD v.id
        id := v.id, start := v.start, stop := v.stop, priority := v.priority }

/-- A reservation without the padding of its recording, the one of `r` with its own priority. -/
def core (r : Recording) (v : LiveChannels.Conflicts.Reservation) :
    LiveChannels.Conflicts.Reservation :=
  let v := { v with priority := if v.id = r.id then r.options.priority else v.priority }
  match s.recordings.find? fun x => x.id = v.id && x.source = r.source with
  | some x => { v with start := x.programme.start, stop := x.programme.stop }
  | none => v

/-- The end of an interval that has losing intervals, and whether one of them is now. -/
def untilLoss (now : ℤ) : ℤ → List LiveChannels.Conflicts.LosingInterval → ℤ × Bool
  | stop, [] => (stop, false)
  | stop, loss :: rest =>
    if loss.start ≤ now ∧ now < loss.stop then (stop, true)
    else untilLoss now (if now < loss.start ∧ loss.start < stop then loss.start else stop) rest

/-- The interval that the tuners leave to a recording, and whether it has no tuner now. -/
def captureWindowTx (capacity : Option Capacity) (now : ℤ) (r : Recording) : Option (ℤ × ℤ × Bool) :=
  match capacity with
  | none => none
  | some capacity =>
    if capacity.known = false then some (r.start, r.stop, false)
    else
      -- padding is the first to go, so the recording itself ranks last here
      let all := (s.reservationsTx r.source r.start r.stop).map fun v =>
        { v with priority := if v.id = r.id then -1001 else v.priority }
      if conflicts all r.id capacity = [] then some (r.start, r.stop, false)
      else match conflicts (all.map (s.core r)) r.id capacity with
      | [] => some (r.programme.start, r.programme.stop, now < r.programme.start)
      | losses => some (r.start, untilLoss now r.stop losses)

variable {s} {capacity : Option Capacity} {now : ℤ} {r : Recording}

theorem captureWindowTx_of_unreserved {start stop : ℤ} {blocked : Bool}
    (h : ∀ v ∈ s.reservations, v.id = r.id → v.enabled = false)
    (hwindow : s.captureWindowTx capacity now r = some (start, stop, blocked)) :
    start = r.start ∧ stop = r.stop := by
  have hkept : s.captureWindowTx capacity now r = some (r.start, r.stop, false) := by
    unfold captureWindowTx at hwindow ⊢
    cases capacity with
    | none => cases hwindow
    | some capacity =>
      dsimp only
      split_ifs with hknown hpadded
      · rfl
      · rfl
      · apply absurd (LiveChannels.conflicts_of_not_mem _) hpadded
        intro x hx
        obtain ⟨y, hy, rfl⟩ := List.mem_map.mp hx
        obtain ⟨v, hv, rfl⟩ := List.mem_map.mp hy
        rw [List.mem_insertionSort] at hv
        obtain ⟨hmem, hv⟩ := List.mem_filter.mp hv
        intro hid
        rw [h v hmem hid] at hv
        simp at hv
  rw [hkept] at hwindow
  obtain ⟨rfl, hrest⟩ := Prod.mk.inj (Option.some.inj hwindow)
  obtain ⟨rfl, -⟩ := Prod.mk.inj hrest
  exact ⟨rfl, rfl⟩

end State

end Portico.Recordings

/-! # Intents -/

namespace Portico.Recordings

/-! ## Rules -/

inductive Phase
  | existing
  | discover
  | idle
deriving DecidableEq, Repr

/-- What a rule is due: its recordings are looked through, then the guide. -/
structure RuleWork where
  rule : String
  ruleRevision : ℕ
  generation : String
  phase : Phase
  cursor : String := ""
  updated : ℤ
deriving DecidableEq, Repr

/-- The guide with the rules, the recordings, the work that the rules are due, and how far the
rounds through the recordings and the rules have come. -/
structure Store where
  guide : Guide := {}
  state : State := {}
  work : List RuleWork := []
  scheduledCursor : String := ""
  rulesCursor : String := ""

namespace Guide

variable (g : Guide)

def identityMatches (c : RuleConfig) (p : Programme) : Bool :=
  if c.titleMatch then p.channel = c.channel && g.fold c.title = g.fold p.title
  else p.seriesID ≠ "" && p.seriesID = c.seriesID

/-- What a query for the programmes of a rule finds. -/
def identitySQL (c : RuleConfig) (p : Programme) : Bool :=
  if c.titleMatch then p.channel = c.channel && g.plain p.title = g.plain c.title
  else p.seriesID = c.seriesID

/-- Some programme of a rule in a generation says whether it is new. -/
def evidenced (c : RuleConfig) (generation : String) : Bool :=
  g.programmes.any fun p => p.1 = generation && g.identitySQL c p.2 &&
    (p.2.newEvidence = "new" || p.2.newEvidence = "repeat")

/-- A programme that a rule records, when the rule is enabled. -/
def ruleMatches (c : RuleConfig) (p : Programme) : Bool :=
  g.identityMatches c p && (c.episodes = .all || p.newEvidence = "new") &&
    (c.allowedChannels = [] || p.channel ∈ c.allowedChannels) && p.channel ∉ c.blockedChannels &&
    (c.blockedKeywords.all fun k => !g.mentions p k) && c.keywords.all fun k => g.mentions p k

end Guide

/-! ## Recordings -/

/-- The owner's programme, in the guide. -/
structure Occurrence where
  source : String
  channel : String
  generation : String
  programme : String
deriving DecidableEq, Repr

def RecordingState.terminal : RecordingState → Bool
  | .completed | .incompletePlayable | .failed | .cancelled | .pendingDelete | .deleted => true
  | _ => false

/-- A recording that isn't a rule's any more. -/
def Recording.detached (r : Recording) : Recording :=
  { r with manual := true, rule := none, ruleRevision := 0 }

/-- A capture that has media, or may still get some. -/
def Recording.supplies (l : Recording) : Bool :=
  l.state.capturing || l.state = .completed || l.state = .incompletePlayable ||
    l.state = .pendingDelete || (l.state = .cancelled && (0 < l.leaseUntil || l.ready))

namespace State

variable (s : State)

/-- A capture that a recording takes part in may still supply it. -/
def hasSharedCaptureTx (id : String) : Bool :=
  s.shares.any fun x => x.1 = id && s.recordings.any fun l => l.id = x.2 && l.supplies

/-- What an owner has, by its number. -/
def loadTx (o : Owner) (id : String) : Option Recording :=
  (rowOf Recording.id id s.recordings).filter fun r => r.owner = o

inductive Fault
  | conflict
  | broken
deriving DecidableEq, Repr

/-- One recording for each owner and programme, whichever rule finds it. -/
def insertTx (r : Recording) : Except Fault State :=
  match h : rowOf Recording.id r.id s.recordings with
  | some old =>
    if old.owner ≠ r.owner then .error .broken
    else if old.state = .cancelled ∨ old.state = .failed ∨ old.state = .deleted ∨
        old.state = .pendingDelete then .error .conflict
    else if r.manual = true ∧ old.state.mutable = true ∧ old.rule ≠ none then
      .ok (s.update r.id Recording.detached fun _ => rfl)
    else .ok s
  | none =>
    .ok (State.reserve
      { s with
        recordings := s.recordings ++ [r]
        keys := nodup_append_row s.keys (rowOf_eq_none.mp h)
        owned := fun x hx => by
          rw [List.map_append]
          exact List.mem_append_left _ (s.owned x hx) }
      r.id r.source r.start r.stop r.options.priority)

/-- What a rule has scheduled isn't the rule's any more. -/
def detachAll (rule : String) : State :=
  { s with
    recordings :=
      updateWhere (fun r => r.rule = some rule && r.state.mutable) Recording.detached s.recordings
    keys := by rw [map_updateWhere (f := Recording.detached) fun _ => rfl]; exact s.keys
    owned := by rw [map_updateWhere (f := Recording.detached) fun _ => rfl]; exact s.owned }

end State

/-- A recording that is scheduled for a programme. -/
def Recording.scheduled (id : String) (o : Owner) (binding : Occurrence) (p : Programme)
    (options : Options) (rule : Option (String × ℕ)) (start stop : ℤ) : Recording :=
  { id, owner := o, source := binding.source, channel := binding.channel
    generation := binding.generation, programme := p, rule := rule.map Prod.fst
    ruleRevision := (rule.map Prod.snd).getD 0, manual := rule.isNone, options, start, stop
    priority := options.priority }

namespace Store

variable (s : Store)

def setState (u : State) : Store := { s with state := u }

@[simp] theorem state_setState (u : State) : (s.setState u).state = u := rfl

/-- An owner schedules a programme. `defaults` are the options of the server, when the owner wants
those. -/
def schedule (recordID : Owner → String → String → String) (now : ℤ) (o : Owner) (binding : Occurrence)
    (options : Options) (defaults : Option Options) (permitted available visible : Bool) :
    Option Store :=
  if options.valid = false ∨ permitted = false ∨ available = false then none
  else match s.guide.programmeTx binding.source binding.channel binding.generation
      binding.programme with
  | none => none
  | some p =>
    if visible = false then none
    else
      let options := defaults.getD options
      match padded p options with
      | none => none
      | some (start, stop) =>
        if stop ≤ now then none
        else (s.state.insertTx (.scheduled (recordID o binding.source binding.programme) o binding p
          options none start stop)).toOption.map s.setState

/-- An owner changes the options of a recording, which is no rule's any more. -/
def change (now : ℤ) (o : Owner) (id : String) (options : Options) (permitted : Bool) :
    Option Store :=
  match s.state.loadTx o id with
  | none => none
  | some r =>
    if permitted = false ∨ r.state.mutable = false ∨ options.valid = false then none
    else match padded r.programme options with
    | none => none
    | some (start, stop) =>
      if stop ≤ now then none
      else some (s.setState ((s.state.update id (fun r =>
        { r.detached with
          options, start, stop, priority := options.priority, state := .scheduled, reason := "" })
        fun _ => rfl).reserve id r.source start stop options.priority))

def cancel (o : Owner) (id : String) : Option Store :=
  match s.state.loadTx o id with
  | none => none
  | some r =>
    if r.state.terminal then none
    else some (s.setState ((s.state.update id (fun r =>
      { r with state := .cancelled, reason := "owner-cancelled" }) fun _ => rfl).unreserve id))

/-- An owner, or the retention of the owner's recordings, deletes a recording. -/
def delete (o : Owner) (id reason : String) : Option Store :=
  match s.state.loadTx o id with
  | none => none
  | some r =>
    if r.state = .deleted ∨ r.state = .pendingDelete then none
    else some (s.setState ((s.state.update id (fun r =>
      { r with state := .pendingDelete, reason }) fun _ => rfl).unreserve id))

/-- The bytes of a recording are gone. -/
def deleted (id : String) : Option Store :=
  match rowOf Recording.id id s.state.recordings with
  | none => none
  | some r =>
    if r.state ≠ .pendingDelete then none
    else some (s.setState (s.state.update id (fun r =>
      { r with state := .deleted, reason := "" }) fun _ => rfl))

/-! ## Work of the rules -/

/-- A rule is due to be looked through from the start. -/
def assign (rule : String) (revision : ℕ) (generation : String) (now : ℤ) : Store :=
  { s with
    work :=
      (s.work.filter fun w => w.rule ≠ rule) ++
        [{ rule, ruleRevision := revision, generation, phase := .existing, updated := now }] }

def setRules (rules : List Rule) : Store := { s with guide := { s.guide with rules } }

/-- Two rules of an owner are one when they follow the same. -/
def sameIdentity (g : Guide) (a b : RuleConfig) : Bool :=
  a.source = b.source && a.seriesID = b.seriesID && g.lower a.title = g.lower b.title &&
    a.channel = b.channel

/-- An owner saves a rule: a new one, a deleted one that follows the same, or a change of one, which
follows what it did. `revision` is the one the owner has seen, and none for a new rule. -/
def saveRule (now : ℤ) (o : Owner) (id : String) (revision : Option ℕ) (config : RuleConfig)
    (enabled permitted available : Bool) (anchor : Option Programme) : Option Store :=
  if config.options.valid = false ∨ permitted = false ∨ (enabled = true ∧ available = false) then none
  else match s.guide.source config.source with
  | none => none
  | some source =>
    if enabled = true ∧ source.active = false then none
    else match s.guide.rules.find? fun r => r.id = id && r.owner = o && !r.deleted with
    | some old =>
      if revision ≠ some old.revision ∨ old.config.source ≠ config.source ∨
          old.config.seriesID ≠ config.seriesID ∨ old.config.titleMatch ≠ config.titleMatch ∨
          old.config.title ≠ config.title ∨ old.config.channel ≠ config.channel ∨
          (old.config.episodes ≠ .new ∧ config.episodes = .new ∧
            s.guide.evidenced config source.generation = false) then none
      else some ((s.setRules (updateWhere (fun r => r.id = id) (fun r =>
        { r with enabled, config, revision := r.revision + 1 }) s.guide.rules)).assign id
          (old.revision + 1) source.generation now)
    | none =>
      if revision ≠ none ∨ (anchor.any fun p => s.guide.identityMatches config p &&
          (config.episodes ≠ .new || p.newEvidence = "new" || p.newEvidence = "repeat")) = false then
        none
      else match s.guide.rules.find? fun r => r.owner = o && sameIdentity s.guide r.config config with
      | some prior =>
        if prior.deleted = false ∨ (s.guide.rules.any fun r => r.id = id && r.id ≠ prior.id) then none
        else some ((s.setRules (updateWhere (fun r => r.id = prior.id) (fun r =>
          { r with deleted := false, enabled, config, revision := r.revision + 1 })
          s.guide.rules)).assign prior.id (prior.revision + 1) source.generation now)
      | none =>
        if s.guide.rules.any fun r => r.id = id then none
        else some ((s.setRules (s.guide.rules ++
          [{ id, owner := o, enabled, deleted := false, revision := 1, config }])).assign id 1
            source.generation now)

/-- An owner deletes a rule, and keeps what it has scheduled or leaves it to the rule's work. -/
def deleteRule (now : ℤ) (o : Owner) (id : String) (revision : ℕ) (keep : Bool) : Option Store :=
  match s.guide.rules.find? fun r => r.id = id && r.owner = o && !r.deleted with
  | none => none
  | some old =>
    if old.revision ≠ revision then none
    else
      let kept := if keep then s.setState (s.state.detachAll id) else s
      some { kept.setRules (updateWhere (fun r => r.id = id) (fun r =>
          { r with enabled := false, deleted := true, revision := r.revision + 1 })
          s.guide.rules) with
        work := updateWhere (fun w => w.rule = id) (fun w =>
          { w with ruleRevision := w.ruleRevision + 1, phase := .existing, cursor := "", updated := now })
          s.work }

end Store

end Portico.Recordings
