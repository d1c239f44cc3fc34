import Portico.Recordings.Expiry

/-!
# Reconciliation with the guide

What was scheduled is brought up to the guide, in rounds of at most 64 recordings. What owners
scheduled themselves keeps its interval when the guide doesn't list it. A rule's work looks through
what the rule has scheduled, then through the guide for more.
-/

namespace Portico.Recordings

/-! ## What a recording becomes -/

/-- A recording in another state, whose tuner isn't reserved. -/
def State.settle (s : State) (r : Recording) (state : RecordingState) (reason : String) : State :=
  (if state ≠ r.state ∨ reason ≠ r.reason then
    s.update r.id (fun x => { x with state, reason }) fun _ => rfl
  else s).unreserve r.id

/-! ## What owners scheduled -/

namespace State

variable (g : Guide) (now : ℤ) (authority : Recording → Verdict) (s : State)

/-- A recording that an owner scheduled is brought up to the guide. -/
def follow (id : String) : Option State :=
  match rowOf Recording.id id s.recordings with
  | none => none
  | some row =>
    let r := g.load row
    if authority r = .unavailable then some s
    else match g.source r.source with
    | none => none
    | some source =>
      if authority r = .allowed ∧ s.hasSharedCaptureTx r.id = true then some s
      else if authority r = .denied then some (s.settle r .cancelled "permission-denied")
      else if source.active = false then some (s.settle r .waitingSource "source-disabled")
      else
        let p := g.committedProgrammeTx r source.generation
        match padded p r.options with
        | none => none
        | some (start, stop) =>
          if stop ≤ now then some (s.settle r .failed "capture-window-missed")
          else
            let changed := r.state ≠ .scheduled ∨ r.reason ≠ "" ∨
              source.generation ≠ r.generation ∨ p ≠ r.programme
            some ((if changed then
                s.update r.id (fun x =>
                  { x with
                    programme := p, generation := source.generation, start, stop
                    state := .scheduled, reason := "" }) fun _ => rfl
              else s).reserve r.id r.source start stop r.options.priority)

end State

/-- The next 64 rows of a round. -/
def page {α : Type} (key : α → String) (cursor : String) (rows : List α) : List α :=
  ((rows.filter fun x => cursor < key x).insertionSort fun a b => key a ≤ key b).take 64

/-- Where a round goes on: after the last row, or from the start. -/
def nextCursor {α : Type} (key : α → String) (rows : List α) : String :=
  if rows.length < 64 then "" else (rows.getLast?.map key).getD ""

namespace Store

variable (s : Store)

/-- A round through what owners scheduled. -/
def reconcileScheduled (now : ℤ) (authority : Recording → Verdict) : Option Store :=
  let rows := page Recording.id s.scheduledCursor
    (s.state.recordings.filter fun r => r.rule.isNone && r.state.mutable)
  (rows.foldlM (fun (u : State) r => u.follow s.guide now authority r.id) s.state).map fun u =>
    { s with state := u, scheduledCursor := nextCursor Recording.id rows }

/-! ## Rules -/

/-- A round through the rules: those that are idle are due again when the guide or the rule changed,
or after a minute. -/
def sweepRules (now : ℤ) : Store :=
  let rows := page Rule.id s.rulesCursor
    (s.guide.rules.filter fun r => !r.deleted && (s.guide.source r.config.source).isSome)
  let swept := rows.foldl (fun u r =>
    let generation := ((s.guide.source r.config.source).map Source.generation).getD ""
    match u.work.find? fun w => w.rule = r.id with
    | none => u.assign r.id r.revision generation now
    | some w =>
      if w.phase = .idle ∧ (w.generation ≠ generation ∨ w.ruleRevision ≠ r.revision ∨
          w.updated < now - 60000) then u.assign r.id r.revision generation now
      else u) s
  { swept with rulesCursor := nextCursor Rule.id rows }

end Store

/-- What a step of a rule's work finds outside of the store: the clock, the authority of the owner
over the source and its channels, what the owner may see, and whether captures can be made. -/
structure RuleEnv where
  now : ℤ
  authority : Verdict := .allowed
  channels : String → Verdict := fun _ => .allowed
  visible : Programme → Bool := fun _ => true
  available : Bool := true

namespace State

variable (g : Guide) (env : RuleEnv) (rule : Rule) (source : Source) (s : State)

/-- What a rule wants of a recording that it has scheduled: the recording of a programme, or another
state. -/
def wanted (r : Recording) : Programme ⊕ RecordingState × String :=
  let current := g.programmeTx rule.config.source r.channel source.generation r.programme.id
  let p := if s.hasSharedCaptureTx r.id = true ∧ rule.enabled = true ∧ rule.deleted = false ∧
      env.authority = .allowed then some r.programme else current
  if rule.enabled = false ∨ rule.deleted = true then .inr (.cancelled, "rule-disabled")
  else if env.authority ≠ .allowed then .inr (.cancelled, "permission-denied")
  else if source.active = false then .inr (.waitingSource, "source-disabled")
  else match p with
  | none => .inr (.waitingGuide, "programme-unavailable")
  | some p =>
    if g.ruleMatches rule.config p then .inl p else .inr (.cancelled, "rule-no-longer-matches")

/-- The recording is what the rule wants, as far as the rule's work can tell. -/
def Unchanged (r : Recording) (p : Programme) : Prop :=
  r.ruleRevision = rule.revision ∧ r.generation = source.generation ∧ r.programme = p ∧
    r.options = rule.config.options ∧ r.state = .scheduled

instance (r : Recording) (p : Programme) : Decidable (Unchanged rule source r p) := by
  unfold Unchanged
  infer_instance

/-- A recording that a rule has scheduled becomes what the rule wants. -/
def reconsider (id : String) : Option State :=
  match rowOf Recording.id id s.recordings with
  | none => none
  | some r =>
    match s.wanted g env rule source r with
    | .inr (state, reason) => some (s.settle r state reason)
    | .inl p =>
      match padded p rule.config.options with
      | none => none
      | some (start, stop) =>
        some ((if Unchanged rule source r p then s
          else s.update r.id (fun x =>
            { x with
              generation := source.generation, programme := p, options := rule.config.options
              start, stop, priority := rule.config.options.priority, ruleRevision := rule.revision
              state := .scheduled, reason := "" }) fun _ => rfl).reserve
          r.id rule.config.source start stop rule.config.options.priority)

/-- Another recording of the owner has the same episode. -/
def duplicateEpisodeTx (o : Owner) (source : String) (p : Programme) : Bool :=
  let other (r : Recording) : Bool := r.owner = o && r.source = source && r.programme.id ≠ p.id &&
    r.programme.seriesID = p.seriesID &&
    !(r.state = .failed || r.state = .cancelled || r.state = .deleted || r.state = .pendingDelete)
  if p.seriesID = "" then false
  else if p.episodeID ≠ "" ∧ ¬ "0000".toList <:+ p.episodeID.toList then
    s.recordings.any fun r => other r && r.programme.episodeID = p.episodeID
  else match p.episode with
  | none => false
  | some (season, number, _) =>
    if season ≤ 0 ∨ number ≤ 0 then false
    else s.recordings.any fun r => other r &&
      (r.programme.episode.any fun e => e.1 = season && e.2.1 = number)

/-- A programme of the guide that a rule finds is scheduled, unless it was before. -/
def discover (recordID : Owner → String → String → String) (p : Programme) : Option State :=
  if g.ruleMatches rule.config p = false ∨ env.visible p = false ∨ env.channels p.channel = .denied then
    some s
  else if env.channels p.channel = .unavailable then none
  else if s.duplicateEpisodeTx rule.owner rule.config.source p then some s
  else match padded p rule.config.options with
  | none => none
  | some (start, stop) =>
    let binding := ⟨rule.config.source, p.channel, source.generation, p.id⟩
    match s.insertTx (.scheduled (recordID rule.owner rule.config.source p.id) rule.owner binding p
        rule.config.options (some (rule.id, rule.revision)) start stop) with
    | .ok u => some u
    | .error .conflict => some s
    | .error .broken => none

end State

namespace Store

variable (s : Store)

/-- The work that is next: the one that was looked at longest ago. -/
def nextWork : Option (RuleWork × Rule) :=
  ((s.work.filterMap fun w =>
      if w.phase = .idle then none else (s.guide.rule w.rule).map fun r => (w, r)).insertionSort
    fun a b => a.1.updated < b.1.updated ∨
      (a.1.updated = b.1.updated ∧ a.1.rule ≤ b.1.rule)).head?

def setWork (rule : String) (f : RuleWork → RuleWork) : Store :=
  { s with work := updateWhere (fun w => w.rule = rule) f s.work }

/-- What a rule has scheduled, and what its work took from it and may give back. -/
def existing (now : ℤ) (rule : Rule) (cursor : String) : List Recording :=
  page Recording.id cursor (s.state.recordings.filter fun r =>
    r.rule = some rule.id && !r.manual && (r.state.mutable || (r.state = .cancelled &&
      (r.reason = "rule-disabled" || r.reason = "rule-no-longer-matches") && now < r.stop)))

/-- The programmes of a generation that a rule may record. -/
def discoverable (now : ℤ) (rule : Rule) (source : Source) (cursor : String) : List Programme :=
  page Programme.id cursor ((s.guide.programmes.filterMap fun p =>
    if p.1 = source.generation then some { p.2 with image := "" } else none).filter fun p =>
      s.guide.identitySQL rule.config p && now < p.stop)

/-- A step of the work of a rule; none when there is nothing to do, or when a fact can't be dealt
with. -/
def reconcileOne (recordID : Owner → String → String → String) (env : RuleEnv) : Option Store :=
  match s.nextWork with
  | none => none
  | some (w, rule) =>
    match s.guide.source rule.config.source with
    | none => none
    | some source =>
      if w.generation ≠ source.generation then
        some (s.setWork rule.id fun w =>
          { w with
            ruleRevision := rule.revision, generation := source.generation, phase := .existing
            cursor := "", updated := env.now })
      else if env.authority = .unavailable then none
      else match w.phase with
      | .existing =>
        let rows := s.existing env.now rule w.cursor
        (rows.foldlM (fun (u : State) r => u.reconsider s.guide env rule source r.id) s.state).map fun u =>
          (s.setState u).setWork rule.id fun w =>
            if rows.length < 64 then { w with phase := .discover, cursor := "", updated := env.now }
            else { w with cursor := (rows.getLast?.map Recording.id).getD w.cursor, updated := env.now }
      | .discover =>
        if rule.enabled = false ∨ rule.deleted = true ∨ env.authority = .denied ∨
            source.active = false ∨ env.available = false then
          some (s.setWork rule.id fun w => { w with phase := .idle, cursor := "", updated := env.now })
        else
          let rows := s.discoverable env.now rule source w.cursor
          (rows.foldlM (fun (u : State) p => u.discover s.guide env rule source recordID p) s.state).map fun u =>
            (s.setState u).setWork rule.id fun w =>
              if rows.length < 64 then { w with phase := .idle, cursor := "", updated := env.now }
              else { w with cursor := (rows.getLast?.map Programme.id).getD w.cursor
                            updated := env.now }
      | .idle => none

end Store

end Portico.Recordings
