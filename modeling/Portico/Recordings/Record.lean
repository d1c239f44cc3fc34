import Portico.LiveChannels.Allocator

/-!
# Recordings and the guide

Recordings as the capture worker reads them, and the guide, the channels and the rules that they
refer to. Instants are in milliseconds.

## Main definitions

* `Recording`, `Guide`: the rows that the worker reads
* `Guide.committedProgrammeTx`: the programme of the guide that a recording is committed to
* `Guide.inputTx`: the input of a channel, when it is listed, visible and readable
* `padded`: the interval of a programme with its padding
-/

namespace Portico.Recordings

/-! ## Rows -/

/-- A programme of the guide. Its episode is a season, a number and how they are shown; `facts` is
what no decision reads, and `image` is a path on this server that a recording's programme may have.
-/
structure Programme where
  id : String
  channel : String
  title : String
  start : ℤ
  stop : ℤ
  lineage : String := ""
  seriesID : String := ""
  episodeID : String := ""
  subtitle : String := ""
  episode : Option (ℤ × ℤ × String) := none
  newEvidence : String := "unknown"
  description : String := ""
  facts : String := ""
  image : String := ""
deriving DecidableEq, Repr

inductive RecordingState
  | scheduled
  | conflicted
  | waitingSource
  | waitingGuide
  | preparing
  | recording
  | finalizing
  | completed
  | incompletePlayable
  | failed
  | cancelled
  | pendingDelete
  | deleted
deriving DecidableEq, Repr

/-- The options of a recording; no retention and no limit are zero. -/
structure Options where
  before : ℤ := 0
  after : ℤ := 0
  priority : ℤ := 0
  retentionDays : ℤ := 0
  episodeLimit : ℤ := 0
deriving DecidableEq, Repr

def Options.valid (o : Options) : Bool :=
  0 ≤ o.before && o.before ≤ 21600000 && 0 ≤ o.after && o.after ≤ 21600000 &&
    -1000 ≤ o.priority && o.priority ≤ 1000 && 0 ≤ o.retentionDays && o.retentionDays ≤ 3650 &&
    0 ≤ o.episodeLimit && o.episodeLimit ≤ 100000

/-- The members of the document that options are stored as. -/
def Options.document (o : Options) : List (String × ℤ) :=
  [("beforeMs", o.before), ("afterMs", o.after), ("priority", o.priority),
    ("retentionDays", o.retentionDays), ("episodeLimit", o.episodeLimit)]

/-- The owner of a recording: a profile of an account of this server. -/
abbrev Owner := { o : LiveChannels.Owner // o.valid = true }

def defaultOwner : Owner := ⟨⟨"local", "account", "profile"⟩, by decide⟩

/-- A row of the recordings; its programme's number is that of its programme. `media` and `ready`
are what its checkpoint says: that media was written, and that it can be shared. -/
structure Recording where
  id : String
  owner : Owner := defaultOwner
  source : String
  channel : String
  generation : String
  programme : Programme
  rule : Option String := none
  ruleRevision : ℕ := 0
  manual : Bool := false
  options : Options := {}
  start : ℤ
  stop : ℤ
  priority : ℤ := 0
  state : RecordingState := .scheduled
  reason : String := ""
  nextAttempt : ℤ := 0
  leaseUntil : ℤ := 0
  claimGeneration : ℕ := 0
  claimToken : String := ""
  recoveryAttempt : ℕ := 0
  allocation : String := ""
  artifact : Option (String × ℕ) := none
  media : Bool := false
  ready : Bool := false
deriving DecidableEq, Repr

def RecordingState.mutable : RecordingState → Bool
  | .scheduled | .conflicted | .waitingSource | .waitingGuide => true
  | _ => false

def RecordingState.capturing : RecordingState → Bool
  | .preparing | .recording | .finalizing => true
  | _ => false

/-- The owner has cancelled or deleted the recording. -/
def RecordingState.withdrawn : RecordingState → Bool
  | .cancelled | .pendingDelete => true
  | _ => false

/-! ## The guide -/

structure Source where
  id : String
  active : Bool
  generation : String
  revision : ℕ := 0
deriving DecidableEq, Repr

/-- A channel of a generation; its locator is there when it can be unsealed. -/
structure ChannelVersion where
  generation : String
  channel : String
  locator : Option String
deriving DecidableEq, Repr

inductive Episodes
  | all
  | new
deriving DecidableEq, Repr

/-- What a rule records. It follows a series, or a title on a channel. -/
structure RuleConfig where
  titleMatch : Bool := false
  title : String := ""
  channel : String := ""
  source : String := ""
  seriesID : String := ""
  episodes : Episodes := .all
  allowedChannels : List String := []
  blockedChannels : List String := []
  blockedKeywords : List String := []
  keywords : List String := []
  options : Options := {}
deriving DecidableEq, Repr

structure Rule where
  id : String
  owner : Owner := defaultOwner
  enabled : Bool
  deleted : Bool
  revision : ℕ
  config : RuleConfig := {}
deriving DecidableEq, Repr

/-- The settings of a source that its input uses. -/
structure Configuration where
  streamBufferMs : ℕ
  retryWindowMs : ℕ
  userAgent : String
deriving DecidableEq, Repr

/-- The guide and its channels, by generation. Titles are compared as `fold` makes them, those of
rules as `lower` does, and those that a query finds as `plain` does; `mentions` says that a
programme's texts have a keyword in them. The approvals of a source are there, or can't be read; the
configuration of a source can be read, or not. `image` is the path of the image that was stored for
a recording. -/
structure Guide where
  sources : List Source := []
  channels : List ChannelVersion := []
  hidden : List (String × String) := []
  approvals : String → Option (Option (List String)) := fun _ => none
  configuration : String → Option Configuration := fun _ => some ⟨8000, 60000, "Portico/1.0"⟩
  rules : List Rule := []
  programmes : List (String × Programme) := []
  fold : String → String := id
  lower : String → String := id
  plain : String → String := id
  mentions : Programme → String → Bool := fun _ _ => false
  image : String → Option String := fun _ => none
  keys : (programmes.map fun p => (p.1, p.2.id)).Nodup := by simp

namespace Guide

variable (g : Guide)

def source (id : String) : Option Source := rowOf Source.id id g.sources

def rule (id : String) : Option Rule := rowOf Rule.id id g.rules

/-- A recording as it is read: its programme shows the image that was stored for it. -/
def load (r : Recording) : Recording :=
  { r with programme := { r.programme with image := (g.image r.id).getD r.programme.image } }

/-! ### Inputs -/

inductive InputFault
  | conflict
  | sealed
  | unavailable
  | invalid
deriving DecidableEq, Repr

structure Input where
  source : String
  channel : String
  generation : String
  revision : ℕ
  locator : String
  approvals : List String
  streamBufferSeconds : ℕ
  retryWindowSeconds : ℕ
  userAgent : String
deriving DecidableEq, Repr

-- the pairs of `hidden` are found by equality
local instance : LawfulBEq (String × String) := inferInstance

/-- The input of a channel of the source's active generation, which isn't hidden. -/
def inputTx (source channel generation : String) : Except InputFault Input :=
  match g.sources.find? fun s => s.id = source && s.active with
  | none => .error .conflict
  | some s =>
    match g.channels.find? fun c => c.generation = s.generation && c.channel = channel with
    | none => .error .conflict
    | some c =>
      if (source, channel) ∈ g.hidden ∨ s.generation ≠ generation then .error .conflict
      else match c.locator with
      | none => .error .sealed
      | some locator =>
        if g.approvals source = some none then .error .unavailable
        else match g.configuration source with
        | none => .error .invalid
        | some d =>
          .ok ⟨source, channel, generation, s.revision, locator,
            ((g.approvals source).getD none).getD [], d.streamBufferMs / 1000,
            d.retryWindowMs / 1000, d.userAgent⟩

/-! ### The programme of a recording -/

/-- The programmes of a generation on a channel. They are read without an image. -/
def listed (channel generation : String) : List Programme :=
  (g.programmes.filter fun p => p.1 = generation && p.2.channel = channel).map fun p =>
    { p.2 with image := "" }

/-- The programme of the active generation with a number, on a channel. -/
def programmeTx (source channel generation programme : String) : Option Programme :=
  match g.source source with
  | none => none
  | some s =>
    if s.active = true ∧ s.generation = generation then
      rowOf Programme.id programme (g.listed channel generation)
    else none

/-- An airing is the one that was committed to. -/
def sameCommittedProgramme (a b : Programme) : Bool :=
  if a.episodeID ≠ "" ∨ b.episodeID ≠ "" then a.episodeID ≠ "" && a.episodeID = b.episodeID
  else if a.title = "" ∨ g.fold a.title ≠ g.fold b.title ∨ a.seriesID ≠ b.seriesID ∨
      a.subtitle ≠ b.subtitle then false
  else if a.episode.isSome ∨ b.episode.isSome then a.episode.isSome && a.episode = b.episode
  else true

/-- The airings of a channel within half an hour of a programme. -/
def nearby (channel generation : String) (p : Programme) : List Programme :=
  (g.listed channel generation).filter fun q =>
    p.start - 1800000 ≤ q.start && q.start ≤ p.start + 1800000

/-- The programme that a recording is committed to: the one with its number, or the only nearby
airing that is the same, or the one that was accepted. -/
def committedProgrammeTx (r : Recording) (generation : String) : Programme :=
  match g.programmeTx r.source r.channel generation r.programme.id with
  | some p => p
  | none =>
    let near := g.nearby r.channel generation r.programme
    match near.filter fun q => g.sameCommittedProgramme r.programme q with
    | [q] => if near.length ≤ 32 then q else r.programme
    | _ => r.programme

variable {g} {r : Recording} {generation : String} {p : Programme}

end Guide

/-- The interval of a programme with its padding, when it has one. -/
def padded (p : Programme) (o : Options) : Option (ℤ × ℤ) :=
  if p.stop ≤ p.start ∨ 604800000 < p.stop - p.start then none
  else some (p.start - o.before, p.stop + o.after)

end Portico.Recordings
