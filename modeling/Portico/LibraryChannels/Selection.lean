import Mathlib

/-!
# Library channels: the selection of a candidate

A library channel is scheduled from the owner's rules. A rule has a pool of candidates; for every
slot it plays, one of them is selected, by walking the pool in its order or by drawing from it. What
was selected in the rule's current cycle is not selected again before the next one.

## Main definitions

* `Rule`, `Candidate`, `ResolvedBlock`, `Entry`: the configuration and the rows
* `RuleCursor`, `Use`: a rule's progress
* `Tables`: the rows of a generation that a selection reads
* `History`: what the latest entries say about repetition
* `Walk.admits`: what a rule may select
* `selectCandidate`
-/

namespace Portico.LibraryChannels

/-! ## Configuration -/

inductive Mode
  | sequential
  | shuffleBag
  | weightedRandom
  | sequentialThenShuffle
deriving DecidableEq, Repr

inductive EpisodeMode
  | none
  | inOrder
  | marathon
  | randomized
  | rotate
deriving DecidableEq, Repr

inductive Exhaustion
  | loop
  | slate
deriving DecidableEq, Repr

inductive Anchor
  | channelCursor
  | blockStart
deriving DecidableEq, Repr

inductive Overrun
  | finish
  | cut
  | fit
deriving DecidableEq, Repr

/-- A rule of a channel. `limit` is the semantic limit of its query, zero for none, and
`leastPlayed` tells that it is ordered by the play history. -/
structure Rule where
  id : String
  leastPlayed : Bool
  mode : Mode
  episodeMode : EpisodeMode
  exhaustion : Exhaustion
  deduplicationWindow : ℕ
  maxConsecutive : ℕ
  limit : ℕ
  weights : List (ℕ × ℚ)
deriving DecidableEq

/-- A block of a day, at its instants. -/
structure ResolvedBlock where
  id : String
  ruleID : String
  start : ℤ
  stop : ℤ
  priority : ℤ
  overrun : Overrun
  anchor : Anchor
  fallback : Option String
deriving DecidableEq, Repr

/-! ## Rows -/

/-- A row of `lc_candidates`. Items and shows are numbers; show zero is none. -/
structure Candidate where
  item : ℕ
  library : String
  asset : String
  sourceFence : String
  durationMS : ℤ
  title : String
  showID : ℕ
  season : ℤ
  episode : ℤ
  weight : ℚ
  sortKey : String
  duration_pos : 0 < durationMS
  weight_pos : 0 < weight
deriving DecidableEq

/-- The occurrence id of an entry, which is a hash of these values. -/
inductive Occurrence
  | slot (channelID ruleID : String) (start stop : ℤ) (item : ℕ) (sourceFence : String)
  | gap (channelID : String) (start stop : ℤ)
deriving DecidableEq, Repr

def Occurrence.start : Occurrence → ℤ
  | .slot _ _ start _ _ _ => start
  | .gap _ start _ => start

/-- A row of `lc_entries`: a programme, or a slate without an item. -/
structure Entry where
  id : Occurrence
  startMS : ℤ
  endMS : ℤ
  item : ℕ
  asset : String
  library : String
  sourceFence : String
  title : String
  ruleID : String
  blockID : String
  slateReason : String
  positive : startMS < endMS
  started : id.start = startMS
deriving DecidableEq

/-- A row of `lc_rule_state`. No last sort key is the empty text, no last show is zero. -/
structure RuleCursor where
  draw : ℕ
  cycle : ℕ
  lastSort : String
  lastShow : ℕ
  lastBlock : String
  done : Bool
deriving DecidableEq, Repr

instance : Inhabited RuleCursor := ⟨⟨0, 0, "", 0, "", false⟩⟩

/-- A row of `lc_used`: the cycle in which a rule last selected an item. -/
structure Use where
  rule : String
  item : ℕ
  cycle : ℕ
deriving DecidableEq, Repr

/-- The rows of a generation: the pools in the order of their ordinals, which are dense from zero,
and the entries in the order of their starts. -/
structure Tables where
  pool : String → List Candidate
  entries : List Entry
  ruleState : String → Option RuleCursor
  used : List Use

/-- A rule's cursor, or the zero one when it has none yet. -/
def Tables.readRuleCursor (t : Tables) (rule : String) : RuleCursor := (t.ruleState rule).getD default

/-- An item was selected in a cycle of the rule. -/
def Tables.isUsed (t : Tables) (rule : String) (item cycle : ℕ) : Bool :=
  t.used.any fun u => u.rule = rule && u.item = item && u.cycle = cycle

/-- The show of an entry's item, as the first rule that has it says, or zero. -/
def Tables.showOf (t : Tables) (rules : List String) (item : ℕ) : ℕ :=
  (((rules.insertionSort (· ≤ ·)).findSome? fun rule =>
    (t.pool rule).find? fun c => c.item = item).map Candidate.showID).getD 0

/-! ## History -/

/-- What consecutive entries have in common: the show, or the item without one. -/
def group (item show_ : ℕ) : ℕ := if show_ = 0 then item else show_

def Candidate.group (c : Candidate) : ℕ := LibraryChannels.group c.item c.showID

/-- What the latest entries say: the items not to repeat, and how often the last group came in a
row. -/
structure History where
  recent : List ℕ
  lastGroup : ℕ
  consecutive : ℕ
deriving DecidableEq, Repr

/-- The latest entries, the newest first, as far as the rule looks back. -/
def Tables.history (t : Tables) (rules : List String) (r : Rule) : History :=
  let rows := (t.entries.reverse.take (max r.deduplicationWindow r.maxConsecutive)).map fun e =>
    (e.item, t.showOf rules e.item)
  let groups := rows.map fun row => LibraryChannels.group row.1 row.2
  let lastGroup := groups.headD 0
  { recent := ((rows.take r.deduplicationWindow).map Prod.fst).filter (· ≠ 0)
    lastGroup
    consecutive := (groups.takeWhile fun g => g ≠ 0 && g = lastGroup).length }

/-! ## The walk -/

def Rule.inOrder (r : Rule) : Bool :=
  r.episodeMode = .inOrder || r.episodeMode = .marathon || r.episodeMode = .rotate

/-- Sequential selection walks the pool; everything else draws. -/
def Rule.sequential (r : Rule) (cursor : RuleCursor) : Bool :=
  (r.mode = .sequential || r.mode = .sequentialThenShuffle && cursor.cycle = 0 ||
    r.episodeMode = .rotate) && r.episodeMode ≠ .randomized

/-- What was selected in the cycle is not selected again. -/
def Rule.bag (r : Rule) : Bool :=
  r.mode ≠ .weightedRandom || r.inOrder || r.exhaustion = .slate

/-- A selection: the rows it reads, what it is for, and how the rule stands. -/
structure Walk where
  tables : Tables
  rule : Rule
  block : ResolvedBlock
  history : History
  remaining : ℤ

variable (w : Walk)

/-- The pool of the rule. -/
def Walk.pool : List Candidate := w.tables.pool w.rule.id

def Walk.isUsed (cursor : RuleCursor) (c : Candidate) : Bool :=
  w.tables.isUsed w.rule.id c.item cursor.cycle

/-- The duration, repeat and consecutive constraints. -/
def Walk.fits (c : Candidate) : Bool :=
  !w.history.recent.contains c.item &&
    !(w.history.lastGroup ≠ 0 && w.rule.maxConsecutive ≤ w.history.consecutive &&
      c.group = w.history.lastGroup) &&
    !(w.block.overrun = .fit && w.remaining < c.durationMS)

/-- The condition of every form of the selection. -/
def Walk.where_ (cursor : RuleCursor) (c : Candidate) : Bool :=
  !(w.rule.bag && w.isUsed cursor c) && w.fits c

/-- The order of a show's episodes. -/
def Candidate.before (c d : Candidate) : Bool :=
  c.season < d.season || c.season = d.season &&
    (c.episode < d.episode || c.episode = d.episode && c.item < d.item)

/-- The order of the walk. -/
def Candidate.sortsBefore (c d : Candidate) : Bool :=
  c.sortKey < d.sortKey || c.sortKey = d.sortKey && c.item < d.item

/-- The first one in an order. -/
def firstBy {α : Type*} (before : α → α → Bool) : List α → Option α
  | [] => none
  | a :: l =>
    match firstBy before l with
    | none => some a
    | some b => if before b a then some b else some a

/-- All earlier episodes of the show were selected in the cycle. -/
def Walk.inOrderWalk (cursor : RuleCursor) (c : Candidate) : Bool :=
  c.showID = 0 || !w.pool.any fun earlier =>
    earlier.showID = c.showID && earlier.before c && !w.isUsed cursor earlier

/-- The next episode of some show: the first one that wasn't selected in the cycle. -/
def Walk.inOrderHeads (cursor : RuleCursor) (c : Candidate) : Bool :=
  c.showID = 0 || w.pool.any fun s => s.showID ≠ 0 &&
    (firstBy Candidate.before (w.pool.filter fun h =>
      h.showID = s.showID && !w.isUsed cursor h)).any fun h => h.item = c.item

/-- **What a rule may select**, one candidate at a time. -/
def Walk.admits (cursor : RuleCursor) (c : Candidate) : Bool :=
  w.where_ cursor c && (!w.rule.inOrder || w.inOrderWalk cursor c) &&
    (!w.rule.sequential cursor || decide (cursor.lastSort < c.sortKey))

/-! ## Draws -/

def drawProposals : ℕ := 64
def drawRounds : ℕ := 8

/-- What the hash of a seed, a draw and an index gives: fractions from zero, less than one. -/
structure Chance where
  unit : String → ℕ → ℚ
  ordinal : String → ℕ → ℕ → ℚ
  threshold : String → ℕ → ℕ → ℚ
  unit_nonneg : ∀ key draw, 0 ≤ unit key draw
  unit_lt : ∀ key draw, unit key draw < 1

/-- The bound of a rule's weights. -/
def maxWeight (r : Rule) : ℚ := r.weights.foldl (fun top w => max top w.2) 1

/-- The proposals of a draw, tested in order. -/
def Walk.proposeCandidate (chance : Chance) (key : String) (cursor : RuleCursor) :
    Option Candidate :=
  let top := if w.rule.mode = .weightedRandom then maxWeight w.rule else 0
  (List.range (drawRounds * drawProposals)).findSome? fun i =>
    (w.pool[(⌊chance.ordinal key cursor.draw i * w.pool.length⌋).toNat]?).filter fun c =>
      decide (chance.threshold key cursor.draw i * top < c.weight) && w.admits cursor c

/-- The first one at which the running sum of the weights is over the ticket. -/
def weigh (ticket : ℚ) : ℚ → List Candidate → Option Candidate
  | _, [] => none
  | running, c :: l =>
    if ticket < running + c.weight then some c else weigh ticket (running + c.weight) l

/-- The exact draw over the eligible set. -/
def Walk.countedDraw (chance : Chance) (key : String) (cursor : RuleCursor) : Option Candidate :=
  let eligible := w.pool.filter fun c =>
    w.where_ cursor c && (!w.rule.inOrder || w.inOrderHeads cursor c)
  if w.rule.mode = .weightedRandom then
    weigh (chance.unit key cursor.draw * (eligible.map Candidate.weight).sum) 0 eligible
  else eligible[(⌊chance.unit key cursor.draw * eligible.length⌋).toNat]?

/-! ## Selection -/

/-- A marathon stays with its show while the show has an eligible episode. -/
def Walk.marathon (cursor : RuleCursor) : Option Candidate :=
  if w.rule.episodeMode = .marathon && cursor.lastShow ≠ 0 &&
      !(w.history.lastGroup = cursor.lastShow && w.rule.maxConsecutive ≤ w.history.consecutive) then
    firstBy Candidate.sortsBefore (w.pool.filter fun c => w.admits cursor c && c.showID = cursor.lastShow)
  else none

/-- One attempt of a selection. -/
def Walk.pick (chance : Chance) (seed : String) (cursor : RuleCursor) : Option Candidate :=
  let key := seed ++ ":" ++ w.rule.id ++ ":" ++ cursor.lastBlock
  (w.marathon cursor).or <|
    if w.rule.sequential cursor then firstBy Candidate.sortsBefore (w.pool.filter (w.admits cursor))
    else (w.proposeCandidate chance key cursor).or (w.countedDraw chance key cursor)

/-- The cursor after a candidate was selected. -/
def Walk.advance (cursor : RuleCursor) (c : Candidate) : RuleCursor :=
  { cursor with
    draw := cursor.draw + 1
    lastSort := c.sortKey
    lastShow := c.showID
    lastBlock := w.block.id }

/-- Some candidate wasn't selected in the cycle. -/
def Walk.unused (cursor : RuleCursor) : Bool := w.pool.any fun c => !w.isUsed cursor c

/-- The cursor at the start of the next cycle. -/
def RuleCursor.restart (cursor : RuleCursor) : RuleCursor :=
  { cursor with cycle := cursor.cycle + 1, lastSort := "", lastShow := 0 }

/-- The attempts: a loop resets at most once. -/
def Walk.attempts (chance : Chance) (seed : String) : ℕ → RuleCursor → RuleCursor × Option Candidate
  | 0, cursor => (cursor, none)
  | n + 1, cursor =>
    match w.pick chance seed cursor with
    | some c => (w.advance cursor c, some c)
    | none =>
      -- Fit and repeat constraints are not exhaustion.
      if w.unused cursor then (cursor, none)
      else if w.rule.exhaustion = .slate then ({ cursor with done := true }, none)
      else attempts chance seed n cursor.restart

/-- The cursor a slot begins with: a block-start anchor begins a cycle with every new block. -/
def Walk.anchored (cursor : RuleCursor) : RuleCursor :=
  if w.block.anchor = .blockStart && cursor.lastBlock ≠ w.block.id then
    { (default : RuleCursor) with cycle := cursor.cycle + 1, lastBlock := w.block.id }
  else cursor

/-- **The selection** for a slot: the rule's new cursor, when it has one, and the candidate. -/
def Walk.selectCandidate (chance : Chance) (seed : String) (cursor : RuleCursor) :
    Option RuleCursor × Option Candidate :=
  let cursor := w.anchored cursor
  if cursor.done then (none, none)
  else
    let (cursor, found) := w.attempts chance seed 2 cursor
    (some cursor, found)

end Portico.LibraryChannels
