import Portico.LiveBuffer.Buffer

/-!
# The publisher

An encoder uploads its segments, one init and a manifest after every segment. A publisher keeps the
segments until a manifest names them, dates them by their presentation time, and appends them to the
buffer. FFmpeg can start an upload before the server has finished an earlier one, so it keeps the
newest manifest until the segments it lists have arrived.

## Main definitions

* `parseManifest`: the entries of a manifest
* `date`: the time a segment starts at, from its clock
* `Publisher`, `publish`, `flushManifest`, `acceptManifest`, `store`, `storeInit`, `serve`: an upload
-/

namespace Portico.LiveBuffer

/-! ## The manifest -/

/-- A line of a manifest. The duration of `#EXTINF` is in microseconds, `none` where the number
isn't accepted; a name carries its number when it has the form of a private segment name. -/
inductive Line
  | header
  | blank
  | extinf (durationUS : Option ℤ)
  | map
  | forbidden
  | endlist
  | tag
  | segment (fragmented : Bool) (number : ℤ)
  | other
deriving DecidableEq, Repr

/-- A segment of a manifest. -/
structure ManifestEntry where
  number : ℤ
  durationUS : ℤ
deriving DecidableEq, Repr

/-- The lines after the header; `values` are the entries so far and `duration` is the last
`#EXTINF` that no name followed yet. -/
def parseLines (fragmented : Bool) (values : List ManifestEntry) (duration : ℤ) :
    List Line → Except Fault (List ManifestEntry)
  | [] => if duration ≠ 0 ∨ values = [] then .error .media else .ok values
  | line :: lines =>
    match line with
    | .blank | .header | .endlist | .tag => parseLines fragmented values duration lines
    | .extinf d =>
      match d with
      | none => .error .media
      | some d => if duration ≠ 0 then .error .media else parseLines fragmented values d lines
    -- the only addressed tag a producer writes is its own init segment
    | .map => if fragmented then parseLines fragmented values duration lines else .error .media
    | .forbidden => .error .media
    | .segment m4s n =>
      if duration = 0 ∨ m4s ≠ fragmented ∨ 32 ≤ values.length then .error .media
      else if values.getLast?.any fun v => n ≤ v.number then .error .media
      else parseLines fragmented (values ++ [⟨n, duration⟩]) 0 lines
    | .other => .error .media

/-- The entries of a manifest. -/
def parseManifest (fragmented : Bool) : List Line → Except Fault (List ManifestEntry)
  | .header :: lines => parseLines fragmented [] 0 lines
  | _ => .error .media

/-! ## Clocks -/

/-- The first and the last presentation time of a segment, in ticks of 90 kHz. -/
structure Clock where
  min : ℤ
  max : ℤ
deriving DecidableEq, Repr

/-- Presentation times have 33 bits. -/
def ptsWrap : ℤ := 2 ^ 33

/-- A presentation time as near to another as wraps allow: the loops add or subtract one wrap at a
time until the two are within half a wrap. -/
def unwrap (value near : ℤ) : ℤ :=
  if ptsWrap / 2 < value - near then
    value - ptsWrap * ((value - near - ptsWrap / 2 + (ptsWrap - 1)) / ptsWrap)
  else if ptsWrap / 2 < near - value then
    value + ptsWrap * ((near - value - ptsWrap / 2 + (ptsWrap - 1)) / ptsWrap)
  else value

/-- Ticks in microseconds. -/
def ticksUS (n : ℤ) : ℤ := (n * 1000000).tdiv 90000

/-- The producer a publisher accepts uploads of. -/
structure Producer where
  id : ℤ
  fragmented : Bool
  scheduled : Bool
  timelineBaseMS : ℤ
  endMS : ℤ
deriving DecidableEq, Repr

/-- Where the presentation times lie on the buffer's clock. -/
structure Timeline where
  anchored : Bool
  anchorPTS : ℤ
  anchorUS : ℤ
  previousPTS : ℤ
  previousEndUS : ℤ
deriving DecidableEq, Repr

/-- The clock of a segment, next to the segment before it. -/
def Timeline.straighten (t : Timeline) (c : Clock) : Clock :=
  let minimum := if t.anchored then unwrap c.min t.previousPTS else c.min
  let maximum := if t.anchored then unwrap c.max minimum else c.max
  ⟨minimum, if maximum < minimum then maximum + ptsWrap else maximum⟩

/-- How long a segment's presentation times span, in microseconds. -/
def Clock.span (c : Clock) : ℤ := ticksUS (c.max - c.min)

/-- The first segment sets the anchor: it ends now, or starts where the window ends. -/
def Timeline.anchor (producer : Producer) (now : ℤ) (lastEnd : Option ℤ) (duration minimum : ℤ)
    (t : Timeline) : Timeline :=
  if t.anchored then t
  else
    { t with
      anchored := true
      anchorPTS := minimum
      anchorUS :=
        if producer.scheduled then producer.timelineBaseMS * 1000 + ticksUS minimum
        else lastEnd.elim (now - duration) (max (now - duration)) }

/-- The timeline after a segment is dated, the time it starts at, and whether its clock restarted. -/
def date (producer : Producer) (now : ℤ) (lastEnd : Option ℤ) (duration : ℤ) (clock : Clock)
    (t : Timeline) : Except Fault (Timeline × ℤ × Bool) :=
  let c := t.straighten clock
  if duration + 500000 < c.span ∨ c.span + 2000000 < duration then .error .media
  else
    let t := t.anchor producer now lastEnd duration c.min
    let start :=
      if producer.scheduled then producer.timelineBaseMS * 1000 + ticksUS c.min
      else t.anchorUS + ticksUS (c.min - t.anchorPTS)
    if t.previousEndUS ≠ 0 ∧ start < t.previousEndUS - 50000 then
      if producer.scheduled then .error .media
      else
        -- a restarted source clock gets a new anchor
        let anchorUS := max t.previousEndUS (now - duration)
        .ok ({ t with anchorPTS := c.min, anchorUS := anchorUS }, anchorUS, true)
    else .ok (t, start, false)

/-! ## The publisher -/

/-- The init segment an encoder uploads: its hash, its size and whether it is one. -/
structure InitBody where
  hash : ℕ
  bytes : ℤ
  valid : Bool
deriving DecidableEq, Repr

/-- A segment an encoder uploads: its hash, its size and the clock read from it, for a fragment
together with its init. -/
structure Body where
  hash : ℕ
  bytes : ℤ
  clock : Option InitBody → Option Clock

/-- The smallest and the largest init. -/
def minInitBytes : ℤ := 16

def maxInitBytes : ℤ := 4 * 2 ^ 20

/-- How many segments may wait for a manifest. -/
def maxPending : ℕ := 8

/-- A segment that waits for a manifest. -/
structure Pending where
  number : ℤ
  path : File
  body : Body

/-- What the publisher's mutex guards. -/
structure Publisher where
  producer : Producer
  final : Bool
  manifest : Option (List Line)
  manifestLast : ℤ
  failure : Option Fault
  pending : List Pending
  hashes : ℤ → Option ℕ
  last : ℤ
  timeline : Timeline
  closed : Bool
  init : Option InitBody

/-- What lies outside: the name of a new file, the clock when a segment is dated, and whether the
producer may still publish, at the start of an upload and when a segment is appended. -/
structure Env where
  path : File
  now : ℤ → ℤ
  check : Bool
  checks : ℤ → Bool

/-- Why publishing stops: a segment or the init hasn't arrived, or something is wrong. -/
inductive Stop
  | outputPending
  | fault (f : Fault)
deriving DecidableEq, Repr

/-- What an upload leads to. -/
structure Output where
  publisher : Publisher
  buffer : Buffer
  appended : List (ℤ × Segment)
  stop : Option Stop

/-- An upload. -/
inductive Request
  | manifest (raw : List Line)
  | init (body : InitBody)
  | segment (fragmented : Bool) (number : ℤ) (body : Body)
  | other

namespace Publisher

/-- A new publisher. -/
def new (producer : Producer) : Publisher where
  producer := producer
  final := false
  manifest := none
  manifestLast := 0
  failure := none
  pending := []
  hashes := fun _ => none
  last := -1
  timeline := ⟨false, 0, 0, 0, 0⟩
  closed := false
  init := none

/-- One segment is dated and appended. A publisher that fails isn't used again, so what a failing
call leaves half done is left out. -/
def publishOne (env : Env) (entry : ManifestEntry) (value : Pending) (p : Publisher) (b : Buffer) :
    Except Fault (Publisher × Buffer × Segment) :=
  match value.body.clock (if p.producer.fragmented then p.init else none) with
  | none => .error .media
  | some clock =>
    match date p.producer (env.now entry.number) (b.segments.getLast?.map Segment.endUS)
      entry.durationUS clock p.timeline with
    | .error f => .error f
    | .ok (t, start, discontinuity) =>
      let stop := start + entry.durationUS
      if p.producer.scheduled ∧ p.producer.endMS * 1000 + 100000 < stop then .error .media
      else if !env.checks entry.number then .error .retired
      else
        let s : Segment :=
          ⟨0, p.producer.id, p.producer.fragmented, value.path, start, stop, value.body.bytes,
            discontinuity, 0⟩
        match b.append s with
        | .error f => .error f
        | .ok b =>
          .ok
            ({ p with
              pending := p.pending.filter fun v => v.number ≠ entry.number
              hashes := fun n =>
                if n < entry.number - 32 then none
                else Function.update p.hashes entry.number (some value.body.hash) n
              last := entry.number
              timeline :=
                { t with
                  previousPTS := (p.timeline.straighten clock).max
                  previousEndUS := stop } }, b, s)

/-- The entries that are new are published in order, up to the first that hasn't arrived. -/
def publishFrom (env : Env) : List ManifestEntry → Publisher → Buffer → Output
  | [], p, b => ⟨p, b, [], none⟩
  | entry :: rest, p, b =>
    if entry.number ≤ p.last then publishFrom env rest p b
    else
      match p.pending.find? fun v => v.number = entry.number with
      | none => ⟨p, b, [], some .outputPending⟩
      | some value =>
        match publishOne env entry value p b with
        | .error f => ⟨p, b, [], some (.fault f)⟩
        | .ok (p, b, s) =>
          let out := publishFrom env rest p b
          { out with appended := (entry.number, s) :: out.appended }

/-- A manifest is published; a fragment needs its init first. -/
def publish (env : Env) (raw : List Line) (p : Publisher) (b : Buffer) : Output :=
  match parseManifest p.producer.fragmented raw with
  | .error f => ⟨p, b, [], some (.fault f)⟩
  | .ok entries =>
    if p.producer.fragmented ∧ p.init = none then ⟨p, b, [], some .outputPending⟩
    else publishFrom env entries p b

/-- The newest manifest is published as far as possible, and kept if something hasn't arrived. -/
def flushManifest (env : Env) (p : Publisher) (b : Buffer) : Output :=
  match p.manifest with
  | none => ⟨p, b, [], none⟩
  | some raw =>
    let out := publish env raw p b
    match out.stop with
    | some .outputPending => { out with stop := none }
    | some (.fault _) => out
    | none => { out with publisher := { out.publisher with manifest := none } }

/-- A manifest takes the place of the one that is kept, unless it is older. -/
def acceptManifest (env : Env) (raw : List Line) (p : Publisher) (b : Buffer) : Output :=
  match parseManifest p.producer.fragmented raw with
  | .error f => ⟨p, b, [], some (.fault f)⟩
  | .ok entries =>
    let last := (entries.getLast?.map ManifestEntry.number).getD 0
    if last < p.manifestLast then ⟨p, b, [], none⟩
    else
      flushManifest env
        { p with
          manifestLast := last
          final := p.final || decide (.endlist ∈ raw)
          manifest := some raw } b

/-- A segment is kept until a manifest names it. An identical repeat is accepted as long as its hash
is known. -/
def store (path : File) (fragmented : Bool) (number : ℤ) (body : Body) (p : Publisher) :
    Except Fault Publisher :=
  if fragmented ≠ p.producer.fragmented then .error .media
  else if maxPending ≤ p.pending.length then .error .media
  else if (body.bytes < 188 ∧ !p.producer.fragmented) ∨ body.bytes < 16 ∨
      maxSegmentBytes < body.bytes then .error .media
  else
    match p.hashes number with
    | some old => if old ≠ body.hash then .error .media else .ok p
    | none =>
      if number ≤ p.last then .error .expired
      else
        match p.pending.find? fun v => v.number = number with
        | some old => if old.body.hash ≠ body.hash then .error .media else .ok p
        | none => .ok { p with pending := ⟨number, path, body⟩ :: p.pending }

/-- The producer's init is registered. An identical repeat is accepted. -/
def storeInit (path : File) (body : InitBody) (p : Publisher) (b : Buffer) :
    Except Fault (Publisher × Buffer) :=
  if maxInitBytes < body.bytes ∨ body.bytes < minInitBytes then .error .media
  else
    match p.init with
    | some old => if old.hash ≠ body.hash then .error .media else .ok (p, b)
    | none =>
      if !body.valid then .error .media
      else
        match b.storeInit path body.bytes p.producer.id with
        | .error f => .error f
        | .ok b => .ok ({ p with init := some body }, b)

/-- An upload of a producer that is neither closed nor failed. -/
def handle (env : Env) (r : Request) (p : Publisher) (b : Buffer) : Output :=
  match r with
  | .manifest raw => acceptManifest env raw p b
  | .init body =>
    if !p.producer.fragmented then ⟨p, b, [], some (.fault .media)⟩
    else
      match storeInit env.path body p b with
      | .error f => ⟨p, b, [], some (.fault f)⟩
      | .ok (p, b) => flushManifest env p b
  | .segment fragmented number body =>
    match store env.path fragmented number body p with
    | .error f => ⟨p, b, [], some (.fault f)⟩
    | .ok p => flushManifest env p b
  | .other => ⟨p, b, [], some (.fault .media)⟩

/-- An upload: a publisher that failed or was closed, or whose producer is retired, refuses it, and
one whose upload is rejected has failed. -/
def serve (env : Env) (r : Request) (p : Publisher) (b : Buffer) : Output :=
  if p.closed ∨ p.failure ≠ none ∨ !env.check then ⟨p, b, [], none⟩
  else
    let out := handle env r p b
    match out.stop with
    | some (.fault f) => { out with publisher := { out.publisher with failure := some f } }
    | _ => out

end Publisher

end Portico.LiveBuffer
