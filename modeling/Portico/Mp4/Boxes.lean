import Portico.Lib.Bytes
import Portico.Lib.Outcome

/-!
# The boxes of fragmented MP4

An init segment and its media are strings of bytes that are cut into boxes, nested in some of them.
Every read is checked here: one outside the string would stop the program, and is a fault of its own
beside the refusal of what is malformed. The fragments of a window are read for their decode times,
and for the composition offsets of their samples, and both are written anew, for a window that
starts at a given tick of each track.

## Main definitions

* `Fault`: a refusal, a read or write out of range, or a loop that doesn't end
* `mp4Boxes`, `mp4Child`: the boxes of a range, and the first of a kind
* `mp4Timescales`: the time scale of each track
* `presentationOriginInit`: the init segment with an edit of one second for each track
* `Stamp`, `Composition`, `Scan`: what is read of the fragments
* `scanRun`, `scanTraf`, `scanFragments`: the reading, run by run
* `rebaseFragments`: the fragments on the new clock
-/

namespace Portico.Mp4

open Bytes Words

inductive Fault where
  | box
  | range
  | fuel
  deriving DecidableEq, Repr

structure Box where
  kind : Data
  start : ℕ
  body : ℕ
  stop : ℕ
  deriving DecidableEq, Repr

def byteAt (data : Data) (i : ℕ) : Except Fault ℕ := require .range (wordAt 1 data i)

def uint32 (data : Data) (i : ℕ) : Except Fault ℕ := require .range (wordAt 4 data i)

def uint64 (data : Data) (i : ℕ) : Except Fault ℕ := require .range (wordAt 8 data i)

def bytesAt (data : Data) (i j : ℕ) : Except Fault Data :=
  if i ≤ j ∧ j ≤ data.length then .ok (slice data i j) else .error .range

/-! ## Boxes -/

/-- The size of a box and of its header, as they are written. -/
def sizeAt (data : Data) (room i : ℕ) : Except Fault (ℕ × ℕ) := do
  let size ← uint32 data i
  if size = 1 then
    if room < 16 then .error .box
    else
      let size ← uint64 data (i + 8)
      return (size, 16)
  else return (size, 8)

/-- The boxes from a place on, after those already found. -/
def boxesFrom (data : Data) (stop : ℕ) : ℕ → ℕ → ℕ → Except Fault (List Box)
  | 0, i, _ => if i < stop then .error .fuel else .ok []
  | fuel + 1, i, found =>
    if i < stop then
      if stop - i < 8 then .error .box
      else do
        let (size, header) ← sizeAt data (stop - i) i
        -- a box without a size goes on to the end
        let size := if size = 0 then stop - i else size
        if size < header ∨ size > stop - i ∨ found > 100000 then .error .box
        else do
          let kind ← bytesAt data (i + 4) (i + 8)
          let rest ← boxesFrom data stop fuel (i + size) (found + 1)
          return ⟨kind, i, i + header, i + size⟩ :: rest
    else .ok []

def mp4Boxes (data : Data) (start stop : ℕ) : Except Fault (List Box) :=
  boxesFrom data stop (stop - start) start 0

def mp4Child (data : Data) (parent : Box) (kind : String) : Except Fault Box := do
  let boxes ← mp4Boxes data parent.body parent.stop
  require .box (boxes.find? fun b => b.kind = ascii kind)

/-! ## Time scales -/

/-- The tracks that have been read, the last one first, with their time scales. -/
abbrev Scales := List (ℕ × ℕ)

/-- The identity and the time scale of a track. -/
def trackScale (init : Data) (t : Box) : Except Fault (ℕ × ℕ) := do
  let tk ← mp4Child init t "tkhd"
  let md ← mp4Child init t "mdia"
  let hd ← mp4Child init md "mdhd"
  if tk.stop - tk.body < 4 ∨ hd.stop - hd.body < 4 then .error .box
  else do
    let tv ← byteAt init tk.body
    let hv ← byteAt init hd.body
    if tv > 1 ∨ hv > 1 then .error .box
    else
      let ti := tk.body + if tv = 1 then 20 else 12
      let mi := hd.body + if hv = 1 then 20 else 12
      if ti + 4 > tk.stop ∨ mi + 4 > hd.stop then .error .box
      else do
        let id ← uint32 init ti
        let scale ← uint32 init mi
        if scale = 0 then .error .box else return (id, scale)

def addTrack (init : Data) (out : Scales) (t : Box) : Except Fault Scales :=
  if t.kind ≠ ascii "trak" then .ok out
  else do
    let s ← trackScale init t
    return s :: out

def addTracks (init : Data) (out : Scales) (b : Box) : Except Fault Scales :=
  if b.kind ≠ ascii "moov" then .ok out
  else do
    let tracks ← mp4Boxes init b.body b.stop
    tracks.foldlM (addTrack init) out

def mp4Timescales (init : Data) : Except Fault Scales := do
  let boxes ← mp4Boxes init 0 init.length
  let out ← boxes.foldlM (addTracks init) []
  if out = [] then .error .box else return out

/-! ## The edit of one second -/

/-- A box as it is written: its size in 32 bits. -/
def box (kind body : Data) : Data := wordBytes 4 (8 + body.length) ++ kind ++ body

/-- An edit list with one edit, which begins one second into the media. -/
def edit (scale : ℕ) : Data :=
  wordBytes 4 0 ++ wordBytes 4 1 ++ wordBytes 4 0 ++ wordBytes 4 scale ++ wordBytes 2 1 ++
    wordBytes 2 0

def edts (scale : ℕ) : Data := box (ascii "edts") (box (ascii "elst") (edit scale))

def isContainer (kind : Data) : Bool := kind = ascii "moov" || kind = ascii "trak"

/-- The identity in the last track header of a track, from that of the headers before it. -/
def headerId (data : Data) (id : ℕ) (p : Box) : Except Fault ℕ :=
  if p.kind ≠ ascii "tkhd" then .ok id
  else do
    let v ← byteAt data p.body
    let i := p.body + if v = 1 then 20 else 12
    if i + 4 > p.stop then .error .box else uint32 data i

def maxInt32 : ℕ := 2 ^ 31 - 1

/-- The edit list for a track of a given identity. -/
def idEdit (scales : Scales) (id : ℕ) : Except Fault Data :=
  match scales.lookup id with
  | none => .error .box
  | some scale => if scale > maxInt32 then .error .box else .ok (edts scale)

/-- The edit list that a track gets. -/
def trackEdit (scales : Scales) (data : Data) (parts : List Box) : Except Fault Data := do
  let id ← parts.foldlM (headerId data) 0
  idEdit scales id

/-- Whether a box is left out: the edit list of a track. -/
def isDropped (parent kind : Data) : Bool := parent = ascii "trak" && kind = ascii "edts"

def piece (parent kind body : Data) : Data := if isDropped parent kind then [] else box kind body

/-- The boxes of a container, without the edit lists of tracks and with new ones. -/
def rewrite (scales : Scales) : ℕ → Data → Data → Except Fault Data
  | 0, _, _ => .error .fuel
  | fuel + 1, data, parent => do
    let parts ← mp4Boxes data 0 data.length
    let pieces ← parts.mapM fun part => do
      let body ← bytesAt data part.body part.stop
      if isContainer part.kind then do
        let inner ← rewrite scales fuel body part.kind
        return piece parent part.kind inner
      else return piece parent part.kind body
    if parent = ascii "trak" then
      let edts ← trackEdit scales data parts
      return pieces.flatten ++ edts
    else return pieces.flatten

def presentationOriginInit (init : Data) : Except Fault Data := do
  let scales ← mp4Timescales init
  rewrite scales (init.length + 1) init []

end Portico.Mp4

/-! # Fragments on an absolute clock -/

namespace Portico.Mp4

open Bytes Words

/-- A number of 64 bits with a sign, as arithmetic leaves it. -/
def int64 (z : ℤ) : ℤ := Int.bmod z (2 ^ 64)

/-- The decode time of a fragment, and where it stands. -/
structure Stamp where
  place : ℕ
  version : ℕ
  value : ℕ
  track : ℕ
  deriving DecidableEq, Repr

/-- The composition offset of a sample, and where it and its run's version stand. -/
structure Composition where
  place : ℕ
  versionAt : ℕ
  value : ℤ
  track : ℕ
  deriving DecidableEq, Repr

structure Scan where
  stamps : List Stamp
  first : List (ℕ × ℕ)
  compositions : List Composition
  minimum : List (ℕ × ℤ)

def Scan.empty : Scan := ⟨[], [], [], []⟩

/-! ## Samples -/

/-- The flags of a full box, without its version. -/
def flagsAt (data : Data) (i : ℕ) : Except Fault ℕ := do
  let w ← uint32 data i
  return w % 2 ^ 24

/-- The number of bytes of a field that is there if a flag is set. -/
def field (flags bit bytes : ℕ) : ℕ := if flags.testBit bit then bytes else 0

/-- A field of four bytes in a range that has to hold it, or a default where it isn't there. -/
def fieldAt (data : Data) (stop flags bit i default : ℕ) : Except Fault ℕ :=
  if flags.testBit bit then
    if i + 4 > stop then .error .box else uint32 data i
  else .ok default

/-- A word as a number with a sign. -/
def int32 (w : ℕ) : ℤ := Int.bmod w (2 ^ 32)

/-- A run of samples, as its header describes it. -/
structure Run where
  track : ℕ
  body : ℕ
  stop : ℕ
  version : ℕ
  flags : ℕ
  defaultDuration : ℕ

/-- Where the reading of a run has come to: the next place and the decode time there. -/
structure Reader where
  scan : Scan
  cursor : ℕ
  decode : ℤ

def Scan.present (s : Scan) (track : ℕ) (presentation : ℤ) : Scan :=
  match s.minimum.lookup track with
  | none => { s with minimum := (track, presentation) :: s.minimum }
  | some old =>
    if presentation < old then { s with minimum := (track, presentation) :: s.minimum } else s

def Scan.compose (s : Scan) (c : Composition) : Scan :=
  { s with compositions := s.compositions ++ [c] }

/-- One sample of a run. -/
def scanSample (media : Data) (run : Run) (r : Reader) : Except Fault Reader := do
  let duration ← fieldAt media run.stop run.flags 8 r.cursor run.defaultDuration
  let at' := r.cursor + field run.flags 8 4 + field run.flags 9 4 + field run.flags 10 4
  let word ← fieldAt media run.stop run.flags 11 at' 0
  let offset := if run.version = 1 then int32 word else word
  let scan := if run.flags.testBit 11 then r.scan.compose ⟨at', run.body, offset, run.track⟩
    else r.scan
  let cursor := at' + field run.flags 11 4
  if cursor > run.stop then .error .box
  else return {
    scan := scan.present run.track (int64 (r.decode + offset))
    cursor := cursor
    decode := int64 (r.decode + duration) }

def scanSamples (media : Data) (run : Run) : ℕ → Reader → Except Fault Reader
  | 0, r => .ok r
  | n + 1, r => do
    let r ← scanSample media run r
    scanSamples media run n r

/-- One child of a track fragment: a run, or something else. The reader keeps the decode time
from run to run. -/
def scanRun (media : Data) (track defaultDuration : ℕ) (r : Scan × ℤ) (b : Box) :
    Except Fault (Scan × ℤ) :=
  if b.kind ≠ ascii "trun" then .ok r
  else if b.stop - b.body < 8 then .error .box
  else do
    let flags ← flagsAt media b.body
    let n ← uint32 media (b.body + 4)
    if n > 1000000 then .error .box
    else do
      let version ← byteAt media b.body
      let run : Run := ⟨track, b.body, b.stop, version, flags, defaultDuration⟩
      let cursor := b.body + 8 + field flags 0 4 + field flags 2 4
      let r ← scanSamples media run n ⟨r.1, cursor, r.2⟩
      return (r.scan, r.decode)

/-! ## Fragments -/

/-- The decode time of a fragment: its place, version and value. -/
def decodeTime (media : Data) (dt : Box) : Except Fault (ℕ × ℕ × ℕ) :=
  if dt.stop - dt.body < 8 then .error .box
  else do
    let v ← byteAt media dt.body
    let word ← uint32 media (dt.body + 4)
    if v = 1 then
      if dt.body + 12 > dt.stop then .error .box
      else do
        let value ← uint64 media (dt.body + 4)
        return (dt.body + 4, v, value)
    else if v ≠ 0 then .error .box
    else return (dt.body + 4, v, word)

def Scan.stamp (s : Scan) (t : Stamp) : Scan :=
  { s with
    stamps := s.stamps ++ [t]
    first := if (s.first.lookup t.track).isSome then s.first else (t.track, t.value) :: s.first }

/-- One child of a fragment: the part of a track, or something else. -/
def scanTraf (scales : Scales) (media : Data) (s : Scan) (traf : Box) : Except Fault Scan :=
  if traf.kind ≠ ascii "traf" then .ok s
  else do
    let hd ← mp4Child media traf "tfhd"
    if hd.stop - hd.body < 8 then .error .box
    else do
      let id ← uint32 media (hd.body + 4)
      let dt ← mp4Child media traf "tfdt"
      let (place, version, value) ← decodeTime media dt
      if (scales.lookup id).isNone then .error .box
      else do
        let s := s.stamp ⟨place, version, value, id⟩
        let children ← mp4Boxes media traf.body traf.stop
        let flags ← flagsAt media hd.body
        let cursor := hd.body + 8 + field flags 0 8 + field flags 1 4
        let defaultDuration ← fieldAt media hd.stop flags 3 cursor 0
        let first := (s.first.lookup id).getD 0
        let (s, _) ← children.foldlM (scanRun media id defaultDuration)
          (s, int64 ((value : ℤ) - first))
        return s

def scanFragment (scales : Scales) (media : Data) (s : Scan) (b : Box) : Except Fault Scan :=
  if b.kind ≠ ascii "moof" then .ok s
  else do
    let trafs ← mp4Boxes media b.body b.stop
    trafs.foldlM (scanTraf scales media) s

def scanFragments (scales : Scales) (media : Data) : Except Fault Scan := do
  let boxes ← mp4Boxes media 0 media.length
  boxes.foldlM (scanFragment scales media) Scan.empty

/-! ## The new clock -/

def putAt (data : Data) (i : ℕ) (bs : Data) : Except Fault Data := require .range (Words.put data i bs)

/-- A composition offset from the origin of its track, one second on, in a run without signs. -/
def moveComposition (scales : Scales) (s : Scan) (media : Data) (c : Composition) :
    Except Fault Data :=
  let value := int64 (c.value - (s.minimum.lookup c.track).getD 0 +
    ((scales.lookup c.track).getD 0 : ℕ))
  if value < 0 ∨ value > maxInt32 then .error .box
  else do
    let media ← putAt media c.versionAt [0]
    putAt media c.place (wordBytes 4 value.toNat)

/-- A decode time from the first of its track, on the clock of the window. -/
def moveStamp (scales : Scales) (s : Scan) (ticks : ℕ → ℕ) (media : Data) (t : Stamp) :
    Except Fault Data :=
  let scale := (scales.lookup t.track).getD 0
  let base := if s.compositions.any fun c => c.track = t.track then ticks t.track
    else ticks t.track + scale
  let first := (s.first.lookup t.track).getD 0
  if t.value < first then .error .box
  else
    let value := (base + t.value - first) % 2 ^ 64
    if t.version = 0 then
      if value ≥ 2 ^ 32 then .error .box else putAt media t.place (wordBytes 4 value)
    else putAt media t.place (wordBytes 8 value)

/-- The fragments of a window that starts at the given tick of each track. -/
def rebaseFragments (ticks : ℕ → ℕ) (init media : Data) : Except Fault Data := do
  let scales ← mp4Timescales init
  let s ← scanFragments scales media
  if s.stamps = [] then .error .box
  else do
    let media ← s.compositions.foldlM (moveComposition scales s) media
    s.stamps.foldlM (moveStamp scales s ticks) media

end Portico.Mp4
