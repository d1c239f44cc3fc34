import Portico.Lib.Bytes
import Portico.LiveBuffer.Publisher

/-!
# Presentation times of a transport stream

`linearbuffer/pts.go` reads the first and the last presentation time of a segment from its packets of 188
bytes. A packet that begins a unit of a picture or a sound has the time in five bytes of the unit's header,
with marker bits between its parts.

## Main definitions

* `readPacket`: the stamp of a packet, if it has one
* `observe`, `readFrom`, `readPTS`: the clock of each stream, and that of the preferred one
* `Packet`, `Packet.bytes`: the packets of a transport stream, and what they are written as
* `Access`: the presentation times that they carry

## Main results

* `readField_pesTime`: a time is read as it was written
* `readPacket_bytes`: so is a packet
* `readFrom_bytes`: and a stream
-/

namespace Portico.LiveBuffer

open Words

/-! ## Packets that are read -/

def packetSize : ℕ := 188

/-- A byte, which is there. -/
def byteAt (data : Data) (i : ℕ) : UInt8 := data.getD i 0

/-- What is read from a packet: its stream, whether that is a picture's, and the time. -/
structure Stamp where
  pid : ℕ
  video : Bool
  pts : ℕ
deriving DecidableEq, Repr

/-- Where the payload begins. -/
def payloadOffset (packet : Data) : ℕ :=
  if byteAt packet 3 &&& 0x20 ≠ 0 then 4 + (1 + (byteAt packet 4).toNat) else 4

def isVideo (sid : UInt8) : Bool := 0xe0 ≤ sid && sid ≤ 0xef

def isAudio (sid : UInt8) : Bool := 0xc0 ≤ sid && sid ≤ 0xdf || sid = 0xbd

/-- The time in five bytes. -/
def readField (v : Data) : ℕ :=
  (byteAt v 0 >>> 1 &&& 7).toNat <<< 30 ||| (byteAt v 1).toNat <<< 22 ||| (byteAt v 2 >>> 1).toNat <<< 15 |||
    (byteAt v 3).toNat <<< 7 ||| (byteAt v 4 >>> 1).toNat

/-- The stamp of a unit that begins in a packet. -/
def readUnit (pid : ℕ) (payload : Data) : Except Fault (Option Stamp) :=
  if byteAt payload 0 ≠ 0 || byteAt payload 1 ≠ 0 || byteAt payload 2 ≠ 1 || byteAt payload 7 &&& 0x80 = 0 ||
      byteAt payload 8 < 5 then .ok none
  else
    let video := isVideo (byteAt payload 3)
    if !video && !isAudio (byteAt payload 3) then .ok none
    else
      let v := payload.drop 9
      if byteAt v 0 &&& 1 ≠ 1 || byteAt v 2 &&& 1 ≠ 1 || byteAt v 4 &&& 1 ≠ 1 then .error .media
      else .ok (some ⟨pid, video, readField v⟩)

/-- The stamp of a packet, if it has one. -/
def readPacket (packet : Data) : Except Fault (Option Stamp) :=
  if byteAt packet 0 ≠ 0x47 || byteAt packet 1 &&& 0x80 ≠ 0 then .error .media
  else if byteAt packet 1 &&& 0x40 = 0 || byteAt packet 3 &&& 0x10 = 0 then .ok none
  else if packetSize < payloadOffset packet + 14 then .ok none
  else readUnit ((byteAt packet 1 &&& 0x1f).toNat <<< 8 ||| (byteAt packet 2).toNat)
    (packet.drop (payloadOffset packet))

/-! ## Streams -/

structure Stream where
  clock : Clock
  video : Bool
deriving DecidableEq, Repr

/-- The streams that were seen, by their numbers. -/
abbrev Streams := List (ℕ × Stream)

/-- A stream's clock after one more time. -/
def Stream.extend (s : Stream) (pts : ℕ) : Stream :=
  let pts := unwrap pts s.clock.max
  { s with clock := ⟨min s.clock.min pts, max s.clock.max pts⟩ }

/-- One more stamp. -/
def observe (streams : Streams) (x : Stamp) : Except Fault Streams :=
  if streams.any fun s => s.1 = x.pid then
    .ok (streams.map fun s => if s.1 = x.pid then (s.1, s.2.extend x.pts) else s)
  else if 32 ≤ streams.length then .error .media
  else .ok (streams ++ [(x.pid, ⟨⟨x.pts, x.pts⟩, x.video⟩)])

/-- The packets that are left, each of which takes some of the bytes. -/
def readFrom : ℕ → Data → Streams → Except Fault Streams
  | _, [], streams => .ok streams
  | 0, _ :: _, _ => .error .media
  | fuel + 1, data, streams =>
    if data.length < packetSize then .error .media
    else
      match readPacket (data.take packetSize) with
      | .error fault => .error fault
      | .ok none => readFrom fuel (data.drop packetSize) streams
      | .ok (some x) =>
        match observe streams x with
        | .error fault => .error fault
        | .ok streams => readFrom fuel (data.drop packetSize) streams

/-- The preferred one of two streams: a picture's, then the one of the least number. -/
def prefer (chosen : Option (ℕ × Stream)) (s : ℕ × Stream) : Option (ℕ × Stream) :=
  match chosen with
  | none => some s
  | some c => if s.2.video && !c.2.video || s.2.video = c.2.video && s.1 < c.1 then some s else some c

/-- **The clock of a transport stream**: that of the preferred stream. -/
def readPTS (data : Data) : Except Fault Clock :=
  match readFrom data.length data [] with
  | .error fault => .error fault
  | .ok streams =>
    match streams.foldl prefer none with
    | none => .error .media
    | some chosen => .ok chosen.2.clock

/-! ## Packets that are written -/

/-- The fields of a packet's header that say nothing of a time. -/
structure Head where
  priority : Bool
  pid : ℕ
  scrambling : ℕ
  counter : ℕ
  pid_lt : pid < 8192
  scrambling_lt : scrambling < 4
  counter_lt : counter < 16

/-- A header: whether a unit begins in the packet, and whether it has an adaptation field and a payload. -/
def Head.bytes (h : Head) (start adaptation payload : Bool) : Data :=
  [0x47, UInt8.ofNat (start.toNat * 64 + h.priority.toNat * 32 + h.pid / 256), UInt8.ofNat (h.pid % 256),
    UInt8.ofNat (h.scrambling * 64 + adaptation.toNat * 32 + payload.toNat * 16 + h.counter)]

/-- The five bytes of a time of 33 bits. -/
def pesTime (mark v : ℕ) : Data :=
  [UInt8.ofNat (mark * 16 + v / 2 ^ 30 * 2 + 1), UInt8.ofNat (v / 2 ^ 22 % 256),
    UInt8.ofNat (v / 2 ^ 15 % 128 * 2 + 1), UInt8.ofNat (v / 2 ^ 7 % 256), UInt8.ofNat (v % 128 * 2 + 1)]

/-- A time as it is written: without its wraps. -/
def fieldOf (time : ℤ) : ℕ := (time % ptsWrap).toNat

/-- The header of a unit with a time, and the begin of the unit. -/
structure TimedUnit where
  sid : UInt8
  length₁ : UInt8
  length₂ : UInt8
  flags : UInt8
  present : ℕ
  headerLength : ℕ
  mark : ℕ
  time : ℤ
  rest : Data
  kind : isVideo sid || isAudio sid
  present_lt : present < 128
  five_le : 5 ≤ headerLength
  headerLength_lt : headerLength < 256
  mark_lt : mark < 16

def TimedUnit.bytes (u : TimedUnit) : Data :=
  [0, 0, 1, u.sid, u.length₁, u.length₂, u.flags, UInt8.ofNat (128 + u.present), UInt8.ofNat u.headerLength] ++
    (pesTime u.mark (fieldOf u.time) ++ u.rest)

/-- What begins in a packet: a table, a unit without a time, or one with it. -/
inductive Begin
  | table (bytes : Data) (other : bytes.take 3 ≠ [0, 0, 1])
  | untimed (sid : UInt8) (rest : Data) (none : !(isVideo sid || isAudio sid) || byteAt rest 3 &&& 0x80 = 0)
  | timed (u : TimedUnit)

def Begin.bytes : Begin → Data
  | .table bytes _ => bytes
  | .untimed sid rest _ => [0, 0, 1, sid] ++ rest
  | .timed u => u.bytes

/-- An adaptation field, if there is one. -/
abbrev Adaptation := Option { bytes : Data // bytes.length < 256 }

def adaptationBytes : Adaptation → Data
  | none => []
  | some a => UInt8.ofNat a.1.length :: a.1

/-- A packet of a transport stream: one that goes on, one without a payload, or one in which something
begins. -/
inductive Packet
  | more (h : Head) (adaptation payload : Bool) (rest : Data) (size : rest.length = 184)
  | bare (h : Head) (start adaptation : Bool) (rest : Data) (size : rest.length = 184)
  | begins (h : Head) (a : Adaptation) (b : Begin) (size : (adaptationBytes a).length + b.bytes.length = 184)

def Packet.bytes : Packet → Data
  | .more h adaptation payload rest _ => h.bytes false adaptation payload ++ rest
  | .bare h start adaptation rest _ => h.bytes start adaptation false ++ rest
  | .begins h a b _ => h.bytes true a.isSome true ++ (adaptationBytes a ++ b.bytes)

/-- A presentation time of a stream. -/
structure Access where
  pid : ℕ
  video : Bool
  time : ℤ
deriving DecidableEq, Repr

def Packet.access : Packet → Option Access
  | .begins h _ (.timed u) _ => some ⟨h.pid, isVideo u.sid, u.time⟩
  | _ => none

def Access.stamp (x : Access) : Stamp := ⟨x.pid, x.video, fieldOf x.time⟩

/-- The presentation times of packets. -/
def accesses (ps : List Packet) : List Access := ps.filterMap Packet.access

variable {h : Head} {a : Adaptation} {b : Begin} {u : TimedUnit} {p : Packet} {ps : List Packet} {rest : Data}
  {mark v pid x y n : ℕ} {streams : Streams}

/-! ## A time -/

theorem or_eq_add (hx : 2 ^ n ∣ x) (hy : y < 2 ^ n) : x ||| y = x + y := by
  obtain ⟨k, rfl⟩ := hx
  rw [mul_comm, ← Nat.shiftLeft_eq, Nat.shiftLeft_add_eq_or_of_lt hy]

theorem mark_bits (hmark : mark < 16) (hx : x < 8) :
    (UInt8.ofNat (mark * 16 + x * 2 + 1) >>> 1 &&& 7).toNat = x ∧ UInt8.ofNat (mark * 16 + x * 2 + 1) &&& 1 = 1 := by
  have hall : ∀ mark : Fin 16, ∀ x : Fin 8, (UInt8.ofNat (mark.val * 16 + x.val * 2 + 1) >>> 1 &&& 7).toNat = x.val ∧
      UInt8.ofNat (mark.val * 16 + x.val * 2 + 1) &&& 1 = 1 := by decide +kernel
  exact hall ⟨mark, hmark⟩ ⟨x, hx⟩

theorem half_bits (hx : x < 128) :
    (UInt8.ofNat (x * 2 + 1) >>> 1).toNat = x ∧ UInt8.ofNat (x * 2 + 1) &&& 1 = 1 := by
  have hall : ∀ x : Fin 128, (UInt8.ofNat (x.val * 2 + 1) >>> 1).toNat = x.val ∧
      UInt8.ofNat (x.val * 2 + 1) &&& 1 = 1 := by decide +kernel
  exact hall ⟨x, hx⟩

theorem toNat_ofNat_of_lt (hx : x < 256) : (UInt8.ofNat x).toNat = x := by
  rw [UInt8.toNat_ofNat', Nat.mod_eq_of_lt hx]

theorem join_parts {a b c d e : ℕ} (hb : b < 256) (hc : c < 128) (hd : d < 256) (he : e < 128) :
    a <<< 30 ||| b <<< 22 ||| c <<< 15 ||| d <<< 7 ||| e =
      a * 2 ^ 30 + b * 2 ^ 22 + c * 2 ^ 15 + d * 2 ^ 7 + e := by
  have h₁ : a <<< 30 ||| b <<< 22 = a * 2 ^ 30 + b * 2 ^ 22 := by
    rw [Nat.shiftLeft_eq, Nat.shiftLeft_eq]
    exact or_eq_add (n := 30) (by omega) (by omega)
  have h₂ : a * 2 ^ 30 + b * 2 ^ 22 ||| c <<< 15 = a * 2 ^ 30 + b * 2 ^ 22 + c * 2 ^ 15 := by
    rw [Nat.shiftLeft_eq]
    exact or_eq_add (n := 22) (by omega) (by omega)
  have h₃ : a * 2 ^ 30 + b * 2 ^ 22 + c * 2 ^ 15 ||| d <<< 7 =
      a * 2 ^ 30 + b * 2 ^ 22 + c * 2 ^ 15 + d * 2 ^ 7 := by
    rw [Nat.shiftLeft_eq]
    exact or_eq_add (n := 15) (by omega) (by omega)
  rw [h₁, h₂, h₃]
  exact or_eq_add (n := 7) (by omega) (by omega)

/-- **A time is read as it was written**, with its marker bits. -/
theorem readField_pesTime (hmark : mark < 16) (hv : v < 2 ^ 33) :
    readField (pesTime mark v ++ rest) = v ∧ byteAt (pesTime mark v ++ rest) 0 &&& 1 = 1 ∧
      byteAt (pesTime mark v ++ rest) 2 &&& 1 = 1 ∧ byteAt (pesTime mark v ++ rest) 4 &&& 1 = 1 := by
  obtain ⟨h₀, hmark₀⟩ := mark_bits (x := v / 2 ^ 30) hmark (by omega)
  obtain ⟨h₂, hmark₂⟩ := half_bits (x := v / 2 ^ 15 % 128) (by omega)
  obtain ⟨h₄, hmark₄⟩ := half_bits (x := v % 128) (by omega)
  refine ⟨?_, hmark₀, hmark₂, hmark₄⟩
  have h₁ : (UInt8.ofNat (v / 2 ^ 22 % 256)).toNat = v / 2 ^ 22 % 256 := toNat_ofNat_of_lt (by omega)
  have h₃ : (UInt8.ofNat (v / 2 ^ 7 % 256)).toNat = v / 2 ^ 7 % 256 := toNat_ofNat_of_lt (by omega)
  show (UInt8.ofNat (mark * 16 + v / 2 ^ 30 * 2 + 1) >>> 1 &&& 7).toNat <<< 30 |||
    (UInt8.ofNat (v / 2 ^ 22 % 256)).toNat <<< 22 ||| (UInt8.ofNat (v / 2 ^ 15 % 128 * 2 + 1) >>> 1).toNat <<< 15 |||
    (UInt8.ofNat (v / 2 ^ 7 % 256)).toNat <<< 7 ||| (UInt8.ofNat (v % 128 * 2 + 1) >>> 1).toNat = v
  rw [h₀, h₁, h₂, h₃, h₄, join_parts (by omega) (by omega) (by omega) (by omega)]
  omega

/-! ## A packet -/

theorem fieldOf_lt (time : ℤ) : fieldOf time < 2 ^ 33 := by
  unfold fieldOf ptsWrap
  omega

theorem start_bits (start : Bool) : UInt8.ofNat (start.toNat * 64 + h.priority.toNat * 32 + h.pid / 256) &&& 0x80 = 0 ∧
    (UInt8.ofNat (start.toNat * 64 + h.priority.toNat * 32 + h.pid / 256) &&& 0x40 = 0 ↔ start = false) ∧
    (UInt8.ofNat (start.toNat * 64 + h.priority.toNat * 32 + h.pid / 256) &&& 0x1f).toNat = h.pid / 256 := by
  have hall : ∀ start priority : Bool, ∀ x : Fin 32,
      UInt8.ofNat (start.toNat * 64 + priority.toNat * 32 + x.val) &&& 0x80 = 0 ∧
      (UInt8.ofNat (start.toNat * 64 + priority.toNat * 32 + x.val) &&& 0x40 = 0 ↔ start = false) ∧
      (UInt8.ofNat (start.toNat * 64 + priority.toNat * 32 + x.val) &&& 0x1f).toNat = x.val := by decide +kernel
  exact hall start h.priority ⟨h.pid / 256, by have := h.pid_lt; omega⟩

theorem field_bits (adaptation payload : Bool) :
    (UInt8.ofNat (h.scrambling * 64 + adaptation.toNat * 32 + payload.toNat * 16 + h.counter) &&& 0x20 = 0 ↔
      adaptation = false) ∧
    (UInt8.ofNat (h.scrambling * 64 + adaptation.toNat * 32 + payload.toNat * 16 + h.counter) &&& 0x10 = 0 ↔
      payload = false) := by
  have hall : ∀ x : Fin 4, ∀ adaptation payload : Bool, ∀ y : Fin 16,
      (UInt8.ofNat (x.val * 64 + adaptation.toNat * 32 + payload.toNat * 16 + y.val) &&& 0x20 = 0 ↔
        adaptation = false) ∧
      (UInt8.ofNat (x.val * 64 + adaptation.toNat * 32 + payload.toNat * 16 + y.val) &&& 0x10 = 0 ↔
        payload = false) := by decide +kernel
  exact hall ⟨h.scrambling, h.scrambling_lt⟩ adaptation payload ⟨h.counter, h.counter_lt⟩

theorem readPacket_head (start adaptation payload : Bool) (rest : Data) :
    readPacket (h.bytes start adaptation payload ++ rest) =
      if start = false ∨ payload = false then .ok none
      else if packetSize < payloadOffset (h.bytes start adaptation payload ++ rest) + 14 then .ok none
      else readUnit h.pid
        ((h.bytes start adaptation payload ++ rest).drop
          (payloadOffset (h.bytes start adaptation payload ++ rest))) := by
  obtain ⟨herror, hstart, hhigh⟩ := start_bits (h := h) start
  obtain ⟨-, hpayload⟩ := field_bits (h := h) adaptation payload
  have hlow : (UInt8.ofNat (h.pid % 256)).toNat = h.pid % 256 := toNat_ofNat_of_lt (by omega)
  have hpid : (h.pid / 256) <<< 8 ||| h.pid % 256 = h.pid := by
    rw [Nat.shiftLeft_eq, or_eq_add (n := 8) (by omega) (by omega)]
    omega
  unfold readPacket
  have h₀ : byteAt (h.bytes start adaptation payload ++ rest) 0 = 0x47 := rfl
  have h₁ : byteAt (h.bytes start adaptation payload ++ rest) 1 =
      UInt8.ofNat (start.toNat * 64 + h.priority.toNat * 32 + h.pid / 256) := rfl
  have h₂ : byteAt (h.bytes start adaptation payload ++ rest) 2 = UInt8.ofNat (h.pid % 256) := rfl
  have h₃ : byteAt (h.bytes start adaptation payload ++ rest) 3 =
      UInt8.ofNat (h.scrambling * 64 + adaptation.toNat * 32 + payload.toNat * 16 + h.counter) := rfl
  rw [h₀, h₁, h₂, h₃, herror, hhigh, hlow, hpid]
  rw [if_neg (by decide)]
  simp only [Bool.or_eq_true, decide_eq_true_eq, hstart, hpayload]

theorem payloadOffset_begins (b : Data) :
    payloadOffset (h.bytes true a.isSome true ++ (adaptationBytes a ++ b)) = 4 + (adaptationBytes a).length := by
  obtain ⟨hadaptation, -⟩ := field_bits (h := h) a.isSome true
  have h₃ : byteAt (h.bytes true a.isSome true ++ (adaptationBytes a ++ b)) 3 =
      UInt8.ofNat (h.scrambling * 64 + a.isSome.toNat * 32 + true.toNat * 16 + h.counter) := rfl
  unfold payloadOffset
  rw [h₃]
  cases a with
  | none =>
    rw [if_neg (not_not.mpr (hadaptation.mpr rfl))]
    rfl
  | some a =>
    have hset : ¬ UInt8.ofNat (h.scrambling * 64 + (some a).isSome.toNat * 32 + true.toNat * 16 + h.counter) &&&
        0x20 = 0 := fun hzero => nomatch hadaptation.mp hzero
    rw [if_pos hset]
    have h₄ : byteAt (h.bytes true (some a).isSome true ++ (adaptationBytes (some a) ++ b)) 4 =
        UInt8.ofNat a.1.length := rfl
    rw [h₄, toNat_ofNat_of_lt a.2]
    show 4 + (1 + a.1.length) = 4 + (a.1.length + 1)
    omega

theorem drop_begins (b : Data) :
    (h.bytes true a.isSome true ++ (adaptationBytes a ++ b)).drop (4 + (adaptationBytes a).length) = b := by
  rw [← List.append_assoc]
  refine List.drop_left' ?_
  rw [List.length_append]
  rfl

theorem readUnit_table {bytes : Data} (hother : bytes.take 3 ≠ [0, 0, 1]) (hsize : 14 ≤ bytes.length) :
    readUnit pid bytes = .ok none := by
  unfold readUnit
  rw [if_pos]
  match bytes, hsize with
  | x :: y :: z :: rest, _ =>
    by_contra hzero
    simp only [Bool.or_eq_true, decide_eq_true_eq, not_or, not_not] at hzero
    obtain ⟨⟨⟨⟨hx, hy⟩, hz⟩, -⟩, -⟩ := hzero
    have hx : x = 0 := hx
    have hy : y = 0 := hy
    have hz : z = 1 := hz
    exact hother (by rw [hx, hy, hz]; rfl)

theorem readUnit_untimed {sid : UInt8} (hnone : !(isVideo sid || isAudio sid) || byteAt rest 3 &&& 0x80 = 0) :
    readUnit pid ([0, 0, 1, sid] ++ rest) = .ok none := by
  unfold readUnit
  have h₇ : byteAt ([0, 0, 1, sid] ++ rest) 7 = byteAt rest 3 := rfl
  have h₃ : byteAt ([0, 0, 1, sid] ++ rest) 3 = sid := rfl
  rw [h₇, h₃]
  rw [Bool.or_eq_true, decide_eq_true_eq] at hnone
  rcases hnone with hkind | hflag
  · split_ifs
    · rfl
    · have hneither : (!isVideo sid && !isAudio sid) = true := by rwa [← Bool.not_or]
      simp only
      rw [if_pos hneither]
  · rw [if_pos (by simp [hflag])]

/-- **A unit with a time** is read as it was written. -/
theorem readUnit_timed : readUnit pid u.bytes = .ok (some ⟨pid, isVideo u.sid, fieldOf u.time⟩) := by
  have hpresent : UInt8.ofNat (128 + u.present) &&& 0x80 ≠ 0 := by
    have hall : ∀ x : Fin 128, UInt8.ofNat (128 + x.val) &&& 0x80 ≠ 0 := by decide +kernel
    exact hall ⟨u.present, u.present_lt⟩
  have hlength : ¬ UInt8.ofNat u.headerLength < 5 := by
    rw [UInt8.lt_iff_toNat_lt, toNat_ofNat_of_lt u.headerLength_lt]
    exact not_lt.mpr u.five_le
  obtain ⟨hfield, h₀, h₂, h₄⟩ := @readField_pesTime u.rest _ _ u.mark_lt (fieldOf_lt u.time)
  unfold readUnit
  have b₀ : byteAt u.bytes 0 = 0 := rfl
  have b₁ : byteAt u.bytes 1 = 0 := rfl
  have b₂ : byteAt u.bytes 2 = 1 := rfl
  have b₃ : byteAt u.bytes 3 = u.sid := rfl
  have b₇ : byteAt u.bytes 7 = UInt8.ofNat (128 + u.present) := rfl
  have b₈ : byteAt u.bytes 8 = UInt8.ofNat u.headerLength := rfl
  have hdrop : u.bytes.drop 9 = pesTime u.mark (fieldOf u.time) ++ u.rest := rfl
  rw [b₀, b₁, b₂, b₃, b₇, b₈, hdrop]
  rw [decide_eq_false hpresent, decide_eq_false hlength, if_neg (by decide)]
  have hkind : (!isVideo u.sid && !isAudio u.sid) = false := by
    rw [← Bool.not_or, u.kind]
    rfl
  simp only
  rw [hkind, if_neg Bool.false_ne_true, if_neg (by simp [h₀, h₂, h₄]), hfield]

theorem length_bytes : p.bytes.length = packetSize := by
  cases p with
  | more h adaptation payload rest size =>
    show (h.bytes false adaptation payload ++ rest).length = 188
    rw [List.length_append, size]
    rfl
  | bare h start adaptation rest size =>
    show (h.bytes start adaptation false ++ rest).length = 188
    rw [List.length_append, size]
    rfl
  | begins h a b size =>
    show (h.bytes true a.isSome true ++ (adaptationBytes a ++ b.bytes)).length = 188
    rw [List.length_append, List.length_append, size]
    rfl

/-- **A packet is read as it was written.** -/
theorem readPacket_bytes : readPacket p.bytes = .ok (p.access.map Access.stamp) := by
  cases p with
  | more h adaptation payload rest size =>
    show readPacket (h.bytes false adaptation payload ++ rest) = _
    rw [readPacket_head, if_pos (Or.inl rfl)]
    rfl
  | bare h start adaptation rest size =>
    show readPacket (h.bytes start adaptation false ++ rest) = _
    rw [readPacket_head, if_pos (Or.inr rfl)]
    rfl
  | begins h a b size =>
    show readPacket (h.bytes true a.isSome true ++ (adaptationBytes a ++ b.bytes)) = _
    rw [readPacket_head, if_neg (by decide), payloadOffset_begins, drop_begins]
    unfold packetSize
    cases b with
    | table bytes other =>
      by_cases hshort : 188 < 4 + (adaptationBytes a).length + 14
      · rw [if_pos hshort]
        rfl
      · rw [if_neg hshort]
        have hsize : (adaptationBytes a).length + bytes.length = 184 := size
        exact readUnit_table other (by omega)
    | untimed sid rest hnone =>
      by_cases hshort : 188 < 4 + (adaptationBytes a).length + 14
      · rw [if_pos hshort]
        rfl
      · rw [if_neg hshort]
        exact readUnit_untimed hnone
    | timed u =>
      have hlength : u.bytes.length = 14 + u.rest.length := by
        show (_ ++ (pesTime u.mark (fieldOf u.time) ++ u.rest)).length = _
        rw [List.length_append, List.length_append]
        show 9 + (5 + u.rest.length) = _
        omega
      have hsize : (adaptationBytes a).length + u.bytes.length = 184 := size
      rw [if_neg (by omega)]
      exact readUnit_timed

/-! ## A stream -/

/-- Several stamps. -/
def observeAll (streams : Streams) : List Access → Except Fault Streams
  | [] => .ok streams
  | x :: xs =>
    match observe streams x.stamp with
    | .error fault => .error fault
    | .ok streams => observeAll streams xs

/-- **A stream is read as it was written.** -/
theorem readFrom_bytes {fuel : ℕ} (hfuel : ps.length ≤ fuel) :
    readFrom fuel (ps.flatMap Packet.bytes) streams = observeAll streams (accesses ps) := by
  induction ps generalizing fuel streams with
  | nil =>
    cases fuel <;> rfl
  | cons p ps ih =>
    obtain ⟨fuel, rfl⟩ : ∃ n, fuel = n + 1 := ⟨fuel - 1, by rw [List.length_cons] at hfuel; omega⟩
    rw [List.length_cons, Nat.add_le_add_iff_right] at hfuel
    have hlength := length_bytes (p := p)
    have htake : (p.bytes ++ ps.flatMap Packet.bytes).take packetSize = p.bytes := List.take_left' hlength
    have hdrop : (p.bytes ++ ps.flatMap Packet.bytes).drop packetSize = ps.flatMap Packet.bytes :=
      List.drop_left' hlength
    have hlong : ¬ (p.bytes ++ ps.flatMap Packet.bytes).length < packetSize := by
      rw [List.length_append, hlength]
      omega
    obtain ⟨c, data, hdata⟩ : ∃ c data, p.bytes ++ ps.flatMap Packet.bytes = c :: data := by
      cases p <;> exact ⟨_, _, rfl⟩
    have hread : readFrom (fuel + 1) (p.bytes ++ ps.flatMap Packet.bytes) streams =
        match readPacket p.bytes with
        | .error fault => .error fault
        | .ok none => readFrom fuel (ps.flatMap Packet.bytes) streams
        | .ok (some x) =>
          match observe streams x with
          | .error fault => .error fault
          | .ok streams => readFrom fuel (ps.flatMap Packet.bytes) streams := by
      rw [hdata, readFrom, ← hdata, if_neg hlong, htake, hdrop]
      exact nofun
    rw [List.flatMap_cons, hread, readPacket_bytes]
    unfold accesses
    rw [List.filterMap_cons]
    cases p.access with
    | none => exact ih hfuel
    | some x =>
      show (match observe streams x.stamp with
        | .error fault => .error fault
        | .ok streams => readFrom fuel (ps.flatMap Packet.bytes) streams) = observeAll streams (x :: _)
      rw [observeAll]
      cases observe streams x.stamp with
      | error fault => rfl
      | ok streams => exact ih hfuel

end Portico.LiveBuffer
