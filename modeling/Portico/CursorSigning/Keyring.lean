import Portico.Lib.Base64
import Portico.Lib.Machine

/-!
# Signed continuations and their keyring

A continuation is an envelope with the viewer and the query that it is for, its expiry and a
position, signed with the key of the process. Instants are in nanoseconds, expiries in seconds.

The key file and the keys in memory, with sealings, openings and one rotation under way. A rotation
reads the keys, stamps the time until which the current key stays good, writes the key file, and then
swaps the keys in memory; the process may stop in between. A sealing reads the key before the clock.

## Main definitions

* `Envelope`, `Codec`: what is signed, and its encoding
* `Signer`: the key, and the one before it while its continuations may live
* `sealToken`, `openToken`: the two operations
* `Call`, `Rotation`, `System`: what is under way
* `Event`, `step`: the steps of the calls, on a clock that doesn't go back
* `System.answer`: what an opening is answered

## Main results

* `parse_text`: a token is read as it was put together
-/

namespace Portico.CursorSigning

/-! ## Envelopes -/

/-- The viewer and the query of a continuation. -/
structure Binding where
  principal : String
  filter : String
  sort : String
  snapshot : String
  authority : String
deriving DecidableEq, Repr

structure Envelope (π : Type) where
  version : ℤ
  expires : ℤ
  binding : Binding
  position : π
deriving DecidableEq, Repr

/-- How envelopes are written as bytes, and read. -/
structure Codec (π : Type) where
  encode : Envelope π → List UInt8
  decode : List UInt8 → Option (Envelope π)

/-- An envelope is read as it was written. -/
def Codec.Lossless {π : Type} (codec : Codec π) : Prop :=
  ∀ e, codec.decode (codec.encode e) = some e

abbrev Key := ℕ

/-- The tag of bytes under a key. -/
abbrev Mac := Key → List UInt8 → List UInt8

/-- The seconds of an instant. -/
def unix (now : ℤ) : ℤ := now / 1000000000

/-! ## Tokens -/

abbrev Token := List Char

/-- The token of bytes and their tag. -/
def text (raw sig : List UInt8) : Token := Base64.encode raw ++ '.' :: Base64.encode sig

/-- A token as it is written. -/
def Canonical (token : Token) : Prop := ∃ raw sig, token = text raw sig

/-- The two parts of a token. -/
def split (token : Token) : Option (List Char × List Char) :=
  match token.span (· ≠ '.') with
  | (left, '.' :: right) => if '.' ∈ right then none else some (left, right)
  | _ => none

/-- The bytes of a token and their tag. -/
def parse (token : Token) : Option (List UInt8 × List UInt8) :=
  if 4096 < token.length then none
  else (split token).bind fun parts =>
    (Base64.decode parts.1).bind fun raw => (Base64.decode parts.2).map fun sig => (raw, sig)

theorem split_append {left right : List Char} (hleft : '.' ∉ left) (hright : '.' ∉ right) :
    split (left ++ '.' :: right) = some (left, right) := by
  have hspan : (left ++ '.' :: right).span (· ≠ '.') = (left, '.' :: right) := by
    rw [List.span_eq_takeWhile_dropWhile, List.takeWhile_append_of_pos, List.dropWhile_append_of_pos]
    · simp
    · intro c hc
      exact decide_eq_true fun h => hleft (h ▸ hc)
    · intro c hc
      exact decide_eq_true fun h => hleft (h ▸ hc)
  unfold split
  rw [hspan]
  simp [hright]

theorem not_mem_encode (bytes : List UInt8) : '.' ∉ Base64.encode bytes :=
  fun h => (Base64.mem_encode h).2.2 rfl

theorem parse_text {raw sig : List UInt8} (h : (text raw sig).length ≤ 4096) :
    parse (text raw sig) = some (raw, sig) := by
  unfold parse
  rw [if_neg (not_lt.mpr h)]
  unfold text
  rw [split_append (not_mem_encode raw) (not_mem_encode sig)]
  simp [Base64.decode_encode]

theorem length_of_parse {token : Token} {parts : List UInt8 × List UInt8}
    (h : parse token = some parts) : token.length ≤ 4096 := by
  unfold parse at h
  split_ifs at h with hlong
  exact not_lt.mp hlong

/-! ## Signing -/

/-- The keys of a process: the one before is good until an instant. -/
structure Signer where
  key : Key
  previous : Option Key
  previousUntil : ℤ
  createdAt : ℤ
deriving DecidableEq, Repr

section

variable {π : Type} (codec : Codec π) (mac : Mac) (ttl : ℤ)

/-- What is sealed at an instant. -/
def envelope (now : ℤ) (binding : Binding) (position : π) : Envelope π :=
  ⟨1, unix (now + ttl), binding, position⟩

/-- The token of an envelope under a key. -/
def signed (key : Key) (e : Envelope π) : Token := text (codec.encode e) (mac key (codec.encode e))

/-- The token of a position, with the key that was read before the clock. -/
def sealToken (key : Key) (now : ℤ) (binding : Binding) (position : π) : Option Token :=
  if binding.principal = "" ∨ binding.authority = "" ∨ binding.snapshot = "" then none
  else
    let token := signed codec mac key (envelope ttl now binding position)
    if 4096 < token.length then none else some token

inductive Fault
  | invalidCursor
  | cursorExpired
deriving DecidableEq, Repr

/-- A tag is good under the key, or the one before it while that is good. -/
def Signer.accepts (s : Signer) (now : ℤ) (raw sig : List UInt8) : Bool :=
  sig = mac s.key raw || s.previous.any fun key => now < s.previousUntil && sig = mac key raw

/-- The position of a token, with the keys that were read before the clock: `now` is the reading for
the key before, `later` the one for the expiry. -/
def openToken (s : Signer) (now later : ℤ) (token : Token) (binding : Binding) : Except Fault π :=
  match parse token with
  | none => .error .invalidCursor
  | some (raw, sig) =>
    if s.accepts mac now raw sig = false then .error .invalidCursor
    else match codec.decode raw with
    | none => .error .invalidCursor
    | some e =>
      if e.version ≠ 1 then .error .invalidCursor
      else if e.binding ≠ binding then .error .invalidCursor
      else if e.expires ≤ unix later then .error .cursorExpired
      else .ok e.position

end

variable {π : Type} {codec : Codec π} {mac : Mac} {ttl now later : ℤ} {key : Key} {s : Signer}
  {binding : Binding} {position : π} {token : Token} {e : Envelope π}

theorem sealToken_eq_some (h : sealToken codec mac ttl key now binding position = some token) :
    token = signed codec mac key (envelope ttl now binding position) ∧ token.length ≤ 4096 := by
  unfold sealToken at h
  dsimp only at h
  split_ifs at h with hbinding hlong
  obtain rfl := Option.some.inj h
  exact ⟨rfl, not_lt.mp hlong⟩

theorem accepts_iff {raw sig : List UInt8} :
    s.accepts mac now raw sig = true ↔
      sig = mac s.key raw ∨ ∃ key, s.previous = some key ∧ now < s.previousUntil ∧ sig = mac key raw := by
  unfold Signer.accepts
  cases s.previous <;> simp

/-- A signed token opens for its binding before its expiry, while one of the keys is the one that
signed it. -/
theorem openToken_signed (hcodec : codec.Lossless) (hversion : e.version = 1)
    (hlength : (signed codec mac key e).length ≤ 4096)
    (hkey : key = s.key ∨ s.previous = some key ∧ now < s.previousUntil)
    (hlive : unix later < e.expires) :
    openToken codec mac s now later (signed codec mac key e) e.binding = .ok e.position := by
  have haccepts : s.accepts mac now (codec.encode e) (mac key (codec.encode e)) = true := by
    rw [accepts_iff]
    rcases hkey with rfl | ⟨hprevious, huntil⟩
    · exact Or.inl rfl
    · exact Or.inr ⟨key, hprevious, huntil, rfl⟩
  unfold openToken
  unfold signed at hlength ⊢
  rw [parse_text hlength]
  dsimp only
  rw [if_neg (by rw [haccepts]; decide), hcodec e]
  dsimp only
  rw [if_neg (not_not.mpr hversion), if_neg (not_not.mpr rfl), if_neg (not_le.mpr hlive)]

theorem openToken_ok (h : openToken codec mac s now later token binding = .ok position) :
    ∃ raw sig e, parse token = some (raw, sig) ∧ s.accepts mac now raw sig = true ∧
      codec.decode raw = some e ∧ e.binding = binding ∧ unix later < e.expires ∧
      e.position = position := by
  unfold openToken at h
  split at h
  · cases h
  · rename_i raw sig hparse
    split_ifs at h with haccepts
    split at h
    · cases h
    · rename_i e hdecode
      split_ifs at h with hversion hbinding hexpired
      exact ⟨raw, sig, e, hparse, by simpa using haccepts, hdecode, not_not.mp hbinding,
        not_le.mp hexpired, Except.ok.inj h⟩

end Portico.CursorSigning

/-! # The keyring and its rotation -/

namespace Portico.CursorSigning

/-- A token that was returned, with the key that signed it. -/
structure Sealed (π : Type) where
  key : Key
  envelope : Envelope π
  token : Token

/-- A call under way: a sealing has read its key, and an opening has read the keys. `known` are the
tokens that were returned before the opening began. -/
inductive Call (π : Type)
  | sealing (key : Key)
  | opening (signer : Signer) (token : Token) (binding : Binding) (known : List (Sealed π))

/-- A rotation under way: it has read the keys, has stamped its keyring, or has written it. -/
inductive Rotation
  | read (onlyIfDue : Bool) (current : Key) (createdAt : ℤ) (previousLive : Bool)
  | stamped (ring : Signer)
  | written (ring : Signer)
deriving DecidableEq, Repr

/-- The key file, the keys in memory while the process runs, and what is under way. `issued` are the
tokens that were returned, and `replaced` the keys that a key file replaced, each with the instant
until which it stays good. -/
structure System (π : Type) where
  disk : Option Signer := none
  memory : Option Signer := none
  rotation : Option Rotation := none
  calls : ℕ → Option (Call π) := fun _ => none
  issued : List (Sealed π) := []
  replaced : List (Key × ℤ) := []
  nextKey : Key := 0
  clock : ℤ := 0

inductive Event (π : Type)
  | start (now : ℤ)
  | crash
  | beginSeal (id : ℕ)
  | finishSeal (id : ℕ) (now : ℤ) (binding : Binding) (position : π)
  | beginOpen (id : ℕ) (token : Token) (binding : Binding)
  | finishOpen (id : ℕ) (now later : ℤ)
  | beginRotate (onlyIfDue : Bool) (now : ℤ)
  | stampRotate (now later : ℤ)
  | writeRotate (works : Bool)
  | swapRotate

section

variable {π : Type} (codec : Codec π) (mac : Mac) (ttl rotateEvery : ℤ)

/-- The call with an identifier is now this one, or none. -/
def System.setCall (s : System π) (id : ℕ) (call : Option (Call π)) : System π :=
  { s with calls := fun id' => if id' = id then call else s.calls id' }

/-- A keyring that can be loaded. -/
def Signer.loadable (ring : Signer) : Bool :=
  0 < ring.createdAt && (ring.previous.isNone || 0 < ring.previousUntil)

/-- The keys of a process that starts: those of the key file, or a new one. -/
def System.start (s : System π) (now : ℤ) : Option (System π) :=
  if s.memory.isSome ∨ now < s.clock then none
  else match s.disk with
  | none =>
    let ring : Signer := ⟨s.nextKey, none, 0, now⟩
    some { s with disk := some ring, memory := some ring, nextKey := s.nextKey + 1, clock := now }
  | some ring => if ring.loadable then some { s with memory := some ring, clock := now } else none

/-- The process stops: what it had in memory is gone. -/
def System.crash (s : System π) : System π :=
  { s with memory := none, rotation := none, calls := fun _ => none }

def System.beginSeal (s : System π) (id : ℕ) : Option (System π) :=
  if (s.calls id).isSome then none
  else s.memory.map fun signer => s.setCall id (some (.sealing signer.key))

/-- The rest of a sealing, with the key that it read. -/
def System.finishSeal (s : System π) (id : ℕ) (now : ℤ) (binding : Binding) (position : π) :
    Option (System π) :=
  if now < s.clock then none
  else match s.calls id with
  | some (.sealing key) =>
    let done := { s.setCall id none with clock := now }
    match sealToken codec mac ttl key now binding position with
    | none => some done
    | some token =>
      some { done with issued := s.issued ++ [⟨key, envelope ttl now binding position, token⟩] }
  | _ => none

def System.beginOpen (s : System π) (id : ℕ) (token : Token) (binding : Binding) :
    Option (System π) :=
  if (s.calls id).isSome then none
  else s.memory.map fun signer => s.setCall id (some (.opening signer token binding s.issued))

def System.finishOpen (s : System π) (id : ℕ) (now later : ℤ) : Option (System π) :=
  if now < s.clock ∨ later < now then none
  else match s.calls id with
  | some (.opening _ _ _ _) => some { s.setCall id none with clock := later }
  | _ => none

/-- What an opening is answered. -/
def System.answer (s : System π) (id : ℕ) (now later : ℤ) : Option (Except Fault π) :=
  match s.calls id with
  | some (.opening signer token binding _) =>
    some (openToken codec mac signer now later token binding)
  | _ => none

/-- A key before the current one that still has live continuations. -/
def Signer.previousLive (signer : Signer) (now : ℤ) : Bool :=
  signer.previous.isSome && now < signer.previousUntil

/-- One rotation at a time reads the keys. -/
def System.beginRotate (s : System π) (onlyIfDue : Bool) (now : ℤ) : Option (System π) :=
  if s.rotation.isSome ∨ now < s.clock then none
  else s.memory.map fun signer =>
    { s with
      rotation := some (.read onlyIfDue signer.key signer.createdAt (signer.previousLive now))
      clock := now }

/-- A rotation that isn't due, or whose previous key is live, ends; another one makes a key, and stamps
the instant until which the current one stays good. -/
def System.stampRotate (s : System π) (now later : ℤ) : Option (System π) :=
  if now < s.clock ∨ later < now then none
  else match s.rotation with
  | some (.read onlyIfDue current createdAt previousLive) =>
    if (onlyIfDue && now < createdAt + rotateEvery) || previousLive then
      some { s with rotation := none, clock := later }
    else
      some { s with
        rotation := some (.stamped ⟨s.nextKey, some current, later + ttl, later⟩)
        nextKey := s.nextKey + 1, clock := later }
  | _ => none

/-- The key file is replaced as a whole, or the rotation ends. -/
def System.writeRotate (s : System π) (works : Bool) : Option (System π) :=
  match s.rotation with
  | some (.stamped ring) =>
    if works then
      some { s with
        disk := some ring, rotation := some (.written ring)
        replaced := s.replaced ++ (ring.previous.toList.map fun key => (key, ring.previousUntil)) }
    else some { s with rotation := none }
  | _ => none

def System.swapRotate (s : System π) : Option (System π) :=
  match s.rotation with
  | some (.written ring) => some { s with memory := some ring, rotation := none }
  | _ => none

def step (s : System π) : Event π → Option (System π)
  | .start now => s.start now
  | .crash => some s.crash
  | .beginSeal id => s.beginSeal id
  | .finishSeal id now binding position => s.finishSeal codec mac ttl id now binding position
  | .beginOpen id token binding => s.beginOpen id token binding
  | .finishOpen id now later => s.finishOpen id now later
  | .beginRotate onlyIfDue now => s.beginRotate onlyIfDue now
  | .stampRotate now later => s.stampRotate ttl rotateEvery now later
  | .writeRotate works => s.writeRotate works
  | .swapRotate => s.swapRotate

end

end Portico.CursorSigning
