import Portico.Network.Url

/-!
# The client and the origin of a request

A request comes from a socket peer. If the peer is one of the trusted proxies, the address of
the client is read from the chain of hops that the proxies have written, and scheme and host of
the origin from what the nearest proxy says of them. What the standard library does with
characters outside ASCII is a parameter, bound by what its documentation promises.

## Main definitions

* `Strings`: lower case, white space and equality under case folding
* `Request`: what of a request is read, its header in the order of one walk through it
* `forwarded`, `client`: the address of the client
* `canonicalHost`, `originParts`, `origin`: the origin of the request
-/

namespace Portico.Network

open Bytes

/-- The functions of the standard library that look at characters outside ASCII. -/
structure Strings where
  toLower : Text → Text
  trimSpace : Text → Text
  equalFold : Text → Text → Bool
  toLower_ascii : ∀ s, (∀ b ∈ s, b < 128) → toLower s = s.map lower
  toLower_toLower : ∀ s, toLower (toLower s) = toLower s
  /-- What of a text in lower case is ASCII was there before, or is a letter. -/
  toLower_bytes : ∀ s, ∀ b ∈ toLower s, b < 128 → b ∈ s ∨ (97 ≤ b ∧ b ≤ 122)
  toLower_head : ∀ s, (toLower s).head? = some 91 → s.head? = some 91

structure Request where
  remoteAddr : Text
  host : Text
  tls : Bool
  header : List (Text × List Text)

variable (S : Strings) (r : Request) (proxies : List Prefix)

/-! ## Headers -/

def peer : Option Addr := parseAddress r.remoteAddr

def headerValues (key : Text) : List Text :=
  (r.header.filter fun h => S.equalFold h.1 key).flatMap (·.2)

def spellings (key : Text) : ℕ := r.header.countP fun h => S.equalFold h.1 key

section Rows

variable {α : Type} (element : Text → Option α)

def readPieces (out : List α) : List Text → Option (List α)
  | [] => some out
  | raw :: rest => do
    let a ← element raw
    if out.length + 1 > 32 then none else readPieces (out ++ [a]) rest

/-- The elements of all rows of a header, which are parted by commas. -/
def readRows (out : List α) : List Text → Option (List α)
  | [] => some out
  | row :: rows =>
    if row.length > 8192 then none
    else do
      let out ← readPieces element out (split 44 row)
      readRows out rows

end Rows

/-! ## Forwarded elements -/

abbrev Fields := List (Text × Text)

def Fields.get (fields : Fields) (key : Text) : Text :=
  ((fields.find? fun f => f.1 = key).map (·.2)).getD []

def unquote (value : Text) : Option Text :=
  if value.head? = some 34 || value.getLast? = some 34 then
    if value.length < 2 || value.head? ≠ some 34 || value.getLast? ≠ some 34 then none
    else some value.tail.dropLast
  else some value

def addPart (fields : Fields) (part : Text) : Option Fields :=
  match cut 61 (S.trimSpace part) with
  | (_, none) => none
  | (key, some value) =>
    if fields.get (S.toLower key) ≠ [] then none
    else do
      let value ← unquote value
      if value = [] || value.any (fun b => (ascii "\"\\\r\n\t ").contains b) then none
      else some ((S.toLower key, value) :: fields)

def forwardedElement (element : Text) : Option Fields := (split 59 element).foldlM (addPart S) []

def forwardedElements : Option (List Fields) := do
  let out ← readRows (forwardedElement S) [] (headerValues S r (ascii "Forwarded"))
  if out = [] then none else some out

/-! ## The address of the client -/

/-- A hop of the header that is a list of addresses. -/
def addressHop (raw : Text) : Option Addr := do
  let a ← parseAddr (S.trimSpace raw)
  if a.zone ≠ [] || a.isUnspecified || a.isMulticast then none else some a.unmap

/-- A hop of the header that has a field for it. -/
def fieldHop (fields : Fields) : Option Addr :=
  let raw := fields.get (ascii "for")
  match parseAddress raw with
  | none => none
  | some a => if raw.contains 37 then none else some a

/-- The first hop that isn't trusted, or the last one, of the hops from right to left. -/
def nearest : List Addr → Option Addr
  | [] => none
  | [a] => some a
  | a :: b :: rest => if !contains proxies a then some a else nearest (b :: rest)

def xForwardedFor : Text := ascii "X-Forwarded-For"

def forwarded : Option Addr :=
  if spellings S r xForwardedFor > 1 then none
  else
    let xff := headerValues S r xForwardedFor
    if xff ≠ [] then do
      let hops ← readRows (addressHop S) [] xff
      nearest proxies hops.reverse
    else do
      let elements ← forwardedElements S r
      let hops ← elements.mapM fieldHop
      nearest proxies hops.reverse

def client : Option Addr :=
  match peer r with
  | none => none
  | some p => if !contains proxies p then some p else forwarded S r proxies

/-! ## The origin of the request -/

def isZoneByte (b : UInt8) : Bool :=
  isDigit b || (65 ≤ b && b ≤ 90) || (97 ≤ b && b ≤ 122) || (ascii "._~-").contains b

/-- An authority that begins with a bracket, given without it. -/
def canonicalLiteral (rest : Text) : Option Text :=
  match cut 93 rest with
  | (_, none) => none
  | (literal, some suffix) => do
    let addr ← parseAddr literal
    if !addr.is6 || addr.zone.length > 64 || !addr.zone.all isZoneByte then none
    else if suffix ≠ [] && (suffix.head? ≠ some 58 || suffix.length = 1) then none
    else
      match cut 37 literal with
      | (ip, none) => some (91 :: S.toLower ip ++ 93 :: suffix)
      | (ip, some _) =>
        if addr.zone = [] then none
        else some (91 :: S.toLower ip ++ 37 :: addr.zone ++ 93 :: suffix)

/-- Whether a host is read back from the URL that it is written into. -/
def isAuthority (host : Text) : Bool :=
  match urlParse (urlString (ascii "http") host) with
  | none => false
  | some u => hostname u.host ≠ []

/-- A byte that no host may have. -/
def isForbidden (b : UInt8) : Bool := (ascii "/\\@?# \r\n\t,").contains b

/-- The spelling of a host that passes for the one it has. -/
def spelled (host : Text) : Option Text :=
  if host.head? = some 91 then canonicalLiteral S host.tail
  else if host.contains 37 then none
  else some (S.toLower host)

def canonicalHost (host : Text) : Option Text :=
  if host = [] || host.length > 255 || host.any isForbidden then none
  else do
    let host ← spelled S host
    if isAuthority host then some host else none

def validHost (host : Text) : Bool := (canonicalHost S host).isSome

def singleHeader (key : Text) : Text :=
  match headerValues S r key with
  | [value] => if value.length > 300 then [] else S.trimSpace value
  | _ => []

/-- Scheme and host of a request, the latter as it was sent. -/
def originParts : Text × Text :=
  let scheme := if r.tls then ascii "https" else ascii "http"
  let pick (proto host : Text) : Text × Text :=
    (if proto = ascii "http" || proto = ascii "https" then proto else scheme,
      if validHost S host then host else r.host)
  match peer r with
  | none => (scheme, r.host)
  | some p =>
    if !contains proxies p then (scheme, r.host)
    else match forwardedElements S r with
      | some elements =>
        let last := elements.getLastD []
        pick (last.get (ascii "proto")) (last.get (ascii "host"))
      | none =>
        pick (singleHeader S r (ascii "X-Forwarded-Proto"))
          (singleHeader S r (ascii "X-Forwarded-Host"))

def origin : Text :=
  let parts := originParts S r proxies
  match canonicalHost S parts.2 with
  | none => []
  | some host => urlString parts.1 host

end Portico.Network
