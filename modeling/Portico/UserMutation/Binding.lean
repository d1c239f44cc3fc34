import Portico.Lib.Outcome

/-!
# Bindings and lifetimes

A mutation receipt belongs to a binding: an account, a profile, a session family and possibly a
mutation root. Its key carries the instant at which it was issued, in milliseconds. The lifetimes of
the profile and the installation are read from the transaction, and never taken from the caller.

## Main definitions

* `Binding`, `Envelope`, `Result`: who asks, what is asked, and what came of it
* `parseKey`, `issuedMs`: the grammar of a key, and its window
* `resolveLifetime`: the lifetimes that a request is bound to

## Main results

* `issuedMs_eq_ok`: a key that is read in its window was issued when it says
-/

namespace Portico.UserMutation

/-! ## Requests -/

inductive Authority
  | localAccount
  | hostedAccount
deriving DecidableEq, Repr

structure Binding where
  authority : Authority
  account : String
  profile : String
  family : String
  root : String
deriving DecidableEq, Repr

structure Envelope where
  key : String
  operation : String
  digest : String
  stop : Bool
deriving DecidableEq, Repr

inductive Status
  | applied
  | alreadyStopped
  | conflict
  | invalid
  | terminal
  | deleted
  | removed
  | partly
deriving DecidableEq, Repr

inductive PositionStatus
  | unset
  | applied
  | alreadyStopped
  | notRenderer
  | policyRejected
  | unchanged
deriving DecidableEq, Repr

structure Result where
  status : Status
  targetID : String := ""
  revision : ℤ := 0
  generation : ℤ := 0
  positionMs : ℤ := 0
  positionStatus : PositionStatus := .unset
deriving DecidableEq, Repr

inductive Fault
  | invalidKey
  | expired
  | conflict
  | capacity
  | rootGone
  | database
deriving DecidableEq, Repr

/-! ## Keys -/

def retentionMs : ℤ := 30 * 24 * 60 * 60 * 1000

def futureSkewMs : ℤ := 5 * 60 * 1000

def maxMs : ℤ := 9999999999999

/-- A text of at most `max` bytes without NUL. -/
def bounded (s : String) (max : ℕ) (empty : Bool) : Bool :=
  (empty || s ≠ "") && s.utf8ByteSize ≤ max && !s.toList.contains (Char.ofNat 0)

def validRootID (v : String) : Bool :=
  v.toList.length = 22 && v.toList.all fun c =>
    ('a' ≤ c && c ≤ 'z') || ('A' ≤ c && c ≤ 'Z') || ('0' ≤ c && c ≤ '9') || c = '_' || c = '-'

def validBinding (b : Binding) : Bool :=
  bounded b.account 128 false && bounded b.profile 128 false && bounded b.family 128 false &&
    (b.root = "" || validRootID b.root)

def isDigit (c : Char) : Bool := '0' ≤ c && c ≤ '9'

def hexLower (cs : List Char) (n : ℕ) : Bool :=
  cs.length = n && cs.all fun c => isDigit c || ('a' ≤ c && c ≤ 'f')

/-- The value of decimal digits. -/
def decimal (cs : List Char) : ℕ := cs.foldl (fun n c => 10 * n + (c.toNat - 48)) 0

/-- The instant that a key carries. -/
def parseKey (key : String) : Except Fault ℤ :=
  let cs := key.toList
  if cs.length ≠ 51 ∨ cs.take 5 ≠ "p251_".toList ∨ cs[18]? ≠ some '_' ∨
      hexLower (cs.drop 19) 32 = false then .error .invalidKey
  else
    let digits := (cs.drop 5).take 13
    if digits.all isDigit = false then .error .invalidKey
    else if decimal digits = 0 then .error .invalidKey
    else .ok (decimal digits)

/-- A key in its window of the wall clock. -/
def issuedMs (key : String) (now : ℤ) : Except Fault ℤ :=
  parseKey key >>= fun issued =>
  if now < 0 ∨ maxMs < now ∨ now + futureSkewMs < issued then .error .invalidKey
  else if issued < now - retentionMs then .error .expired
  else .ok issued

def validate (b : Binding) (e : Envelope) (now : ℤ) : Except Fault ℤ :=
  if validBinding b = false ∨ bounded e.operation 96 false = false ∨
      hexLower e.digest.toList 64 = false ∨ now < 0 ∨ maxMs < now then .error .invalidKey
  else parseKey e.key

theorem issuedMs_eq_ok {key : String} {now issued : ℤ} (h : issuedMs key now = .ok issued) :
    parseKey key = .ok issued := by
  unfold issuedMs at h
  obtain ⟨issued', hparse, h⟩ := bind_eq_ok.mp h
  split_ifs at h
  rw [hparse, Except.ok.inj h]

theorem validate_eq_ok {b : Binding} {e : Envelope} {now issued : ℤ}
    (h : validate b e now = .ok issued) : parseKey e.key = .ok issued :=
  (guard_eq_ok.mp h).2

/-! ## Lifetimes -/

inductive RootState
  | active
  | draining
deriving DecidableEq, Repr

/-- A mutation root, and the scope that owns it. -/
structure Root where
  id : String
  account : String
  profile : String
  accountIncarnation : String
  profileIncarnation : String
  family : String
  installation : String
  state : RootState
deriving DecidableEq, Repr

/-- What the identity tables say: the lifetime of a profile and whether it was erased, the incarnation
of a membership and whether it is disabled, the roots, the installations and whether they are retired,
the local account that a hosted one is linked to, and the accounts themselves. -/
structure Identity where
  accounts : List String := []
  profiles : String → String → Option (String × Bool) := fun _ _ => none
  memberships : String → Option (String × Bool) := fun _ => none
  roots : List Root := []
  installations : String → Option Bool := fun _ => none
  links : String → Option String := fun _ => none

/-- What the receiving transaction says that a request is bound to. -/
structure Lifetime where
  profile : String := ""
  profileLive : Bool := true
  account : String := ""
  installation : String := ""
  root : String
  rootState : Option RootState := none
deriving DecidableEq, Repr

/-- The lifetimes of the account and the profile; those of a hosted one are kept elsewhere. -/
def accountLifetime (d : Identity) (b : Binding) : Lifetime :=
  match b.authority with
  | .hostedAccount => { root := b.root }
  | .localAccount =>
    let (profile, live) := match d.profiles b.account b.profile with
      | none => ("", false)
      | some (lifetime, deleted) => if deleted then ("", false) else (lifetime, true)
    match d.memberships b.account with
    | none => { profile, profileLive := false, root := b.root }
    | some (incarnation, disabled) =>
      { profile, profileLive := live && !disabled, account := incarnation, root := b.root }

/-- The root is the live owner for this exact scope, or it is gone. -/
def bindRoot (d : Identity) (b : Binding) (l : Lifetime) : Except Fault Lifetime :=
  if l.profileLive = false then .error .rootGone
  else match d.roots.find? fun r => r.id = b.root with
  | none => .error .rootGone
  | some r =>
    if r.account ≠ b.account ∨ r.profile ≠ b.profile ∨ r.family ≠ b.family ∨
        r.profileIncarnation ≠ l.profile ∨ r.accountIncarnation ≠ l.account then .error .rootGone
    else match d.installations r.installation with
    | none => .error .rootGone
    | some retired =>
      if retired then .error .rootGone
      else .ok { l with installation := r.installation, rootState := some r.state }

/-- The lifetimes that a request is bound to. -/
def resolveLifetime (d : Identity) (b : Binding) : Except Fault Lifetime :=
  if b.root = "" then .ok (accountLifetime d b) else bindRoot d b (accountLifetime d b)

end Portico.UserMutation
