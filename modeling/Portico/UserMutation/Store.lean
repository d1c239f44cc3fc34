import Portico.Lib.Machine
import Portico.Lib.Table
import Portico.UserMutation.Binding

/-!
# The receipt store

The accounts that receipts are charged to, the receipts, and two cutoffs that only rise: a global one
and one for each account. A receipt is reserved before its effect and finalised in the same
transaction; keys that were issued before a cutoff are refused, so that their receipts can go.

One write transaction at a time. A transaction checks keys, has their effects, saves their results,
and commits as a whole or is rolled back as a whole; every refusal rolls it back. A transaction that
reserved a receipt doesn't commit while that receipt is unfinalised. Cleanups and changes of the
identity tables happen in transactions too.

## Main definitions

* `Store`: the accounts, the receipts and the global cutoff
* `Store.check`, `Store.save`, `Store.lookupTx`: the operations of a mutation
* `Store.retireAccount`, `Store.retireFamily`, `Store.prune`: the cleanups
* `Work`: a transaction under way, with the receipts that it reserved
* `System`: the committed store, the transaction, and the receipts whose effects were committed
* `Event`, `step`: the steps, with clock readings in any order
* `System.view`: what a request finds

## Main results

* `check_eq_ok`: what a check answers, and what it reserves
* `save_eq_ok`: what a save finalises
* `not_check_of_lookupTx`: what isn't looked up isn't returned
-/

namespace Portico.UserMutation

/-- The account that receipts are charged to. Its name and its owner are dropped when the owner is
erased; its number isn't used again. -/
structure Account where
  id : ℕ
  authority : Authority
  account : Option String
  owner : Option String
  retiredBefore : ℤ := 0
  cleanupPending : Bool := false
  chargedStop : Bool
deriving DecidableEq, Repr

/-- A receipt, reserved as long as it has no result. -/
structure Row where
  key : String
  scope : ℕ
  profile : String
  family : String
  profileIncarnation : String
  installation : String
  root : String
  operation : String
  digest : String
  stop : Bool
  issued : ℤ
  result : Option Result := none
  committed : ℤ := 0
deriving DecidableEq, Repr

structure Receipt where
  key : String
  operation : String
  result : Result
  committedMs : ℤ
  expiresMs : ℤ
deriving DecidableEq, Repr

structure Store where
  retiredBefore : ℤ := 0
  accounts : List Account := []
  receipts : List Row := []
  nextID : ℕ := 1
  identity : Identity := {}

def Row.receipt (r : Row) (result : Result) : Receipt :=
  ⟨r.key, r.operation, result, r.committed, r.issued + retentionMs⟩

/-- A receipt was made under these lifetimes. -/
def Row.bound (r : Row) (id : Option ℕ) (b : Binding) (l : Lifetime) : Bool :=
  l.profileLive && some r.scope = id && r.profile = b.profile && r.family = b.family &&
    r.profileIncarnation = l.profile && r.root = l.root && r.installation = l.installation

/-- A receipt is that of the request. -/
def Row.matches (r : Row) (id : Option ℕ) (b : Binding) (e : Envelope) (l : Lifetime) : Bool :=
  r.bound id b l && r.operation = e.operation && r.digest = e.digest && r.stop = e.stop

namespace Store

variable (s : Store)

/-! ## Reading -/

/-- The account of a binding. -/
def account (b : Binding) : Option Account :=
  s.accounts.find? fun a => a.authority = b.authority && a.account = some b.account

def scopeID (b : Binding) : Option ℕ := (s.account b).map Account.id

/-- The instant before which keys of a binding are refused. -/
def cutoff (b : Binding) (now : ℤ) : ℤ :=
  max (max s.retiredBefore (((s.account b).map Account.retiredBefore).getD 0))
    (max 0 (now - retentionMs))

/-- The global cutoff follows the clock, and never goes back. -/
def advance (now : ℤ) : Store :=
  { s with retiredBefore := max s.retiredBefore (max 0 (now - retentionMs)) }

def read (key : String) : Option Row := rowOf Row.key key s.receipts

/-! ## Charges -/

def ordinaryBytes : ℕ :=
  65536 + 1024 * s.accounts.countP (fun a => !a.chargedStop) +
    4096 * s.receipts.countP (fun r => !r.stop) + 1024 * s.identity.roots.length

def stopBytes : ℕ :=
  1024 * s.accounts.countP Account.chargedStop + 4096 * s.receipts.countP Row.stop

/-- There is room for one more account. -/
def roomForAccount (stop : Bool) : Bool :=
  s.ordinaryBytes + s.stopBytes + 1024 ≤ 33554432 && (stop || s.ordinaryBytes + 1024 ≤ 31457280)

/-- There is room for one more receipt of an account that has its owner. -/
def roomForReceipt (r : Row) : Bool :=
  (s.accounts.any fun a => a.id = r.scope && a.owner.isSome) &&
    s.ordinaryBytes + s.stopBytes + 4096 ≤ 33554432 &&
    if r.stop then
      s.receipts.countP Row.stop < 4096 &&
        s.receipts.countP (fun x => x.stop && x.scope = r.scope) < 512
    else
      s.receipts.countP (fun x => !x.stop) < 65536 &&
        s.receipts.countP (fun x => !x.stop && x.scope = r.scope) < 8192 &&
        s.ordinaryBytes + 4096 ≤ 31457280

/-- The local account behind a name. -/
def ownerOf (authority : Authority) (account : String) : Option String :=
  match authority with
  | .localAccount => if account ∈ s.identity.accounts then some account else none
  | .hostedAccount => s.identity.links account

/-- A new account row: there is room, the names are unique, and the owner exists. -/
def insertAccount (authority : Authority) (account : String) (stop : Bool) (cut : ℤ) :
    Except Fault (Store × ℕ) :=
  match s.ownerOf authority account with
  | none => .error .conflict
  | some owner =>
    if s.roomForAccount stop = false then .error .capacity
    else if (s.accounts.any fun a => a.authority = authority &&
        (a.account = some account || a.owner = some owner)) = true ∨
        owner ∉ s.identity.accounts then .error .database
    else
      let a : Account := ⟨s.nextID, authority, some account, some owner, cut, false, stop⟩
      .ok ({ s with accounts := s.accounts ++ [a], nextID := s.nextID + 1 }, s.nextID)

/-! ## Mutations -/

/-- The account of a binding, or a new one. -/
def scopeFor (b : Binding) (stop : Bool) : Except Fault (Store × ℕ) :=
  match s.scopeID b with
  | some id => .ok (s, id)
  | none => s.insertAccount b.authority b.account stop 0

/-- The receipt that is reserved for a request. -/
def reservation (b : Binding) (e : Envelope) (l : Lifetime) (id : ℕ) (issued : ℤ) : Row :=
  { key := e.key, scope := id, profile := b.profile, family := b.family
    profileIncarnation := l.profile, installation := l.installation, root := b.root
    operation := e.operation, digest := e.digest, stop := e.stop, issued }

/-- A new reservation, charged to the account of the binding. -/
def reserve (b : Binding) (e : Envelope) (l : Lifetime) (issued : ℤ) : Except Fault Store :=
  s.scopeFor b e.stop >>= fun (s, id) =>
  let row := reservation b e l id issued
  if s.roomForReceipt row = false then .error .capacity
  else .ok { s with receipts := s.receipts ++ [row] }

/-- The receipt of a request, or none when it was reserved now. -/
def check (b : Binding) (e : Envelope) (now : ℤ) : Except Fault (Option Receipt × Store) :=
  validate b e now >>= fun issued =>
  resolveLifetime s.identity b >>= fun l =>
  if l.profileLive = false then .error .conflict
  else
    let s := s.advance now
    if issued < s.cutoff b now then .error .expired
    else issuedMs e.key now >>= fun _ =>
    match s.read e.key with
    | some old =>
      if old.matches (s.scopeID b) b e l = false then .error .conflict
      else match old.result with
      | none => .error .conflict
      | some result => .ok (some (old.receipt result), s)
    | none =>
      if b.root ≠ "" ∧ l.rootState ≠ some .active then .error .conflict
      else (s.reserve b e l issued).map fun s => (none, s)

def validResult (r : Result) : Bool :=
  bounded r.targetID 128 true && 0 ≤ r.revision && 0 ≤ r.generation && 0 ≤ r.positionMs &&
    r.positionMs ≤ 9007199254740991 && r.revision ≤ 9007199254740991 && r.generation ≤ 2147483647

/-- The reservation of a request gets its result. -/
def finalise (key : String) (r : Result) (now : ℤ) : Store :=
  let saved (x : Row) : Row := { x with result := some r, committed := now }
  { s with receipts := updateWhere (fun x => x.key = key) saved s.receipts }

def save (b : Binding) (e : Envelope) (r : Result) (now : ℤ) : Except Fault Store :=
  validate b e now >>= fun issued =>
  if validResult r = false then .error .conflict
  else resolveLifetime s.identity b >>= fun l =>
  if issued < s.cutoff b now then .error .expired
  else issuedMs e.key now >>= fun _ =>
  match s.read e.key with
  | none => .error .conflict
  | some old =>
    if old.matches (s.scopeID b) b e l = false then .error .conflict
    else match old.result with
    | none => .ok (s.finalise e.key r now)
    | some result => if result = r then .ok s else .error .conflict

/-- The receipt of a key, under the lifetimes that it was made with. -/
def lookupTx (b : Binding) (key : String) (now : ℤ) : Except Fault (Option Receipt) :=
  if validBinding b = false ∨ now < 0 ∨ maxMs < now then .error .invalidKey
  else parseKey key >>= fun issued =>
  resolveLifetime s.identity b >>= fun l =>
  if issued < s.cutoff b now then .error .expired
  else issuedMs key now >>= fun _ =>
  match s.read key with
  | none => .ok none
  | some r =>
    if r.bound (s.scopeID b) b l = false then .ok none
    else match r.result with
    | none => .error .conflict
    | some result => .ok (some (r.receipt result))

/-! ## Cleanups -/

/-- The oldest 32 of the receipts that meet a condition go. -/
def deleteOldest (p : Row → Bool) : Store :=
  let oldest := (((s.receipts.filter p).insertionSort fun r r' =>
    r.issued < r'.issued ∨ (r.issued = r'.issued ∧ r.key ≤ r'.key)).take 32).map Row.key
  { s with receipts := s.receipts.filter fun r => !(p r && oldest.contains r.key) }

def updateAccount (id : ℕ) (f : Account → Account) : Store :=
  { s with accounts := updateWhere (fun a => a.id = id) f s.accounts }

/-- The receipts of an account that were issued before its cutoff. -/
def retired (id : ℕ) (r : Row) : Bool :=
  r.scope = id && (rowOf Account.id id s.accounts).any fun a => r.issued < a.retiredBefore

def pruneAccount (id : ℕ) : Store :=
  let t := s.deleteOldest (s.retired id)
  t.updateAccount id fun a => { a with cleanupPending := t.receipts.any (t.retired id) }

/-- The owner retires the history of an account before an instant. -/
def retireAccount (authority : Authority) (account : String) (cut : ℤ) : Except Fault Store :=
  if bounded account 128 false = false ∨ cut < 0 ∨ maxMs < cut then .error .invalidKey
  else
    (match s.accounts.find? fun a => a.authority = authority && a.account = some account with
    | some a => .ok (s, a.id)
    | none => s.insertAccount authority account true cut) >>= fun (s, id) =>
    .ok ((s.updateAccount id fun a =>
      { a with retiredBefore := max a.retiredBefore cut, cleanupPending := true }).pruneAccount id)

def retireFamily (b : Binding) : Except Fault Store :=
  if validBinding b = false then .error .invalidKey
  else .ok <| s.deleteOldest fun r => (s.account b).any fun a =>
    r.scope = a.id && r.family = b.family && r.issued < max a.retiredBefore s.retiredBefore

/-- One of the accounts that meet a condition. -/
def oneOf (p : Account → Bool) (choice : ℕ) : Option Account :=
  (s.accounts.filter p)[choice]?.or (s.accounts.filter p).head?

/-- An erased account without receipts goes, within the budget of 32 rows. -/
def dropAccount (before : Store) (id : ℕ) : Store :=
  if before.receipts.length < s.receipts.length + 32 ∧ (s.receipts.all fun r => r.scope ≠ id) then
    { s with accounts := s.accounts.filter fun a => a.id ≠ id }
  else s

/-- The global cutoff follows the clock; then one erased account is drained, or one account whose
history was retired, or the receipts before the global cutoff. -/
def prune (now : ℤ) (orphan pending : ℕ) : Except Fault Store :=
  if now < 0 ∨ maxMs < now then .error .invalidKey
  else
    let s := s.advance now
    match s.oneOf (fun a => a.owner.isNone) orphan with
    | some a => .ok ((s.deleteOldest fun r => r.scope = a.id).dropAccount s a.id)
    | none =>
      match s.oneOf Account.cleanupPending pending with
      | some a => .ok (s.pruneAccount a.id)
      | none => .ok (s.deleteOldest fun r => r.issued < s.retiredBefore)

/-- An account is erased: the receipts stay, and the row that they are charged to loses its name. -/
def erase (account : String) : Store :=
  let scrubbed (a : Account) : Account := { a with owner := none, account := none }
  { s with
    accounts := updateWhere (fun a => a.owner = some account) scrubbed s.accounts
    identity := { s.identity with
      accounts := s.identity.accounts.filter (· ≠ account)
      links := fun hosted =>
        if s.identity.links hosted = some account then none else s.identity.links hosted } }

end Store

/-! ## What the operations do -/

variable {s t : Store} {b : Binding} {e : Envelope} {l : Lifetime} {r : Row} {now issued : ℤ}
  {key : String} {id : ℕ}

/-- The row that a new account gets. -/
def newAccount (s : Store) (authority : Authority) (account owner : String) (stop : Bool) (cut : ℤ) :
    Account :=
  ⟨s.nextID, authority, some account, some owner, cut, false, stop⟩

theorem insertAccount_eq_ok {authority : Authority} {account : String} {stop : Bool} {cut : ℤ}
    (h : s.insertAccount authority account stop cut = .ok (t, id)) :
    ∃ owner, id = s.nextID ∧ t =
      { s with
        accounts := s.accounts ++ [newAccount s authority account owner stop cut]
        nextID := s.nextID + 1 } := by
  unfold Store.insertAccount at h
  split at h
  · cases h
  · rename_i owner _
    split_ifs at h
    obtain ⟨rfl, rfl⟩ := Prod.mk.inj (Except.ok.inj h)
    exact ⟨owner, rfl, rfl⟩

theorem scopeFor_eq_ok {stop : Bool} (h : s.scopeFor b stop = .ok (t, id)) :
    (s.scopeID b = some id ∧ t = s) ∨
      (s.scopeID b = none ∧ s.insertAccount b.authority b.account stop 0 = .ok (t, id)) := by
  unfold Store.scopeFor at h
  split at h
  · rename_i id' hid
    obtain ⟨rfl, rfl⟩ := Prod.mk.inj (Except.ok.inj h)
    exact Or.inl ⟨hid, rfl⟩
  · exact Or.inr ⟨‹_›, h⟩

theorem reserve_eq_ok (h : s.reserve b e l issued = .ok t) :
    ∃ u id, s.scopeFor b e.stop = .ok (u, id) ∧ (∃ a ∈ u.accounts, a.id = id ∧ a.owner.isSome) ∧
      t = { u with receipts := u.receipts ++ [Store.reservation b e l id issued] } := by
  obtain ⟨⟨u, id⟩, hscope, h⟩ := bind_eq_ok.mp h
  obtain ⟨hroom, h⟩ := guard_eq_ok.mp h
  refine ⟨u, id, hscope, ?_, (Except.ok.inj h).symm⟩
  unfold Store.roomForReceipt at hroom
  simp only [Bool.and_eq_true, Bool.not_eq_false, List.any_eq_true, decide_eq_true_eq] at hroom
  obtain ⟨⟨⟨a, ha, hid, howner⟩, -⟩, -⟩ := hroom
  exact ⟨a, ha, hid, howner⟩

/-- **Checks.** A check answers with the receipt of the key, when it is that of the request, or reserves
one for a key that has none; either way the key isn't older than the cutoffs. -/
theorem check_eq_ok {answer : Option Receipt} (h : s.check b e now = .ok (answer, t)) :
    ∃ issued l, validate b e now = .ok issued ∧ resolveLifetime s.identity b = .ok l ∧
      (s.advance now).cutoff b now ≤ issued ∧ issuedMs e.key now = .ok issued ∧
      ((∃ old result, answer = some (old.receipt result) ∧ s.read e.key = some old ∧
          old.matches (s.scopeID b) b e l = true ∧ old.result = some result ∧ t = s.advance now) ∨
        (answer = none ∧ s.read e.key = none ∧ (s.advance now).reserve b e l issued = .ok t)) := by
  unfold Store.check at h
  obtain ⟨issued, hvalid, h⟩ := bind_eq_ok.mp h
  obtain ⟨l, hlife, h⟩ := bind_eq_ok.mp h
  obtain ⟨-, h⟩ := guard_eq_ok.mp h
  obtain ⟨hcut, h⟩ := guard_eq_ok.mp h
  obtain ⟨issued', hissued, h⟩ := bind_eq_ok.mp h
  have hsame : issued' = issued :=
    Except.ok.inj ((issuedMs_eq_ok hissued).symm.trans (validate_eq_ok hvalid))
  subst hsame
  refine ⟨issued', l, hvalid, hlife, not_lt.mp hcut, hissued, ?_⟩
  split at h
  · rename_i old hread
    obtain ⟨hmatches, h⟩ := guard_eq_ok.mp h
    split at h
    · cases h
    · rename_i result hresult
      obtain ⟨rfl, rfl⟩ := Prod.mk.inj (Except.ok.inj h)
      exact Or.inl ⟨old, result, rfl, hread, Bool.eq_true_of_not_eq_false hmatches, hresult, rfl⟩
  · rename_i hread
    obtain ⟨-, h⟩ := guard_eq_ok.mp h
    obtain ⟨u, hu, h⟩ := exists_of_map_eq_ok h
    obtain ⟨rfl, rfl⟩ := Prod.mk.inj h
    exact Or.inr ⟨rfl, hread, hu⟩

/-- **Saves.** A save finalises the reservation of the request, or finds it finalised with the same
result. -/
theorem save_eq_ok {result : Result} (h : s.save b e result now = .ok t) :
    t = s ∨ ∃ old, s.read e.key = some old ∧ old.result = none ∧ t = s.finalise e.key result now := by
  unfold Store.save at h
  obtain ⟨issued, -, h⟩ := bind_eq_ok.mp h
  obtain ⟨-, h⟩ := guard_eq_ok.mp h
  obtain ⟨l, -, h⟩ := bind_eq_ok.mp h
  obtain ⟨-, h⟩ := guard_eq_ok.mp h
  obtain ⟨-, -, h⟩ := bind_eq_ok.mp h
  split at h
  · cases h
  · rename_i old hread
    obtain ⟨-, h⟩ := guard_eq_ok.mp h
    split at h
    · exact Or.inr ⟨old, hread, ‹_›, (Except.ok.inj h).symm⟩
    · split_ifs at h
      exact Or.inl (Except.ok.inj h).symm

theorem cutoff_advance : (s.advance now).cutoff b now = s.cutoff b now := by
  have haccount : (s.advance now).account b = s.account b := rfl
  unfold Store.cutoff
  rw [haccount]
  unfold Store.advance
  dsimp only
  omega

/-- **Lookups.** When a lookup finds neither a receipt nor an error, no check at that moment returns a
receipt. -/
theorem not_check_of_lookupTx (h : s.lookupTx b key now = .ok none) (hkey : e.key = key)
    (receipt : Receipt) : s.check b e now ≠ .ok (some receipt, t) := by
  subst hkey
  intro hcheck
  obtain ⟨issued, l, hvalid, hlife, hcut, hissued, hanswer⟩ := check_eq_ok hcheck
  rcases hanswer with ⟨old, result, -, hread, hmatches, hresult, -⟩ | ⟨hnone, -, -⟩
  · have hbound : old.bound (s.scopeID b) b l = true := by
      unfold Row.matches at hmatches
      simp only [Bool.and_eq_true] at hmatches
      exact hmatches.1.1.1
    -- every guard of the lookup is one that the check has passed
    rw [cutoff_advance] at hcut
    have hguard := (guard_eq_ok.mp hvalid).1
    have hlookup : ¬ (validBinding b = false ∨ now < 0 ∨ maxMs < now) := by
      rintro (hb | hnow | hnow)
      · exact hguard (Or.inl hb)
      · exact hguard (by simp [hnow])
      · exact hguard (by simp [hnow])
    unfold Store.lookupTx at h
    rw [if_neg hlookup, issuedMs_eq_ok hissued, ok_bind, hlife, ok_bind, if_neg (not_lt.mpr hcut),
      hissued, ok_bind, hread] at h
    dsimp only at h
    rw [if_neg (by simp [hbound]), hresult] at h
    cases h
  · cases hnone

end Portico.UserMutation

/-! # Transactions -/

namespace Portico.UserMutation

/-- A transaction under way: its store, the keys that are checked before it commits, and the receipts
whose effects it has. -/
structure Work where
  store : Store
  reserved : List String := []
  pending : List Row := []

structure System where
  store : Store := {}
  work : Option Work := none
  committed : List Row := []

/-- The identity tables change: an account joins or is erased, or the lifetimes, the roots and the links
become others. -/
inductive Change
  | join (account : String)
  | erase (account : String)
  | rotate (profiles : String → String → Option (String × Bool))
      (memberships : String → Option (String × Bool)) (roots : List Root)
      (installations : String → Option Bool) (links : String → Option String)

inductive Event
  | begin
  | check (b : Binding) (e : Envelope) (now : ℤ)
  | save (b : Binding) (e : Envelope) (r : Result) (now : ℤ)
  | retireAccount (authority : Authority) (account : String) (cut : ℤ)
  | retireFamily (b : Binding)
  | prune (now : ℤ) (orphan pending : ℕ)
  | change (c : Change)
  | commit
  | rollback

def Store.change (s : Store) : Change → Store
  | .join account =>
    { s with identity := { s.identity with accounts := account :: s.identity.accounts } }
  | .erase account => s.erase account
  | .rotate profiles memberships roots installations links =>
    { s with identity := ⟨s.identity.accounts, profiles, memberships, roots, installations, links⟩ }

/-- How the receipt of a transaction shows a save. -/
def Store.shown (s : Store) (p : Row) : Row :=
  match s.read p.key with
  | some saved => if saved.scope = p.scope then saved else p
  | none => p

namespace Work

variable (w : Work)

/-- A check, and the effect of what it reserves. -/
def check (b : Binding) (e : Envelope) (now : ℤ) : Except Fault Work :=
  (w.store.check b e now).map fun
    | (some _, store) => { w with store }
    | (none, store) =>
      { store, reserved := w.reserved ++ [e.key]
        pending := w.pending ++ (store.read e.key).toList }

/-- A save, which shows in the receipt that was reserved. -/
def save (b : Binding) (e : Envelope) (r : Result) (now : ℤ) : Except Fault Work :=
  (w.store.save b e r now).map fun store => { w with store, pending := w.pending.map store.shown }

/-- A cleanup, or a change of the identity tables. -/
def replace (x : Except Fault Store) : Except Fault Work := x.map fun store => { w with store }

/-- Every key that was reserved has its result, or its receipt is gone. -/
def finalised : Bool :=
  w.reserved.all fun key => (w.store.read key).all fun r => r.result.isSome

end Work

namespace System

variable (s : System)

/-- A refusal rolls the whole transaction back. -/
def within (f : Work → Except Fault Work) : Option System :=
  s.work.map fun w => { s with work := (f w).toOption }

/-- A transaction with an unfinalised receipt doesn't commit. -/
def commit : Option System :=
  s.work.map fun w =>
    if w.finalised then
      { store := w.store, work := none, committed := s.committed ++ w.pending }
    else { s with work := none }

/-- The store that the calls see. -/
def view : Store :=
  match s.work with
  | none => s.store
  | some w => w.store

/-- The receipts whose effects the calls see. -/
def effects : List Row :=
  match s.work with
  | none => s.committed
  | some w => s.committed ++ w.pending

end System

def step (s : System) : Event → Option System
  | .begin => if s.work.isSome then none else some { s with work := some { store := s.store } }
  | .check b e now => s.within fun w => w.check b e now
  | .save b e r now => s.within fun w => w.save b e r now
  | .retireAccount authority account cut =>
    s.within fun w => w.replace (w.store.retireAccount authority account cut)
  | .retireFamily b => s.within fun w => w.replace (w.store.retireFamily b)
  | .prune now orphan pending => s.within fun w => w.replace (w.store.prune now orphan pending)
  | .change c => s.within fun w => w.replace (.ok (w.store.change c))
  | .commit => s.commit
  | .rollback => if s.work.isSome then some { s with work := none } else none

end Portico.UserMutation
