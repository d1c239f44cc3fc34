import Portico.Lib.Json
import Portico.Lib.Machine
import Portico.Lib.Outcome

/-!
# Replies that are stored with their mutations

A request as it comes, and what its digest is made of: the query with its names in order, and the
canonical form of the body.

A reply is stored in the transaction of its mutation, under the scope and the key of the request. A
request whose receipt is there is answered from it; one whose receipt is past its lifetime replaces
it. A transaction that fails leaves nothing behind. Times are in seconds.

## Main definitions

* `Request`, `Request.valid`: a request, and what is checked of it before anything else
* `encode`: a query with its names in order
* `DigestInput`, `Request.digestInput`: what is hashed
* `Request.Same`: the method, the path, the values of each name and what a reader of the body sees
* `Receipt`, `Store`: the table, beside whatever the mutations change
* `execute`, `sweep`: the two operations
* `Event`, `step`: transactions one after the other, at any clock readings

## Main results

* `encode_eq_iff`: two queries are encoded alike when each name has the same values
* `digestInput_eq_iff`: valid requests have one digest input just when they are the same
-/

namespace Portico.Idempotency

/-! ## Queries -/

/-- The pairs of a query, in the order in which they are written. -/
abbrev Query := List (String × String)

/-- The values of a name, in their order. -/
def values (name : String) (q : Query) : List String :=
  (q.filter fun pair => pair.1 = name).map Prod.snd

/-- The names of a query, each one once and in order. -/
def names (q : Query) : List String := (q.map Prod.fst).dedup.insertionSort (· ≤ ·)

/-- The query with its names in order: the values of each name stay in theirs. -/
def encode (q : Query) : Query := (names q).flatMap fun name => (values name q).map (name, ·)

theorem mem_names {q : Query} {name : String} : name ∈ names q ↔ values name q ≠ [] := by
  unfold names values
  rw [List.mem_insertionSort, List.mem_dedup]
  simp [List.filter_eq_nil_iff]

theorem nodup_names (q : Query) : (names q).Nodup :=
  (List.perm_insertionSort _ _).nodup_iff.mpr (List.nodup_dedup _)

/-- The values of a name, in a query that is put together name by name. -/
theorem values_flatMap {q : Query} {ks : List String} (hks : ks.Nodup) (name : String) :
    values name (ks.flatMap fun k => (values k q).map (k, ·)) =
      if name ∈ ks then values name q else [] := by
  induction ks with
  | nil => rfl
  | cons k ks ih =>
    obtain ⟨hk, hrest⟩ := List.nodup_cons.mp hks
    have ih := ih hrest
    rw [List.flatMap_cons]
    unfold values at ih ⊢
    rw [List.filter_append, List.map_append, ih]
    by_cases hname : name = k
    · subst hname
      simp [hk, List.filter_map, Function.comp_def]
    · have hne : ¬ k = name := fun h => hname h.symm
      simp [hname, hne, List.filter_map, Function.comp_def]

theorem values_encode (q : Query) (name : String) : values name (encode q) = values name q := by
  unfold encode
  rw [values_flatMap (nodup_names q)]
  split_ifs with h
  · rfl
  · rw [mem_names, not_not] at h
    exact h.symm

theorem names_eq {q q' : Query} (h : ∀ name, values name q = values name q') : names q = names q' := by
  have hmem : ∀ name, name ∈ names q ↔ name ∈ names q' := fun name => by
    rw [mem_names, mem_names, h]
  have hperm : (names q).Perm (names q') :=
    (List.perm_ext_iff_of_nodup (nodup_names q) (nodup_names q')).mpr hmem
  exact hperm.eq_of_pairwise (fun a b _ _ => le_antisymm) (List.pairwise_insertionSort _ _)
    (List.pairwise_insertionSort _ _)

/-- Queries are encoded alike just when each name has the same values in the same order. -/
theorem encode_eq_iff {q q' : Query} : encode q = encode q' ↔ ∀ name, values name q = values name q' := by
  constructor
  · intro h name
    rw [← values_encode q, h, values_encode]
  · intro h
    unfold encode
    rw [names_eq h]
    apply List.flatMap_congr
    intro name _
    rw [h]

/-! ## Requests -/

/-- A request: its query and its body are missing when they can't be read. -/
structure Request where
  method : String
  path : String
  query : Option Query
  body : Option Json

/-- A body is read when its objects have distinct keys and it isn't `null`. -/
def readBody (body : Option Json) : Option Json :=
  body.filter fun j => j.unique && j ≠ .null

/-- A path is concrete: it has none of the characters of a template, a query or a line break. -/
def validPath (path : String) : Bool :=
  path.toList.head? = some '/' &&
    path.toList.all fun c => c ∉ ['{', '}', '?', '#', '\r', '\n']

def keyCharacter (c : Char) : Bool := c.isAlphanum || c = '_' || c = '-'

def validKey (key : String) : Bool :=
  16 ≤ key.length && key.length ≤ 128 && key.toList.all keyCharacter

/-- What is hashed of a request. -/
structure DigestInput where
  method : String
  path : String
  query : Query
  body : Json
deriving DecidableEq

/-- What is hashed of a request that can be read. -/
def Request.digestInput (r : Request) : Option DigestInput := do
  let query ← r.query
  let body ← readBody r.body
  return ⟨r.method, r.path, encode query, body.canonical⟩

/-- The requests that may be repeated for one another: the method and the path, the values of each
name in their order, and what is at each path of the body. -/
def Request.Same (r r' : Request) : Prop :=
  r.method = r'.method ∧ r.path = r'.path ∧
    (∃ q q', r.query = some q ∧ r'.query = some q' ∧ ∀ name, values name q = values name q') ∧
    ∃ j j', r.body = some j ∧ r'.body = some j' ∧ ∀ path, j.nodeAt path = j'.nodeAt path

theorem readBody_eq_some {body : Option Json} {j : Json} :
    readBody body = some j ↔ body = some j ∧ j.unique = true ∧ j ≠ .null := by
  unfold readBody
  rw [Option.filter_eq_some_iff]
  simp

theorem digestInput_eq_some {r : Request} {d : DigestInput} :
    r.digestInput = some d ↔ ∃ q j, r.query = some q ∧ readBody r.body = some j ∧
      d = ⟨r.method, r.path, encode q, j.canonical⟩ := by
  unfold Request.digestInput
  simp only [Option.bind_eq_bind, Option.bind_eq_some_iff, Option.pure_def, Option.some.injEq]
  constructor
  · rintro ⟨q, hq, j, hj, rfl⟩
    exact ⟨q, j, hq, hj, rfl⟩
  · rintro ⟨q, j, hq, hj, rfl⟩
    exact ⟨q, hq, j, hj, rfl⟩

/-- Requests that can be read are hashed alike just when they are the same. -/
theorem digestInput_eq_iff {r r' : Request} {d d' : DigestInput} (hd : r.digestInput = some d)
    (hd' : r'.digestInput = some d') : d = d' ↔ r.Same r' := by
  obtain ⟨q, j, hq, hj, rfl⟩ := digestInput_eq_some.mp hd
  obtain ⟨q', j', hq', hj', rfl⟩ := digestInput_eq_some.mp hd'
  obtain ⟨hbody, hunique, -⟩ := readBody_eq_some.mp hj
  obtain ⟨hbody', hunique', -⟩ := readBody_eq_some.mp hj'
  unfold Request.Same
  rw [DigestInput.mk.injEq, encode_eq_iff, Json.canonical_eq_iff hunique hunique']
  constructor
  · rintro ⟨hmethod, hpath, hvalues, hshow⟩
    exact ⟨hmethod, hpath, ⟨q, q', hq, hq', hvalues⟩, j, j', hbody, hbody', hshow⟩
  · rintro ⟨hmethod, hpath, ⟨q₁, q₁', h₁, h₁', hvalues⟩, j₁, j₁', h₂, h₂', hshow⟩
    obtain rfl := Option.some.inj (hq.symm.trans h₁)
    obtain rfl := Option.some.inj (hq'.symm.trans h₁')
    obtain rfl := Option.some.inj (hbody.symm.trans h₂)
    obtain rfl := Option.some.inj (hbody'.symm.trans h₂')
    exact ⟨hmethod, hpath, hvalues, hshow⟩

end Portico.Idempotency

/-! # The table of receipts -/

namespace Portico.Idempotency

/-! ## Results -/

structure Result where
  status : ℕ
  body : List UInt8
  headers : List (String × String)
  replayed : Bool := false
deriving DecidableEq

/-- The length of a character in a JSON string. -/
def charLength (c : Char) : ℕ :=
  if c = '"' || c = '\\' || ['\n', '\r', '\t', '\x08', '\x0c'].contains c then 2
  else if c.toNat < 32 || ['<', '>', '&', '\u2028', '\u2029'].contains c then 6
  else c.utf8Size

def stringLength (s : String) : ℕ := 2 + (s.toList.map charLength).sum

/-- The length of the headers as a JSON object. -/
def headerLength (headers : List (String × String)) : ℕ :=
  1 + max 1 (headers.map fun h => stringLength h.1 + 1 + stringLength h.2 + 1).sum

def validHeader (header : String × String) : Bool :=
  header.1 ≠ "" && header.1.toList.all (fun c => c ∉ ['\r', '\n', ':']) &&
    header.2.toList.all (fun c => c ∉ ['\r', '\n'])

/-- The results that may be stored. -/
def Result.valid (out : Result) : Bool :=
  200 ≤ out.status && out.status < 300 && out.body.length ≤ 512 * 1024 &&
    out.headers.length ≤ 16 && out.headers.all validHeader &&
    headerLength out.headers ≤ 16 * 1024

/-! ## The table -/

/-- A stored reply. Its status is 0 until the mutation has a result. -/
structure Receipt (δ : Type) where
  scope : String
  key : String
  digest : δ
  status : ℕ
  body : List UInt8
  headers : List (String × String)
  expiresAt : ℤ
deriving DecidableEq

/-- The scope and the key of a receipt. -/
def Receipt.name {δ : Type} (r : Receipt δ) : String × String := (r.scope, r.key)

/-- What is stored: the receipts, and all that the mutations change. -/
structure Store (δ W : Type) where
  receipts : List (Receipt δ)
  world : W
deriving DecidableEq

inductive Fault (ε : Type)
  | invalidRequest
  | keyReused
  | inProgress
  | mutation (error : ε)
  | invalidResult
  | sweepLimit
  | database
deriving DecidableEq

/-- How far the database goes along. -/
inductive Database
  | works
  | beginFails
  | statementFails
  | commitFails
deriving DecidableEq

/-- The mutation of a request: an error, or a result and what it changed. -/
abbrev Mutation (ε W : Type) := W → Except ε (Result × W)

section

variable {δ ε W : Type} [DecidableEq δ] (hash : DigestInput → δ) (lifetime : ℕ)

/-- A receipt that isn't filled in yet. -/
def placeholder (now : ℤ) (scope key : String) (digest : δ) : Receipt δ :=
  ⟨scope, key, digest, 0, [], [], now + (lifetime / 1000000000 : ℕ)⟩

/-- The receipt with its result. -/
def Receipt.fill (out : Result) (r : Receipt δ) : Receipt δ :=
  { r with status := out.status, body := out.body, headers := out.headers }

/-- The reply of a receipt. -/
def Receipt.reply (r : Receipt δ) : Result := ⟨r.status, r.body, r.headers, true⟩

/-- What is checked before the transaction. -/
def validCall (scope key : String) (r : Request) : Bool :=
  validKey key && scope ≠ "" && scope.utf8ByteSize ≤ 1024 &&
    (1000000000 ≤ lifetime && lifetime ≤ 7 * 24 * 3600 * 1000000000) &&
    r.method ≠ "" && validPath r.path

/-- What a transaction comes to: an error rolls it back. -/
def transact {α β : Type} (db : Database) (s : β) (run : Except (Fault ε) (α × β)) :
    Except (Fault ε) α × β :=
  match db, run with
  | .beginFails, _ | .statementFails, _ => (.error .database, s)
  | _, .error fault => (.error fault, s)
  | .commitFails, .ok _ => (.error .database, s)
  | .works, .ok (out, s') => (.ok out, s')

/-- The statements of a request. -/
def executeTx (now : ℤ) (scope key : String) (digest : δ) (mutate : Mutation ε W) (s : Store δ W) :
    Except (Fault ε) (Result × Store δ W) :=
  let live := s.receipts.filter fun r => ¬ (r.name = (scope, key) ∧ r.expiresAt ≤ now)
  match rowOf Receipt.name (scope, key) live with
  | some r =>
    if r.digest ≠ digest then .error .keyReused
    else if r.status = 0 then .error .inProgress
    else .ok (r.reply, { s with receipts := live })
  | none =>
    let receipts := live ++ [placeholder lifetime now scope key digest]
    match mutate s.world with
    | .error error => .error (.mutation error)
    | .ok (out, world) =>
      if out.valid = false then .error .invalidResult
      else .ok (out, ⟨updateWhere (fun r => r.name = (scope, key)) (Receipt.fill out) receipts, world⟩)

/-- A request: what is answered, and what is stored afterwards. -/
def execute (db : Database) (now : ℤ) (scope key : String) (request : Request)
    (mutate : Mutation ε W) (s : Store δ W) : Except (Fault ε) Result × Store δ W :=
  if validCall lifetime scope key request = false then (.error .invalidRequest, s)
  else match request.digestInput with
  | none => (.error .invalidRequest, s)
  | some input => transact db s (executeTx lifetime now scope key (hash input) mutate s)

/-- The expired receipts that a sweep takes, the oldest first. -/
def swept (now : ℤ) (limit : ℕ) (receipts : List (Receipt δ)) : List (Receipt δ) :=
  ((receipts.filter fun r => r.expiresAt ≤ now).insertionSort fun a b =>
    a.expiresAt ≤ b.expiresAt).take limit

def sweep (db : Database) (now : ℤ) (limit : ℕ) (s : Store δ W) :
    Except (Fault ε) ℕ × Store δ W :=
  if limit < 1 ∨ 1000 < limit then (.error .sweepLimit, s)
  else
    let doomed := (swept now limit s.receipts).map Receipt.name
    transact db s (.ok (doomed.length,
      { s with receipts := s.receipts.filter fun r => r.name ∉ doomed }))

/-! ## Runs -/

inductive Event (ε W : Type)
  | execute (db : Database) (now : ℤ) (scope key : String) (request : Request)
      (mutate : Mutation ε W)
  | sweep (db : Database) (now : ℤ) (limit : ℕ)

def Event.now : Event ε W → ℤ
  | .execute _ now _ _ _ _ => now
  | .sweep _ now _ => now

/-- One transaction after the other. -/
def step (s : Store δ W) : Event ε W → Option (Store δ W)
  | .execute db now scope key request mutate =>
    some (execute hash lifetime db now scope key request mutate s).2
  | .sweep db now limit => some (sweep db now limit s : Except (Fault ε) ℕ × Store δ W).2

end

end Portico.Idempotency
