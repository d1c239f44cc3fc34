import Portico.DbWork.Statement
import Portico.Lib.Machine

/-!
# Statements: the cache of a connection

A connection keeps prepared statements for reuse. One is leased to one user at a time; a second user of
the same text gets a statement of its own, and one that is removed while it is leased is closed when it is
released. What is kept is charged by what it retains, and measured again at each release.

A prepared statement is the number of its entry. A user is an open result: it releases its lease when it
is closed, and closing it again does nothing.

## Main definitions

* `Cache.lease`, `Cache.release`, `Cache.invalidate`, `Cache.close`: the operations of a cache
* `Conn.step`: what the users of a connection do
* `Sound`: the invariant of a cache
* `Conn.Kept`: what is asked of a connection

## Main results

* `Sound.remove`, `Whole.lease`, `Whole.release`: the operations keep the invariant
* `Conn.statement_cache`: what is asked holds in every run
-/

namespace Portico.DbWork

open Machine

def statementCacheEntries : ℕ := 512
def statementCacheGoOverhead : ℤ := 512

def maxInt : ℤ := 2 ^ 63 - 1

def statementBudgetForMemory (memory : ℤ) : ℤ :=
  if memory ≤ 0 then statementCacheBudget
  else min (max (memory / 512) statementCacheBudget) statementCacheMaxBudget

/-- What a statement retains, as the driver measures it or as it is estimated. -/
def retainedStatementSize (native : Option ℤ) (query : List UInt8) : ℤ :=
  let estimate := statementCacheOverhead + 8 * query.length
  match native with
  | none => estimate
  | some native =>
    if 0 < native then
      let overhead := 2 * query.length + statementCacheGoOverhead
      if maxInt - overhead < native then maxInt else native + overhead
    else estimate

structure Entry where
  query : List UInt8
  size : ℤ
  leased : Bool
  retired : Bool
deriving DecidableEq, Repr

structure Reuse where
  hits : ℕ
  misses : ℕ
  bypasses : ℕ
  evictions : ℕ
deriving DecidableEq, Repr

/-- The statements a connection has made, and those it keeps: by their text, and with the last used
first. `closes` are the calls that closed one. -/
structure Cache where
  made : List Entry
  entries : List (List UInt8 × ℕ)
  lru : List ℕ
  bytes : ℤ
  budget : ℤ
  closed : Bool
  reuse : Reuse
  closes : List ℕ
deriving DecidableEq, Repr

inductive LeaseFault
  | cancelled
  | badConn
  | prepare
deriving DecidableEq, Repr

/-! ## The cache -/

namespace Cache

variable (s : Cache)

/-- A statement. One that wasn't made is no one's. -/
def entry (i : ℕ) : Entry := s.made.getD i ⟨[], 0, true, true⟩

def update (i : ℕ) (f : Entry → Entry) : Cache := { s with made := s.made.modify i f }

def remove (i : ℕ) : Cache :=
  let e := s.entry i
  { s with
    entries := s.entries.filter fun r => r.1 ≠ e.query
    lru := s.lru.erase i
    bytes := s.bytes - e.size
    reuse := { s.reuse with evictions := s.reuse.evictions + 1 }
    made := s.made.modify i fun e => { e with retired := true }
    closes := if e.leased then s.closes else s.closes ++ [i] }

def invalidate : Cache := (s.entries.map Prod.snd).foldl remove s

def close : Cache := { s with closed := true }.invalidate

/-- The one that was used longest ago of those that aren't leased. -/
def victim : Option ℕ := s.lru.reverse.find? fun i => !(s.entry i).leased

/-- Victims are removed while the cache is full, for at most so many turns. -/
def evict (full : Cache → Bool) : ℕ → Cache → Cache
  | 0, s => s
  | n + 1, s =>
    if full s then
      match s.victim with
      | none => s
      | some i => evict full n (s.remove i)
    else s

def makeRoom (full : Cache → Bool) : Cache := evict full s.lru.length s

/-- A kept statement that isn't leased is leased, and is now the last used. -/
def hit (i : ℕ) : Cache :=
  { s.update i (fun e => { e with leased := true }) with
    lru := i :: s.lru.erase i
    reuse := { s.reuse with hits := s.reuse.hits + 1 } }

/-- A text is not to be kept, or isn't yet. -/
def missed (shape : Shape) : Cache :=
  if shape.retain then { s with reuse := { s.reuse with misses := s.reuse.misses + 1 } }
  else
    let s := { s with reuse := { s.reuse with bypasses := s.reuse.bypasses + 1 } }
    if shape.invalidates then s.invalidate else s

/-- A statement is made, for its user alone. -/
def make (query : List UInt8) (size : ℤ) : Cache :=
  { s with made := s.made ++ [⟨query, size, true, true⟩] }

/-- A statement is kept. -/
def insert (i : ℕ) : Cache :=
  let e := s.entry i
  { s.update i (fun e => { e with retired := false }) with
    lru := i :: s.lru
    entries := (e.query, i) :: s.entries
    bytes := s.bytes + e.size }

def fullFor (size : ℤ) (s : Cache) : Bool :=
  statementCacheEntries ≤ s.lru.length || s.budget < s.bytes + size

/-- A statement is kept if there is room for it, or room is made. One of the same text isn't replaced,
and a leased one isn't evicted. -/
def admitted (i : ℕ) : Cache :=
  let e := s.entry i
  if e.size ≤ s.budget ∧ s.entries.lookup e.query = none then
    let s := s.makeRoom (fullFor e.size)
    if s.lru.length < statementCacheEntries ∧ s.bytes + e.size ≤ s.budget then s.insert i else s
  else s

/-- The kept statement of a text, if it isn't leased. -/
def idle (query : List UInt8) : Option ℕ := (s.entries.lookup query).filter fun i => !(s.entry i).leased

/-- A budget that wasn't set is the default. -/
def budgeted (memory : ℤ) : Cache :=
  if s.budget = 0 then { s with budget := statementBudgetForMemory memory } else s

/-- **A lease** of a statement. `prepare` is what the driver makes of a text, and what it then
retains. -/
def lease (memory : ℤ) (cancelled : Bool) (query : List UInt8)
    (prepare : List UInt8 → Option (Option ℤ)) : Except LeaseFault ℕ × Cache :=
  if cancelled then (.error .cancelled, s)
  else if s.closed then (.error .badConn, s)
  else
    let s := s.budgeted memory
    match s.idle query with
    | some i => (.ok i, s.hit i)
    | none =>
      let shape := describeStatement query
      let s := s.missed shape
      match prepare (if shape.single ∧ shape.sql ≠ [] then shape.sql else query) with
      | none => (.error .prepare, s)
      | some native =>
        let i := s.made.length
        let s := s.make query (retainedStatementSize native query)
        (.ok i, if shape.retain then s.admitted i else s)

/-- **A release** of a lease, after an error or not. `native` is what the statement retains now. -/
def release (i : ℕ) (failed : Bool) (native : Option ℤ) : Cache :=
  let e := s.entry i
  if e.leased = false then s
  else
    let s := s.update i fun e => { e with leased := false }
    -- an error may leave bindings behind, so the statement isn't used again
    if e.retired = false ∧ failed then s.remove i
    else if e.retired then { s with closes := s.closes ++ [i] }
    else
      let size := retainedStatementSize native e.query
      if s.budget < size then s.remove i
      else
        let s := { s.update i (fun e => { e with size }) with bytes := s.bytes + (size - e.size) }
        s.makeRoom fun s => s.budget < s.bytes

end Cache

/-! ## The users -/

structure Rows where
  entry : ℕ
  closed : Bool
deriving DecidableEq, Repr

/-- A connection, and the results that its users have had. -/
structure Conn where
  cache : Cache
  rows : List Rows
deriving DecidableEq, Repr

/-- A statement that is executed, or whose query fails, is leased and released in one go, which is a query
and a close. -/
inductive CacheEvent
  | query (cancelled : Bool) (query : List UInt8) (prepare : List UInt8 → Option (Option ℤ))
  | close (k : ℕ) (failed : Bool) (native : Option ℤ)
  | invalidate
  | closeConn

namespace Conn

def closeRows (c : Conn) (k : ℕ) (failed : Bool) (native : Option ℤ) : Option Conn :=
  c.rows[k]?.map fun r =>
    if r.closed then c
    else
      { cache := c.cache.release r.entry failed native
        rows := c.rows.modify k fun r => { r with closed := true } }

/-- One event. -/
def step (memory : ℤ) (c : Conn) : CacheEvent → Option Conn
  | .query cancelled query prepare =>
    match c.cache.lease memory cancelled query prepare with
    | (.error _, cache) => some { c with cache }
    | (.ok i, cache) => some { cache, rows := c.rows ++ [⟨i, false⟩] }
  | .close k failed native => c.closeRows k failed native
  | .invalidate => some { c with cache := c.cache.invalidate }
  | .closeConn => some { c with cache := c.cache.close }

/-- The users that hold a statement. -/
def holders (c : Conn) (i : ℕ) : ℕ := c.rows.countP fun r => r.entry = i && !r.closed

/-- A connection that was just opened. -/
def opened (budget : ℤ) : Conn where
  cache := ⟨[], [], [], 0, budget, false, ⟨0, 0, 0, 0⟩, []⟩
  rows := []

/-- **What is asked** of a connection. A statement that was never kept counts as removed. -/
structure Kept (c : Conn) : Prop where
  /-- The bytes are the sizes of what is kept. -/
  bytes : c.cache.bytes = (c.cache.entries.map fun r => (c.cache.entry r.2).size).sum
  /-- The map and the recency list hold the same statements, each once, and each under its text. -/
  same : (c.cache.entries.map Prod.snd).Perm c.cache.lru ∧ c.cache.lru.Nodup ∧
    (c.cache.entries.map Prod.fst).Nodup ∧ ∀ r ∈ c.cache.entries, r.1 = (c.cache.entry r.2).query
  /-- A statement is leased to one user. -/
  exclusive : ∀ i, c.holders i ≤ 1
  /-- A statement that is held isn't closed. -/
  unclosed : ∀ i, 0 < c.holders i → c.cache.closes.count i = 0
  /-- A statement is closed once at most, and once when it is removed and released. -/
  once : ∀ i, c.cache.closes.count i ≤ 1
  after : ∀ i < c.cache.made.length, i ∉ c.cache.lru → c.holders i = 0 → c.cache.closes.count i = 1
  /-- The budget is exceeded while all that is kept is leased. -/
  within : c.cache.budget < c.cache.bytes → ∀ i ∈ c.cache.lru, c.holders i = 1

end Conn

/-! ## Statements -/

variable {s t : Cache} {i j : ℕ} {query : List UInt8} {size : ℤ} {f : Entry → Entry}

namespace Cache

theorem entry_of_le (h : s.made.length ≤ i) : s.entry i = ⟨[], 0, true, true⟩ := by
  unfold entry
  rw [List.getD_eq_getElem?_getD, List.getElem?_eq_none h]
  rfl

theorem lt_of_live (h : (s.entry i).retired = false) : i < s.made.length := by
  by_contra hle
  rw [entry_of_le (not_lt.mp hle)] at h
  cases h

theorem entry_modify (made : List Entry) (hi : i < made.length) (j : ℕ) :
    (made.modify i f).getD j ⟨[], 0, true, true⟩ =
      if j = i then f (made.getD i ⟨[], 0, true, true⟩) else made.getD j ⟨[], 0, true, true⟩ := by
  simp only [List.getD_eq_getElem?_getD, List.getElem?_modify]
  by_cases hji : j = i
  · subst hji
    simp [List.getElem?_eq_getElem hi]
  · simp [hji, Ne.symm hji]

theorem entry_update (hi : i < s.made.length) (j : ℕ) :
    (s.update i f).entry j = if j = i then f (s.entry i) else s.entry j := entry_modify s.made hi j

theorem entry_remove (hi : i < s.made.length) (j : ℕ) :
    (s.remove i).entry j = if j = i then { s.entry i with retired := true } else s.entry j :=
  entry_modify s.made hi j

theorem entry_make (j : ℕ) : (s.make query size).entry j =
    if j = s.made.length then ⟨query, size, true, true⟩ else s.entry j := by
  unfold make entry
  simp only [List.getD_eq_getElem?_getD]
  by_cases hj : j = s.made.length
  · subst hj
    simp
  · rw [if_neg hj]
    rcases Nat.lt_or_gt_of_ne hj with hlt | hgt
    · rw [List.getElem?_append_left hlt]
    · rw [List.getElem?_eq_none (by simp; omega), List.getElem?_eq_none hgt.le]

end Cache

/-! ## What the operations of a cache keep -/

/-- **The invariant of a cache**: the kept statements are those that aren't retired, and a statement is
closed just when it is retired and not leased. -/
structure Sound (s : Cache) : Prop where
  keys : (s.entries.map Prod.fst).Nodup
  same : (s.entries.map Prod.snd).Perm s.lru
  nodup : s.lru.Nodup
  filed : ∀ r ∈ s.entries, r.1 = (s.entry r.2).query
  live : ∀ i, i ∈ s.lru ↔ (s.entry i).retired = false
  bytes : s.bytes = (s.lru.map fun i => (s.entry i).size).sum
  sized : ∀ i, 0 ≤ (s.entry i).size
  closes : ∀ i, s.closes.count i =
    if (s.entry i).retired = true ∧ (s.entry i).leased = false then 1 else 0

/-- The budget is exceeded while all that is kept is leased. -/
def Roomy (s : Cache) : Prop := s.budget < s.bytes → ∀ i ∈ s.lru, (s.entry i).leased = true

namespace Sound

theorem lt (h : Sound s) (hi : i ∈ s.lru) : i < s.made.length := Cache.lt_of_live ((h.live i).mp hi)

theorem mem_entries (h : Sound s) (hi : i ∈ s.lru) : ((s.entry i).query, i) ∈ s.entries := by
  obtain ⟨⟨q, j⟩, hr, rfl⟩ := List.mem_map.mp (h.same.mem_iff.mpr hi)
  have hq := h.filed _ hr
  dsimp only at hq ⊢
  rwa [← hq]

theorem mem_lru (h : Sound s) {q : List UInt8} (hr : (q, i) ∈ s.entries) : i ∈ s.lru :=
  h.same.mem_iff.mp (List.mem_map_of_mem (f := Prod.snd) hr)

theorem bytes_entries (h : Sound s) :
    s.bytes = (s.entries.map fun r => (s.entry r.2).size).sum := by
  rw [h.bytes, ← (h.same.map fun i => (s.entry i).size).sum_eq, List.map_map]
  rfl

theorem filter_entries (h : Sound s) (hi : i ∈ s.lru) :
    (s.entries.filter fun r => r.1 ≠ (s.entry i).query) = s.entries.erase ((s.entry i).query, i) := by
  have hnodup : s.entries.Nodup := h.keys.of_map _
  rw [hnodup.erase_eq_filter]
  refine List.filter_congr fun r hr => ?_
  have hiff : r.1 ≠ (s.entry i).query ↔ r ≠ ((s.entry i).query, i) := by
    refine not_congr ⟨fun hq => ?_, fun heq => heq ▸ rfl⟩
    exact List.inj_on_of_nodup_map h.keys hr (h.mem_entries hi) hq
  rw [Bool.eq_iff_iff]
  simpa using hiff

theorem bytes_erase (h : Sound s) (hi : i ∈ s.lru) :
    ((s.lru.erase i).map fun i => (s.entry i).size).sum = s.bytes - (s.entry i).size := by
  rw [h.bytes, ((List.perm_cons_erase hi).map fun i => (s.entry i).size).sum_eq, List.map_cons,
    List.sum_cons, add_sub_cancel_left]

theorem remove (h : Sound s) (hi : i ∈ s.lru) : Sound (s.remove i) := by
  have hlt := h.lt hi
  have hentry (j : ℕ) := Cache.entry_remove (s := s) hlt j
  have hmem : ∀ j, j ∈ s.lru.erase i ↔ j ≠ i ∧ j ∈ s.lru := fun j => h.nodup.mem_erase_iff
  constructor
  · exact h.keys.sublist (List.filter_sublist.map _)
  · show ((s.entries.filter fun r => r.1 ≠ (s.entry i).query).map Prod.snd).Perm (s.lru.erase i)
    rw [h.filter_entries hi]
    have hperm := ((List.perm_cons_erase (h.mem_entries hi)).map Prod.snd).symm.trans h.same
    exact (List.cons_perm_iff_perm_erase.mp hperm).2
  · exact h.nodup.erase i
  · intro r hr
    have hold := h.filed r (List.mem_of_mem_filter hr)
    rw [hentry]
    split_ifs with heq
    · rw [hold, heq]
    · exact hold
  · intro j
    show j ∈ s.lru.erase i ↔ _
    rw [hmem, hentry, h.live]
    split_ifs with heq <;> simp [heq]
  · show s.bytes - (s.entry i).size = ((s.lru.erase i).map fun j => ((s.remove i).entry j).size).sum
    rw [← h.bytes_erase hi]
    refine congrArg List.sum (List.map_congr_left fun j hj => ?_)
    rw [hentry, if_neg ((hmem j).mp hj).1]
  · intro j
    rw [hentry]
    split_ifs
    · exact h.sized i
    · exact h.sized j
  · intro j
    have hold := h.closes j
    have hlive := (h.live i).mp hi
    show (if (s.entry i).leased then s.closes else s.closes ++ [i]).count j = _
    rw [hentry]
    by_cases hji : j = i
    · subst hji
      rw [hlive] at hold
      cases hleased : (s.entry j).leased <;> simp [List.count_append, hold, hleased]
    · rw [if_neg hji, ← hold]
      cases (s.entry i).leased <;> simp [List.count_append, Ne.symm hji]

/-- A kept statement is leased or released, and is no longer where it was in the order. -/
theorem setLeased {b : Bool} {lru : List ℕ} (h : Sound s) (hi : i ∈ s.lru) (hlru : lru.Perm s.lru)
    (hentry : ∀ j, t.entry j = if j = i then { s.entry i with leased := b } else s.entry j)
    (hentries : t.entries = s.entries) (hlru' : t.lru = lru) (hbytes : t.bytes = s.bytes)
    (hcloses : t.closes = s.closes) : Sound t := by
  subst hlru'
  have hsize (j : ℕ) : (t.entry j).size = (s.entry j).size := by
    rw [hentry]
    split_ifs with hji
    · rw [hji]
    · rfl
  have hretired (j : ℕ) : (t.entry j).retired = (s.entry j).retired := by
    rw [hentry]
    split_ifs with hji
    · rw [hji]
    · rfl
  constructor
  · rw [hentries]
    exact h.keys
  · rw [hentries]
    exact h.same.trans hlru.symm
  · exact hlru.nodup_iff.mpr h.nodup
  · rw [hentries]
    intro r hr
    rw [hentry]
    split_ifs with hri
    · rw [h.filed r hr, hri]
    · exact h.filed r hr
  · intro j
    rw [hlru.mem_iff, hretired, h.live]
  · rw [hbytes, h.bytes, ← (hlru.map fun i => (s.entry i).size).sum_eq]
    simp only [hsize]
  · intro j
    rw [hsize]
    exact h.sized j
  · intro j
    rw [hcloses, h.closes, hretired]
    by_cases hji : j = i
    · -- a kept statement isn't retired, so it wasn't closed
      rw [hji, (h.live i).mp hi]
      simp
    · rw [hentry, if_neg hji]

theorem make (h : Sound s) (hsize : 0 ≤ size) : Sound (s.make query size) := by
  have hentry (j : ℕ) := @Cache.entry_make s query size j
  have hkept {j : ℕ} (hj : j ∈ s.lru) : (s.make query size).entry j = s.entry j := by
    rw [hentry, if_neg (h.lt hj).ne]
  have hretired (j : ℕ) : ((s.make query size).entry j).retired = (s.entry j).retired := by
    rw [hentry]
    split_ifs with hj
    · rw [hj, Cache.entry_of_le le_rfl]
    · rfl
  have hleased (j : ℕ) : ((s.make query size).entry j).leased = (s.entry j).leased := by
    rw [hentry]
    split_ifs with hj
    · rw [hj, Cache.entry_of_le le_rfl]
    · rfl
  constructor
  · exact h.keys
  · exact h.same
  · exact h.nodup
  · intro r hr
    rw [hkept (h.mem_lru hr)]
    exact h.filed r hr
  · intro j
    rw [hretired]
    exact h.live j
  · show s.bytes = (s.lru.map fun j => ((s.make query size).entry j).size).sum
    rw [h.bytes]
    exact congrArg List.sum (List.map_congr_left fun j hj => by rw [hkept hj])
  · intro j
    rw [hentry]
    split_ifs
    · exact hsize
    · exact h.sized j
  · intro j
    rw [hretired, hleased]
    exact h.closes j

/-- A statement that is leased and not kept is kept, when no other of its text is. -/
theorem insert (h : Sound s) (hlt : i < s.made.length) (hretired : (s.entry i).retired = true)
    (hleased : (s.entry i).leased = true) (hnew : ∀ r ∈ s.entries, r.1 ≠ (s.entry i).query) :
    Sound (s.insert i) := by
  have hentry (j : ℕ) : (s.insert i).entry j =
      if j = i then { s.entry i with retired := false } else s.entry j := Cache.entry_update hlt j
  have hout : i ∉ s.lru := by
    rw [h.live, hretired]
    decide
  constructor
  · show (((s.entry i).query, i) :: s.entries).map Prod.fst |>.Nodup
    rw [List.map_cons, List.nodup_cons]
    refine ⟨fun hmem => ?_, h.keys⟩
    obtain ⟨r, hr, heq⟩ := List.mem_map.mp hmem
    exact hnew r hr heq
  · exact h.same.cons i
  · exact List.nodup_cons.mpr ⟨hout, h.nodup⟩
  · intro r hr
    rcases List.mem_cons.mp hr with rfl | hold
    · rw [hentry, if_pos rfl]
    · have hri : r.2 ≠ i := fun heq => hout (heq ▸ h.mem_lru hold)
      rw [hentry, if_neg hri]
      exact h.filed r hold
  · intro j
    show j ∈ i :: s.lru ↔ _
    rw [List.mem_cons, hentry, h.live]
    split_ifs with hji <;> simp [hji]
  · show s.bytes + (s.entry i).size = ((i :: s.lru).map fun j => ((s.insert i).entry j).size).sum
    rw [List.map_cons, List.sum_cons, hentry, if_pos rfl, h.bytes, add_comm]
    refine congrArg _ (congrArg List.sum (List.map_congr_left fun j hj => ?_))
    have hji : j ≠ i := fun heq => hout (heq ▸ hj)
    rw [hentry, if_neg hji]
  · intro j
    rw [hentry]
    split_ifs
    · exact h.sized i
    · exact h.sized j
  · intro j
    show s.closes.count j = _
    rw [hentry, h.closes]
    by_cases hji : j = i
    · rw [hji, if_pos rfl, hleased]
      simp
    · rw [if_neg hji]

end Sound

/-! ## Making room -/

namespace Cache

theorem victim_eq_some (h : s.victim = some i) : i ∈ s.lru ∧ (s.entry i).leased = false := by
  unfold victim at h
  refine ⟨List.mem_reverse.mp (List.mem_of_find?_eq_some h), ?_⟩
  simpa using List.find?_some h

theorem victim_eq_none (h : s.victim = none) : ∀ i ∈ s.lru, (s.entry i).leased = true := by
  unfold victim at h
  intro i hi
  simpa using List.find?_eq_none.mp h i (List.mem_reverse.mpr hi)

end Cache

/-- A cache comes from another by removals. -/
inductive Removes (s : Cache) : Cache → Prop
  | none : Removes s s
  | remove {t : Cache} {i : ℕ} (h : Removes s t) (hi : i ∈ t.lru) : Removes s (t.remove i)

theorem Roomy.remove (h : Roomy s) (hs : Sound s) (hi : i ∈ s.lru) : Roomy (s.remove i) := by
  intro hover j hj
  have hj' : j ∈ s.lru := List.mem_of_mem_erase hj
  have hsize := hs.sized i
  have hleased := h (show s.budget < s.bytes by
    have hover : s.budget < s.bytes - (s.entry i).size := hover
    omega) j hj'
  rw [Cache.entry_remove (hs.lt hi)]
  split_ifs with hji
  · rwa [hji] at hleased
  · exact hleased

namespace Removes

theorem sound (h : Removes s t) (hs : Sound s) : Sound t := by
  induction h with
  | none => exact hs
  | remove _ hi ih => exact ih.remove hi

theorem roomy (h : Removes s t) (hs : Sound s) (hr : Roomy s) : Roomy t := by
  induction h with
  | none => exact hr
  | remove h hi ih => exact ih.remove (h.sound hs) hi

theorem frame (h : Removes s t) (hs : Sound s) :
    t.made.length = s.made.length ∧ t.entries ⊆ s.entries ∧
      ∀ i, (t.entry i).leased = (s.entry i).leased ∧ (t.entry i).query = (s.entry i).query ∧
        (t.entry i).size = (s.entry i).size ∧
        ((s.entry i).retired = true → (t.entry i).retired = true) := by
  induction h with
  | none => exact ⟨rfl, List.Subset.refl _, fun i => ⟨rfl, rfl, rfl, id⟩⟩
  | @remove t i h hi ih =>
    obtain ⟨hlen, hsub, hentry⟩ := ih
    refine ⟨(List.length_modify ..).trans hlen,
      fun r hr => hsub (List.mem_of_mem_filter hr), fun j => ?_⟩
    rw [Cache.entry_remove ((h.sound hs).lt hi)]
    split_ifs with hji
    · obtain ⟨hleased, hquery, hsize, -⟩ := hentry i
      rw [hji]
      exact ⟨hleased, hquery, hsize, fun _ => rfl⟩
    · exact hentry j

end Removes

namespace Cache

theorem removes_evict (full : Cache → Bool) (n : ℕ) : Removes s t → Removes s (evict full n t) := by
  induction n generalizing t with
  | zero => exact id
  | succ n ih =>
    intro h
    unfold evict
    split_ifs
    · cases hvictim : t.victim with
      | none => exact h
      | some i => exact ih (h.remove (victim_eq_some hvictim).1)
    · exact h

theorem evict_spec {full : Cache → Bool} {n : ℕ} (hn : s.lru.length ≤ n) :
    full (evict full n s) = false ∨
      ∀ i ∈ (evict full n s).lru, ((evict full n s).entry i).leased = true := by
  induction n generalizing s with
  | zero =>
    right
    have hnil : s.lru = [] := List.length_eq_zero_iff.mp (Nat.le_zero.mp hn)
    show ∀ i ∈ s.lru, _
    rw [hnil]
    nofun
  | succ n ih =>
    unfold evict
    split_ifs with hfull
    · cases hvictim : s.victim with
      | none => exact .inr (victim_eq_none hvictim)
      | some i =>
        obtain ⟨hi, -⟩ := victim_eq_some hvictim
        refine ih ?_
        show (s.lru.erase i).length ≤ n
        rw [List.length_erase_of_mem hi]
        omega
    · exact .inl (Bool.eq_false_iff.mpr hfull)

theorem removes_makeRoom (full : Cache → Bool) : Removes s (s.makeRoom full) :=
  removes_evict full _ .none

theorem removes_removeAll (hs : Sound t) (h : Removes s t) {is : List ℕ} (his : is.Nodup)
    (hmem : ∀ i ∈ is, i ∈ t.lru) : Removes s (is.foldl remove t) := by
  induction is generalizing t with
  | nil => exact h
  | cons i is ih =>
    obtain ⟨hnotin, hnodup⟩ := List.nodup_cons.mp his
    obtain ⟨hi, hrest⟩ := List.forall_mem_cons.mp hmem
    refine ih (hs.remove hi) (h.remove hi) hnodup fun j hj => ?_
    exact hs.nodup.mem_erase_iff.mpr ⟨fun heq => hnotin (heq ▸ hj), hrest j hj⟩

theorem removes_invalidate (hs : Sound s) : Removes s s.invalidate :=
  removes_removeAll hs .none (hs.same.nodup_iff.mpr hs.nodup) fun _ hi => hs.same.mem_iff.mp hi

/-! ## Leases -/

/-- A statement was made and is leased. -/
def busy (s : Cache) (i : ℕ) : Bool := i < s.made.length && (s.entry i).leased

end Cache

theorem Removes.busy (h : Removes s t) (hs : Sound s) (i : ℕ) : t.busy i = s.busy i := by
  obtain ⟨hlen, -, hentry⟩ := h.frame hs
  unfold Cache.busy
  rw [hlen, (hentry i).1]

/-- What is asked of the room of a cache with the invariant. -/
structure Whole (s : Cache) : Prop where
  sound : Sound s
  roomy : Roomy s

theorem Removes.whole (h : Removes s t) (hs : Whole s) : Whole t where
  sound := h.sound hs.sound
  roomy := h.roomy hs.sound hs.roomy

theorem retainedStatementSize_pos (native : Option ℤ) (query : List UInt8) :
    0 ≤ retainedStatementSize native query := by
  unfold retainedStatementSize
  cases native with
  | none =>
    unfold statementCacheOverhead
    dsimp only
    positivity
  | some native =>
    dsimp only
    split_ifs with hpos hmax
    · decide
    · unfold statementCacheGoOverhead
      positivity
    · unfold statementCacheOverhead
      positivity

theorem statementBudgetForMemory_pos (memory : ℤ) : 0 ≤ statementBudgetForMemory memory := by
  unfold statementBudgetForMemory statementCacheBudget statementCacheMaxBudget
  split_ifs <;> omega

theorem Whole.budgeted (hs : Whole s) (memory : ℤ) : Whole (s.budgeted memory) := by
  unfold Cache.budgeted
  split_ifs with hzero
  · refine ⟨⟨hs.sound.keys, hs.sound.same, hs.sound.nodup, hs.sound.filed, hs.sound.live, hs.sound.bytes,
      hs.sound.sized, hs.sound.closes⟩, fun hover => hs.roomy ?_⟩
    have hover : statementBudgetForMemory memory < s.bytes := hover
    have := statementBudgetForMemory_pos memory
    omega
  · exact hs

theorem Whole.idle (hs : Whole s) (h : s.idle query = some i) :
    i ∈ s.lru ∧ (s.entry i).leased = false := by
  unfold Cache.idle at h
  obtain ⟨hlookup, hfree⟩ := Option.filter_eq_some_iff.mp h
  obtain ⟨before, after, heq, -⟩ := List.lookup_eq_some_iff.mp hlookup
  refine ⟨hs.sound.mem_lru (q := query) ?_, by simpa using hfree⟩
  rw [heq]
  exact List.mem_append_right _ List.mem_cons_self

theorem Whole.hit (hs : Whole s) (hi : i ∈ s.lru) (hfree : (s.entry i).leased = false) :
    Whole (s.hit i) ∧ s.busy i = false ∧ ∀ j, (s.hit i).busy j = (j = i || s.busy j) := by
  have hlt := hs.sound.lt hi
  have hentry (j : ℕ) : (s.hit i).entry j =
      if j = i then { s.entry i with leased := true } else s.entry j := Cache.entry_update hlt j
  have hperm : (i :: s.lru.erase i).Perm s.lru := (List.perm_cons_erase hi).symm
  refine ⟨⟨hs.sound.setLeased hi hperm hentry rfl rfl rfl rfl, fun hover j hj => ?_⟩, ?_,
    fun j => ?_⟩
  · rw [hentry]
    split_ifs
    · rfl
    · exact hs.roomy hover j (hperm.mem_iff.mp hj)
  · unfold Cache.busy
    rw [hfree, Bool.and_false]
  · have hlen : (s.hit i).made.length = s.made.length := List.length_modify ..
    unfold Cache.busy
    rw [hlen, hentry]
    by_cases hji : j = i
    · subst hji
      simp [hlt]
    · simp [hji]

theorem Whole.missed (hs : Whole s) (shape : Shape) :
    Whole (s.missed shape) ∧ (s.missed shape).made.length = s.made.length ∧
      ∀ j, (s.missed shape).busy j = s.busy j := by
  have hcounted : ∀ reuse, Whole { s with reuse } := fun reuse =>
    ⟨⟨hs.sound.keys, hs.sound.same, hs.sound.nodup, hs.sound.filed, hs.sound.live, hs.sound.bytes,
      hs.sound.sized, hs.sound.closes⟩, hs.roomy⟩
  unfold Cache.missed
  dsimp only
  split_ifs
  · exact ⟨hcounted _, rfl, fun _ => rfl⟩
  · have hwhole := hcounted { s.reuse with bypasses := s.reuse.bypasses + 1 }
    have hremoves := Cache.removes_invalidate hwhole.sound
    exact ⟨hremoves.whole hwhole, (hremoves.frame hwhole.sound).1, hremoves.busy hwhole.sound⟩
  · exact ⟨hcounted _, rfl, fun _ => rfl⟩

theorem Whole.make (hs : Whole s) (hsize : 0 ≤ size) :
    Whole (s.make query size) ∧ ∀ j, (s.make query size).busy j = (j = s.made.length || s.busy j) := by
  have hentry (j : ℕ) := @Cache.entry_make s query size j
  refine ⟨⟨hs.sound.make hsize, fun hover j hj => ?_⟩, fun j => ?_⟩
  · rw [hentry]
    split_ifs
    · rfl
    · exact hs.roomy hover j hj
  · have hlen : (s.make query size).made.length = s.made.length + 1 := by
      unfold Cache.make
      simp
    unfold Cache.busy
    rw [hlen, hentry]
    by_cases hj : j = s.made.length
    · simp [hj]
    · have hiff : j < s.made.length + 1 ↔ j < s.made.length := by omega
      simp [hj, hiff]

theorem Whole.admitted (hs : Whole s) (hlt : i < s.made.length) (hretired : (s.entry i).retired = true)
    (hleased : (s.entry i).leased = true) :
    Whole (s.admitted i) ∧ ∀ j, (s.admitted i).busy j = s.busy j := by
  unfold Cache.admitted
  dsimp only
  split_ifs with hnew hroom
  · have hremoves := Cache.removes_makeRoom (s := s) (Cache.fullFor (s.entry i).size)
    obtain ⟨hlen, hsub, hframe⟩ := hremoves.frame hs.sound
    have hwhole := hremoves.whole hs
    have hbusy := hremoves.busy hs.sound
    generalize s.makeRoom (Cache.fullFor (s.entry i).size) = t at *
    obtain ⟨hleased', hquery', hsize', hretired'⟩ := hframe i
    have hlt' : i < t.made.length := hlen ▸ hlt
    have hentry (j : ℕ) : (t.insert i).entry j =
      if j = i then { t.entry i with retired := false } else t.entry j := Cache.entry_update hlt' j
    refine ⟨⟨hwhole.sound.insert hlt' (hretired' hretired) (hleased'.trans hleased) fun r hr hq => ?_,
      fun hover => ?_⟩, fun j => ?_⟩
    · have hnone := List.lookup_eq_none_iff.mp hnew.2 r (hsub hr)
      rw [hq, hquery'] at hnone
      simp at hnone
    · -- there was room for it
      have hover : t.budget < t.bytes + (t.entry i).size := hover
      rw [hsize'] at hover
      omega
    · have hlen' : (t.insert i).made.length = t.made.length := List.length_modify ..
      rw [← hbusy j]
      unfold Cache.busy
      rw [hlen', hentry]
      split_ifs with hji
      · rw [hji]
      · rfl
  · have hremoves := Cache.removes_makeRoom (s := s) (Cache.fullFor (s.entry i).size)
    exact ⟨hremoves.whole hs, hremoves.busy hs.sound⟩
  · exact ⟨hs, fun _ => rfl⟩

/-- **A lease** is of a statement that no one has. -/
theorem Whole.lease (hs : Whole s) (memory : ℤ) (cancelled : Bool) (query : List UInt8)
    (prepare : List UInt8 → Option (Option ℤ)) {r : Except LeaseFault ℕ}
    (h : s.lease memory cancelled query prepare = (r, t)) :
    Whole t ∧ match r with
      | .error _ => ∀ j, t.busy j = s.busy j
      | .ok i => s.busy i = false ∧ ∀ j, t.busy j = (j = i || s.busy j) := by
  unfold Cache.lease at h
  split_ifs at h
  · obtain ⟨rfl, rfl⟩ := Prod.mk.inj h
    exact ⟨hs, fun _ => rfl⟩
  · obtain ⟨rfl, rfl⟩ := Prod.mk.inj h
    exact ⟨hs, fun _ => rfl⟩
  · have hbudgeted := hs.budgeted memory
    have hsame : ∀ j, (s.budgeted memory).busy j = s.busy j := by
      intro j
      unfold Cache.budgeted
      split_ifs <;> rfl
    dsimp only at h
    generalize s.budgeted memory = u at h hbudgeted hsame
    simp only [← hsame]
    clear hsame hs
    cases hidle : u.idle query with
    | some i =>
      rw [hidle] at h
      obtain ⟨rfl, rfl⟩ := Prod.mk.inj h
      obtain ⟨hi, hfree⟩ := hbudgeted.idle hidle
      exact hbudgeted.hit hi hfree
    | none =>
      rw [hidle] at h
      dsimp only at h
      obtain ⟨hmissed, hlen, hbusy⟩ := hbudgeted.missed (describeStatement query)
      generalize u.missed (describeStatement query) = v at h hmissed hlen hbusy
      simp only [← hbusy]
      split at h
      · obtain ⟨rfl, rfl⟩ := Prod.mk.inj h
        exact ⟨hmissed, fun _ => rfl⟩
      · rename_i native _
        obtain ⟨rfl, rfl⟩ := Prod.mk.inj h
        obtain ⟨hmade, hnew⟩ := @Whole.make _ query _ hmissed (retainedStatementSize_pos native query)
        have hfree : v.busy v.made.length = false := by
          unfold Cache.busy
          simp
        refine ⟨?_, hfree, ?_⟩
        · split_ifs
          · exact (hmade.admitted (by unfold Cache.make; simp)
              (by rw [Cache.entry_make, if_pos rfl]) (by rw [Cache.entry_make, if_pos rfl])).1
          · exact hmade
        · intro j
          split_ifs
          · rw [(hmade.admitted (by unfold Cache.make; simp)
              (by rw [Cache.entry_make, if_pos rfl]) (by rw [Cache.entry_make, if_pos rfl])).2, hnew]
          · exact hnew j

/-! ## Releases -/

theorem Sound.resize (hs : Sound s) (hi : i ∈ s.lru) (hsize : 0 ≤ size) :
    Sound { s.update i (fun e => { e with size }) with bytes := s.bytes + (size - (s.entry i).size) } := by
  have hlt := hs.lt hi
  have hentry (j : ℕ) : Cache.entry { s.update i (fun e => { e with size }) with
      bytes := s.bytes + (size - (s.entry i).size) } j =
      if j = i then { s.entry i with size } else s.entry j := Cache.entry_update hlt j
  generalize ht : ({ s.update i (fun e => { e with size }) with
    bytes := s.bytes + (size - (s.entry i).size) } : Cache) = t at hentry
  have hentries : t.entries = s.entries := by rw [← ht]; rfl
  have hlru : t.lru = s.lru := by rw [← ht]; rfl
  have hcloses : t.closes = s.closes := by rw [← ht]; rfl
  have hbytes : t.bytes = s.bytes + (size - (s.entry i).size) := by rw [← ht]
  have hsame : ∀ j, (t.entry j).retired = (s.entry j).retired ∧ (t.entry j).leased = (s.entry j).leased ∧
      (t.entry j).query = (s.entry j).query := by
    intro j
    rw [hentry]
    split_ifs with hji
    · rw [hji]
      exact ⟨rfl, rfl, rfl⟩
    · exact ⟨rfl, rfl, rfl⟩
  constructor
  · rw [hentries]
    exact hs.keys
  · rw [hentries, hlru]
    exact hs.same
  · rw [hlru]
    exact hs.nodup
  · rw [hentries]
    intro r hr
    rw [(hsame _).2.2]
    exact hs.filed r hr
  · intro j
    rw [hlru, (hsame j).1]
    exact hs.live j
  · have hrest : ((s.lru.erase i).map fun j => (t.entry j).size) =
        (s.lru.erase i).map fun j => (s.entry j).size := by
      refine List.map_congr_left fun j hj => ?_
      rw [hentry, if_neg ((hs.nodup.mem_erase_iff).mp hj).1]
    rw [hlru, ((List.perm_cons_erase hi).map fun j => (t.entry j).size).sum_eq, List.map_cons,
      List.sum_cons, hrest, hs.bytes_erase hi, hentry, if_pos rfl, hbytes]
    ring
  · intro j
    rw [hentry]
    split_ifs
    · exact hsize
    · exact hs.sized j
  · intro j
    rw [hcloses, (hsame j).1, (hsame j).2.1]
    exact hs.closes j

theorem Sound.releaseRetired (hs : Sound s) (hlt : i < s.made.length)
    (hretired : (s.entry i).retired = true) (hleased : (s.entry i).leased = true) :
    Sound { s.update i (fun e => { e with leased := false }) with closes := s.closes ++ [i] } := by
  have hentry (j : ℕ) : Cache.entry { s.update i (fun e => { e with leased := false }) with
      closes := s.closes ++ [i] } j =
      if j = i then { s.entry i with leased := false } else s.entry j := Cache.entry_update hlt j
  have hout {j : ℕ} (hj : j ∈ s.lru) : j ≠ i := by
    rintro rfl
    rw [hs.live, hretired] at hj
    cases hj
  constructor
  · exact hs.keys
  · exact hs.same
  · exact hs.nodup
  · intro r hr
    rw [hentry, if_neg (hout (hs.mem_lru hr))]
    exact hs.filed r hr
  · intro j
    show j ∈ s.lru ↔ _
    rw [hentry, hs.live]
    split_ifs with hji
    · rw [hji]
    · rfl
  · show s.bytes = _
    rw [hs.bytes]
    refine congrArg List.sum (List.map_congr_left fun j hj => ?_)
    rw [hentry, if_neg (hout hj)]
  · intro j
    rw [hentry]
    split_ifs
    · exact hs.sized i
    · exact hs.sized j
  · intro j
    show (s.closes ++ [i]).count j = _
    rw [List.count_append, hs.closes, hentry]
    by_cases hji : j = i
    · rw [hji, if_pos rfl, hleased, hretired]
      simp
    · have hzero : [i].count j = 0 := List.count_eq_zero.mpr (by simpa using hji)
      rw [if_neg hji, hzero, add_zero]

theorem Cache.busy_of_entry {b : Bool} (hlen : t.made.length = s.made.length) (hlt : i < s.made.length)
    (h : ∀ j, (t.entry j).leased = if j = i then b else (s.entry j).leased) (j : ℕ) :
    t.busy j = if j = i then b else s.busy j := by
  unfold Cache.busy
  rw [hlen, h]
  split_ifs with hji
  · simp [hji, hlt]
  · rfl

/-- **A release** ends the lease of a statement, and of no other. -/
theorem Whole.release (hs : Whole s) (hbusy : s.busy i = true) (failed : Bool) (native : Option ℤ) :
    Whole (s.release i failed native) ∧
      ∀ j, (s.release i failed native).busy j = if j = i then false else s.busy j := by
  have hbusy' := hbusy
  unfold Cache.busy at hbusy'
  rw [Bool.and_eq_true, decide_eq_true_eq] at hbusy'
  obtain ⟨hlt, hleased⟩ := hbusy'
  unfold Cache.release
  dsimp only
  rw [if_neg (by simp [hleased])]
  have hentry (j : ℕ) := Cache.entry_update (s := s) (f := fun e => { e with leased := false }) hlt j
  have hfree (j : ℕ) : ((s.update i fun e => { e with leased := false }).entry j).leased =
      if j = i then false else (s.entry j).leased := by
    rw [hentry]
    split_ifs <;> rfl
  have hlen : (s.update i fun e => { e with leased := false }).made.length = s.made.length :=
    List.length_modify ..
  by_cases hretired : (s.entry i).retired = true
  · rw [if_neg (by simp [hretired]), if_pos hretired]
    refine ⟨⟨hs.sound.releaseRetired hlt hretired hleased, fun hover j hj => ?_⟩,
      Cache.busy_of_entry hlen hlt hfree⟩
    have hji : j ≠ i := by
      intro heq
      have hlive := (hs.sound.live j).mp hj
      rw [heq, hretired] at hlive
      cases hlive
    exact ((hfree j).trans (if_neg hji)).trans (hs.roomy hover j hj)
  · rw [Bool.not_eq_true] at hretired
    have hi : i ∈ s.lru := (hs.sound.live i).mpr hretired
    have hsound : Sound (s.update i fun e => { e with leased := false }) :=
      hs.sound.setLeased hi (List.Perm.refl _) hentry rfl rfl rfl rfl
    have hother : ∀ j ∈ s.lru, s.budget < s.bytes → j ≠ i →
        ((s.update i fun e => { e with leased := false }).entry j).leased = true := by
      intro j hj hover hji
      exact ((hfree j).trans (if_neg hji)).trans (hs.roomy hover j hj)
    have hsize : ((s.update i fun e => { e with leased := false }).entry i).size = (s.entry i).size := by
      rw [hentry, if_pos rfl]
    have hquery : ((s.update i fun e => { e with leased := false }).entry i).query = (s.entry i).query := by
      rw [hentry, if_pos rfl]
    have hbusy := Cache.busy_of_entry (b := false) hlen hlt hfree
    have hbytes : (s.update i fun e => { e with leased := false }).bytes = s.bytes := rfl
    have hlru : (s.update i fun e => { e with leased := false }).lru = s.lru := rfl
    have hbudget : (s.update i fun e => { e with leased := false }).budget = s.budget := rfl
    generalize (s.update i fun e => { e with leased := false }) = u at *
    rw [← hsize, hretired]
    rw [← hlru] at hi
    -- without the statement the others are leased if they are too many
    have hremove : Whole (u.remove i) ∧ ∀ j, (u.remove i).busy j = if j = i then false else s.busy j := by
      refine ⟨⟨hsound.remove hi, fun hover j hj => ?_⟩, fun j => ?_⟩
      · have hover : u.budget < u.bytes - (u.entry i).size := hover
        have hpos := hsound.sized i
        obtain ⟨hji, hj⟩ := (hsound.nodup.mem_erase_iff).mp hj
        rw [Cache.entry_remove (hsound.lt hi), if_neg hji]
        exact hother j (hlru ▸ hj) (by omega) hji
      · rw [(Removes.none.remove hi).busy hsound, hbusy]
    by_cases hfailed : failed = true
    · rw [if_pos ⟨rfl, hfailed⟩]
      exact hremove
    rw [if_neg fun hboth => hfailed hboth.2, if_neg Bool.false_ne_true]
    split_ifs with hlarge
    · exact hremove
    · have hresize := hsound.resize hi (retainedStatementSize_pos native (s.entry i).query)
      have hlive : ∀ j, Cache.busy { u.update i (fun e => { e with
          size := retainedStatementSize native (s.entry i).query }) with
          bytes := u.bytes + (retainedStatementSize native (s.entry i).query - (u.entry i).size) } j =
          u.busy j := by
        intro j
        have hupdate := Cache.entry_update (s := u)
          (f := fun e => { e with size := retainedStatementSize native (s.entry i).query }) (hsound.lt hi) j
        have hleased : ((u.update i fun e => { e with
            size := retainedStatementSize native (s.entry i).query }).entry j).leased =
            (u.entry j).leased := by
          rw [hupdate]
          split_ifs with hji
          · rw [hji]
          · rfl
        unfold Cache.busy
        exact congrArg₂ _ (congrArg (fun n => decide (j < n)) (List.length_modify ..)) hleased
      have hremoves := Cache.removes_makeRoom (s := { u.update i (fun e => { e with
          size := retainedStatementSize native (s.entry i).query }) with
          bytes := u.bytes + (retainedStatementSize native (s.entry i).query - (u.entry i).size) })
        fun s => s.budget < s.bytes
      refine ⟨⟨hremoves.sound hresize, fun hover => ?_⟩, fun j => ?_⟩
      · rcases @Cache.evict_spec _ (fun s : Cache => s.budget < s.bytes) _ le_rfl with hroom | hall
        · exact absurd hover (of_decide_eq_false hroom)
        · exact hall
      · rw [hremoves.busy hresize, hlive, hbusy]

/-! ## Runs -/

/-- **The invariant of a connection**: a statement has one holder while it is leased. -/
structure Conn.Held (c : Conn) : Prop where
  whole : Whole c.cache
  held : ∀ i, c.holders i = if c.cache.busy i = true then 1 else 0

namespace Conn

variable {c c' : Conn} {memory : ℤ} {e : CacheEvent}

theorem held_opened (budget : ℤ) : (opened budget).Held where
  whole :=
    { sound :=
        { keys := List.nodup_nil
          same := List.Perm.refl _
          nodup := List.nodup_nil
          filed := nofun
          live := fun i => by simp [opened, Cache.entry]
          bytes := rfl
          sized := fun i => by simp [opened, Cache.entry]
          closes := fun i => by simp [opened, Cache.entry] }
      roomy := nofun }
  held := fun i => by simp [opened, holders, Cache.busy]

theorem holders_pos (h : c.Held) : 0 < c.holders i ↔ c.cache.busy i = true := by
  rw [h.held]
  split_ifs with hbusy <;> simp [hbusy]

theorem Held.removes (h : c.Held) (hremoves : Removes c.cache t) : Held { c with cache := t } where
  whole := hremoves.whole h.whole
  held := fun i => by
    rw [hremoves.busy h.whole.sound]
    exact h.held i

theorem Held.closeRows {k : ℕ} {failed : Bool} {native : Option ℤ} (h : c.Held)
    (hstep : c.closeRows k failed native = some c') : c'.Held := by
  unfold Conn.closeRows at hstep
  obtain ⟨r, hr, rfl⟩ := Option.map_eq_some_iff.mp hstep
  split_ifs with hclosed
  · exact h
  · have hopen : (r.entry = r.entry && !r.closed) = true := by simpa using hclosed
    obtain ⟨hk, hget⟩ := List.getElem?_eq_some_iff.mp hr
    have hmem : r ∈ c.rows := List.mem_of_getElem? hr
    have hbusy : c.cache.busy r.entry = true := by
      rw [← holders_pos h]
      exact List.countP_pos_iff.mpr ⟨r, hmem, hopen⟩
    obtain ⟨hwhole, hbusy'⟩ := h.whole.release hbusy failed native
    refine ⟨hwhole, fun i => ?_⟩
    -- the count of the rows before, at, and after the one that is closed
    have hsplit : c.rows = c.rows.take k ++ r :: c.rows.drop (k + 1) := by
      rw [← hget, List.cons_getElem_drop_succ, List.take_append_drop]
    have hmodify : c.rows.modify k (fun r => { r with closed := true }) =
        c.rows.take k ++ { r with closed := true } :: c.rows.drop (k + 1) := by
      rw [List.modify_eq_take_cons_drop hk, hget]
    have hold := h.held i
    unfold holders at hold ⊢
    dsimp only
    rw [hmodify, hbusy', List.countP_append, List.countP_cons]
    rw [hsplit, List.countP_append, List.countP_cons] at hold
    by_cases hi : i = r.entry
    · subst hi
      rw [hbusy] at hold
      simp only [Bool.not_eq_true] at hclosed
      simp only [hclosed, decide_true, Bool.not_false, Bool.and_self, if_true] at hold
      simp only [Bool.not_true, Bool.and_false, if_true, Bool.false_eq_true, if_false]
      omega
    · have hne : ¬ r.entry = i := fun heq => hi heq.symm
      simp only [hne, decide_false, Bool.false_and, Bool.false_eq_true, if_false, hi] at hold ⊢
      exact hold

theorem Held.step (h : c.Held) (hstep : c.step memory e = some c') : c'.Held := by
  cases e with
  | query cancelled query prepare =>
    unfold Conn.step at hstep
    dsimp only at hstep
    rcases hlease : c.cache.lease memory cancelled query prepare with ⟨r, t⟩
    obtain ⟨hwhole, hr⟩ := h.whole.lease memory cancelled query prepare hlease
    rw [hlease] at hstep
    cases r with
    | error fault =>
      obtain rfl := Option.some.inj hstep
      exact ⟨hwhole, fun i => by rw [hr i]; exact h.held i⟩
    | ok i =>
      obtain rfl := Option.some.inj hstep
      obtain ⟨hfree, hbusy⟩ := hr
      refine ⟨hwhole, fun j => ?_⟩
      have hold := h.held j
      unfold holders at hold ⊢
      dsimp only
      rw [hbusy, List.countP_append, hold, List.countP_singleton]
      by_cases hji : j = i
      · subst hji
        simp [hfree]
      · simp [hji, Ne.symm hji]
  | close k failed native => exact h.closeRows hstep
  | invalidate =>
    obtain rfl := Option.some.inj hstep
    exact h.removes (Cache.removes_invalidate h.whole.sound)
  | closeConn =>
    obtain rfl := Option.some.inj hstep
    have hclosed : Held { c with cache := { c.cache with closed := true } } :=
      ⟨⟨⟨h.whole.sound.keys, h.whole.sound.same, h.whole.sound.nodup, h.whole.sound.filed,
        h.whole.sound.live, h.whole.sound.bytes, h.whole.sound.sized, h.whole.sound.closes⟩,
        h.whole.roomy⟩, h.held⟩
    exact hclosed.removes (Cache.removes_invalidate hclosed.whole.sound)

theorem Held.kept (h : c.Held) : c.Kept := by
  obtain ⟨⟨hsound, hroomy⟩, hheld⟩ := h
  constructor
  · exact hsound.bytes_entries
  · exact ⟨hsound.same, hsound.nodup, hsound.keys, hsound.filed⟩
  · intro i
    rw [hheld]
    split_ifs <;> omega
  · intro i hpos
    rw [hheld] at hpos
    have hbusy : c.cache.busy i = true := by
      by_contra hnot
      rw [if_neg hnot] at hpos
      exact lt_irrefl 0 hpos
    unfold Cache.busy at hbusy
    rw [Bool.and_eq_true] at hbusy
    rw [hsound.closes, if_neg]
    rw [hbusy.2]
    simp
  · intro i
    rw [hsound.closes]
    split_ifs <;> omega
  · intro i hi hout hnone
    rw [hheld] at hnone
    have hfree : c.cache.busy i = false := by
      by_contra hnot
      rw [if_pos (Bool.not_eq_false _ ▸ hnot)] at hnone
      cases hnone
    unfold Cache.busy at hfree
    rw [decide_eq_true hi, Bool.true_and] at hfree
    have hretired : (c.cache.entry i).retired = true := by
      rw [hsound.live] at hout
      exact Bool.not_eq_false _ ▸ hout
    rw [hsound.closes, if_pos ⟨hretired, hfree⟩]
  · intro hover i hi
    rw [hheld, if_pos]
    unfold Cache.busy
    rw [hroomy hover i hi, decide_eq_true (hsound.lt hi), Bool.and_self]

/-- **The statement cache.** What is asked of a connection holds at every state of every run. -/
theorem statement_cache (memory budget : ℤ) (es : List CacheEvent) :
    Along (step memory) Kept (opened budget) es := by
  have hheld := held_opened budget
  generalize opened budget = c at hheld
  induction es generalizing c with
  | nil => exact hheld.kept
  | cons e es ih => exact ⟨hheld.kept, fun t ht => ih t (hheld.step ht)⟩

end Conn

end Portico.DbWork
