import Portico.Lib.RevisionQueue

/-!
# The catalogue's derived data

The queue of every domain, the state of its derivation, what was set aside for failing, and the
source ids a rebuild enumerates. A domain's derivation says how its sources are enumerated after a
cursor; what its drain does is met by the step that runs it.

## Main definitions

* `Sources`: the ids a rebuild enumerates, all after the cursor it starts at
* `Enumerates`: an answer of `Backfill`
* `Derivation`: a registered derivation
* `Catalog`: the tables
* `Catalog.touch`, `Catalog.acknowledgeDerived`: queue ids, and take one off at the revision seen
-/

namespace Portico.Derive

/-! ## Domains -/

def domainSearch : ℕ := 17
def domainBrowseRows : ℕ := 18
def domainBrowseEdges : ℕ := 19
def domainAvailability : ℕ := 20
def domainItemMetrics : ℕ := 25
def domainAssetMetrics : ℕ := 26
def domainLibraryAvailability : ℕ := 28
def domainFacetCounts : ℕ := 33
def domainContainerRefresh : ℕ := 35
def domainAssetSources : ℕ := 41
def domainEntitySources : ℕ := 42
def domainLibrarySources : ℕ := 43
def domainMissingSources : ℕ := 44

/-- The drains whose key window is one, whatever the limit on raw rows. -/
def singleHeadDomain (domain : ℕ) : Bool :=
  domain ∈ [domainBrowseRows, domainBrowseEdges, domainAvailability, domainItemMetrics,
    domainAssetMetrics, domainLibraryAvailability, domainFacetCounts, domainContainerRefresh,
    domainAssetSources, domainEntitySources, domainLibrarySources, domainMissingSources]

/-! ## Sources and their enumeration -/

/-- The ids a domain's rebuild enumerates from the cursor it starts at, which is zero. -/
structure Sources where
  ids : List ℤ := []
  ordered : ids.Pairwise (· < ·) := by simp
  positive : ∀ id ∈ ids, 0 < id := by simp

/-- An answer of `Backfill` at a cursor: at most `limit` ids, the next ones, and none only when none
are left. -/
structure Enumerates (sources : Sources) (after : ℤ) (limit : ℕ) (ids : List ℤ) : Prop where
  bounded : ids.length ≤ limit
  listed : ∀ id ∈ ids, id ∈ sources.ids ∧ after < id
  gapless : ∀ id ∈ ids, ∀ x ∈ sources.ids, after < x → x < id → x ∈ ids
  exhausted : ids = [] → ∀ x ∈ sources.ids, x ≤ after

structure Derivation where
  version : ℕ
  backfill : Sources → ℤ → ℕ → List ℤ
  enumerates : ∀ sources after limit, 0 < limit →
    Enumerates sources after limit (backfill sources after limit)

/-- The ids after the cursor, as the table's index has them. -/
def scanIDs (sources : Sources) (after : ℤ) (limit : ℕ) : List ℤ :=
  (sources.ids.filter (after < ·)).take limit

theorem enumerates_scanIDs (sources : Sources) (after : ℤ) (limit : ℕ) (hlimit : 0 < limit) :
    Enumerates sources after limit (scanIDs sources after limit) where
  bounded := List.length_take_le _ _
  listed := by
    intro id hid
    simpa using List.mem_of_mem_take hid
  gapless := by
    intro id hid x hx hafter hlt
    have hall : (sources.ids.filter (after < ·)).Pairwise (· < ·) := sources.ordered.filter _
    have hmem : x ∈ sources.ids.filter (after < ·) := by simp [hx, hafter]
    rw [← List.take_append_drop limit (sources.ids.filter (after < ·))] at hmem hall
    rcases List.mem_append.mp hmem with hmem | hmem
    · exact hmem
    · have := (List.pairwise_append.mp hall).2.2 id hid x hmem
      omega
  exhausted := by
    intro hnil x hx
    rcases List.take_eq_nil_iff.mp hnil with hzero | hnone
    · omega
    · simpa using List.filter_eq_nil_iff.mp hnone x hx

/-! ## The tables -/

/-- The row of a domain's derivation. -/
structure Row where
  version : ℕ
  rebuilding : Bool := true
  firstBuild : Bool := true
  rebuildCursor : ℤ := 0
  cleaning : Bool := false
  activeSlot : ℕ := 0
deriving DecidableEq, Repr

/-- What was set aside for failing. -/
structure Failure where
  domain : ℕ
  id : ℤ
  attempts : ℕ := 1
  failedMs : ℕ
deriving DecidableEq, Repr

structure Catalog where
  dirty : ℕ → RevisionQueue ℤ := fun _ => {}
  derivations : ℕ → Option Row := fun _ => none
  failures : List Failure := []
  sources : ℕ → Sources := fun _ => {}

namespace Catalog

variable {c : Catalog} {domain d : ℕ} {ids : List ℤ} {id x : ℤ} {key : Revised ℤ}

def setQueue (c : Catalog) (domain : ℕ) (q : RevisionQueue ℤ) : Catalog :=
  { c with dirty := Function.update c.dirty domain q }

def setRow (c : Catalog) (domain : ℕ) (f : Row → Row) : Catalog :=
  { c with derivations := fun d => if d = domain then (c.derivations d).map f else c.derivations d }

/-- The ids that a domain has queued. -/
def queued (c : Catalog) (domain : ℕ) : List ℤ := (c.dirty domain).ids

/-- `TouchTx`: queue ids of a domain, or raise the revisions of those that are. -/
def touch (c : Catalog) (domain : ℕ) (ids : List ℤ) : Catalog :=
  c.setQueue domain ((c.dirty domain).touchAll ids)

def touchMany (c : Catalog) (touched : List (ℕ × List ℤ)) : Catalog :=
  touched.foldl (fun c t => c.touch t.1 t.2) c

/-- Take a key off the queue at the revision that was seen, and what was recorded against it. -/
def acknowledgeDerived (c : Catalog) (domain : ℕ) (key : Revised ℤ) : Catalog :=
  { c.setQueue domain ((c.dirty domain).acknowledge key) with
    failures := c.failures.filter fun f => ¬ (f.domain = domain ∧ f.id = key.id) }

/-- The ids a drain reported, each acknowledged at the revision its batch saw. -/
def acknowledgeDone (c : Catalog) (domain : ℕ) (keys : List (Revised ℤ)) (done : List ℤ) :
    Catalog :=
  done.foldl
    (fun c id =>
      match rowOf Revised.id id keys with
      | some key => c.acknowledgeDerived domain key
      | none => c)
    c

/-- The row of a failing id, its attempts counted. -/
def fail (c : Catalog) (domain : ℕ) (id : ℤ) (now : ℕ) : Catalog :=
  let p : Failure → Bool := fun f => f.domain = domain ∧ f.id = id
  { c with
    failures :=
      if c.failures.any p then
        updateWhere p (fun f => { f with attempts := f.attempts + 1, failedMs := now }) c.failures
      else c.failures ++ [{ domain, id, failedMs := now }] }

@[simp] theorem queued_setRow {f : Row → Row} : (c.setRow domain f).queued d = c.queued d := rfl

@[simp] theorem sources_setRow {f : Row → Row} : (c.setRow domain f).sources = c.sources := rfl

@[simp] theorem queued_fail {now : ℕ} : (c.fail domain id now).queued d = c.queued d := rfl

@[simp] theorem derivations_fail {now : ℕ} :
    (c.fail domain id now).derivations = c.derivations := rfl

@[simp] theorem sources_fail {now : ℕ} : (c.fail domain id now).sources = c.sources := rfl

theorem derivations_setRow {f : Row → Row} :
    (c.setRow domain f).derivations d =
      if d = domain then (c.derivations d).map f else c.derivations d := rfl

theorem dirty_setQueue {q : RevisionQueue ℤ} :
    (c.setQueue domain q).dirty d = if d = domain then q else c.dirty d := by
  simp [setQueue, Function.update_apply]

@[simp] theorem derivations_touch : (c.touch domain ids).derivations = c.derivations := rfl

@[simp] theorem sources_touch : (c.touch domain ids).sources = c.sources := rfl

theorem mem_queued_touch :
    x ∈ (c.touch domain ids).queued d ↔ d = domain ∧ x ∈ ids ∨ x ∈ c.queued d := by
  rw [queued, touch, dirty_setQueue]
  split_ifs with h
  · subst h
    simp [queued]
  · simp [h, queued]

theorem queued_touchMany {touched : List (ℕ × List ℤ)} (h : x ∈ c.queued d) :
    x ∈ (c.touchMany touched).queued d := by
  induction touched generalizing c with
  | nil => exact h
  | cons t touched ih => exact ih (mem_queued_touch.mpr (Or.inr h))

@[simp] theorem derivations_touchMany {touched : List (ℕ × List ℤ)} :
    (c.touchMany touched).derivations = c.derivations := by
  induction touched generalizing c with
  | nil => rfl
  | cons t touched ih => exact ih

theorem mem_queued_acknowledgeDerived :
    x ∈ (c.acknowledgeDerived domain key).queued d ↔
      x ∈ c.queued d ∧ ¬ (d = domain ∧ key ∈ (c.dirty domain).rows ∧ key.id = x) := by
  change x ∈ ((c.setQueue domain _).dirty d).ids ↔ _
  rw [dirty_setQueue]
  split_ifs with h
  · subst h
    rw [RevisionQueue.mem_ids_acknowledge]
    simp [queued]
  · simp [h, queued]

theorem rows_acknowledgeDerived {row : Revised ℤ}
    (h : row ∈ ((c.acknowledgeDerived domain key).dirty d).rows) : row ∈ (c.dirty d).rows := by
  change row ∈ ((c.setQueue domain _).dirty d).rows at h
  rw [dirty_setQueue] at h
  split_ifs at h with hd
  · subst hd
    exact (RevisionQueue.mem_rows_acknowledge.mp h).1
  · exact h

@[simp] theorem derivations_acknowledgeDone {keys : List (Revised ℤ)} {done : List ℤ} :
    (c.acknowledgeDone domain keys done).derivations = c.derivations := by
  induction done generalizing c with
  | nil => rfl
  | cons id done ih =>
    rw [acknowledgeDone, List.foldl_cons]
    change (acknowledgeDone _ domain keys done).derivations = _
    rw [ih]
    split <;> rfl

/-- **Leaving the queue.** What a batch takes off the queue was reported as done, and was one of its
keys at the revision it has in the queue. -/
theorem acknowledgeDone_takes (domain : ℕ) (keys : List (Revised ℤ)) (done : List ℤ)
    (h : x ∈ c.queued d) :
    x ∈ (c.acknowledgeDone domain keys done).queued d ∨
      d = domain ∧ x ∈ done ∧ ∃ key ∈ keys, key.id = x ∧ key ∈ (c.dirty domain).rows := by
  induction done generalizing c with
  | nil => exact Or.inl h
  | cons id done ih =>
    rw [acknowledgeDone, List.foldl_cons]
    change x ∈ (acknowledgeDone _ domain keys done).queued d ∨ _
    cases hkey : rowOf Revised.id id keys with
    | none =>
      refine (ih h).imp_right ?_
      rintro ⟨rfl, hdone, hkeys⟩
      exact ⟨rfl, List.mem_cons_of_mem _ hdone, hkeys⟩
    | some key =>
      by_cases htaken : d = domain ∧ key ∈ (c.dirty domain).rows ∧ key.id = x
      · obtain ⟨hd, hrow, rfl⟩ := htaken
        refine Or.inr ⟨hd, ?_, key, mem_of_rowOf hkey, rfl, hrow⟩
        rw [key_of_rowOf hkey]
        exact List.mem_cons_self
      · have hstill : x ∈ (c.acknowledgeDerived domain key).queued d :=
          mem_queued_acknowledgeDerived.mpr ⟨h, htaken⟩
        refine (ih hstill).imp_right ?_
        rintro ⟨rfl, hdone, k, hk, hid, hrow⟩
        exact ⟨rfl, List.mem_cons_of_mem _ hdone, k, hk, hid, rows_acknowledgeDerived hrow⟩

end Catalog

end Portico.Derive
