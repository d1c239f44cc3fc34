import Portico.Idempotency.Store

/-!
# Retried requests

A mutation that is committed leaves a receipt, which answers every later request of its scope and key
until it expires. A call that doesn't commit its mutation changes nothing, so that the next one runs.

## Main results

* `executeTx_live`, `executeTx_dead`: a call with and without a live receipt
* `idempotent`: over every run, receipts answer until they expire, and failures leave nothing
-/

namespace Portico.Idempotency

variable {δ ε W : Type} {hash : DigestInput → δ} {lifetime : ℕ} {db : Database} {now : ℤ}
  {scope key : String} {request : Request} {mutate : Mutation ε W} {s s' : Store δ W} {r : Receipt δ}
  {out : Result} {digest : δ}

/-! ## Receipts -/

/-- A receipt that hasn't expired. -/
def Live (s : Store δ W) (now : ℤ) (name : String × String) : Prop :=
  ∃ r ∈ s.receipts, r.name = name ∧ now < r.expiresAt

/-- Every scope and key has one receipt, and none is left open. -/
structure Store.Sound (s : Store δ W) : Prop where
  names : (s.receipts.map Receipt.name).Nodup
  filled : ∀ r ∈ s.receipts, r.status ≠ 0

/-- The receipts after a mutation: its own comes last. -/
def Store.commit (lifetime : ℕ) (now : ℤ) (scope key : String) (digest : δ) (out : Result) (world : W)
    (s : Store δ W) : Store δ W :=
  ⟨(s.receipts.filter fun r => r.name ≠ (scope, key)) ++
    [(placeholder lifetime now scope key digest).fill out], world⟩

/-- A call that runs its mutation and commits it. -/
structure Commits (lifetime : ℕ) (db : Database) (now : ℤ) (scope key : String) (request : Request)
    (mutate : Mutation ε W) (out : Result) (s : Store δ W) : Prop where
  works : db = .works
  valid : validCall lifetime scope key request = true
  read : ∃ input, request.digestInput = some input
  dead : ¬ Live s now (scope, key)
  runs : ∃ world, mutate s.world = .ok (out, world)
  result : out.valid = true

theorem transact_error {α β : Type} (db : Database) (s : β) (fault : Fault ε) :
    ∃ fault', (transact db s (.error fault) : Except (Fault ε) α × β) = (.error fault', s) := by
  cases db <;> exact ⟨_, rfl⟩

theorem transact_ok {α β : Type} (db : Database) (s s' : β) (a : α) :
    (∃ fault, (transact db s (.ok (a, s')) : Except (Fault ε) α × β) = (.error fault, s)) ∨
      db = .works ∧ (transact db s (.ok (a, s')) : Except (Fault ε) α × β) = (.ok a, s') := by
  cases db with
  | works => exact Or.inr ⟨rfl, rfl⟩
  | beginFails | statementFails | commitFails => exact Or.inl ⟨_, rfl⟩

theorem Store.Sound.commit {world : W} (hs : s.Sound) (hresult : out.valid = true) :
    (s.commit lifetime now scope key digest out world).Sound := by
  constructor
  · apply nodup_append_row
    · exact hs.names.sublist (List.filter_sublist.map _)
    · exact fun r hr => of_decide_eq_true (List.mem_filter.mp hr).2
  · intro r hr
    rcases List.mem_append.mp hr with hr | hr
    · exact hs.filled r (List.mem_of_mem_filter hr)
    · obtain rfl := List.mem_singleton.mp hr
      change out.status ≠ 0
      simp only [Result.valid, Bool.and_eq_true, decide_eq_true_eq] at hresult
      omega

theorem Store.Sound.filter (hs : s.Sound) (p : Receipt δ → Bool) :
    ({ s with receipts := s.receipts.filter p } : Store δ W).Sound :=
  ⟨hs.names.sublist (List.filter_sublist.map _), fun r hr => hs.filled r (List.mem_of_mem_filter hr)⟩

theorem sweep_cases (limit : ℕ) :
    (sweep db now limit s : Except (Fault ε) ℕ × Store δ W).2 = s ∨
      (sweep db now limit s : Except (Fault ε) ℕ × Store δ W).2 = { s with
        receipts := s.receipts.filter fun r => r.name ∉ (swept now limit s.receipts).map Receipt.name } := by
  unfold sweep
  split_ifs with hlimit
  · exact Or.inl rfl
  · rcases transact_ok (ε := ε) db s { s with receipts := s.receipts.filter fun r =>
        r.name ∉ (swept now limit s.receipts).map Receipt.name }
        ((swept now limit s.receipts).map Receipt.name).length with ⟨fault, h⟩ | ⟨-, h⟩
    · left
      rw [h]
    · right
      rw [h]

theorem expired_of_swept {limit : ℕ} {receipts : List (Receipt δ)}
    (h : r ∈ swept now limit receipts) : r ∈ receipts ∧ r.expiresAt ≤ now := by
  have hmem := List.mem_of_mem_take h
  rw [List.mem_insertionSort, List.mem_filter, decide_eq_true_eq] at hmem
  exact hmem

/-! ## One call -/

variable [DecidableEq δ]

theorem executeTx_live (hs : s.Sound) (hr : r ∈ s.receipts) (hname : r.name = (scope, key))
    (hlive : now < r.expiresAt) :
    executeTx lifetime now scope key digest mutate s =
      if r.digest ≠ digest then .error .keyReused else .ok (r.reply, s) := by
  have hkept : s.receipts.filter (fun r' => ¬ (r'.name = (scope, key) ∧ r'.expiresAt ≤ now)) =
      s.receipts := by
    rw [List.filter_eq_self]
    intro r' hr'
    rw [decide_eq_true_eq]
    rintro ⟨hname', hle⟩
    obtain rfl := eq_of_key hs.names hr' hr (hname'.trans hname.symm)
    omega
  have hrow : rowOf Receipt.name (scope, key) s.receipts = some r :=
    (rowOf_eq_some hs.names).mpr ⟨hr, hname⟩
  unfold executeTx
  simp only [hkept, hrow]
  split_ifs with hdigest hopen
  · rfl
  · exact absurd hopen (hs.filled r hr)
  · rfl

theorem executeTx_dead (h : ¬ Live s now (scope, key)) :
    executeTx lifetime now scope key digest mutate s =
      match mutate s.world with
      | .error error => .error (.mutation error)
      | .ok (out, world) =>
        if out.valid = false then .error .invalidResult
        else .ok (out, s.commit lifetime now scope key digest out world) := by
  have hkept : s.receipts.filter (fun r => ¬ (r.name = (scope, key) ∧ r.expiresAt ≤ now)) =
      s.receipts.filter fun r => r.name ≠ (scope, key) := by
    apply List.filter_congr
    intro r hr
    rw [decide_eq_decide]
    constructor
    · intro hnot hname
      exact hnot ⟨hname, not_lt.mp fun hlt => h ⟨r, hr, hname, hlt⟩⟩
    · exact fun hne hboth => hne hboth.1
  have hothers : ∀ r ∈ s.receipts.filter (fun r => r.name ≠ (scope, key)), r.name ≠ (scope, key) :=
    fun r hr => of_decide_eq_true (List.mem_filter.mp hr).2
  unfold executeTx
  simp only [hkept, rowOf_eq_none.mpr hothers]
  cases mutate s.world with
  | error error => rfl
  | ok result =>
    obtain ⟨out, world⟩ := result
    dsimp only
    split_ifs with hvalid
    · rfl
    · rw [updateWhere_append_row (fun r hr => decide_eq_false (hothers r hr)) (decide_eq_true rfl)]
      rfl

theorem execute_read {input : DigestInput} (hvalid : validCall lifetime scope key request = true)
    (hinput : request.digestInput = some input) :
    execute hash lifetime db now scope key request mutate s =
      transact db s (executeTx lifetime now scope key (hash input) mutate s) := by
  unfold execute
  rw [hvalid, if_neg (by decide), hinput]

/-- **What a call comes to**: it is refused or answered from its receipt, and changes nothing, or it
commits its mutation. -/
theorem execute_cases (hs : s.Sound) :
    (∃ fault, execute hash lifetime db now scope key request mutate s = (.error fault, s)) ∨
    (∃ r ∈ s.receipts, r.name = (scope, key) ∧
      execute hash lifetime db now scope key request mutate s = (.ok r.reply, s)) ∨
    ∃ input out world, request.digestInput = some input ∧
      Commits lifetime db now scope key request mutate out s ∧ mutate s.world = .ok (out, world) ∧
      execute hash lifetime db now scope key request mutate s =
        (.ok out, s.commit lifetime now scope key (hash input) out world) := by
  cases hvalid : validCall lifetime scope key request with
  | false =>
    refine Or.inl ⟨.invalidRequest, ?_⟩
    unfold execute
    rw [hvalid, if_pos rfl]
  | true =>
    cases hinput : request.digestInput with
    | none =>
      refine Or.inl ⟨.invalidRequest, ?_⟩
      unfold execute
      rw [hvalid, if_neg (by decide), hinput]
    | some input =>
      rw [execute_read hvalid hinput]
      by_cases hlive : Live s now (scope, key)
      · obtain ⟨r, hr, hname, hlt⟩ := hlive
        rw [executeTx_live hs hr hname hlt]
        split_ifs
        · exact Or.inl (transact_error db s _)
        · rcases transact_ok db s s r.reply with h | ⟨-, h⟩
          · exact Or.inl h
          · exact Or.inr (Or.inl ⟨r, hr, hname, h⟩)
      · rw [executeTx_dead hlive]
        cases hrun : mutate s.world with
        | error error => exact Or.inl (transact_error db s _)
        | ok result =>
          obtain ⟨out, world⟩ := result
          dsimp only
          split_ifs with hresult
          · exact Or.inl (transact_error db s _)
          · rcases transact_ok db s (s.commit lifetime now scope key (hash input) out world) out with
              h | ⟨hworks, h⟩
            · exact Or.inl h
            · refine Or.inr (Or.inr ⟨input, out, world, rfl, ?_, rfl, h⟩)
              exact ⟨hworks, hvalid, ⟨input, hinput⟩, hlive, ⟨world, hrun⟩, by simpa using hresult⟩

theorem execute_of_commits (h : Commits lifetime db now scope key request mutate out s) :
    ∃ input world, request.digestInput = some input ∧ mutate s.world = .ok (out, world) ∧
      execute hash lifetime db now scope key request mutate s =
        (.ok out, s.commit lifetime now scope key (hash input) out world) := by
  obtain ⟨input, hinput⟩ := h.read
  obtain ⟨world, hrun⟩ := h.runs
  refine ⟨input, world, hinput, hrun, ?_⟩
  rw [execute_read h.valid hinput, executeTx_dead h.dead, hrun, h.works]
  dsimp only
  rw [if_neg (by simp [h.result])]
  rfl

/-! ## Runs -/

variable {x y z : Store δ W} {e : Event ε W} {es es' : List (Event ε W)}

theorem step_sound (hs : x.Sound) (hstep : step hash lifetime x e = some y) : y.Sound := by
  cases e with
  | execute db now scope key request mutate =>
    obtain rfl := Option.some.inj hstep
    rcases execute_cases hs with ⟨fault, h⟩ | ⟨r, -, -, h⟩ | ⟨input, out, world, -, hcommits, -, h⟩
    · rw [h]
      exact hs
    · rw [h]
      exact hs
    · rw [h]
      exact hs.commit hcommits.result
  | sweep db now limit =>
    obtain rfl := Option.some.inj hstep
    rcases sweep_cases (ε := ε) limit with h | h
    · rw [h]
      exact hs
    · rw [h]
      exact hs.filter _

theorem step_keeps (hs : x.Sound) (hr : r ∈ x.receipts) (hlive : e.now < r.expiresAt)
    (hstep : step hash lifetime x e = some y) : r ∈ y.receipts := by
  cases e with
  | execute db now scope key request mutate =>
    obtain rfl := Option.some.inj hstep
    rcases execute_cases hs with ⟨fault, h⟩ | ⟨r', -, -, h⟩ | ⟨input, out, world, -, hcommits, -, h⟩
    · rw [h]
      exact hr
    · rw [h]
      exact hr
    · -- the receipt that is replaced has expired
      rw [h]
      refine List.mem_append_left _ (List.mem_filter.mpr ⟨hr, decide_eq_true ?_⟩)
      exact fun hname => hcommits.dead ⟨r, hr, hname, hlive⟩
  | sweep db now limit =>
    obtain rfl := Option.some.inj hstep
    rcases sweep_cases (ε := ε) limit with h | h
    · rw [h]
      exact hr
    · rw [h]
      refine List.mem_filter.mpr ⟨hr, decide_eq_true fun hdoomed => ?_⟩
      obtain ⟨r', hr', hname⟩ := List.mem_map.mp hdoomed
      obtain ⟨hmem, hexpired⟩ := expired_of_swept hr'
      obtain rfl := eq_of_key hs.names hmem hr hname
      exact absurd hexpired (not_le.mpr hlive)

theorem run_keeps (hs : x.Sound) (hr : r ∈ x.receipts) (hlive : ∀ e ∈ es, e.now < r.expiresAt)
    (hrun : Machine.run (step hash lifetime) x es = some y) : y.Sound ∧ r ∈ y.receipts := by
  induction es generalizing x with
  | nil =>
    obtain rfl := Option.some.inj hrun
    exact ⟨hs, hr⟩
  | cons e es ih =>
    obtain ⟨m, hstep, hrest⟩ := Machine.run_cons.mp hrun
    have hkept := step_keeps hs hr (hlive e List.mem_cons_self) hstep
    exact ih (step_sound hs hstep) hkept (fun e' he' => hlive e' (List.mem_cons_of_mem e he')) hrest

/-- What the calls of a scope and key are answered until a receipt of them expires: the stored reply to
the same request, a refusal to another one, and no mutation is committed. -/
def Replays (ε : Type) (hash : DigestInput → δ) (lifetime : ℕ) (scope key : String)
    (request : Request) (out : Result) (expiry : ℤ) (s : Store δ W) : Prop :=
  ∀ db now request' (mutate : Mutation ε W), now < expiry →
    (∀ out', ¬ Commits lifetime db now scope key request' mutate out' s) ∧
    (db = .works → validCall lifetime scope key request' = true →
      (∃ input, request'.digestInput = some input) →
      (request.Same request' →
        (execute hash lifetime db now scope key request' mutate s).1 =
          .ok ⟨out.status, out.body, out.headers, true⟩) ∧
      (¬ request.Same request' →
        (execute hash lifetime db now scope key request' mutate s).1 = .error .keyReused))

/-- A call that fails leaves the store as it was, and the next one runs its mutation. -/
def Retries (ε : Type) (hash : DigestInput → δ) (lifetime : ℕ) (s : Store δ W) : Prop :=
  ∀ db now scope key request (mutate : Mutation ε W), ¬ Live s now (scope, key) →
    (∃ fault, (execute hash lifetime db now scope key request mutate s).1 = .error fault) →
    (execute hash lifetime db now scope key request mutate s).2 = s ∧
    ∀ now' request' (mutate' : Mutation ε W) out world, now ≤ now' →
      validCall lifetime scope key request' = true →
      (∃ input, request'.digestInput = some input) → mutate' s.world = .ok (out, world) →
      out.valid = true →
      (execute hash lifetime .works now' scope key request' mutate' s).1 = .ok out ∧
      (execute hash lifetime .works now' scope key request' mutate' s).2.world = world

theorem replays_of_receipt (hinj : Function.Injective hash) (hs : s.Sound) {input : DigestInput}
    (hr : (placeholder lifetime now scope key (hash input)).fill out ∈ s.receipts)
    (hinput : request.digestInput = some input) :
    Replays ε hash lifetime scope key request out (now + (lifetime / 1000000000 : ℕ)) s := by
  intro db' now' request' mutate' hlt
  refine ⟨fun out' hcommits => hcommits.dead ⟨_, hr, rfl, hlt⟩, ?_⟩
  rintro rfl hvalid ⟨input', hinput'⟩
  have hname : ((placeholder lifetime now scope key (hash input)).fill out).name = (scope, key) := rfl
  rw [execute_read hvalid hinput', executeTx_live hs hr hname hlt]
  have hsame : ((placeholder lifetime now scope key (hash input)).fill out).digest = hash input' ↔
      request.Same request' :=
    hinj.eq_iff.trans (digestInput_eq_iff hinput hinput')
  constructor
  · intro h
    rw [if_neg (not_not.mpr (hsame.mpr h))]
    rfl
  · intro h
    rw [if_pos fun heq => h (hsame.mp heq)]
    rfl

theorem retries (hs : s.Sound) : Retries ε hash lifetime s := by
  rintro db now scope key request mutate hdead ⟨fault, hfault⟩
  constructor
  · rcases execute_cases hs with ⟨fault', h⟩ | ⟨r, -, -, h⟩ | ⟨input, out, world, -, -, -, h⟩
    · rw [h]
    · rw [h]
    · rw [h] at hfault
      cases hfault
  · intro now' request' mutate' out world hle hvalid hread hrun hresult
    have hcommits : Commits lifetime .works now' scope key request' mutate' out s :=
      ⟨rfl, hvalid, hread, fun ⟨r, hr, hname, hlt⟩ => hdead ⟨r, hr, hname, hle.trans_lt hlt⟩,
        ⟨world, hrun⟩, hresult⟩
    obtain ⟨input, world', -, hrun', h⟩ := execute_of_commits hcommits
    rw [hrun] at hrun'
    obtain ⟨-, rfl⟩ := Prod.mk.inj (Except.ok.inj hrun')
    rw [h]
    exact ⟨rfl, rfl⟩

theorem unchanged (hs : s.Sound) (h : ∀ out, ¬ Commits lifetime db now scope key request mutate out s) :
    (execute hash lifetime db now scope key request mutate s).2 = s := by
  rcases execute_cases hs with ⟨fault', h'⟩ | ⟨r, -, -, h'⟩ | ⟨input, out, world, -, hcommits, -, -⟩
  · rw [h']
  · rw [h']
  · exact absurd hcommits (h out)

/-- **Idempotent requests.** In every run of calls and sweeps: a call that commits its mutation is
answered with its result, and until the receipt expires, whatever comes in between, the calls of the
scope and key commit no mutation, the same request is answered with what was stored and another one
is refused; a call that doesn't commit changes nothing; and after a call that failed the next one
runs its mutation. -/
theorem idempotent (hinj : Function.Injective hash) {world : W}
    (hrun : Machine.run (step hash lifetime) ⟨[], world⟩ es = some x) :
    (∀ db now scope key request (mutate : Mutation ε W) out,
      Commits lifetime db now scope key request mutate out x →
      (execute hash lifetime db now scope key request mutate x).1 = .ok out ∧
      ∀ (es' : List (Event ε W)) z,
        Machine.run (step hash lifetime)
          (execute hash lifetime db now scope key request mutate x).2 es' = some z →
        (∀ e ∈ es', e.now < now + (lifetime / 1000000000 : ℕ)) →
        Replays ε hash lifetime scope key request out (now + (lifetime / 1000000000 : ℕ)) z) ∧
    (∀ db now scope key request (mutate : Mutation ε W),
      (∀ out, ¬ Commits lifetime db now scope key request mutate out x) →
      (execute hash lifetime db now scope key request mutate x).2 = x) ∧
    Retries ε hash lifetime x := by
  have hs : x.Sound := by
    refine Machine.run_invariant (fun s e t hs hstep => step_sound hs hstep) ?_ hrun
    exact ⟨List.nodup_nil, fun r hr => absurd hr List.not_mem_nil⟩
  refine ⟨fun db now scope key request mutate out hcommits => ?_, fun db now scope key request mutate h =>
    unchanged hs h, retries hs⟩
  obtain ⟨input, world, hinput, -, h⟩ := execute_of_commits hcommits
  rw [h]
  refine ⟨rfl, fun es' z hlater hlive => ?_⟩
  have hr : (placeholder lifetime now scope key (hash input)).fill out ∈
      (x.commit lifetime now scope key (hash input) out world).receipts :=
    List.mem_append_right _ (List.mem_singleton_self _)
  obtain ⟨hsound, hkept⟩ := run_keeps (hs.commit hcommits.result) hr hlive hlater
  exact replays_of_receipt hinj hsound hkept hinput

/-- A request that adds one. -/
def posted (query : Query) : Request := ⟨"POST", "/v1/items/one", some query, some (.object [])⟩

def addOne (n : ℕ) : Except Unit (Result × ℕ) := .ok (⟨201, [], [], false⟩, n + 1)

theorem commits_posted (query : Query) :
    Commits 3600000000000 .works 0 "viewer/device" "request_000000001" (posted query) addOne
      ⟨201, [], [], false⟩ (⟨[], 0⟩ : Store DigestInput ℕ) where
  works := rfl
  valid := (by decide +kernel :
    validCall 3600000000000 "viewer/device" "request_000000001" (posted []) = true)
  read := ⟨⟨"POST", "/v1/items/one", encode query, .object []⟩, rfl⟩
  dead := fun ⟨_, hr, _⟩ => absurd hr List.not_mem_nil
  runs := ⟨1, rfl⟩
  result := by decide +kernel

theorem idempotent_posted :
    Replays Unit id 3600000000000 "viewer/device" "request_000000001" (posted [])
      ⟨201, [], [], false⟩ (0 + (3600000000000 / 1000000000 : ℕ))
      (execute id 3600000000000 .works 0 "viewer/device" "request_000000001" (posted []) addOne
        (⟨[], 0⟩ : Store DigestInput ℕ)).2 := by
  have hrun : Machine.run (step id 3600000000000) (⟨[], 0⟩ : Store DigestInput ℕ)
      ([] : List (Event Unit ℕ)) = some ⟨[], 0⟩ := rfl
  refine ((idempotent Function.injective_id hrun).1 .works 0 "viewer/device" "request_000000001"
    (posted []) addOne ⟨201, [], [], false⟩ (commits_posted [])).2 [] _ rfl ?_
  exact fun e he => absurd he List.not_mem_nil

theorem not_replayed_reordered :
    ¬ ∀ (x : Store DigestInput ℕ) (r r' : Request) (q q' : Query) (out : Result),
      Commits 3600000000000 .works 0 "viewer/device" "request_000000001" r addOne out x →
      r.query = some q → r'.query = some q' → (∀ pair, pair ∈ q ↔ pair ∈ q') →
      r'.method = r.method → r'.path = r.path → r'.body = r.body →
      (execute id 3600000000000 .works 1 "viewer/device" "request_000000001" r' addOne
        (execute id 3600000000000 .works 0 "viewer/device" "request_000000001" r addOne x).2).1 =
        .ok ⟨out.status, out.body, out.headers, true⟩ := by
  intro h
  have hanswer := h ⟨[], 0⟩ (posted [("a", "1"), ("a", "2")]) (posted [("a", "2"), ("a", "1")]) _ _ _
    (commits_posted _) rfl rfl (fun pair => by simp [or_comm]) rfl rfl rfl
  exact absurd hanswer (by decide +kernel)

end Portico.Idempotency
