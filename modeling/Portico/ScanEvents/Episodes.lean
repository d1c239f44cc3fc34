import Portico.Lib.Machine
import Portico.ScanEvents.Publisher

/-!
# Scan events: episodes

Seen from one library, a tick writes the one event that its status asks for, or leaves everything as it
is. The events of a library are episodes; their revisions go up within an episode, and from one episode
to the next when the clock has gone past the last revision.

## Main results

* `tick_library`: a tick, seen from one library
* `scan_events`: the law holds all along a run just when its ticks are orderly; a failed write changes
  nothing and its events are offered again; and what isn't announced is due
-/

namespace Portico.ScanEvents

open Machine

variable {p p' : Publisher} {i i' : Reading} {library : String} {active : List String}

/-! ## A tick, seen from one library -/

theorem mem_libraries : library ∈ p.libraries active ↔
    library ∈ active ∨ (p.tracked.get library).isSome := by
  unfold Publisher.libraries
  rw [List.mem_insertionSort, List.mem_dedup, List.mem_append]
  apply or_congr_right
  rw [Option.isSome_iff_exists]
  constructor
  · intro h
    obtain ⟨⟨l, e⟩, he, rfl⟩ := List.mem_map.mp h
    exact ⟨e, OrderedMap.get_eq_some.mpr he⟩
  · rintro ⟨e, he⟩
    exact List.mem_map.mpr ⟨(library, e), OrderedMap.get_eq_some.mp he, rfl⟩

theorem nodup_libraries : (p.libraries active).Nodup := by
  unfold Publisher.libraries
  exact (List.perm_insertionSort _ _).nodup_iff.mpr (List.nodup_dedup _)

/-- What the events of a tick make of one library that is looked at. -/
theorem get_foldl_apply {f : String → Verdict} {l : List String} (hl : l.Nodup)
    {tracked : OrderedMap String Entry} :
    ((l.map fun x => (x, f x)).foldl Publisher.apply tracked).get library =
      if library ∈ l then
        match f library with
        | .send _ _ _ next => next
        | _ => tracked.get library
      else tracked.get library := by
  induction l generalizing tracked with
  | nil => rfl
  | cons x l ih =>
    obtain ⟨hx, hl⟩ := List.nodup_cons.mp hl
    rw [List.map_cons, List.foldl_cons, ih hl]
    -- the first library is not met again
    have hfirst : (Publisher.apply tracked (x, f x)).get library =
        if library = x then
          match f x with
          | .send _ _ _ next => next
          | _ => tracked.get library
        else tracked.get library := by
      cases hf : f x with
      | nothing => simp [Publisher.apply]
      | later due => simp [Publisher.apply]
      | send state found revision next =>
        cases next with
        | none =>
          simp only [Publisher.apply]
          split_ifs with heq
          · rw [heq, OrderedMap.get_erase_self]
          · exact OrderedMap.get_erase_of_ne heq
        | some next =>
          simp only [Publisher.apply]
          rw [OrderedMap.get_set]
    rw [hfirst]
    by_cases heq : library = x
    · subst heq
      rw [if_neg hx, if_pos rfl, if_pos List.mem_cons_self]
    · rw [if_neg heq]
      simp only [List.mem_cons, heq, false_or]

theorem filter_filterMap_offer {f : String → Verdict} {l : List String} (hl : l.Nodup) {now : ℤ} :
    ((l.map fun x => (x, f x)).filterMap (Publisher.offer now)).filter
        (fun e => e.library = library) =
      if library ∈ l then (Publisher.offer now (library, f library)).toList else [] := by
  induction l with
  | nil => rfl
  | cons x l ih =>
    obtain ⟨hx, hl⟩ := List.nodup_cons.mp hl
    have ih := ih hl
    rw [List.map_cons]
    by_cases heq : library = x
    · subst heq
      rw [if_neg hx] at ih
      rw [if_pos List.mem_cons_self]
      cases hf : f library with
      | send state found revision next =>
        simp only [List.filterMap_cons, Publisher.offer]
        rw [List.filter_cons_of_pos (by simp)]
        exact congrArg _ ih
      | nothing => exact ih
      | later due => exact ih
    · have hmem : library ∈ x :: l ↔ library ∈ l := by simp [heq]
      simp only [hmem]
      rw [← ih]
      cases hf : f x with
      | send state found revision next =>
        simp only [List.filterMap_cons, Publisher.offer]
        rw [List.filter_cons_of_neg (by simpa using Ne.symm heq)]
      | nothing => rfl
      | later due => rfl

/-- The events of a library that were written. -/
def Publisher.log (p : Publisher) (library : String) : List ScanEvent :=
  p.written.filter fun e => e.library = library

/-- A tick that could read everything, and whose events could be written. -/
def Reading.committed (i : Reading) : Bool := i.task.isSome && i.active.isSome && i.saved

/-- A library is looked at. -/
def looksAt (p : Publisher) (i : Reading) (library : String) : Bool :=
  i.active.any fun active => library ∈ p.libraries active

theorem tick_of_not_committed (h : i.committed = false) : (p.tick i).1 = p := by
  unfold Publisher.tick Reading.committed at *
  cases ht : i.task with
  | none => rfl
  | some task =>
    cases ha : i.active with
    | none => rfl
    | some active =>
      simp only [ht, ha, Option.isSome_some, Bool.and_self, Bool.true_and] at h
      simp only [h, Bool.false_eq_true, if_false]
      split_ifs <;> rfl

theorem looksAt_iff (hactive : i.active = some active) :
    looksAt p i library = true ↔ library ∈ active ∨ (p.tracked.get library).isSome := by
  unfold looksAt
  rw [hactive, Option.any_some, decide_eq_true_eq, mem_libraries]

/-- **A tick that is written**, seen from one library. -/
theorem tick_library (h : i.committed = true) :
    (p.tick i).1.tracked.get library = (if looksAt p i library then
        match evaluate (p.tracked.get library) i.now (i.status library) with
        | .send _ _ _ next => next
        | _ => p.tracked.get library
      else p.tracked.get library) ∧
    (p.tick i).1.log library = p.log library ++ (if looksAt p i library then
        (Publisher.offer i.now
          (library, evaluate (p.tracked.get library) i.now (i.status library))).toList
      else []) := by
  unfold Reading.committed at h
  simp only [Bool.and_eq_true] at h
  obtain ⟨⟨htask, hactive⟩, hsaved⟩ := h
  obtain ⟨task, htask⟩ := Option.isSome_iff_exists.mp htask
  obtain ⟨active, hactive⟩ := Option.isSome_iff_exists.mp hactive
  have hlook : looksAt p i library = true ↔ library ∈ p.libraries active := by
    unfold looksAt
    rw [hactive, Option.any_some, decide_eq_true_eq]
  have hget := @get_foldl_apply library (fun l => evaluate (p.tracked.get l) i.now (i.status l)) _ (nodup_libraries (p := p) : (p.libraries active).Nodup) p.tracked
  have hfilter := @filter_filterMap_offer library (fun l => evaluate (p.tracked.get l) i.now (i.status l)) _ (nodup_libraries (p := p) : (p.libraries active).Nodup) i.now
  simp only [hlook]
  unfold Publisher.tick
  rw [htask, hactive]
  simp only [hsaved, if_true]
  unfold Publisher.verdicts
  split_ifs with hnone hmem hmem
  · -- nothing is due, for this library neither
    rw [hnone, List.filter_nil, if_pos hmem] at hfilter
    constructor
    · cases hf : evaluate (p.tracked.get library) i.now (i.status library) with
      | send state found revision next =>
        rw [hf] at hfilter
        cases hfilter
      | nothing => rfl
      | later due => rfl
    · rw [← hfilter, List.append_nil]
  · exact ⟨rfl, (List.append_nil _).symm⟩
  · rw [if_pos hmem] at hget hfilter
    refine ⟨hget, ?_⟩
    rw [← hfilter]
    exact List.filter_append _ _
  · rw [if_neg hmem] at hget hfilter
    refine ⟨hget, ?_⟩
    rw [← hfilter]
    exact List.filter_append _ _

/-! ## The law -/

/-- What is open after events of these kinds: an episode, or none; and no value for kinds that don't
form episodes. -/
def episodes : Bool → List Kind → Option Bool
  | isOpen, [] => some isOpen
  | false, .started :: l => episodes true l
  | true, .progress :: l => episodes true l
  | true, .finished :: l => episodes false l
  | _, _ :: _ => none

theorem episodes_append {isOpen : Bool} {l l' : List Kind} :
    episodes isOpen (l ++ l') = (episodes isOpen l).bind fun b => episodes b l' := by
  induction l generalizing isOpen with
  | nil => rfl
  | cons k l ih =>
    cases isOpen <;> cases k <;> first | exact ih | rfl

/-- **The law of the events**: those of a library are episodes, the last of them open when the library
is tracked; their revisions go up; and two progress events are a second apart. -/
structure Lawful (p : Publisher) : Prop where
  episodes : ∀ library, episodes false ((p.log library).map ScanEvent.state) =
    some (p.tracked.get library).isSome
  revisions : ∀ library, (p.log library).Pairwise fun a b => a.revision < b.revision
  spaced : ∀ library, (p.log library).Pairwise fun a b =>
    a.state = .progress → b.state = .progress → a.sentAt + progressInterval ≤ b.sentAt

/-- **A tick that starts no episode but past the last revision** of its library. -/
def orderly (p : Publisher) (i : Reading) : Prop :=
  i.committed = true → ∀ library, looksAt p i library = true → p.tracked.get library = none →
    (i.status library).scanning = true → ∀ e ∈ p.log library, e.revision < firstRevision i.now

/-- A library that starts an episode is one of those that are scanned. -/
theorem orderly_iff : orderly p i ↔ (i.committed = true → ∀ library ∈ i.active.getD [],
    p.tracked.get library = none → (i.status library).scanning = true →
      ∀ e ∈ p.log library, e.revision < firstRevision i.now) := by
  refine imp_congr_right fun hcommitted => forall_congr' fun library => ?_
  obtain ⟨active, hactive⟩ : ∃ active, i.active = some active := by
    unfold Reading.committed at hcommitted
    simp only [Bool.and_eq_true] at hcommitted
    exact Option.isSome_iff_exists.mp hcommitted.1.2
  rw [looksAt_iff hactive, hactive, Option.getD_some]
  constructor
  · exact fun h hmem hnone => h (Or.inl hmem) hnone
  · intro h hlook hnone
    refine h (hlook.resolve_right fun hsome => ?_) hnone
    rw [hnone] at hsome
    cases hsome

instance : Decidable (orderly p i) := decidable_of_iff _ orderly_iff.symm

/-- The invariant of orderly runs. -/
structure Inv (p : Publisher) : Prop where
  lawful : Lawful p
  dated : ∀ library, ∀ e ∈ p.log library, 1 ≤ e.revision ∧ unixMilli e.sentAt ≤ e.revision
  last : ∀ library entry, p.tracked.get library = some entry → ∀ e ∈ p.log library,
    e.revision ≤ entry.revision ∧ (e.state = .progress → e.sentAt ≤ entry.sentAt)
  kept : ∀ library entry, p.tracked.get library = some entry → 1 ≤ entry.revision

theorem new_inv : Inv new where
  lawful := ⟨fun _ => rfl, fun _ => List.Pairwise.nil, fun _ => List.Pairwise.nil⟩
  dated _ _ h := nomatch h
  last _ _ h := nomatch h
  kept _ _ h := nomatch h

theorem unixMilli_le_firstRevision (now : ℤ) : 1 ≤ firstRevision now ∧ unixMilli now ≤ firstRevision now := by
  unfold firstRevision
  split_ifs <;> omega

theorem lt_nextRevision (prev now : ℤ) : prev < nextRevision prev now ∧ unixMilli now ≤ nextRevision prev now := by
  unfold nextRevision
  split_ifs <;> omega

theorem evaluate_cases {prev next : Option Entry} {now found revision : ℤ} {status : Status}
    {state : Kind} (h : evaluate prev now status = .send state found revision next) :
    (prev = none ∧ status.scanning = true ∧ state = .started ∧ revision = firstRevision now ∧
        next = some ⟨status.signature, found, now, revision⟩) ∨
      (∃ e, prev = some e ∧ status.scanning = true ∧ e.sentAt + progressInterval ≤ now ∧
        state = .progress ∧ revision = nextRevision e.revision now ∧
        next = some ⟨status.signature, found, now, revision⟩) ∨
      ∃ e, prev = some e ∧ status.scanning = false ∧ state = .finished ∧
        revision = nextRevision e.revision now ∧ next = none := by
  unfold evaluate at h
  split at h
  · cases h
  · split_ifs at h with hscan
    obtain ⟨rfl, rfl, rfl, rfl⟩ := Verdict.send.inj h
    exact Or.inl ⟨rfl, hscan, rfl, rfl, rfl⟩
  · rename_i e _
    split_ifs at h with hscan hsame hdue
    · obtain ⟨rfl, rfl, rfl, rfl⟩ := Verdict.send.inj h
      exact Or.inr (Or.inl ⟨e, rfl, hscan, hdue, rfl, rfl, rfl⟩)
    all_goals
      obtain ⟨rfl, -, rfl, rfl⟩ := Verdict.send.inj h
      exact Or.inr (Or.inr ⟨e, rfl, Bool.not_eq_true _ ▸ hscan, rfl, rfl, rfl⟩)

/-- What a tick does for a library: nothing, or it sends what the status asks for. -/
theorem tick_cases (p : Publisher) (i : Reading) (library : String) :
    ((p.tick i).1.tracked.get library = p.tracked.get library ∧
        (p.tick i).1.log library = p.log library) ∨
      ∃ state found revision next, i.committed = true ∧ looksAt p i library = true ∧
        evaluate (p.tracked.get library) i.now (i.status library) = .send state found revision next ∧
        (p.tick i).1.tracked.get library = next ∧
        (p.tick i).1.log library = p.log library ++ [⟨library, state, found, revision, i.now⟩] := by
  cases hcommitted : i.committed with
  | false =>
    rw [tick_of_not_committed hcommitted]
    exact Or.inl ⟨rfl, rfl⟩
  | true =>
    obtain ⟨hget, hlog⟩ := @tick_library p _ library hcommitted
    rw [hget, hlog]
    cases hlook : looksAt p i library with
    | false => simp
    | true =>
      simp only [if_true]
      cases hf : evaluate (p.tracked.get library) i.now (i.status library) with
      | send state found revision next =>
        exact Or.inr ⟨state, found, revision, next, trivial, trivial, rfl, rfl, rfl⟩
      | nothing => exact Or.inl ⟨rfl, List.append_nil _⟩
      | later due => exact Or.inl ⟨rfl, List.append_nil _⟩

theorem pairwise_concat {α : Type*} {R : α → α → Prop} {l : List α} {a : α} :
    (l ++ [a]).Pairwise R ↔ l.Pairwise R ∧ ∀ b ∈ l, R b a := by
  rw [List.pairwise_append]
  simp

/-- **An orderly tick** keeps the law. -/
theorem Inv.tick (h : Inv p) (horderly : orderly p i) : Inv (p.tick i).1 := by
  have hcases := tick_cases p i
  refine ⟨⟨fun library => ?_, fun library => ?_, fun library => ?_⟩, fun library => ?_,
    fun library => ?_, fun library => ?_⟩ <;>
    rcases hcases library with ⟨hget, hlog⟩ |
      ⟨state, found, revision, next, hcommitted, hlook, hsend, hget, hlog⟩
  · rw [hget, hlog]
    exact h.lawful.episodes library
  · -- the event continues the episodes
    have hopen := h.lawful.episodes library
    rw [hget, hlog, List.map_append, episodes_append, hopen, Option.bind_some]
    rcases evaluate_cases hsend with ⟨hnone, -, rfl, -, rfl⟩ | ⟨e, hsome, -, -, rfl, -, rfl⟩ |
      ⟨e, hsome, -, rfl, -, rfl⟩
    · rw [hnone]
      rfl
    · rw [hsome]
      rfl
    · rw [hsome]
      rfl
  · rw [hlog]
    exact h.lawful.revisions library
  · rw [hlog, pairwise_concat]
    refine ⟨h.lawful.revisions library, fun b hb => ?_⟩
    rcases evaluate_cases hsend with ⟨hnone, hscan, -, rfl, -⟩ | ⟨e, hsome, -, -, -, rfl, -⟩ |
      ⟨e, hsome, -, -, rfl, -⟩
    · exact horderly hcommitted library hlook hnone hscan b hb
    · exact ((h.last library e hsome b hb).1).trans_lt (lt_nextRevision _ _).1
    · exact ((h.last library e hsome b hb).1).trans_lt (lt_nextRevision _ _).1
  · rw [hlog]
    exact h.lawful.spaced library
  · rw [hlog, pairwise_concat]
    refine ⟨h.lawful.spaced library, fun b hb hprogress hstate => ?_⟩
    rcases evaluate_cases hsend with ⟨-, -, rfl, -⟩ | ⟨e, hsome, -, hdue, -⟩ | ⟨e, -, -, rfl, -⟩
    · cases hstate
    · have hle := (h.last library e hsome b hb).2 hprogress
      simp only
      omega
    · cases hstate
  · rw [hlog]
    exact h.dated library
  · rw [hlog]
    intro b hb
    rcases List.mem_append.mp hb with hb | hb
    · exact h.dated library b hb
    · obtain rfl := List.mem_singleton.mp hb
      rcases evaluate_cases hsend with ⟨-, -, -, rfl, -⟩ | ⟨e, hsome, -, -, -, rfl, -⟩ |
        ⟨e, hsome, -, -, rfl, -⟩
      · exact unixMilli_le_firstRevision i.now
      · have hpos := h.kept library e hsome
        obtain ⟨hlt, hle⟩ := lt_nextRevision e.revision i.now
        exact ⟨by simp only; omega, hle⟩
      · have hpos := h.kept library e hsome
        obtain ⟨hlt, hle⟩ := lt_nextRevision e.revision i.now
        exact ⟨by simp only; omega, hle⟩
  · rw [hget, hlog]
    exact h.last library
  · rw [hget, hlog]
    intro entry hentry b hb
    rcases evaluate_cases hsend with ⟨hnone, hscan, hstate, rfl, rfl⟩ |
      ⟨e, hsome, -, hdue, -, rfl, rfl⟩ | ⟨e, hsome, -, -, -, rfl⟩
    · obtain rfl := Option.some.inj hentry
      rcases List.mem_append.mp hb with hb | hb
      · -- the clock has gone past what was sent before
        have hlt := horderly hcommitted library hlook hnone hscan b hb
        obtain ⟨hpos, hmilli⟩ := h.dated library b hb
        refine ⟨hlt.le, fun _ => ?_⟩
        simp only
        unfold firstRevision at hlt
        unfold unixMilli at hlt hmilli
        split_ifs at hlt <;> omega
      · obtain rfl := List.mem_singleton.mp hb
        exact ⟨le_rfl, fun _ => le_rfl⟩
    · obtain rfl := Option.some.inj hentry
      rcases List.mem_append.mp hb with hb | hb
      · obtain ⟨hle, hsent⟩ := h.last library e hsome b hb
        refine ⟨hle.trans (lt_nextRevision _ _).1.le, fun hprogress => ?_⟩
        have := hsent hprogress
        unfold progressInterval at hdue
        simp only
        omega
      · obtain rfl := List.mem_singleton.mp hb
        exact ⟨le_rfl, fun _ => le_rfl⟩
    · cases hentry
  · rw [hget]
    exact h.kept library
  · rw [hget]
    intro entry hentry
    rcases evaluate_cases hsend with ⟨-, -, -, rfl, rfl⟩ | ⟨e, hsome, -, -, -, rfl, rfl⟩ |
      ⟨e, hsome, -, -, -, rfl⟩
    · obtain rfl := Option.some.inj hentry
      exact (unixMilli_le_firstRevision i.now).1
    · obtain rfl := Option.some.inj hentry
      have hpos := h.kept library e hsome
      have hlt := (lt_nextRevision e.revision i.now).1
      simp only
      omega
    · cases hentry

theorem evaluate_started {status : Status} {now : ℤ} (h : status.scanning = true) :
    evaluate none now status = .send .started status.found (firstRevision now)
      (some ⟨status.signature, status.found, now, firstRevision now⟩) := by
  cases status with
  | missing => cases h
  | failed => cases h
  | sources l =>
    unfold evaluate
    simp only [h, if_true]

/-- **A tick that isn't orderly** writes a revision that isn't past the last one. -/
theorem not_lawful (horderly : ¬ orderly p i) : ¬ Lawful (p.tick i).1 := by
  unfold orderly at horderly
  push Not at horderly
  obtain ⟨hcommitted, library, hlook, hnone, hscan, e, he, hle⟩ := horderly
  intro hlawful
  obtain ⟨-, hlog⟩ := @tick_library p _ library hcommitted
  rw [hlook, if_pos rfl, hnone, evaluate_started hscan] at hlog
  have hrevisions := hlawful.revisions library
  rw [hlog] at hrevisions
  have hlt := (pairwise_concat.mp hrevisions).2 e he
  exact absurd hlt (not_lt.mpr hle)

/-! ## What isn't announced -/

/-- A status that isn't what was announced of its library. -/
def changed (prev : Option Entry) (status : Status) : Bool :=
  match status, prev with
  | .failed, _ => false
  | status, none => status.scanning
  | status, some prev => !status.scanning || status.signature ≠ prev.signature

/-- What isn't announced is sent, or is due a second after what was sent last. -/
theorem evaluate_of_changed {prev : Option Entry} {now : ℤ} {status : Status}
    (h : changed prev status = true) :
    (∃ state found revision next, evaluate prev now status = .send state found revision next ∧
        changed next status = false) ∨
      ∃ e, prev = some e ∧ status.scanning = true ∧ now < e.sentAt + progressInterval ∧
        evaluate prev now status = .later (e.sentAt + progressInterval) := by
  cases status with
  | failed => cases h
  | missing =>
    cases prev with
    | none => cases h
    | some e => exact Or.inl ⟨_, _, _, _, rfl, rfl⟩
  | sources l =>
    cases prev with
    | none =>
      have hscan : (Status.sources l).scanning = true := h
      refine Or.inl ⟨_, _, _, _, evaluate_started hscan, ?_⟩
      simp [changed, hscan]
    | some e =>
      unfold evaluate
      simp only
      cases hscan : (Status.sources l).scanning with
      | false => exact Or.inl ⟨_, _, _, _, rfl, hscan⟩
      | true =>
        have hne : (Status.sources l).signature ≠ e.signature := by
          simpa [changed, hscan] using h
        simp only [if_true, if_neg hne]
        split_ifs with hdue
        · exact Or.inl ⟨_, _, _, _, rfl, by simp [changed, hscan]⟩
        · exact Or.inr ⟨e, rfl, trivial, not_le.mp hdue, rfl⟩

theorem evaluate_of_not_changed {prev : Option Entry} {now : ℤ} {status : Status}
    (h : changed prev status = false) : evaluate prev now status = .nothing := by
  cases status with
  | failed => rfl
  | missing =>
    cases prev with
    | none => rfl
    | some e => cases h
  | sources l =>
    unfold evaluate
    cases prev with
    | none =>
      have hscan : (Status.sources l).scanning = false := h
      simp only [hscan, Bool.false_eq_true, if_false]
    | some e =>
      simp only [changed, Bool.or_eq_false_iff, Bool.not_eq_false', decide_eq_false_iff_not,
        not_not] at h
      simp only [h.1, h.2, if_true]

theorem mem_offers {e : ScanEvent} : e ∈ p.offers i ↔ i.task.isSome = true ∧
    looksAt p i e.library = true ∧ e.sentAt = i.now ∧
    ∃ next, evaluate (p.tracked.get e.library) i.now (i.status e.library) =
      .send e.state e.found e.revision next := by
  unfold Publisher.offers looksAt
  cases htask : i.task with
  | none => simp
  | some task =>
    cases hactive : i.active with
    | none => simp
    | some active =>
      simp only [Option.isSome_some, true_and, Option.any_some, decide_eq_true_eq]
      unfold Publisher.verdicts
      rw [List.mem_filterMap]
      constructor
      · rintro ⟨v, hv, hoffer⟩
        obtain ⟨l, hl, rfl⟩ := List.mem_map.mp hv
        unfold Publisher.offer at hoffer
        split at hoffer
        · rename_i state found revision next heq
          obtain ⟨rfl, hsend⟩ := Prod.mk.inj heq
          obtain rfl := Option.some.inj hoffer
          exact ⟨hl, rfl, next, hsend⟩
        · cases hoffer
      · rintro ⟨hl, hat, next, hsend⟩
        refine ⟨_, List.mem_map.mpr ⟨e.library, hl, rfl⟩, ?_⟩
        rw [hsend, ← hat]
        rfl

theorem evaluate_later {prev next : Option Entry} {now now' found revision : ℤ} {status : Status}
    {state : Kind} (h : evaluate prev now status = .send state found revision next)
    (hnow : now ≤ now') :
    ∃ found revision next, evaluate prev now' status = .send state found revision next := by
  unfold evaluate at h ⊢
  split at h
  · cases h
  · split_ifs at h ⊢
    exact ⟨_, _, _, by rw [(Verdict.send.inj h).1]⟩
  · split_ifs at h ⊢
    · exact ⟨_, _, _, by rw [(Verdict.send.inj h).1]⟩
    · omega
    all_goals exact ⟨_, _, _, by rw [(Verdict.send.inj h).1]⟩

/-- **A failed write** changes nothing, and its events are offered again. -/
theorem offers_again (hsaved : i.saved = false) : (p.tick i).1 = p ∧
    ∀ e ∈ p.offers i, ∀ i' : Reading, i'.task.isSome = true → looksAt p i' e.library = true →
      i'.status e.library = i.status e.library → i.now ≤ i'.now →
      ∃ e' ∈ p.offers i', e'.library = e.library ∧ e'.state = e.state := by
  refine ⟨tick_of_not_committed (by unfold Reading.committed; rw [hsaved, Bool.and_false]), ?_⟩
  intro e he i' htask hlook hstatus hnow
  obtain ⟨-, -, -, next, hsend⟩ := mem_offers.mp he
  obtain ⟨found, revision, next', hsend'⟩ := evaluate_later hsend hnow
  refine ⟨⟨e.library, e.state, found, revision, i'.now⟩, ?_, rfl, rfl⟩
  exact mem_offers.mpr ⟨htask, hlook, rfl, next', by rw [hstatus]; exact hsend'⟩

/-! ## Due times -/

theorem earlier_le {a b : Option ℤ} {d : ℤ} (h : a = some d ∨ b = some d) :
    ∃ m, Publisher.earlier a b = some m ∧ m ≤ d := by
  cases a with
  | none =>
    rcases h with h | h
    · cases h
    · exact ⟨d, h, le_rfl⟩
  | some a =>
    cases b with
    | none =>
      rcases h with h | h
      · exact ⟨d, h, le_rfl⟩
      · cases h
    | some b =>
      refine ⟨_, rfl, ?_⟩
      rcases h with h | h <;> obtain rfl := Option.some.inj h <;> split_ifs <;> omega

theorem foldl_earlier_le {l : List (String × Verdict)} {init : Option ℤ} {d : ℤ}
    (h : (∃ m, init = some m ∧ m ≤ d) ∨ ∃ v ∈ l, Publisher.dueOf v = some d) :
    ∃ m, l.foldl (fun due v => Publisher.earlier due (Publisher.dueOf v)) init = some m ∧ m ≤ d := by
  induction l generalizing init with
  | nil =>
    rcases h with h | ⟨v, hv, -⟩
    · exact h
    · cases hv
  | cons v l ih =>
    rw [List.foldl_cons]
    apply ih
    rcases h with ⟨m, hm, hle⟩ | ⟨w, hw, hdue⟩
    · obtain ⟨m', hm', hle'⟩ := earlier_le (b := Publisher.dueOf v) (Or.inl hm)
      exact Or.inl ⟨m', hm', hle'.trans hle⟩
    · rcases List.mem_cons.mp hw with rfl | hw
      · obtain ⟨m', hm', hle'⟩ := earlier_le (a := init) (Or.inr hdue)
        exact Or.inl ⟨m', hm', hle'⟩
      · exact Or.inr ⟨w, hw, hdue⟩

/-- **What a tick saw and didn't announce** is due: after a failure in a second, otherwise no later than
a second after what was sent last. -/
theorem due_of_changed (hlook : looksAt p i library = true)
    (hchanged : changed ((p.tick i).1.tracked.get library) (i.status library) = true) :
    ∃ d, (p.tick i).2 = some d ∧ (d ≤ i.now + progressInterval ∨
      ∃ e, (p.tick i).1.tracked.get library = some e ∧ (i.status library).scanning = true ∧
        d ≤ e.sentAt + progressInterval) := by
  obtain ⟨active, hactive⟩ : ∃ active, i.active = some active := by
    unfold looksAt at hlook
    cases hactive : i.active with
    | none =>
      rw [hactive] at hlook
      cases hlook
    | some active => exact ⟨active, rfl⟩
  cases htask : i.task with
  | none =>
    refine ⟨i.now + progressInterval, ?_, Or.inl le_rfl⟩
    unfold Publisher.tick
    rw [htask]
  | some task =>
    have hmem : library ∈ p.libraries active := by
      unfold looksAt at hlook
      rwa [hactive, Option.any_some, decide_eq_true_eq] at hlook
    -- the library is in the same state as before, for what is sent is announced
    have hsame : (p.tick i).1.tracked.get library = p.tracked.get library := by
      rcases tick_cases p i library with ⟨hget, -⟩ |
        ⟨state, found, revision, next, -, -, hsend, hget, -⟩
      · exact hget
      · exfalso
        rw [hget] at hchanged
        cases hprev : changed (p.tracked.get library) (i.status library) with
        | false =>
          rw [evaluate_of_not_changed hprev] at hsend
          cases hsend
        | true =>
          rcases @evaluate_of_changed _ i.now _ hprev with
            ⟨_, _, _, next', hsend', hdone⟩ | ⟨e, -, -, -, hlater⟩
          · rw [hsend'] at hsend
            obtain ⟨-, -, -, rfl⟩ := Verdict.send.inj hsend
            rw [hdone] at hchanged
            cases hchanged
          · rw [hlater] at hsend
            cases hsend
    rw [hsame] at hchanged ⊢
    have hdue : ∀ e, evaluate (p.tracked.get library) i.now (i.status library) =
        .later (e + progressInterval) → ∃ m, (p.verdicts i active).foldl
          (fun due v => Publisher.earlier due (Publisher.dueOf v)) task = some m ∧
          m ≤ e + progressInterval := by
      intro e hlater
      refine foldl_earlier_le (Or.inr ⟨(library, .later (e + progressInterval)), ?_, rfl⟩)
      exact List.mem_map.mpr ⟨library, hmem, by rw [hlater]⟩
    rcases @evaluate_of_changed _ i.now _ hchanged with
      ⟨state, found, revision, next, hsend, hdone⟩ | ⟨e, hprev, hscan, -, hlater⟩
    · -- its event couldn't be written
      have hoffer : (p.verdicts i active).filterMap (Publisher.offer i.now) ≠ [] := by
        apply List.ne_nil_of_mem (a := ⟨library, state, found, revision, i.now⟩)
        refine List.mem_filterMap.mpr ⟨_, List.mem_map.mpr ⟨library, hmem, rfl⟩, ?_⟩
        rw [hsend]
        rfl
      cases hsaved : i.saved with
      | true =>
        exfalso
        have hcommitted : i.committed = true := by
          unfold Reading.committed
          rw [htask, hactive, hsaved]
          rfl
        have hget := (@tick_library p _ library hcommitted).1
        rw [hlook, if_pos rfl, hsend, hsame] at hget
        rw [hget, hdone] at hchanged
        cases hchanged
      | false =>
        obtain ⟨m, hm, hle⟩ := earlier_le
          (a := (p.verdicts i active).foldl (fun due v => Publisher.earlier due (Publisher.dueOf v))
            task) (Or.inr (rfl : some (i.now + progressInterval) = _))
        refine ⟨m, ?_, Or.inl hle⟩
        unfold Publisher.tick
        rw [htask, hactive]
        simp only [hsaved, Bool.false_eq_true, if_false, if_neg hoffer]
        exact hm
    · obtain ⟨m, hm, hle⟩ := hdue e.sentAt hlater
      rw [hprev]
      unfold Publisher.tick
      rw [htask, hactive]
      simp only
      split_ifs
      · exact ⟨m, hm, Or.inr ⟨e, rfl, hscan, hle⟩⟩
      · exact ⟨m, hm, Or.inr ⟨e, rfl, hscan, hle⟩⟩
      · obtain ⟨m', hm', hle'⟩ := earlier_le (b := some (i.now + progressInterval)) (Or.inl hm)
        exact ⟨m', hm', Or.inr ⟨e, rfl, hscan, hle'.trans hle⟩⟩

theorem announced (hcommitted : i.committed = true) (hlook : looksAt p i library = true)
    (hchanged : changed (p.tracked.get library) (i.status library) = true)
    (hdue : ∀ e, p.tracked.get library = some e → (i.status library).scanning = true →
      e.sentAt + progressInterval ≤ i.now) :
    (∃ e, (p.tick i).1.log library = p.log library ++ [e]) ∧
      changed ((p.tick i).1.tracked.get library) (i.status library) = false := by
  rcases @evaluate_of_changed _ i.now _ hchanged with
    ⟨state, found, revision, next, hsend, hdone⟩ | ⟨e, hprev, hscan, hearly, -⟩
  · obtain ⟨hget, hlog⟩ := @tick_library p _ library hcommitted
    rw [hlook, if_pos rfl, hsend] at hget hlog
    exact ⟨⟨_, hlog⟩, hget ▸ hdone⟩
  · exact absurd (hdue e hprev hscan) (not_le.mpr hearly)

/-! ## Runs -/

/-- **Scan events.** The events that were written are lawful all along a run of ticks just when each
tick is orderly: those of a library are episodes, their revisions go up, and progress events are a second
apart. In any state, a tick that can't write changes nothing and its events are offered again; and what a
tick saw and didn't announce is asked for: the due time that it returns is no later than a second after
the failure or after what was sent last, and a tick that comes from then on announces it, if it is still
so. -/
theorem scan_events {is : List Reading} (hrun : run step new is = some p) :
    (Along step Lawful new is ↔ Each step orderly new is) ∧
    (∀ i : Reading, i.saved = false → (p.tick i).1 = p ∧
      ∀ e ∈ p.offers i, ∀ i' : Reading, i'.task.isSome = true → looksAt p i' e.library = true →
        i'.status e.library = i.status e.library → i.now ≤ i'.now →
        ∃ e' ∈ p.offers i', e'.library = e.library ∧ e'.state = e.state) ∧
    ∀ i library, looksAt p i library = true →
      changed ((p.tick i).1.tracked.get library) (i.status library) = true →
      (∃ d, (p.tick i).2 = some d ∧ (d ≤ i.now + progressInterval ∨
        ∃ e, (p.tick i).1.tracked.get library = some e ∧ (i.status library).scanning = true ∧
          d ≤ e.sentAt + progressInterval)) ∧
      ∀ i' : Reading, i'.committed = true → looksAt (p.tick i).1 i' library = true →
        i'.status library = i.status library →
        (∀ e, (p.tick i).1.tracked.get library = some e → (i.status library).scanning = true →
          e.sentAt + progressInterval ≤ i'.now) →
        ∃ e, ((p.tick i).1.tick i').1.log library = (p.tick i).1.log library ++ [e] := by
  refine ⟨?_, fun i hsaved => offers_again hsaved, fun i library hlook hchanged => ?_⟩
  · refine along_iff_each (I := Inv) (fun _ h => h.lawful) ?_ ?_ new_inv hrun
    · rintro p i p' h horderly hs
      obtain rfl := Option.some.inj hs
      exact h.tick horderly
    · rintro p i p' - horderly hs
      obtain rfl := Option.some.inj hs
      exact not_lawful horderly
  · refine ⟨due_of_changed hlook hchanged, fun i' hcommitted hlook' hstatus hdue => ?_⟩
    exact (announced hcommitted hlook' (hstatus ▸ hchanged) (hstatus ▸ hdue)).1

/-- A tick at a second, of a library with one source. -/
def readingAt (second : ℤ) (status : String) : Reading where
  now := second * 1000000000
  task := some none
  active := some ["films"]
  status _ := .sources [⟨"disk", status, "walk", second, 0⟩]
  saved := true

/-- An episode of three events. -/
def scanned : List Reading :=
  [readingAt 1 "queued", readingAt 2 "running", readingAt 3 "idle"]

theorem scan_events_scanned :
    ∃ p, run step new scanned = some p ∧ Along step Lawful new scanned := by
  exact ⟨_, rfl, (scan_events rfl).1.mpr (by decide +kernel)⟩

/-- **The clock goes back** between two episodes, and so do the revisions. -/
theorem revisions_go_back : ∃ p, run step new
      [readingAt 5 "running", readingAt 7 "idle", readingAt 6 "running"] = some p ∧
    (p.log "films").map ScanEvent.revision = [5000, 7000, 6000] ∧ ¬ Lawful p := by
  have hlog : ((run step new
      [readingAt 5 "running", readingAt 7 "idle", readingAt 6 "running"]).map fun p =>
      (p.log "films").map ScanEvent.revision) = some [5000, 7000, 6000] := by decide +kernel
  obtain ⟨p, hp, hrevisions⟩ := Option.map_eq_some_iff.mp hlog
  refine ⟨p, hp, hrevisions, fun hlawful => ?_⟩
  have hsorted := List.pairwise_map.mpr (hlawful.revisions "films")
  rw [hrevisions] at hsorted
  exact absurd hsorted (by decide)

end Portico.ScanEvents
