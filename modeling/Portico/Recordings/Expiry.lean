import Portico.Recordings.Intents

/-!
# Recordings that were missed

A recording whose interval is over can't be captured any more. One whose programme was extended is
left until the guide has brought it up: the query for what was missed reads the after-padding out of
the documents in which options are stored. It reads a member that these documents don't have, so
what it takes for the end of an extended recording is the end of the programme.

## Main results

* `failed_iff_missed`: a waiting recording is marked failed by some call just when it was missed
* `expires_iff`: exactly the recordings whose after-padding has begun are marked failed too early
-/

namespace Portico.Recordings

variable {g : Guide} {s u : State} {r r' : Recording} {now : ℤ} {clock : ℕ → ℤ} {n : ℕ}

/-! ## The query -/

/-- A member of a document of numbers. -/
def member (key : String) (document : List (String × ℤ)) : Option ℤ :=
  (document.find? fun m => m.1 = key).map Prod.snd

namespace Guide

variable (g : Guide)

/-- The rule of a recording, unless it was deleted. -/
def ruleOf (r : Recording) : Option Rule :=
  g.rules.find? fun rule => some rule.id = r.rule && !rule.deleted

/-- The programme of a recording in the active generation of its source, on its channel. -/
def current (r : Recording) : Option Programme :=
  (g.source r.source).bind fun s => rowOf Programme.id r.programme.id (g.listed r.channel s.generation)

/-- The after-padding that the query reads: the rule's, the recording's own, or none. -/
def storedPadding (r : Recording) : ℤ :=
  1000 * (((g.ruleOf r).bind fun rule => member "afterSeconds" rule.config.options.document).getD
    ((member "afterSeconds" r.options.document).getD 0))

/-- The programme of a recording, as the guide lists it, isn't over. -/
def extended (now : ℤ) (r : Recording) : Bool :=
  (g.current r).any fun p => now < p.stop + g.storedPadding r

end Guide

namespace State

variable (g : Guide) (s : State)

/-- A recording that was missed, as the query has it. -/
def missed (now : ℤ) (r : Recording) : Bool :=
  r.state.mutable && r.stop ≤ now && !s.hasSharedCaptureTx r.id && !g.extended now r

def expiredCandidates (now : ℤ) : List Recording :=
  ((s.recordings.filter (s.missed g now)).insertionSort
    fun a b => a.stop < b.stop ∨ (a.stop = b.stop ∧ a.id ≤ b.id)).take 64

/-- A recording is marked failed, and its tuner isn't reserved any more. -/
def expire (r : Recording) : State :=
  (s.update r.id (fun x => { x with
    state := .failed
    reason := if r.reason = "tuner-conflict" then "tuner-conflict" else "capture-window-missed" })
    fun _ => rfl).unreserve r.id

/-- A call marks the first recordings failed that were missed. -/
def expireMissed (now : ℤ) : State := (s.expiredCandidates g now).foldl expire s

end State

/-- The state after `n` calls, each at its instant. -/
def calls (g : Guide) (clock : ℕ → ℤ) : ℕ → State → State
  | 0, s => s
  | n + 1, s => (calls g clock n s).expireMissed g (clock n)

/-! ## What is due -/

/-- The after-padding of the current options of a recording: the rule's, or its own. -/
def Guide.afterPadding (g : Guide) (r : Recording) : ℤ :=
  ((g.ruleOf r).map fun rule => rule.config.options.after).getD r.options.after

/-- The recording was missed: its interval is over, its programme with the after-padding is, when
the guide still lists it, and nothing can supply it. -/
def Due (g : Guide) (s : State) (now : ℤ) (r : Recording) : Prop :=
  r.stop ≤ now ∧ (∀ p, g.current r = some p → p.stop + g.afterPadding r ≤ now) ∧
    s.hasSharedCaptureTx r.id = false

/-- The interval of the recording is over, nothing can supply it, and the instant lies between the
end of its programme, which the guide still lists, and that end with the after-padding. -/
def Curtailed (g : Guide) (s : State) (now : ℤ) (r : Recording) : Prop :=
  r.stop ≤ now ∧ s.hasSharedCaptureTx r.id = false ∧
    ∃ p, g.current r = some p ∧ ¬ (p.stop ≤ now ↔ p.stop + g.afterPadding r ≤ now)

/-- The recording with a number is marked failed. -/
def Failed (s : State) (id : String) : Prop := ∃ r ∈ s.recordings, r.id = id ∧ r.state = .failed

theorem storedPadding_eq_zero : g.storedPadding r = 0 := by
  have hmember : ∀ o : Options, member "afterSeconds" o.document = none := by
    intro o
    rfl
  unfold Guide.storedPadding
  simp only [hmember]
  cases g.ruleOf r <;> rfl

theorem extended_eq_false :
    g.extended now r = false ↔ ∀ p, g.current r = some p → p.stop ≤ now := by
  unfold Guide.extended
  rw [storedPadding_eq_zero]
  cases g.current r with
  | none => simp
  | some p => simp

theorem missed_iff (hwait : r.state.mutable = true) : s.missed g now r = true ↔
    r.stop ≤ now ∧ s.hasSharedCaptureTx r.id = false ∧ ∀ p, g.current r = some p → p.stop ≤ now := by
  unfold State.missed
  rw [← extended_eq_false, hwait]
  simp only [Bool.true_and, Bool.and_eq_true, Bool.not_eq_true', decide_eq_true_eq]
  tauto

theorem missed_mono {now' : ℤ} (h : s.missed g now r = true) (hle : now ≤ now')
    (hshared : u.hasSharedCaptureTx r.id = s.hasSharedCaptureTx r.id) : u.missed g now' r = true := by
  have hwait : r.state.mutable = true := by
    unfold State.missed at h
    simp only [Bool.and_eq_true] at h
    exact h.1.1.1
  rw [missed_iff hwait] at h ⊢
  exact ⟨h.1.trans hle, hshared.trans h.2.1, fun p hp => (h.2.2 p hp).trans hle⟩

/-! ## A call -/

/-- A recording that is marked failed. -/
def Recording.expired (r : Recording) : Recording :=
  { r with
    state := .failed
    reason := if r.reason = "tuner-conflict" then "tuner-conflict" else "capture-window-missed" }

theorem mutable_of_missed (h : s.missed g now r = true) : r.state.mutable = true := by
  unfold State.missed at h
  simp only [Bool.and_eq_true] at h
  exact h.1.1.1

theorem mem_of_candidate (h : r ∈ s.expiredCandidates g now) :
    r ∈ s.recordings ∧ s.missed g now r = true := by
  have hmem := List.mem_of_mem_take h
  rw [List.mem_insertionSort] at hmem
  exact List.mem_filter.mp hmem

theorem exists_candidate (hr : r ∈ s.recordings) (h : s.missed g now r = true) :
    ∃ r', r' ∈ s.expiredCandidates g now := by
  unfold State.expiredCandidates
  apply List.exists_mem_of_ne_nil
  intro hnil
  have hmem := (List.mem_insertionSort (fun a b : Recording =>
    a.stop < b.stop ∨ (a.stop = b.stop ∧ a.id ≤ b.id))).mpr (List.mem_filter.mpr ⟨hr, h⟩)
  rw [List.take_eq_nil_iff] at hnil
  rcases hnil with hzero | hnil
  · cases hzero
  · rw [hnil] at hmem
    cases hmem

@[simp] theorem shares_expire : (s.expire r).shares = s.shares := rfl

theorem shares_foldl_expire {rs : List Recording} : (rs.foldl State.expire s).shares = s.shares := by
  induction rs generalizing s with
  | nil => rfl
  | cons r rs ih => exact ih.trans shares_expire

theorem recordings_foldl_expire {done rs : List Recording} (hrs : ∀ r ∈ rs, r ∈ s.recordings)
    (hu : u.recordings = s.recordings.map fun x => if x ∈ done then x.expired else x) :
    (rs.foldl State.expire u).recordings =
      s.recordings.map fun x => if x ∈ done ++ rs then x.expired else x := by
  induction rs generalizing u done with
  | nil => simpa using hu
  | cons r rs ih =>
    have hnext : (u.expire r).recordings =
        s.recordings.map fun x => if x ∈ done ++ [r] then x.expired else x := by
      show updateWhere _ _ u.recordings = _
      rw [hu]
      unfold updateWhere
      rw [List.map_map]
      apply List.map_congr_left
      intro x hx
      rw [Function.comp_apply]
      by_cases hxr : x.id = r.id
      · -- the row with the number of the candidate is the candidate
        obtain rfl := eq_of_key s.keys hx (hrs r List.mem_cons_self) hxr
        have hmem : x ∈ done ++ [x] := List.mem_append_right _ (List.mem_singleton_self x)
        simp only [if_pos hmem]
        by_cases hdone : x ∈ done
        · simp only [if_pos hdone]
          exact if_pos (decide_eq_true rfl)
        · simp only [if_neg hdone]
          exact if_pos (by simp)
      · have hne : x ≠ r := fun h => hxr (congrArg Recording.id h)
        have hiff : x ∈ done ++ [r] ↔ x ∈ done := by simp [hne]
        simp only [hiff]
        by_cases hdone : x ∈ done
        · simp only [if_pos hdone]
          exact if_neg fun h => hxr (of_decide_eq_true h)
        · simp only [if_neg hdone]
          exact if_neg (by simpa using hxr)
    rw [List.foldl_cons, ih (fun x hx => hrs x (List.mem_cons_of_mem r hx)) hnext]
    simp

/-- A call marks the recordings failed that it finds, and changes no other one. -/
theorem recordings_expireMissed : (s.expireMissed g now).recordings =
    s.recordings.map fun x => if x ∈ s.expiredCandidates g now then x.expired else x := by
  have hnone : s.recordings = s.recordings.map fun x => if x ∈ [] then x.expired else x := by simp
  exact recordings_foldl_expire (fun r hr => (mem_of_candidate hr).1) hnone

theorem supplies_of_mutable (h : r.state.mutable = true) : r.supplies = false := by
  unfold Recording.supplies
  revert h
  cases r.state <;> simp [RecordingState.mutable, RecordingState.capturing]

theorem hasSharedCaptureTx_expireMissed {id : String} :
    (s.expireMissed g now).hasSharedCaptureTx id = s.hasSharedCaptureTx id := by
  unfold State.hasSharedCaptureTx
  have hshares : (s.expireMissed g now).shares = s.shares := shares_foldl_expire
  rw [hshares, recordings_expireMissed]
  congr 1
  funext x
  rw [List.any_map]
  congr 1
  rw [Bool.eq_iff_iff, List.any_eq_true, List.any_eq_true]
  apply exists_congr
  intro l
  rw [Function.comp_apply]
  by_cases hcandidate : l ∈ s.expiredCandidates g now
  · rw [if_pos hcandidate]
    have hwait := mutable_of_missed (mem_of_candidate hcandidate).2
    have hexpired : l.expired.supplies = false := rfl
    rw [supplies_of_mutable hwait, hexpired]
    simp
  · rw [if_neg hcandidate]

/-- How many recordings wait. -/
def waiting (s : State) : ℕ := (s.recordings.map fun x => x.state.mutable.toNat).sum

/-- Each call that finds something leaves fewer recordings that wait. -/
theorem waiting_expireMissed (h : r ∈ s.expiredCandidates g now) :
    waiting (s.expireMissed g now) < waiting s := by
  unfold waiting
  rw [recordings_expireMissed, List.map_map]
  apply List.sum_lt_sum
  · intro x _
    rw [Function.comp_apply]
    split_ifs
    · exact Nat.zero_le _
    · exact le_rfl
  · refine ⟨r, (mem_of_candidate h).1, ?_⟩
    rw [Function.comp_apply, if_pos h, mutable_of_missed (mem_of_candidate h).2]
    exact Nat.zero_lt_one

/-! ## Calls -/

theorem hasSharedCaptureTx_calls {id : String} :
    (calls g clock n s).hasSharedCaptureTx id = s.hasSharedCaptureTx id := by
  induction n with
  | zero => rfl
  | succ n ih => exact hasSharedCaptureTx_expireMissed.trans ih

theorem missed_calls : (calls g clock n s).missed g now r = s.missed g now r := by
  unfold State.missed
  rw [hasSharedCaptureTx_calls]

theorem not_failed_of_mem (hr : r ∈ s.recordings) (hwait : r.state.mutable = true) :
    ¬ Failed s r.id := by
  rintro ⟨r', hr', hid, hstate⟩
  obtain rfl := eq_of_key s.keys hr' hr hid
  rw [hstate] at hwait
  cases hwait

/-- A waiting recording stays what it is, until a call marks it failed that finds it. -/
theorem calls_cases (hr : r ∈ s.recordings) :
    r ∈ (calls g clock n s).recordings ∨
      (Failed (calls g clock n s) r.id ∧ ∃ m < n, s.missed g (clock m) r = true) := by
  induction n with
  | zero => exact Or.inl hr
  | succ n ih =>
    have hrows : (calls g clock (n + 1) s).recordings = _ := recordings_expireMissed
    rcases ih with hmem | ⟨⟨r', hr', hid, hstate⟩, m, hm, hmissed⟩
    · by_cases hfound : r ∈ (calls g clock n s).expiredCandidates g (clock n)
      · refine Or.inr ⟨⟨r.expired, ?_, rfl, rfl⟩, n, n.lt_succ_self, ?_⟩
        · rw [hrows]
          exact List.mem_map.mpr ⟨r, hmem, if_pos hfound⟩
        · rw [← missed_calls]
          exact (mem_of_candidate hfound).2
      · apply Or.inl
        rw [hrows]
        exact List.mem_map.mpr ⟨r, hmem, if_neg hfound⟩
    · refine Or.inr ⟨⟨r', ?_, hid, hstate⟩, m, hm.trans n.lt_succ_self, hmissed⟩
      rw [hrows]
      refine List.mem_map.mpr ⟨r', hr', if_neg fun hfound => ?_⟩
      have hmutable := mutable_of_missed (mem_of_candidate hfound).2
      rw [hstate] at hmutable
      cases hmutable

/-- What was missed is marked failed, however many other recordings are found before it. -/
theorem failed_of_missed (hr : r ∈ s.recordings) (hclock : Monotone clock)
    (hmissed : s.missed g (clock 0) r = true) : ∃ n, Failed (calls g clock n s) r.id := by
  by_contra hnever
  -- each call marks some recording failed, so those that wait run out
  have hcount : ∀ n, waiting (calls g clock n s) + n ≤ waiting s := by
    intro n
    induction n with
    | zero => rfl
    | succ n ih =>
      have hmem : r ∈ (calls g clock n s).recordings :=
        (calls_cases hr).resolve_right fun h => hnever ⟨n, h.1⟩
      have hstill : (calls g clock n s).missed g (clock n) r = true :=
        missed_mono hmissed (hclock n.zero_le) hasSharedCaptureTx_calls
      obtain ⟨r', hr'⟩ := exists_candidate hmem hstill
      have hless := waiting_expireMissed hr'
      show waiting ((calls g clock n s).expireMissed g (clock n)) + (n + 1) ≤ waiting s
      omega
  have hlast := hcount (waiting s + 1)
  omega

/-- A waiting recording is marked failed by some call just when it was missed. -/
theorem failed_iff_missed (hr : r ∈ s.recordings) (hwait : r.state.mutable = true) :
    (∃ n, Failed (calls g (fun _ => now) n s) r.id) ↔ s.missed g now r = true := by
  constructor
  · rintro ⟨n, hfailed⟩
    rcases @calls_cases g _ _ (fun _ => now) n hr with hmem | ⟨-, m, -, h⟩
    · exact absurd hfailed (not_failed_of_mem hmem hwait)
    · exact h
  · intro h
    exact failed_of_missed hr monotone_const h

/-- **Recordings that were missed.** A recording that waits is marked failed only when it is due,
and is marked failed when it is due, just when the instant isn't one between the end of its
programme and that end with the after-padding. -/
theorem expires_iff (hr : r ∈ s.recordings) (hwait : r.state.mutable = true) :
    ((∀ n, Failed (calls g (fun _ => now) n s) r.id → Due g s now r) ∧
      (Due g s now r → ∀ clock : ℕ → ℤ, Monotone clock → clock 0 = now →
        ∃ n, Failed (calls g clock n s) r.id)) ↔ ¬ Curtailed g s now r := by
  constructor
  · rintro ⟨honly, hall⟩ ⟨hstop, hshared, p, hp, hbetween⟩
    apply hbetween
    constructor
    · intro hover
      have hmissed : s.missed g now r = true := by
        rw [missed_iff hwait]
        refine ⟨hstop, hshared, fun q hq => ?_⟩
        obtain rfl := Option.some.inj (hp.symm.trans hq)
        exact hover
      obtain ⟨n, hfailed⟩ := (failed_iff_missed hr hwait).mpr hmissed
      exact (honly n hfailed).2.1 p hp
    · intro hpadded
      have hdue : Due g s now r := by
        refine ⟨hstop, fun q hq => ?_, hshared⟩
        obtain rfl := Option.some.inj (hp.symm.trans hq)
        exact hpadded
      obtain ⟨n, hfailed⟩ := hall hdue (fun _ => now) monotone_const rfl
      have hmissed := (failed_iff_missed hr hwait).mp ⟨n, hfailed⟩
      exact ((missed_iff hwait).mp hmissed).2.2 p hp
  · intro hnot
    constructor
    · intro n hfailed
      have hmissed := (failed_iff_missed hr hwait).mp ⟨n, hfailed⟩
      obtain ⟨hstop, hshared, hover⟩ := (missed_iff hwait).mp hmissed
      refine ⟨hstop, fun p hp => ?_, hshared⟩
      by_contra hpadded
      exact hnot ⟨hstop, hshared, p, hp, fun h => hpadded (h.mp (hover p hp))⟩
    · rintro ⟨hstop, hpadded, hshared⟩ clock hclock rfl
      apply failed_of_missed hr hclock
      rw [missed_iff hwait]
      refine ⟨hstop, hshared, fun p hp => ?_⟩
      by_contra hover
      exact hnot ⟨hstop, hshared, p, hp, fun h => hover (h.mpr (hpadded p hp))⟩

/-! ### A programme that was extended -/

def hour : ℤ := 3600000

/-- A game of an hour, which the guide has extended by twenty minutes. -/
def extendedGame : Guide :=
  { sources := [{ id := "antenna", active := true, generation := "g2" }]
    programmes := [("g2", { id := "p1", channel := "one", title := "Game"
                            start := 0, stop := hour + 1200000 })]
    keys := by decide }

/-- The recording of the game, with half an hour of padding after it, as it was scheduled. -/
def gameRecording : Recording :=
  { id := "a", source := "antenna", channel := "one", generation := "g1"
    programme := { id := "p1", channel := "one", title := "Game", start := 0, stop := hour }
    options := { after := 1800000 }, start := 0, stop := hour + 1800000 }

def extendedState : State := { recordings := [gameRecording] }

/-- An hour and thirty-five minutes after its start the game has been over for a quarter of an hour,
and half an hour of padding was asked for. A call marks the recording failed. -/
theorem extended_expired :
    gameRecording ∈ extendedState.recordings ∧ gameRecording.state.mutable = true ∧
    gameRecording.options.valid = true ∧
    Failed (extendedState.expireMissed extendedGame (hour + 2100000)) "a" ∧
    ¬ Due extendedGame extendedState (hour + 2100000) gameRecording := by
  refine ⟨List.mem_singleton_self _, rfl, by decide, ⟨gameRecording.expired, ?_, rfl, rfl⟩, ?_⟩
  · decide +kernel
  · rintro ⟨-, hpadded, -⟩
    exact absurd (hpadded _ rfl) (by decide +kernel)

/-- The padding is over two hours after the start of the game: the recording is due, and is marked
failed. -/
theorem expires_late :
    (∀ n, Failed (calls extendedGame (fun _ => 2 * hour) n extendedState) "a" →
      Due extendedGame extendedState (2 * hour) gameRecording) ∧
    (Due extendedGame extendedState (2 * hour) gameRecording → ∀ clock : ℕ → ℤ, Monotone clock →
      clock 0 = 2 * hour → ∃ n, Failed (calls extendedGame clock n extendedState) "a") := by
  refine (expires_iff (r := gameRecording) (List.mem_singleton_self _) rfl).mpr ?_
  rintro ⟨-, -, p, hp, hbetween⟩
  obtain rfl := Option.some.inj hp
  exact hbetween (by decide +kernel)

end Portico.Recordings
