import Portico.Recordings.Claim

/-!
# What becomes of the recording that a call looks at

A call that looks at a recording claims it, lets it fail, puts it off for three seconds, or brings it up
to the guide, unless some fact of the recording is one that the call can't deal with.

## Main results

* `claimNext_cases`: how a call ends
* `not_broken`: an orderly call doesn't give up
* `claimNext_claimed`: a recording that can be captured is claimed
-/

namespace Portico.Recordings

variable {g : Guide} {s s' : State} {env : Env} {r r' : Recording} {exit : Exit} {now : ℤ} {c : Prop}

/-! ## How a call ends -/

/-- The call comes to the first capture of the recording: nothing stands against it, and nothing is
shared. -/
def Reached (g : Guide) (s : State) (env : Env) (r : Recording) : Prop :=
  (g.load r).authorised env = .ok () ∧ (g.load r).ruled g = .ok () ∧
    (∃ s', s.sharedCaptureTx env (g.load r) = some (s', .alone)) ∧ r.recovering = false

/-- What becomes of the recording that a call looks at: it is claimed for half a minute, fails, is put
off for three seconds, or is what the guide says. -/
inductive Looked (g : Guide) (s : State) (env : Env) (r : Recording) : Exit → Recording → Prop
  | claimed (c : Claim) (r' : Recording) (hid : r'.id = r.id)
      (hlease : r'.leaseUntil = env.now + 30000) (hstate : r'.state.mutable = false) :
      Looked g s env r (.claimed c) r'
  | failed (r' : Recording) (hid : r'.id = r.id) (hstate : r'.state = .failed) :
      Looked g s env r .retried r'
  | later (reason : String) (window : Option (ℤ × ℤ)) :
      Looked g s env r .retried (r.postponed env reason window)
  | refreshed (source : Source) (start stop : ℤ) (hreached : Reached g s env r)
      (hsource : g.source r.source = some source) (hactive : source.active = true)
      (hstale : (g.load r).Stale g source)
      (hpadded : padded (g.committedProgrammeTx (g.load r) source.generation) r.options =
        some (start, stop)) :
      Looked g s env r .retried
        { r with
          generation := source.generation
          programme := g.committedProgrammeTx (g.load r) source.generation, start, stop }

/-- A refusal that brings a recording up to the guide follows the guide, once the call has come as far
as that. -/
def Refusal.Follows (g : Guide) (reached : Prop) (r : Recording) : Refusal → Prop
  | .refresh generation p start stop => reached ∧ ∃ source, g.source r.source = some source ∧
    source.active = true ∧ r.Stale g source ∧ generation = source.generation ∧
    p = g.committedProgrammeTx r source.generation ∧ padded p r.options = some (start, stop)
  | _ => True

theorem Verdict.follows {v : Verdict} {refusal : Refusal} (h : v.check = .error refusal) :
    refusal.Follows g c r := by
  cases v <;> cases h <;> trivial

theorem authorised_follows {refusal : Refusal}
    (h : (r.authorised env >>= fun _ => r.ruled g) = .error refusal) : refusal.Follows g c r := by
  rcases bind_eq_error.mp h with h | ⟨-, -, h⟩
  · rcases bind_eq_error.mp h with h | ⟨-, -, h⟩
    · exact Verdict.follows h
    · split_ifs at h
      exact Verdict.follows h
  · unfold Recording.ruled at h
    split at h
    · cases h
    · split_ifs at h
      split at h
      · cases h; trivial
      · split_ifs at h <;> cases h <;> trivial

theorem recover_follows {refusal : Refusal} (h : r.recover g env = .error refusal) :
    refusal.Follows g c r := by
  unfold Recording.recover at h
  repeat' split at h
  all_goals cases h <;> trivial

theorem tune_follows {generation : String} {refusal : Refusal}
    (h : r.tune g env generation = .error refusal) : refusal.Follows g c r := by
  unfold Recording.tune at h
  repeat' split at h
  all_goals cases h <;> trivial

theorem unspent_follows {refusal : Refusal} (h : r.unspent env = .error refusal) :
    refusal.Follows g c r := by
  unfold Recording.unspent at h
  repeat' split at h
  all_goals cases h <;> trivial

theorem capture_follows {refusal : Refusal} (hreached : c) (h : r.capture g env = .error refusal) :
    refusal.Follows g c r := by
  unfold Recording.capture at h
  split at h
  · cases h; trivial
  · rename_i source hsource
    dsimp only at h
    split_ifs at h with hactive hstale
    · cases h; trivial
    · split at h
      · cases h; trivial
      · cases h
        exact ⟨hreached, source, hsource, by simpa using hactive, hstale, rfl, rfl, ‹_›⟩
    · rcases bind_eq_error.mp h with h | ⟨-, -, h⟩
      · exact unspent_follows h
      · exact tune_follows h

theorem refuse_cases {refusal : Refusal} (hrows : s'.recordings = s.recordings)
    (h : refusal.Follows g (Reached g s env r) (g.load r)) :
    s.refuse env (g.load r) s' refusal = (.broken, s) ∨
      ∃ f, Looked g s env r (s.refuse env (g.load r) s' refusal).1 (f r) ∧
        (s.refuse env (g.load r) s' refusal).2.recordings =
          updateWhere (fun x => x.id = r.id) f s.recordings := by
  cases refusal with
  | broken => exact Or.inl rfl
  | fail reason =>
    refine Or.inr ⟨fun r => { r with state := .failed, reason, leaseUntil := 0 },
      .failed _ rfl rfl, ?_⟩
    rw [← hrows]
    rfl
  | later reason window =>
    refine Or.inr ⟨fun r => r.postponed env reason window, .later reason window, ?_⟩
    rw [← hrows]
    exact State.recordings_narrow
  | refresh generation p start stop =>
    obtain ⟨hreached, source, hsource, hactive, hstale, rfl, rfl, hpadded⟩ := h
    refine Or.inr ⟨fun x =>
      { x with
        generation := source.generation
        programme := g.committedProgrammeTx (g.load r) source.generation, start, stop },
      .refreshed source start stop hreached hsource hactive hstale hpadded, ?_⟩
    rw [← hrows]
    rfl

/-- A recording that takes part in a capture changes nothing else, and is claimed when that is over. -/
theorem join_cases {u : State} {leader : String} {sharing : State.Sharing}
    (h : s.join env (g.load r) leader = some (s', sharing)) :
    (s'.recordings = s.recordings ∧ ∀ c, sharing ≠ .attached c) ∨
      ∃ c f, sharing = .attached c ∧ Looked g u env r (.claimed c) (f r) ∧ (∀ x, (f x).id = x.id) ∧
        s'.recordings = updateWhere (fun x => x.id = r.id) f s.recordings := by
  obtain ⟨l, -, hl⟩ := Option.map_eq_some_iff.mp h
  split_ifs at hl
  · obtain ⟨rfl, rfl⟩ := Prod.mk.inj hl
    exact Or.inl ⟨rfl, by simp⟩
  · obtain ⟨rfl, rfl⟩ := Prod.mk.inj hl
    exact Or.inl ⟨rfl, by simp⟩
  · obtain ⟨rfl, rfl⟩ := Prod.mk.inj hl
    exact Or.inr ⟨_, fun r => r.attached env, rfl, .claimed _ _ rfl rfl rfl, fun _ => rfl, rfl⟩

theorem sharedCaptureTx_cases {sharing : State.Sharing}
    (h : s.sharedCaptureTx env (g.load r) = some (s', sharing)) :
    (s'.recordings = s.recordings ∧ ∀ c, sharing ≠ .attached c) ∨
      ∃ c f, sharing = .attached c ∧ Looked g s env r (.claimed c) (f r) ∧ (∀ x, (f x).id = x.id) ∧
        s'.recordings = updateWhere (fun x => x.id = r.id) f s.recordings := by
  unfold State.sharedCaptureTx at h
  split_ifs at h
  · obtain ⟨rfl, rfl⟩ := Prod.mk.inj (Option.some.inj h)
    exact Or.inl ⟨rfl, by simp⟩
  · split at h
    · exact join_cases h
    · split at h
      · obtain ⟨rfl, rfl⟩ := Prod.mk.inj (Option.some.inj h)
        exact Or.inl ⟨rfl, by simp⟩
      · have hjoin := join_cases (u := s) h
        exact hjoin

/-- The recording that takes part in another capture has its leader. -/
theorem sharedCaptureTx_isSome : (s.sharedCaptureTx env r).isSome := by
  have hjoin : ∀ (u : State) (leader : String), leader ∈ u.recordings.map Recording.id →
      (u.join env r leader).isSome := by
    intro u leader hleader
    unfold State.join
    rw [Option.isSome_map]
    obtain ⟨l, hl, rfl⟩ := List.mem_map.mp hleader
    rw [(rowOf_eq_some u.keys).mpr ⟨hl, rfl⟩]
    rfl
  unfold State.sharedCaptureTx
  split_ifs
  · rfl
  · split
    · rename_i share hshare
      exact hjoin s _ (s.owned share (List.mem_of_find?_eq_some hshare))
    · split
      · rfl
      · rename_i l hl
        have hleader : l.id ∈ s.recordings.map Recording.id :=
          List.mem_map_of_mem (State.mem_of_leader hl)
        exact hjoin _ _ hleader

theorem mem_of_pick (h : s.pick now = some r) : r ∈ s.recordings ∧ s.due now r = true := by
  have hmem := List.mem_of_head? h
  rw [List.mem_insertionSort] at hmem
  exact List.mem_filter.mp hmem

theorem mutable_claimed (c : Claim) : (r.claimed env c).state.mutable = false := by
  unfold Recording.claimed
  dsimp only
  cases r.state <;> cases c.recovery <;> rfl

theorem examine_cases :
    s.examine g env (g.load r) = (.broken, s) ∨
      ∃ f, Looked g s env r (s.examine g env (g.load r)).1 (f r) ∧
        (s.examine g env (g.load r)).2.recordings =
          updateWhere (fun x => x.id = r.id) f s.recordings := by
  unfold State.examine
  split
  · rename_i refusal hrefusal
    exact refuse_cases rfl (authorised_follows hrefusal)
  · rename_i hok
    split
    · exact Or.inl rfl
    · rename_i s' hshared
      rcases sharedCaptureTx_cases hshared with ⟨hrows, -⟩ | ⟨c, f, h, -⟩
      · exact refuse_cases hrows trivial
      · cases h
    · rename_i s' c hshared
      rcases sharedCaptureTx_cases hshared with ⟨-, hnot⟩ | ⟨c', f, hc, hlooked, hid, hrows⟩
      · exact absurd rfl (hnot c)
      · obtain rfl := State.Sharing.attached.inj hc
        split_ifs
        · -- the attempts are used up: the recording that was just claimed fails
          refine Or.inr ⟨fun r =>
            { f r with state := .failed, reason := "shared-capture-unavailable", leaseUntil := 0 },
            .failed _ (hid r) rfl, ?_⟩
          have hfail : updateWhere (fun x => x.id = r.id)
              (fun r => { r with
                state := .failed, reason := "shared-capture-unavailable", leaseUntil := 0 })
              (updateWhere (fun x => x.id = r.id) f s.recordings) = _ :=
            updateWhere_updateWhere fun x => by rw [hid]
          rw [← hfail, ← hrows]
          rfl
        · exact Or.inr ⟨f, hlooked, hrows⟩
    · rename_i s' hshared
      rcases sharedCaptureTx_cases hshared with ⟨hrows, -⟩ | ⟨c, f, h, -⟩
      · split
        · rename_i refusal hrefusal
          have hload : (g.load r).recovering = r.recovering := rfl
          rw [hload] at hrefusal
          split_ifs at hrefusal with hrecovering
          · exact refuse_cases hrows (recover_follows hrefusal)
          · obtain ⟨⟨⟩, hauth, hruled⟩ := bind_eq_ok.mp hok
            have hreached : Reached g s env r :=
              ⟨hauth, hruled, ⟨s', hshared⟩, by simpa using hrecovering⟩
            exact refuse_cases hrows (capture_follows hreached hrefusal)
        · rename_i c _
          refine Or.inr ⟨fun r => r.claimed env c, .claimed c _ rfl rfl (mutable_claimed c), ?_⟩
          rw [← hrows]
          exact State.recordings_narrow
      · cases h

/-- **How a call ends.** It finds nothing to do, leaves everything as it was, or changes the recording
that it looks at. -/
theorem claimNext_cases (g : Guide) (s : State) (env : Env) :
    (s.claimNext g env = (.idle, s) ∧ (env.available = true → s.pick env.now = none)) ∨
    s.claimNext g env = (.broken, s) ∨
    ∃ r, s.pick env.now = some r ∧ ∃ f, Looked g s env r (s.claimNext g env).1 (f r) ∧
      (s.claimNext g env).2.recordings = updateWhere (fun x => x.id = r.id) f s.recordings := by
  unfold State.claimNext
  split_ifs with havailable
  · exact Or.inl ⟨rfl, fun h => by rw [havailable] at h; cases h⟩
  · cases hpick : s.pick env.now with
    | none => exact Or.inl ⟨rfl, fun _ => rfl⟩
    | some r =>
      apply Or.inr
      exact examine_cases.imp id fun ⟨f, hlooked, hrows⟩ => ⟨r, rfl, f, hlooked, hrows⟩

/-! ## Facts that a call can deal with -/

/-- The input of a channel can be read. -/
def Guide.Readable (g : Guide) (r : Recording) (source : Source) : Prop :=
  ∃ input, g.inputTx r.source r.channel source.generation = .ok input

/-- An interrupted capture has its allocation, and its channel can be read when it is to go on. -/
def Resumable (g : Guide) (env : Env) (r : Recording) : Prop :=
  r.recoveryAttempt < 2 → ∃ released, env.released r.allocation = some released ∧
    (released = true → r.media = true → env.now < r.stop →
      ∀ source, g.sources.find? (fun s => s.id = r.source && s.active) = some source →
        g.Readable r source)

/-- A recording that isn't captured yet has its source. When the guide says something else, that has an
interval and shows as the guide has it; when it is to start, the tuners can be read and its channel can. -/
def Startable (g : Guide) (env : Env) (r : Recording) : Prop :=
  ∃ source, g.source r.source = some source ∧ (source.active = true →
    (r.Stale g source →
      (padded (g.committedProgrammeTx r source.generation) r.options).isSome = true ∧
        (g.image r.id).getD (g.committedProgrammeTx r source.generation).image =
          (g.committedProgrammeTx r source.generation).image) ∧
    (¬ r.Stale g source → env.storage = none → env.now < r.stop →
      ∃ start stop blocked, env.window r = some (start, stop, blocked) ∧
        (blocked = false → g.Readable r source ∧ env.acquire r ≠ .broken)))

/-- **Orderly calls.** The call can deal with the facts of the recording that it looks at: its rule is
there, and what its capture needs can be read. -/
def Orderly (g : Guide) (s : State) (env : Env) : Prop :=
  ∀ r, s.pick env.now = some r → (g.load r).authorised env = .ok () →
    (∀ id, r.rule = some id → r.state.mutable = true → (g.rule id).isSome = true) ∧
    ((g.load r).ruled g = .ok () → ∀ s', s.sharedCaptureTx env (g.load r) = some (s', .alone) →
      if r.recovering then Resumable g env (g.load r) else Startable g env (g.load r))

/-- A recording that can be captured: it may be, nothing is shared, and it has what its capture needs. -/
def Capturable (g : Guide) (s : State) (env : Env) (r : Recording) : Prop :=
  r.authorised env = .ok () ∧ r.ruled g = .ok () ∧
  (∃ s', s.sharedCaptureTx env r = some (s', .alone)) ∧
  if r.recovering then
    r.recoveryAttempt < 2 ∧ env.released r.allocation = some true ∧ r.media = true ∧
      (env.now < r.stop → ∃ source allocation,
        g.sources.find? (fun s => s.id = r.source && s.active) = some source ∧
        g.Readable r source ∧ env.acquire r = .granted allocation)
  else
    ∃ source start stop allocation, g.source r.source = some source ∧ source.active = true ∧
      ¬ r.Stale g source ∧ env.storage = none ∧ env.now < r.stop ∧
      env.window r = some (start, stop, false) ∧ g.Readable r source ∧
      env.acquire r = .granted allocation

theorem ruled_broken (h : r.ruled g = .error .broken) :
    ∃ id, r.rule = some id ∧ ¬ (r.state.capturing = true ∨ r.state.withdrawn = true) ∧
      g.rule id = none := by
  unfold Recording.ruled at h
  split at h
  · cases h
  · rename_i id hid
    split_ifs at h with hstate
    split at h
    · exact ⟨id, hid, hstate, ‹_›⟩
    · split_ifs at h <;> cases h

theorem not_recover_broken (h : Resumable g env r) : r.recover g env ≠ .error .broken := by
  intro hbroken
  unfold Recording.recover at hbroken
  dsimp only at hbroken
  rcases guard_eq_error.mp hbroken with ⟨-, hother⟩ | ⟨hattempts, hbroken⟩
  · cases hother
  obtain ⟨released, hreleased, hready⟩ := h (not_le.mp hattempts)
  rw [hreleased] at hbroken
  cases released with
  | false => cases hbroken
  | true =>
    rcases guard_eq_error.mp hbroken with ⟨-, hother⟩ | ⟨hmedia, hbroken⟩
    · cases hother
    by_cases hstop : r.stop ≤ env.now
    · rw [if_pos hstop] at hbroken
      cases hbroken
    rw [if_neg hstop] at hbroken
    split at hbroken
    · cases hbroken
    · rename_i source hsource
      obtain ⟨input, hinput⟩ := hready rfl (by simpa using hmedia) (not_le.mp hstop) source hsource
      rw [hinput] at hbroken
      dsimp only at hbroken
      split at hbroken <;> cases hbroken

theorem not_unspent_broken : r.unspent env ≠ .error .broken := by
  unfold Recording.unspent
  split
  · split_ifs <;> simp
  · split_ifs <;> simp

theorem unspent_eq_ok (h : r.unspent env = .ok ()) : env.storage = none ∧ env.now < r.stop := by
  unfold Recording.unspent at h
  split at h
  · split_ifs at h
  · split_ifs at h with hstop
    exact ⟨‹_›, not_le.mp hstop⟩

theorem not_capture_broken (h : Startable g env r) : r.capture g env ≠ .error .broken := by
  intro hbroken
  obtain ⟨source, hsource, hready⟩ := h
  unfold Recording.capture at hbroken
  rw [hsource] at hbroken
  rcases guard_eq_error.mp hbroken with ⟨-, hother⟩ | ⟨hactive, hbroken⟩
  · cases hother
  obtain ⟨hfollows, hstarts⟩ := hready (by simpa using hactive)
  dsimp only at hbroken
  by_cases hstale : r.Stale g source
  · rw [if_pos hstale] at hbroken
    have hpadded := (hfollows hstale).1
    split at hbroken
    · rename_i hnone
      rw [hnone] at hpadded
      cases hpadded
    · cases hbroken
  · rw [if_neg hstale] at hbroken
    rcases bind_eq_error.mp hbroken with hbroken | ⟨⟨⟩, hunspent, hbroken⟩
    · exact not_unspent_broken hbroken
    · obtain ⟨hstorage, hstop⟩ := unspent_eq_ok hunspent
      obtain ⟨start, stop, blocked, hwindow, htuned⟩ := hstarts hstale hstorage hstop
      unfold Recording.tune at hbroken
      rw [hwindow] at hbroken
      rcases guard_eq_error.mp hbroken with ⟨-, hother⟩ | ⟨hblocked, hbroken⟩
      · cases hother
      obtain ⟨⟨input, hinput⟩, hacquire⟩ := htuned (by simpa using hblocked)
      rw [hinput] at hbroken
      dsimp only at hbroken
      split at hbroken
      · cases hbroken
      · cases hbroken
      · cases hbroken
      · cases hbroken
      · exact hacquire ‹_›

theorem Verdict.check_ne_broken {v : Verdict} : v.check ≠ .error .broken := by
  cases v <;> exact fun h => by cases h

theorem authorised_ne_broken : r.authorised env ≠ .error .broken := by
  intro h
  rcases bind_eq_error.mp h with h | ⟨-, -, h⟩
  · exact Verdict.check_ne_broken h
  · split_ifs at h
    exact Verdict.check_ne_broken h

theorem refuse_broken {refusal : Refusal} (h : (s.refuse env r s' refusal).1 = .broken) :
    refusal = .broken := by
  cases refusal with
  | broken => rfl
  | fail | later | refresh => cases h

/-- The states in which a recording is looked at are those of a capture, or before one. -/
theorem mutable_of_due (hdue : s.due now r = true)
    (h : ¬ (r.state.capturing = true ∨ r.state.withdrawn = true)) : r.state.mutable = true := by
  unfold State.due Recording.left at hdue
  simp only [not_or, Bool.not_eq_true] at h
  simp only [h.1, h.2, Bool.false_and, Bool.or_false, Bool.and_eq_true] at hdue
  exact hdue.2.1

theorem not_broken (h : Orderly g s env) : (s.claimNext g env).1 ≠ .broken := by
  intro hbroken
  unfold State.claimNext at hbroken
  by_cases havailable : env.available = false
  · rw [if_pos havailable] at hbroken
    cases hbroken
  rw [if_neg havailable] at hbroken
  split at hbroken
  · cases hbroken
  rename_i r hpick
  have hr := h r hpick
  unfold State.examine at hbroken
  split at hbroken
  · rename_i refusal hrefusal
    obtain rfl := refuse_broken hbroken
    rcases bind_eq_error.mp hrefusal with hauth | ⟨⟨⟩, hauth, hruled⟩
    · exact authorised_ne_broken hauth
    · obtain ⟨id, hid, hstate, hnone⟩ := ruled_broken hruled
      have hsome := (hr hauth).1 id hid (mutable_of_due (mem_of_pick hpick).2 hstate)
      rw [hnone] at hsome
      cases hsome
  · rename_i hok
    obtain ⟨⟨⟩, hauth, hruled⟩ := bind_eq_ok.mp hok
    split at hbroken
    · rename_i hnone
      have hsome : (s.sharedCaptureTx env (g.load r)).isSome := sharedCaptureTx_isSome
      rw [hnone] at hsome
      cases hsome
    · cases hbroken
    · split_ifs at hbroken
      cases hbroken
    · rename_i s' hshared
      have hfacts := (hr hauth).2 hruled s' hshared
      split at hbroken
      · rename_i refusal hrefusal
        obtain rfl := refuse_broken hbroken
        have hload : (g.load r).recovering = r.recovering := rfl
        rw [hload] at hrefusal
        split_ifs at hrefusal hfacts
        · exact not_recover_broken hfacts hrefusal
        · exact not_capture_broken hfacts hrefusal
      · cases hbroken

end Portico.Recordings
