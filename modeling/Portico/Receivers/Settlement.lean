import Portico.Receivers.System

/-!
# Handoffs that block their source

A proposal is refused while another handoff of its source is open. Reading a handoff past its deadline
shows it as expired, but the requests that find it so are refused, and what they record is rolled
back: as long as nothing else fails it, the proposal counts it as open.

## Main results

* `prepare_inProgress`: when a proposal is refused for another handoff
* `unblocked_iff`: proposals are refused as they should just when none finds only stale handoffs
-/

namespace Portico.Receivers

open WatchTogether (Viewer DeviceID ItemID)

variable {env : Env} {now : ℤ} {p : Principal} {viewer : Viewer} {s s' : Store} {a : Action}
  {answer : Except Fault Answer} {req : HandoffRequest}

/-! ## What a proposal checks -/

/-- A proposal passes the checks before that of the open handoffs of its source. -/
structure Proposes (env : Env) (now : ℤ) (viewer : Viewer) (req : HandoffRequest) (s : Store) :
    Prop where
  playback : env.playback = true
  limited : env.limited = false
  fresh : s.handoffs.find? (fun h => h.viewer = viewer && h.request.requestID = req.requestID) = none
  granted : ∃ r g, readReceiver viewer req.receiverID s = .ok r ∧ r.active = true ∧
    readGrant now viewer req.grantID s = .ok g ∧ g.receiverID = req.receiverID ∧
    g.state = .accepted ∧ g.keyFingerprint = r.keyFingerprint ∧ Command.load ∈ g.allowedCommands
  source : ∃ x, sessionTx env viewer req.sourcePlaybackID s = .ok (some x) ∧ x.live now = true ∧
    req.expectedRevision.any (fun revision => revision ≠ x.revision) = false

theorem readReceiver_error {id : ReceiverID} {fault : Fault} (h : readReceiver viewer id s = .error fault) :
    fault = .notFound := by
  unfold readReceiver at h
  split at h
  · exact (Except.error.inj h).symm
  · rcases guard_eq_error.mp h with ⟨-, h⟩ | ⟨-, h⟩
    · exact h.symm
    · cases h

theorem readGrant_error {id : GrantID} {fault : Fault} (h : readGrant now viewer id s = .error fault) :
    fault = .notFound := by
  unfold readGrant at h
  split at h
  · exact (Except.error.inj h).symm
  · rcases guard_eq_error.mp h with ⟨-, h⟩ | ⟨-, h⟩
    · exact h.symm
    · cases h

theorem sessionTx_error {id : SessionID} {fault : Fault}
    (h : sessionTx env viewer id s = .error fault) : fault = .restricted := by
  unfold sessionTx at h
  split at h
  · cases h
  · split_ifs at h
    exact (Except.error.inj h).symm

theorem prepareHandoff_inProgress :
    prepareHandoff env now viewer req s = .error .handoffInProgress ↔
      Proposes env now viewer req s ∧ 0 < s.openHandoffs req.sourcePlaybackID := by
  constructor
  · intro h
    unfold prepareHandoff at h
    rcases guard_eq_error.mp h with ⟨-, h⟩ | ⟨hplayback, h⟩
    · cases h
    rcases guard_eq_error.mp h with ⟨-, h⟩ | ⟨hlimited, h⟩
    · cases h
    split at h
    · rcases guard_eq_error.mp h with ⟨-, h⟩ | ⟨-, h⟩ <;> cases h
    rename_i hfresh
    rcases bind_eq_error.mp h with h | ⟨r, hr, h⟩
    · cases readReceiver_error h
    rcases guard_eq_error.mp h with ⟨-, h⟩ | ⟨hactive, h⟩
    · cases h
    rcases bind_eq_error.mp h with h | ⟨g, hg, h⟩
    · cases readGrant_error h
    rcases guard_eq_error.mp h with ⟨-, h⟩ | ⟨hreceiver, h⟩
    · cases h
    rcases guard_eq_error.mp h with ⟨-, h⟩ | ⟨hstate, h⟩
    · cases h
    rcases guard_eq_error.mp h with ⟨-, h⟩ | ⟨hkey, h⟩
    · cases h
    rcases guard_eq_error.mp h with ⟨-, h⟩ | ⟨hload, h⟩
    · cases h
    rcases bind_eq_error.mp h with h | ⟨source, hsource, h⟩
    · cases sessionTx_error h
    split at h
    · cases h
    rcases guard_eq_error.mp h with ⟨-, h⟩ | ⟨hlive, h⟩
    · cases h
    rcases guard_eq_error.mp h with ⟨-, h⟩ | ⟨hrevision, h⟩
    · cases h
    rcases guard_eq_error.mp h with ⟨hopen, -⟩ | ⟨-, h⟩
    · refine ⟨⟨by simpa using hplayback, by simpa using hlimited, hfresh, ?_, ?_⟩, hopen⟩
      · exact ⟨r, g, hr, by simpa using hactive, hg, not_not.mp hreceiver, not_not.mp hstate,
          not_not.mp hkey, not_not.mp hload⟩
      · exact ⟨_, hsource, by simpa using hlive, by simpa using hrevision⟩
    · cases h
  · rintro ⟨⟨hplayback, hlimited, hfresh, ⟨r, g, hr, hactive, hg, hreceiver, hstate, hkey, hload⟩,
      x, hx, hlive, hrevision⟩, hopen⟩
    unfold prepareHandoff
    simp only [hplayback, hlimited, hfresh, hr, hactive, hg, hreceiver, hstate, hkey, hload, hx, hlive,
      hrevision, hopen, ok_bind]
    simp

theorem prepareHandoff_ok {result : Result} (h : prepareHandoff env now viewer req s = .ok result) :
    ∃ x t, result = .ok (.handoff x) t := by
  unfold prepareHandoff at h
  obtain ⟨-, h⟩ := guard_eq_ok.mp h
  obtain ⟨-, h⟩ := guard_eq_ok.mp h
  split at h
  · obtain ⟨-, h⟩ := guard_eq_ok.mp h
    exact ⟨_, _, (Except.ok.inj h).symm⟩
  · obtain ⟨r, -, h⟩ := bind_eq_ok.mp h
    obtain ⟨-, h⟩ := guard_eq_ok.mp h
    obtain ⟨g, -, h⟩ := bind_eq_ok.mp h
    obtain ⟨-, h⟩ := guard_eq_ok.mp h
    obtain ⟨-, h⟩ := guard_eq_ok.mp h
    obtain ⟨-, h⟩ := guard_eq_ok.mp h
    obtain ⟨-, h⟩ := guard_eq_ok.mp h
    obtain ⟨source, -, h⟩ := bind_eq_ok.mp h
    split at h
    · cases h
    · obtain ⟨-, h⟩ := guard_eq_ok.mp h
      obtain ⟨-, h⟩ := guard_eq_ok.mp h
      obtain ⟨-, h⟩ := guard_eq_ok.mp h
      exact ⟨_, _, (Except.ok.inj h).symm⟩

/-- When a proposal is answered that another handoff of its source is in progress. -/
theorem prepare_inProgress :
    (serve env now p (.prepare req) s).1 = .error .handoffInProgress ↔
      Proposes env now p.viewer req s ∧ 0 < s.openHandoffs req.sourcePlaybackID := by
  rw [← prepareHandoff_inProgress]
  unfold serve Action.run
  cases hrun : prepareHandoff env now p.viewer req s with
  | error fault => simp [hrun]
  | ok result =>
    obtain ⟨x, t, rfl⟩ := prepareHandoff_ok hrun
    simp [hrun]

/-! ## The handoffs of a source -/

/-- The status poll of a viewer shows an open handoff of a source. -/
def ReadsOpen (now : ℤ) (viewer : Viewer) (source : SessionID) (s : Store) : Prop :=
  ∃ id h, readHandoff now viewer id s = .ok h ∧ h.sourcePlaybackID = source ∧ h.isOpen = true

/-- The handoffs of a session are its viewer's. -/
structure Store.Owned (s : Store) : Prop where
  known : ∀ h ∈ s.handoffs, h.sourcePlaybackID < s.nextID
  viewer : ∀ h ∈ s.handoffs, ∀ x ∈ s.sessions, x.id = h.sourcePlaybackID → x.viewer = h.viewer

theorem settledHandoff_open {h : Handoff} :
    (settledHandoff now h).isOpen = true ↔ h.isOpen = true ∧ now < h.expiresMS := by
  unfold settledHandoff
  split_ifs with hlate
  · simp [Handoff.isOpen, hlate.2]
  · constructor
    · exact fun hopen => ⟨hopen, not_le.mp fun hle => hlate ⟨hopen, hle⟩⟩
    · exact fun hopen => hopen.1

@[simp] theorem sourcePlaybackID_settled (h : Handoff) :
    (settledHandoff now h).sourcePlaybackID = h.sourcePlaybackID := by
  unfold settledHandoff
  split_ifs <;> rfl

/-- A handoff of a source reads as open while it is open and not past its deadline. -/
theorem readsOpen_iff {x : Session} (hs : s.Sound) (ho : s.Owned) (hx : x ∈ s.sessions) :
    ReadsOpen now x.viewer x.id s ↔
      ∃ h ∈ s.handoffs, h.sourcePlaybackID = x.id ∧ h.isOpen = true ∧ now < h.expiresMS := by
  constructor
  · rintro ⟨id, h', hread, hsource, hopen⟩
    obtain ⟨h, hscan, rfl⟩ := exists_of_map_eq_ok hread
    rw [sourcePlaybackID_settled] at hsource
    exact ⟨h, mem_of_rowOf (scanOneHandoff_ok.mp hscan).1, hsource, settledHandoff_open.mp hopen⟩
  · rintro ⟨h, hmem, hsource, hopen⟩
    have hrow := (rowOf_eq_some hs.handoffs).mpr ⟨hmem, rfl⟩
    have hscan : scanOneHandoff x.viewer h.id s = .ok h :=
      scanOneHandoff_ok.mpr ⟨hrow, (ho.viewer h hmem x hx hsource.symm).symm⟩
    refine ⟨h.id, settledHandoff now h, ?_, ?_, settledHandoff_open.mpr hopen⟩
    · unfold readHandoff
      rw [hscan]
      rfl
    · rw [sourcePlaybackID_settled]
      exact hsource

theorem openHandoffs_pos {id : SessionID} :
    0 < s.openHandoffs id ↔ ∃ h ∈ s.handoffs, h.sourcePlaybackID = id ∧ h.isOpen = true := by
  unfold Store.openHandoffs
  simp [List.countP_pos_iff]

namespace Store.Owned

theorem empty : ({} : Store).Owned where
  known _ h := absurd h List.not_mem_nil
  viewer _ h := absurd h List.not_mem_nil

theorem of_handoffs (h : s.Owned) (hnext : s.nextID ≤ s'.nextID)
    (hsessions : ∀ x ∈ s'.sessions, x.id < s.nextID →
      ∃ y ∈ s.sessions, y.id = x.id ∧ y.viewer = x.viewer)
    (hhandoffs : ∀ x ∈ s'.handoffs, ∃ y ∈ s.handoffs,
      y.sourcePlaybackID = x.sourcePlaybackID ∧ y.viewer = x.viewer) : s'.Owned where
  known x hx := by
    obtain ⟨y, hy, hsource, -⟩ := hhandoffs x hx
    exact hsource ▸ (h.known y hy).trans_le hnext
  viewer x hx session hsession hid := by
    obtain ⟨y, hy, hsource, hviewer⟩ := hhandoffs x hx
    obtain ⟨session', hmem, hsame, howner⟩ := hsessions session hsession
      (hid.trans hsource.symm ▸ h.known y hy)
    rw [← howner, ← hviewer]
    exact h.viewer y hy session' hmem (hsame.trans (hid.trans hsource.symm))

theorem kept_updateWhere {q : Handoff → Bool} {f : Handoff → Handoff}
    (hf : ∀ x, (f x).sourcePlaybackID = x.sourcePlaybackID ∧ (f x).viewer = x.viewer) :
    ∀ x ∈ updateWhere q f s.handoffs, ∃ y ∈ s.handoffs,
      y.sourcePlaybackID = x.sourcePlaybackID ∧ y.viewer = x.viewer := by
  apply forall_updateWhere
  · exact fun x hx _ => ⟨x, hx, (hf x).1.symm, (hf x).2.symm⟩
  · exact fun x hx _ => ⟨x, hx, rfl, rfl⟩

theorem sessions_endSession {id : SessionID} : ∀ x ∈ (s.endSession id).sessions,
    ∃ y ∈ s.sessions, y.id = x.id ∧ y.viewer = x.viewer := by
  apply forall_updateWhere
  · exact fun x hx _ => ⟨x, hx, rfl, rfl⟩
  · exact fun x hx _ => ⟨x, hx, rfl, rfl⟩

theorem of_effect (h : s.Owned) (hs : s.Sound) (heffect : Effect env now p s a answer s') :
    s'.Owned := by
  have hsame : ∀ x ∈ s.sessions, ∃ y ∈ s.sessions, y.id = x.id ∧ y.viewer = x.viewer :=
    fun x hx => ⟨x, hx, rfl, rfl⟩
  have hkept : ∀ x ∈ s.handoffs, ∃ y ∈ s.handoffs,
      y.sourcePlaybackID = x.sourcePlaybackID ∧ y.viewer = x.viewer := fun x hx => ⟨x, hx, rfl, rfl⟩
  cases heffect with
  | refused => exact h
  | preparedAgain => exact h
  | committedAgain => exact h
  | rolledBackAgain => exact h
  | registered => exact h.of_handoffs (Nat.le_succ _) (fun x hx _ => hsame x hx) hkept
  | reregistered => exact h.of_handoffs le_rfl (fun x hx _ => hsame x hx) hkept
  | rotated =>
    exact h.of_handoffs le_rfl (fun x hx _ => hsame x hx) (kept_updateWhere fun _ => ⟨rfl, rfl⟩)
  | retired => exact h.of_handoffs le_rfl (fun x hx _ => hsame x hx) hkept
  | asked => exact h.of_handoffs (Nat.le_succ _) (fun x hx _ => hsame x hx) hkept
  | askedAgain => exact h.of_handoffs le_rfl (fun x hx _ => hsame x hx) hkept
  | decided receiverID grantID decision r g hr hdevice hg hreceiver hpending s' hs' =>
    subst hs'
    split_ifs
    · exact h.of_handoffs le_rfl (fun x hx _ => hsame x hx) hkept
    · exact h.of_handoffs le_rfl (fun x hx _ => hsame x hx) (kept_updateWhere fun _ => ⟨rfl, rfl⟩)
  | prepared req x session hid hviewer hsource hrow howner =>
    obtain ⟨hmem, hsession⟩ := (rowOf_eq_some hs.sessions).mp hrow
    constructor
    · intro x' hx'
      rcases List.mem_append.mp hx' with hx' | hx'
      · exact Nat.lt_succ_of_lt (h.known x' hx')
      · obtain rfl := List.mem_singleton.mp hx'
        rw [hsource, ← hsession]
        exact Nat.lt_succ_of_lt (hs.fresh.2.2.2 session hmem)
    · intro x' hx' session' hsession' hid'
      rcases List.mem_append.mp hx' with hx' | hx'
      · exact h.viewer x' hx' session' hsession' hid'
      · obtain rfl := List.mem_singleton.mp hx'
        have hsame' : session' = session :=
          eq_of_key hs.sessions hsession' hmem (hid'.trans (hsource.trans hsession.symm))
        rw [hsame', howner, hviewer]
  | reported =>
    exact h.of_handoffs le_rfl (fun x hx _ => hsame x hx) (kept_updateWhere fun _ => ⟨rfl, rfl⟩)
  | sourceFailed =>
    exact h.of_handoffs le_rfl (fun x hx _ => hsame x hx) (kept_updateWhere fun _ => ⟨rfl, rfl⟩)
  | committed =>
    refine h.of_handoffs le_rfl (fun x hx _ => ?_) (kept_updateWhere fun _ => ⟨rfl, rfl⟩)
    exact sessions_endSession x hx
  | rolledBack =>
    exact h.of_handoffs le_rfl (fun x hx _ => hsame x hx) (kept_updateWhere fun _ => ⟨rfl, rfl⟩)

theorem playback (h : s.Owned) (c : SessionChange) : (s.playback c).Owned := by
  have hkept : ∀ x ∈ s.handoffs, ∃ y ∈ s.handoffs,
      y.sourcePlaybackID = x.sourcePlaybackID ∧ y.viewer = x.viewer := fun x hx => ⟨x, hx, rfl, rfl⟩
  cases c with
  | start x =>
    refine h.of_handoffs (Nat.le_succ _) (fun y hy hlt => ?_) hkept
    rcases List.mem_append.mp hy with hy | hy
    · exact ⟨y, hy, rfl, rfl⟩
    · obtain rfl := List.mem_singleton.mp hy
      exact absurd hlt (lt_irrefl s.nextID)
  | change x =>
    refine h.of_handoffs le_rfl (fun y hy _ => ?_) hkept
    obtain ⟨y', hy', rfl⟩ := mem_updateWhere.mp hy
    refine ⟨y', hy', ?_, ?_⟩
    · split_ifs <;> rfl
    · split_ifs <;> rfl
  | finish id => exact h.of_handoffs le_rfl (fun y hy _ => sessions_endSession y hy) hkept
  | forget id =>
    exact h.of_handoffs le_rfl (fun y hy _ => ⟨y, List.mem_of_mem_filter hy, rfl, rfl⟩) hkept

theorem apply (h : s.Owned) (hs : s.Sound) (e : Event) : (e.apply s).Owned := by
  cases e with
  | request env now p a => exact h.of_effect hs (serve_effect a)
  | session now c => exact h.playback c

end Store.Owned

/-! ## Runs -/

/-- A proposal that passes the other checks is refused for another handoff just when one of its source
reads as open. -/
def Unblocked (s : System) : Event → Prop
  | .request env now p (.prepare req) =>
    (serve env now p (.prepare req) s.store).1 = .error .handoffInProgress ↔
      Proposes env now p.viewer req s.store ∧ ReadsOpen now p.viewer req.sourcePlaybackID s.store
  | _ => True

/-- A proposal finds handoffs of its source that are stored as open, all of them past their deadlines. -/
def Stale (s : System) : Event → Prop
  | .request env now p (.prepare req) =>
    Proposes env now p.viewer req s.store ∧ 0 < s.store.openHandoffs req.sourcePlaybackID ∧
      ∀ h ∈ s.store.handoffs, h.sourcePlaybackID = req.sourcePlaybackID → h.isOpen = true →
        h.expiresMS ≤ now
  | _ => False

theorem unblocked_iff_not_stale {x : System} {e : Event} (hs : x.store.Sound) (ho : x.store.Owned) :
    Unblocked x e ↔ ¬ Stale x e := by
  cases e with
  | session now c => simp [Unblocked, Stale]
  | request env now p a =>
    cases a with
    | register | retire | requestGrant | decide | report | commit | rollback =>
      simp [Unblocked, Stale]
    | prepare req =>
      unfold Unblocked Stale
      dsimp only
      rw [prepare_inProgress]
      by_cases hproposes : Proposes env now p.viewer req x.store
      · obtain ⟨session, hsession, -⟩ := hproposes.source
        obtain ⟨hrow, howner, -⟩ := sessionTx_ok.mp hsession
        obtain ⟨hmem, hid⟩ := (rowOf_eq_some hs.sessions).mp hrow
        have hreads : ReadsOpen now session.viewer session.id x.store ↔ _ :=
          readsOpen_iff hs ho hmem
        rw [howner, hid] at hreads
        simp only [hproposes, true_and, hreads]
        constructor
        · rintro hiff ⟨hopen, hstale⟩
          obtain ⟨h, hin, hsource, hisOpen, hlive⟩ := hiff.mp hopen
          exact absurd (hstale h hin hsource hisOpen) (not_le.mpr hlive)
        · intro hfresh
          rw [openHandoffs_pos] at hfresh ⊢
          constructor
          · intro hopen
            by_contra hnone
            refine hfresh ⟨hopen, fun h hin hsource hisOpen => ?_⟩
            by_contra hlive
            exact hnone ⟨h, hin, hsource, hisOpen, not_le.mp hlive⟩
          · rintro ⟨h, hin, hsource, hisOpen, -⟩
            exact ⟨h, hin, hsource, hisOpen⟩
      · simp [hproposes]

theorem owned_step (s : System) (e : Event) (t : System) (h : s.store.Sound ∧ s.store.Owned)
    (hstep : step s e = some t) : t.store.Sound ∧ t.store.Owned := by
  rw [(step_eq hstep).2.1]
  exact ⟨h.1.apply e, h.2.apply h.1 e⟩

/-- **Handoffs that block their source.** Along a run, proposals are refused for another handoff just
when one of their source reads as open, exactly if no proposal finds only handoffs that are stored as
open past their deadlines. -/
theorem unblocked_iff (es : List Event) :
    Machine.Each step Unblocked {} es ↔ Machine.Each step (fun s e => ¬ Stale s e) {} es := by
  exact Machine.each_congr owned_step (fun s e h => unblocked_iff_not_stale h.1 h.2)
    ⟨Store.Sound.empty, Store.Owned.empty⟩

/-- A handoff of session 1 is proposed, and nothing more is heard of it. -/
def abandoned : List Event :=
  [.request ⟨true, false, fun _ => true⟩ 0 ⟨⟨1, 1, 1⟩, some 1⟩ (.register ⟨1, 7, [], none⟩),
    .session 0 (.start ⟨0, ⟨1, 1, 1⟩, 5, 2, .playing, false, 1000000, 1, 0⟩),
    .request ⟨true, false, fun _ => true⟩ 0 ⟨⟨1, 1, 1⟩, some 2⟩ (.requestGrant ⟨0, 2, [], none⟩),
    .request ⟨true, false, fun _ => true⟩ 0 ⟨⟨1, 1, 1⟩, some 1⟩ (.decide 0 2 .accept),
    .request ⟨true, false, fun _ => true⟩ 0 ⟨⟨1, 1, 1⟩, some 2⟩ (.prepare ⟨1, 0, 2, 1, none, none⟩)]

/-- Another one is proposed after its deadline. -/
def proposedAgain : Event :=
  .request ⟨true, false, fun _ => true⟩ 200000 ⟨⟨1, 1, 1⟩, some 2⟩
    (.prepare ⟨2, 0, 2, 1, none, none⟩)

theorem abandoned_accepted : (Machine.run step {} abandoned).isSome = true := by decide +kernel

theorem not_unblocked_abandoned : ¬ ∀ es, Machine.Each step Unblocked {} es := by
  intro h
  have hrun := (Option.some_get abandoned_accepted).symm
  obtain ⟨-, hlast⟩ := Machine.each_concat (h (abandoned ++ [proposedAgain])) hrun
  obtain ⟨hs, ho⟩ := Machine.run_invariant owned_step ⟨Store.Sound.empty, Store.Owned.empty⟩ hrun
  refine (unblocked_iff_not_stale hs ho).mp hlast ?_
  have hanswer : (serve ⟨true, false, fun _ => true⟩ 200000 ⟨⟨1, 1, 1⟩, some 2⟩
      (.prepare ⟨2, 0, 2, 1, none, none⟩)
      ((Machine.run step {} abandoned).get abandoned_accepted).store).1 =
      .error .handoffInProgress := by
    decide +kernel
  obtain ⟨hproposes, hopen⟩ := prepare_inProgress.mp hanswer
  exact ⟨hproposes, hopen, by decide +kernel⟩

end Portico.Receivers
