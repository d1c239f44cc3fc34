import Portico.Receivers.System

/-!
# What a receiver consented to

A ledger beside the run notes what each controller asked for last, which of it the receiver accepted
and hasn't taken back, and whether the receiver was ever open to everyone. A grant that reads as
accepted is within the ledger, unless a renewal gave it commands that the receiver didn't accept.

## Main results

* `consent`: the law holds all along a run just when no renewal of it widens what was accepted
-/

namespace Portico.Receivers

open WatchTogether (Viewer DeviceID ItemID)

/-- What each controller of a receiver asked for last, what the receiver accepted of it and hasn't
declined, revoked or rotated away since, and whether the receiver was ever open to everyone. -/
structure Ledger where
  asked : ReceiverID → DeviceID → List Command := fun _ _ => []
  given : ReceiverID → DeviceID → Option (List Command) := fun _ _ => none
  wasOpen : ReceiverID → Bool := fun _ => false

/-- What the ledger notes of a request and its answer. -/
def Ledger.note (s : Store) (l : Ledger) : Action → Except Fault Answer → Ledger
  | .register _, .ok (.receiver r) =>
    { l with
      given := fun id controller =>
        if id = r.id ∧
            ∃ r' ∈ s.receivers, r'.id = r.id ∧ r'.keyFingerprint ≠ r.keyFingerprint then none
        else l.given id controller
      wasOpen := fun id => l.wasOpen id || (id = r.id && r.grantPolicy = .everyone) }
  | .retire id', .ok _ =>
    { l with given := fun id controller => if id = id' then none else l.given id controller }
  | .requestGrant req, .ok _ =>
    { l with asked := fun id controller =>
        if id = req.receiverID ∧ controller = req.controllerDeviceID then req.commands
        else l.asked id controller }
  | .decide id' _ decision, .ok (.grant g) =>
    { l with given := fun id controller =>
        if id = id' ∧ controller = g.controllerDeviceID then
          if decision = .accept then some (l.asked id controller) else none
        else l.given id controller }
  | _, _ => l

/-- The run, and the ledger beside it. -/
structure Witnessed where
  system : System := {}
  ledger : Ledger := {}

def Event.note (s : Store) (l : Ledger) : Event → Ledger
  | .request env now p a => l.note s a (serve env now p a s).1
  | .session _ _ => l

def witness (w : Witnessed) (e : Event) : Option Witnessed :=
  (step w.system e).map fun system => ⟨system, e.note w.system.store w.ledger⟩

/-- Every grant that reads as accepted, of a receiver that was never open, is issued against the
receiver's current key and allows only what the receiver accepted and hasn't taken back. -/
def Consented (s : Store) (l : Ledger) : Prop :=
  ∀ g ∈ s.grants, ∀ now, (g.read now).state = .accepted → l.wasOpen g.receiverID = false →
    (∀ r ∈ s.receivers, r.id = g.receiverID → g.keyFingerprint = r.keyFingerprint) ∧
    ∃ commands, l.given g.receiverID g.controllerDeviceID = some commands ∧
      ∀ c ∈ g.allowedCommands, c ∈ commands

/-- A request that passes its checks renews an accepted grant of a receiver that was never open, and
asks for a command that the receiver didn't accept for that controller. -/
def Widens (w : Witnessed) : Event → Prop
  | .request _ now p (.requestGrant req) =>
    ∃ r g accepted, rowOf Receiver.id req.receiverID w.system.store.receivers = some r ∧
      r.viewer = p.viewer ∧ req.Passes r ∧ r.grantPolicy = .perDevice ∧
      w.system.store.grantOf req.receiverID req.controllerDeviceID = some g ∧
      g.state = .accepted ∧ now < g.expiresMS ∧ w.ledger.wasOpen req.receiverID = false ∧
      w.ledger.given req.receiverID req.controllerDeviceID = some accepted ∧
      ∃ c ∈ intersectCommands req.commands r.supportedCommands, c ∉ accepted
  | _ => False

/-- What a run keeps of the grants and the ledger. -/
structure Consent (s : Store) (l : Ledger) : Prop where
  key : ∀ g ∈ s.grants, g.state = .pending ∨ g.state = .accepted → ∀ r ∈ s.receivers,
    r.id = g.receiverID → g.keyFingerprint = r.keyFingerprint
  asked : ∀ g ∈ s.grants, g.state = .pending → ∀ c ∈ g.allowedCommands,
    c ∈ l.asked g.receiverID g.controllerDeviceID
  given : ∀ g ∈ s.grants, g.state = .accepted → l.wasOpen g.receiverID = false →
    ∃ commands, l.given g.receiverID g.controllerDeviceID = some commands ∧
      ∀ c ∈ g.allowedCommands, c ∈ commands
  everyone : ∀ r ∈ s.receivers, r.grantPolicy = .everyone → l.wasOpen r.id = true
  owned : ∀ g ∈ s.grants, g.receiverID < s.nextID

variable {env : Env} {now : ℤ} {p : Principal} {s s' : Store} {l : Ledger} {a : Action}
  {answer : Except Fault Answer}

@[simp] theorem receiverID_read (g : Grant) : (g.read now).receiverID = g.receiverID := by
  rw [read_eq]

@[simp] theorem controllerDeviceID_read (g : Grant) :
    (g.read now).controllerDeviceID = g.controllerDeviceID := by
  rw [read_eq]

namespace Consent

theorem empty : Consent {} {} where
  key _ h := absurd h List.not_mem_nil
  asked _ h := absurd h List.not_mem_nil
  given _ h := absurd h List.not_mem_nil
  everyone _ h := absurd h List.not_mem_nil
  owned _ h := absurd h List.not_mem_nil

theorem consented (h : Consent s l) : Consented s l := by
  intro g hg now hread hopen
  have hstate := (read_accepted.mp hread).1
  exact ⟨h.key g hg (Or.inr hstate), h.given g hg hstate hopen⟩

theorem of_same (h : Consent s l) (hreceivers : s'.receivers = s.receivers)
    (hgrants : s'.grants = s.grants) (hnext : s.nextID ≤ s'.nextID) : Consent s' l := by
  refine ⟨?_, ?_, ?_, ?_, ?_⟩
  · rw [hgrants, hreceivers]
    exact h.key
  · rw [hgrants]
    exact h.asked
  · rw [hgrants]
    exact h.given
  · rw [hreceivers]
    exact h.everyone
  · rw [hgrants]
    exact fun g hg => (h.owned g hg).trans_le hnext

theorem registered {req : ReceiverRequest} {r : Receiver} (h : Consent s l) (hs : s.Sound)
    (hid : r.id = s.nextID) :
    Consent { s with receivers := s.receivers ++ [r], nextID := s.nextID + 1 }
      (l.note s (.register req) (.ok (.receiver r))) := by
  have hnew : ∀ r' ∈ s.receivers, r'.id ≠ r.id :=
    fun r' hr' => hid ▸ (hs.fresh.1 r' hr').ne
  refine ⟨?_, h.asked, ?_, ?_, fun g hg => Nat.lt_succ_of_lt (h.owned g hg)⟩
  · intro g hg hstate r' hr' howner
    rcases List.mem_append.mp hr' with hr' | hr'
    · exact h.key g hg hstate r' hr' howner
    · obtain rfl := List.mem_singleton.mp hr'
      exact absurd (howner.symm.trans hid) (h.owned g hg).ne
  · intro g hg hstate hopen
    have hnot : ¬ (g.receiverID = r.id ∧
        ∃ r' ∈ s.receivers, r'.id = r.id ∧ r'.keyFingerprint ≠ r.keyFingerprint) := by
      rintro ⟨-, r', hr', heq, -⟩
      exact hnew r' hr' heq
    have hwas : l.wasOpen g.receiverID = false := (Bool.or_eq_false_iff.mp hopen).1
    simp only [Ledger.note, if_neg hnot]
    exact h.given g hg hstate hwas
  · intro r' hr' hpolicy
    simp only [Ledger.note, Bool.or_eq_true]
    rcases List.mem_append.mp hr' with hr' | hr'
    · exact Or.inl (h.everyone r' hr' hpolicy)
    · obtain rfl := List.mem_singleton.mp hr'
      exact Or.inr (by simp [hpolicy])

theorem reregistered {req : ReceiverRequest} {commands : List Command} {revision : ℤ} {r : Receiver}
    {grants : List Grant} {handoffs : List Handoff} (h : Consent s l) (hs : s.Sound)
    (hr : r ∈ s.receivers)
    (hgrants : ∀ g ∈ grants, g.state = .pending ∨ g.state = .accepted →
      g ∈ s.grants ∧ (g.receiverID = r.id → r.keyFingerprint = req.keyFingerprint))
    (howned : ∀ g ∈ grants, g.receiverID < s.nextID) :
    Consent
      { s with
        receivers := updateWhere (fun r' => r'.id = r.id) (req.apply commands revision) s.receivers
        grants := grants, handoffs := handoffs }
      (l.note s (.register req) (.ok (.receiver (req.apply commands revision r)))) := by
  have hreceivers : ∀ r' ∈ updateWhere (fun r' => decide (r'.id = r.id)) (req.apply commands revision)
      s.receivers, (r' ∈ s.receivers ∧ r'.id ≠ r.id) ∨
        (r'.id = r.id ∧ r'.keyFingerprint = req.keyFingerprint ∧
          r'.grantPolicy = req.grantPolicy.getD .perDevice) := by
    apply forall_updateWhere
    · intro r' _ hid
      exact Or.inr ⟨of_decide_eq_true hid, rfl, rfl⟩
    · intro r' hr' hid
      exact Or.inl ⟨hr', of_decide_eq_false hid⟩
  refine ⟨?_, ?_, ?_, ?_, howned⟩
  · intro g hg hstate r' hr' howner
    obtain ⟨hmem, hkey⟩ := hgrants g hg hstate
    rcases hreceivers r' hr' with ⟨hin, -⟩ | ⟨hid, hnew, -⟩
    · exact h.key g hmem hstate r' hin howner
    · have hown := howner.symm.trans hid
      rw [hnew, ← hkey hown]
      exact h.key g hmem hstate r hr hown.symm
  · intro g hg hstate
    exact h.asked g (hgrants g hg (Or.inl hstate)).1 hstate
  · intro g hg hstate hopen
    obtain ⟨hmem, hkey⟩ := hgrants g hg (Or.inr hstate)
    have hwas : l.wasOpen g.receiverID = false := (Bool.or_eq_false_iff.mp hopen).1
    have hnot : ¬ (g.receiverID = r.id ∧
        ∃ r' ∈ s.receivers, r'.id = r.id ∧ r'.keyFingerprint ≠ req.keyFingerprint) := by
      rintro ⟨hown, r', hr', hid, hne⟩
      obtain rfl := eq_of_key hs.receivers hr' hr hid
      exact hne (hkey hown)
    have hgiven := h.given g hmem hstate hwas
    rw [← if_neg hnot (t := none) (e := l.given g.receiverID g.controllerDeviceID)] at hgiven
    exact hgiven
  · intro r' hr' hpolicy
    simp only [Ledger.note, Bool.or_eq_true]
    rcases hreceivers r' hr' with ⟨hin, -⟩ | ⟨hid, -, hnew⟩
    · exact Or.inl (h.everyone r' hin hpolicy)
    · right
      rw [hnew] at hpolicy
      simp [ReceiverRequest.apply, hid, hpolicy]

theorem open_revokeGrants {id : ReceiverID} {g : Grant} (hg : g ∈ (s.revokeGrants now id).grants)
    (hstate : g.state = .pending ∨ g.state = .accepted) : g ∈ s.grants ∧ g.receiverID ≠ id := by
  obtain ⟨g', hg', rfl⟩ := mem_updateWhere.mp hg
  split_ifs at hstate ⊢ with hopen
  · rcases hstate with hstate | hstate <;> cases hstate
  · refine ⟨hg', fun hid => hopen ?_⟩
    simpa [hid] using hstate

theorem owned_revokeGrants (h : Consent s l) {id : ReceiverID} :
    ∀ g ∈ (s.revokeGrants now id).grants, g.receiverID < s.nextID := by
  apply forall_updateWhere
  · exact fun g hg _ => h.owned g hg
  · exact fun g hg _ => h.owned g hg

theorem retired {id : ReceiverID} (h : Consent s l) :
    Consent
      { s.revokeGrants now id with
        receivers := updateWhere (fun r => r.id = id) (fun r => { r with active := false })
          s.receivers } (l.note s (.retire id) (.ok .done)) := by
  have hreceivers : ∀ r' ∈ updateWhere (fun r => decide (r.id = id))
      (fun r => { r with active := false }) s.receivers, ∃ r ∈ s.receivers, r'.id = r.id ∧
        r'.keyFingerprint = r.keyFingerprint ∧ r'.grantPolicy = r.grantPolicy := by
    apply forall_updateWhere
    · exact fun r hr _ => ⟨r, hr, rfl, rfl, rfl⟩
    · exact fun r hr _ => ⟨r, hr, rfl, rfl, rfl⟩
  refine ⟨?_, ?_, ?_, ?_, h.owned_revokeGrants⟩
  · intro g hg hstate r' hr' howner
    obtain ⟨r, hr, hid, hkey, -⟩ := hreceivers r' hr'
    rw [hkey]
    exact h.key g (open_revokeGrants hg hstate).1 hstate r hr (hid.symm.trans howner)
  · intro g hg hstate
    exact h.asked g (open_revokeGrants hg (Or.inl hstate)).1 hstate
  · intro g hg hstate hopen
    obtain ⟨hmem, hne⟩ := open_revokeGrants hg (Or.inr hstate)
    simp only [Ledger.note, if_neg hne]
    exact h.given g hmem hstate hopen
  · intro r' hr' hpolicy
    obtain ⟨r, hr, hid, -, hsame⟩ := hreceivers r' hr'
    rw [hid]
    exact h.everyone r hr (hsame ▸ hpolicy)

theorem mem_intersectCommands {c : Command} {a b : List Command} (h : c ∈ intersectCommands a b) :
    c ∈ a := List.mem_of_mem_filter h

theorem grantOf_some {id : ReceiverID} {controller : DeviceID} {g : Grant}
    (h : s.grantOf id controller = some g) :
    g ∈ s.grants ∧ g.receiverID = id ∧ g.controllerDeviceID = controller := by
  have hfound := List.find?_some h
  simp only [Bool.and_eq_true, decide_eq_true_eq] at hfound
  exact ⟨List.mem_of_find?_eq_some h, hfound⟩

theorem grantOf_none {id : ReceiverID} {controller : DeviceID} (h : s.grantOf id controller = none) :
    ∀ g ∈ s.grants, ¬ (g.receiverID = id ∧ g.controllerDeviceID = controller) := by
  intro g hg hpair
  have hnone := List.find?_eq_none.mp h g hg
  simp [hpair.1, hpair.2] at hnone

theorem requested {req : GrantRequest} {r : Receiver} {g : Grant}
    (h : Consent s l) (hs : s.Sound)
    (hr : rowOf Receiver.id req.receiverID s.receivers = some r)
    (hnew : s.grantOf req.receiverID req.controllerDeviceID = none)
    (hreceiver : g.receiverID = req.receiverID)
    (hcontroller : g.controllerDeviceID = req.controllerDeviceID)
    (hkey : g.keyFingerprint = r.keyFingerprint)
    (hallowed : g.allowedCommands = intersectCommands req.commands r.supportedCommands)
    (hstate : g.state = if r.grantPolicy = .everyone then .accepted else .pending) :
    Consent { s with grants := s.grants ++ [g], nextID := s.nextID + 1 }
      (l.note s (.requestGrant req) (.ok (.grant (g.read now)))) := by
  obtain ⟨hmem, hid⟩ := (rowOf_eq_some hs.receivers).mp hr
  refine ⟨?_, ?_, ?_, h.everyone, ?_⟩
  · intro g' hg' hopen r' hr' howner
    rcases List.mem_append.mp hg' with hg' | hg'
    · exact h.key g' hg' hopen r' hr' howner
    · obtain rfl := List.mem_singleton.mp hg'
      rw [hkey, eq_of_key hs.receivers hr' hmem (howner.trans (hreceiver.trans hid.symm))]
  · intro g' hg' hpending c hc
    rcases List.mem_append.mp hg' with hg' | hg'
    · simp only [Ledger.note, if_neg (grantOf_none hnew g' hg')]
      exact h.asked g' hg' hpending c hc
    · obtain rfl := List.mem_singleton.mp hg'
      simp only [Ledger.note, if_pos (And.intro hreceiver hcontroller)]
      exact mem_intersectCommands (hallowed ▸ hc)
  · intro g' hg' haccepted hopen
    rcases List.mem_append.mp hg' with hg' | hg'
    · exact h.given g' hg' haccepted hopen
    · obtain rfl := List.mem_singleton.mp hg'
      -- only a receiver that is open accepts at once
      rw [hstate] at haccepted
      split_ifs at haccepted with hpolicy
      · have hwas := h.everyone r hmem hpolicy
        rw [hid, ← hreceiver] at hwas
        exact absurd hopen (by simp [Ledger.note, hwas])
  · intro g' hg'
    rcases List.mem_append.mp hg' with hg' | hg'
    · exact Nat.lt_succ_of_lt (h.owned g' hg')
    · obtain rfl := List.mem_singleton.mp hg'
      rw [hreceiver, ← hid]
      exact Nat.lt_succ_of_lt (hs.fresh.1 r hmem)

/-- One grant is changed, and keeps its receiver and its controller. -/
theorem changed {g : Grant} {f : Grant → Grant} {l' : Ledger} {handoffs : List Handoff}
    (h : Consent s l) (hs : s.Sound) (hg : g ∈ s.grants)
    (hpair : (f g).receiverID = g.receiverID ∧ (f g).controllerDeviceID = g.controllerDeviceID)
    (hopen : l'.wasOpen = l.wasOpen)
    (hothers : ∀ g' ∈ s.grants, ¬ (g'.receiverID = g.receiverID ∧
        g'.controllerDeviceID = g.controllerDeviceID) →
      l'.asked g'.receiverID g'.controllerDeviceID = l.asked g'.receiverID g'.controllerDeviceID ∧
      l'.given g'.receiverID g'.controllerDeviceID = l.given g'.receiverID g'.controllerDeviceID)
    (hkey : (f g).state = .pending ∨ (f g).state = .accepted → ∀ r ∈ s.receivers,
      r.id = g.receiverID → (f g).keyFingerprint = r.keyFingerprint)
    (hasked : (f g).state = .pending → ∀ c ∈ (f g).allowedCommands,
      c ∈ l'.asked g.receiverID g.controllerDeviceID)
    (hgiven : (f g).state = .accepted → l.wasOpen g.receiverID = false →
      ∃ commands, l'.given g.receiverID g.controllerDeviceID = some commands ∧
        ∀ c ∈ (f g).allowedCommands, c ∈ commands) :
    Consent
      { s with
        grants := updateWhere (fun g' => g'.id = g.id) f s.grants, handoffs := handoffs } l' := by
  have hgrants : ∀ g' ∈ updateWhere (fun g' => decide (g'.id = g.id)) f s.grants,
      g' = f g ∨ g' ∈ s.grants ∧ ¬ (g'.receiverID = g.receiverID ∧
        g'.controllerDeviceID = g.controllerDeviceID) := by
    apply forall_updateWhere
    · intro g' hg' hid
      rw [eq_of_key hs.grants hg' hg (of_decide_eq_true hid)]
      exact Or.inl rfl
    · intro g' hg' hid
      refine Or.inr ⟨hg', fun hsame => of_decide_eq_false hid ?_⟩
      rw [eq_of_key hs.controllers hg' hg (Prod.ext hsame.1 hsame.2)]
  refine ⟨?_, ?_, ?_, ?_, ?_⟩
  · intro g' hg' hstate r hr howner
    rcases hgrants g' hg' with rfl | ⟨hmem, -⟩
    · exact hkey hstate r hr (howner.trans hpair.1)
    · exact h.key g' hmem hstate r hr howner
  · intro g' hg' hstate
    rcases hgrants g' hg' with rfl | ⟨hmem, hne⟩
    · rw [hpair.1, hpair.2]
      exact hasked hstate
    · rw [(hothers g' hmem hne).1]
      exact h.asked g' hmem hstate
  · intro g' hg' hstate hwas
    rw [hopen] at hwas
    rcases hgrants g' hg' with rfl | ⟨hmem, hne⟩
    · rw [hpair.1] at hwas
      rw [hpair.1, hpair.2]
      exact hgiven hstate hwas
    · rw [(hothers g' hmem hne).2]
      exact h.given g' hmem hstate hwas
  · rw [hopen]
    exact h.everyone
  · intro g' hg'
    rcases hgrants g' hg' with rfl | ⟨hmem, -⟩
    · rw [hpair.1]
      exact h.owned g hg
    · exact h.owned g' hmem

theorem askedAgain {req : GrantRequest} {r : Receiver} {g : Grant}
    (h : Consent s l) (hs : s.Sound)
    (hr : rowOf Receiver.id req.receiverID s.receivers = some r) (hviewer : r.viewer = p.viewer)
    (hpasses : req.Passes r) (hg : s.grantOf req.receiverID req.controllerDeviceID = some g)
    {clock : ℤ} (hnarrow : ¬ Widens ⟨⟨s, clock⟩, l⟩ (.request env now p (.requestGrant req)))
    {answer : Answer} :
    Consent
      { s with
        grants := updateWhere (fun g' => g'.id = g.id)
          (Grant.reissue now r (intersectCommands req.commands r.supportedCommands)
            (g.renewed r.grantPolicy now)) s.grants }
      (l.note s (.requestGrant req) (.ok answer)) := by
  obtain ⟨hmem, hid⟩ := (rowOf_eq_some hs.receivers).mp hr
  obtain ⟨hgmem, hreceiver, hcontroller⟩ := grantOf_some hg
  refine h.changed hs hgmem ⟨rfl, rfl⟩ rfl ?_ ?_ ?_ ?_
  · intro g' _ hne
    rw [hreceiver, hcontroller] at hne
    exact ⟨if_neg hne, rfl⟩
  · intro _ r' hr' howner
    rw [eq_of_key hs.receivers hr' hmem (howner.trans (hreceiver.trans hid.symm))]
    rfl
  · intro _ c hc
    simp only [Ledger.note, if_pos (And.intro hreceiver hcontroller)]
    exact mem_intersectCommands hc
  · intro hstate hwas
    -- only a renewal of an accepted grant is accepted at once, as the receiver was never open
    have hpolicy : r.grantPolicy = .perDevice ∧ g.state = .accepted ∧ now < g.expiresMS := by
      change g.renewed r.grantPolicy now = .accepted at hstate
      unfold Grant.renewed at hstate
      cases hp : r.grantPolicy with
      | everyone =>
        have hopen := h.everyone r hmem hp
        rw [hid, ← hreceiver, hwas] at hopen
        cases hopen
      | perDevice =>
        rw [hp] at hstate
        dsimp only at hstate
        split_ifs at hstate with hlive
        exact ⟨rfl, hlive⟩
      | alwaysAsk =>
        rw [hp] at hstate
        cases hstate
    obtain ⟨hpolicy, haccepted, hlive⟩ := hpolicy
    obtain ⟨given, hgiven, -⟩ := h.given g hgmem haccepted hwas
    refine ⟨given, hgiven, fun c hc => ?_⟩
    by_contra hwide
    rw [hreceiver] at hwas
    rw [hreceiver, hcontroller] at hgiven
    exact hnarrow ⟨r, g, given, hr, hviewer, hpasses, hpolicy, hg, haccepted, hlive, hwas, hgiven,
      c, hc, hwide⟩

theorem decided {receiverID : ReceiverID} {grantID : GrantID} {decision : Decision} {g : Grant}
    {handoffs : List Handoff} (h : Consent s l) (hs : s.Sound)
    (hg : rowOf Grant.id grantID s.grants = some g) (hreceiver : g.receiverID = receiverID)
    (hpending : decision = .accept → g.state = .pending) :
    Consent
      { s with
        grants := updateWhere (fun g => g.id = grantID) (decision.decided now) s.grants
        handoffs := handoffs }
      (l.note s (.decide receiverID grantID decision)
        (.ok (.grant ((decision.decided now (g.read now)).read now)))) := by
  obtain ⟨hmem, rfl⟩ := (rowOf_eq_some hs.grants).mp hg
  have hcontroller : ((decision.decided now (g.read now)).read now).controllerDeviceID =
      g.controllerDeviceID := by
    rw [controllerDeviceID_read]
    exact controllerDeviceID_read g
  refine h.changed hs hmem ⟨rfl, rfl⟩ rfl ?_ ?_ ?_ ?_
  · intro g' _ hne
    rw [hreceiver, ← hcontroller] at hne
    exact ⟨rfl, if_neg hne⟩
  · intro hstate r hr howner
    cases decision with
    | accept => exact h.key g hmem (Or.inl (hpending rfl)) r hr howner
    | decline => rcases hstate with hstate | hstate <;> cases hstate
    | revoke => rcases hstate with hstate | hstate <;> cases hstate
  · intro hstate
    cases decision <;> cases hstate
  · intro hstate _
    cases decision with
    | accept =>
      refine ⟨l.asked g.receiverID g.controllerDeviceID, ?_, h.asked g hmem (hpending rfl)⟩
      exact if_pos ⟨hreceiver, hcontroller.symm⟩
    | decline => cases hstate
    | revoke => cases hstate

end Consent

/-! ## Runs -/

variable {w w' : Witnessed} {e : Event}

theorem witness_eq (h : witness w e = some w') :
    w'.system.store = e.apply w.system.store ∧ w'.ledger = e.note w.system.store w.ledger := by
  unfold witness at h
  obtain ⟨system, hstep, rfl⟩ := Option.map_eq_some_iff.mp h
  exact ⟨(step_eq hstep).2.1, rfl⟩

/-- A request that doesn't widen what was accepted keeps the receivers' consent. -/
theorem Consent.of_effect {clock : ℤ} (h : Consent s l) (hs : s.Sound)
    (heffect : Effect env now p s a answer s')
    (hnarrow : ¬ Widens ⟨⟨s, clock⟩, l⟩ (.request env now p a)) : Consent s' (l.note s a answer) := by
  cases heffect with
  | refused fault =>
    cases a <;> exact h
  | preparedAgain => exact h
  | committedAgain => exact h
  | rolledBackAgain => exact h
  | registered req r hid hviewer hdevice hkey hpolicy hnew => exact h.registered hs hid
  | reregistered req commands r hr hkey =>
    have hmem := List.mem_of_find?_eq_some hr
    exact h.reregistered hs hmem (fun g hg _ => ⟨hg, fun _ => hkey⟩) h.owned
  | rotated req commands r hr hkey =>
    have hmem := List.mem_of_find?_eq_some hr
    refine h.reregistered hs hmem (fun g hg hopen => ?_) h.owned_revokeGrants
    obtain ⟨hin, hne⟩ := open_revokeGrants hg hopen
    exact ⟨hin, fun howner => absurd howner hne⟩
  | retired id r hr => exact h.retired
  | asked req r g hr hviewer hpasses hnew hid hreceiver hcontroller howner hkey hallowed hstate =>
    exact h.requested hs hr hnew hreceiver hcontroller hkey hallowed hstate
  | askedAgain req r g hr hviewer hpasses hg => exact h.askedAgain hs hr hviewer hpasses hg hnarrow
  | decided receiverID grantID decision r g hr hdevice hg hreceiver hpending s' hs' =>
    subst hs'
    split_ifs with haccept
    · exact h.decided hs hg hreceiver hpending
    · exact h.decided hs hg hreceiver hpending
  | prepared req x => exact h.of_same rfl rfl (Nat.le_succ _)
  | reported => exact h.of_same rfl rfl le_rfl
  | sourceFailed => exact h.of_same rfl rfl le_rfl
  | committed => exact h.of_same rfl rfl le_rfl
  | rolledBack => exact h.of_same rfl rfl le_rfl

/-- A request that passes its checks is answered with the grant that it changes. -/
theorem serve_requestGrant {req : GrantRequest} {r : Receiver} {g : Grant}
    (hr : rowOf Receiver.id req.receiverID s.receivers = some r) (hviewer : r.viewer = p.viewer)
    (hpasses : req.Passes r) (hg : s.grantOf req.receiverID req.controllerDeviceID = some g) :
    (serve env now p (.requestGrant req) s).2 = { s with
      grants := updateWhere (fun g' => g'.id = g.id)
        (Grant.reissue now r (intersectCommands req.commands r.supportedCommands)
          (g.renewed r.grantPolicy now)) s.grants } := by
  have hcommands : normalizeCommands (if req.requestedCommands = [] then defaultCommands
      else req.requestedCommands) = some req.commands := by
    cases hnone : normalizeCommands (if req.requestedCommands = [] then defaultCommands
        else req.requestedCommands) with
    | some commands => rw [commands_eq hnone]
    | none =>
      -- a request without commands doesn't ask for `load`
      have hload := Consent.mem_intersectCommands hpasses.load
      unfold GrantRequest.commands at hload
      rw [hnone] at hload
      exact absurd hload List.not_mem_nil
  have hread : readReceiver p.viewer req.receiverID s = .ok r := readReceiver_ok.mpr ⟨hr, hviewer⟩
  have hkey : req.keyFingerprint.any (fun key => !decide (key = r.keyFingerprint)) = false := by
    simpa using hpasses.key
  unfold serve Action.run Receivers.requestGrant
  simp only [hcommands, Option.elim_some, hread, hg]
  simp [bind, Except.bind, hpasses.active, hkey, hpasses.load]

theorem note_requestGrant (req : GrantRequest) (answer : Except Fault Answer) :
    (l.note s (.requestGrant req) answer).given = l.given ∧
      (l.note s (.requestGrant req) answer).wasOpen = l.wasOpen := by
  cases answer with
  | error fault => exact ⟨rfl, rfl⟩
  | ok answer => exact ⟨rfl, rfl⟩

theorem widened (h : Widens w e) (hstep : witness w e = some w') :
    ¬ Consented w'.system.store w'.ledger := by
  obtain ⟨hstore, hledger⟩ := witness_eq hstep
  rw [hstore, hledger]
  cases e with
  | session now c => exact h.elim
  | request env now p a =>
    cases a with
    | requestGrant req =>
      obtain ⟨r, g, accepted, hr, hviewer, hpasses, hpolicy, hg, hstate, hlive, hnever, hgiven, c, hc,
        hwide⟩ := h
      obtain ⟨hmem, hreceiver, hcontroller⟩ := Consent.grantOf_some hg
      have hserved : (serve env now p (.requestGrant req) w.system.store).2 = _ :=
        serve_requestGrant hr hviewer hpasses hg
      dsimp only [Event.apply, Event.note]
      rw [hserved]
      intro hconsented
      -- the renewed grant is live, and the ledger still has what was accepted
      have hrenewed : g.renewed r.grantPolicy now = .accepted := by
        rw [hpolicy]
        exact if_pos ⟨hstate, hlive⟩
      rw [hrenewed] at hconsented
      obtain ⟨-, commands, hgiven', hwithin⟩ := hconsented
        (Grant.reissue now r (intersectCommands req.commands r.supportedCommands) .accepted g)
        (mem_updateWhere.mpr ⟨g, hmem, (if_pos (decide_eq_true rfl)).symm⟩) now
        (read_accepted.mpr ⟨rfl, lt_add_of_pos_right now (by decide)⟩)
        (by rw [(note_requestGrant req _).2]; exact hreceiver ▸ hnever)
      have hsame : commands = accepted := by
        rw [(note_requestGrant req _).1] at hgiven'
        change w.ledger.given g.receiverID g.controllerDeviceID = some commands at hgiven'
        rw [hreceiver, hcontroller, hgiven] at hgiven'
        exact (Option.some.inj hgiven').symm
      exact hwide (hsame ▸ hwithin c hc)
    | register | retire | decide | prepare | report | commit | rollback => exact h.elim

/-- **Consent.** A grant that reads as accepted, of a receiver that was never open, is issued against
the receiver's key and allows only what the receiver accepted for its controller and hasn't taken
back, all along a run, just when no renewal of the run widens what was accepted. -/
theorem consent {es : List Event} (hrun : Machine.run witness {} es = some w) :
    Machine.Along witness (fun w => Consented w.system.store w.ledger) {} es ↔
      Machine.Each witness (fun w e => ¬ Widens w e) {} es := by
  refine Machine.along_iff_each
    (I := fun w => w.system.store.Sound ∧ Consent w.system.store w.ledger)
    (fun w h => h.2.consented) (fun w e w' h hnarrow hstep => ?_)
    (fun w e w' _ hwide hstep => widened (not_not.mp hwide) hstep)
    ⟨Store.Sound.empty, Consent.empty⟩ hrun
  obtain ⟨hstore, hledger⟩ := witness_eq hstep
  rw [hstore, hledger]
  refine ⟨h.1.apply e, ?_⟩
  cases e with
  | request env now p a => exact h.2.of_effect h.1 (serve_effect a) hnarrow
  | session now c =>
    cases c with
    | start => exact h.2.of_same rfl rfl (Nat.le_succ _)
    | change => exact h.2.of_same rfl rfl le_rfl
    | finish => exact h.2.of_same rfl rfl le_rfl
    | forget => exact h.2.of_same rfl rfl le_rfl

/-- A viewer whose receiver, on device 1, let device 2 load. -/
def lent : List Event :=
  [.request ⟨true, false, fun _ => true⟩ 0 ⟨⟨1, 1, 1⟩, some 1⟩ (.register ⟨1, 7, [], none⟩),
    .request ⟨true, false, fun _ => true⟩ 0 ⟨⟨1, 1, 1⟩, some 2⟩ (.requestGrant ⟨0, 2, ["load"], none⟩),
    .request ⟨true, false, fun _ => true⟩ 0 ⟨⟨1, 1, 1⟩, some 1⟩ (.decide 0 1 .accept)]

/-- Device 2 asks again, with commands that nobody saw. -/
def renewedWider : List Event :=
  lent ++ [.request ⟨true, false, fun _ => true⟩ 1000 ⟨⟨1, 1, 1⟩, some 2⟩
    (.requestGrant ⟨0, 2, ["load", "seek", "stop"], none⟩)]

theorem lent_accepted : (Machine.run witness {} lent).isSome = true := by decide +kernel

theorem consent_lent :
    Machine.Along witness (fun w => Consented w.system.store w.ledger) {} lent ↔
      Machine.Each witness (fun w e => ¬ Widens w e) {} lent :=
  consent (Option.some_get lent_accepted).symm

theorem renewedWider_accepted : (Machine.run witness {} renewedWider).isSome = true := by
  decide +kernel

theorem not_consent_renewedWider :
    ¬ ∀ es w, Machine.run witness {} es = some w → Consented w.system.store w.ledger := by
  intro h
  have hlaw := h renewedWider _ (Option.some_get renewedWider_accepted).symm
  obtain ⟨-, commands, hgiven, hwithin⟩ := hlaw
    ⟨1, 0, 2, ⟨1, 1, 1⟩, 7, [.load, .seek, .stop], 1, .accepted, 901000, some 1000⟩
    (by decide +kernel) 1000 (by decide +kernel) (by decide +kernel)
  have hload : ((Machine.run witness {} renewedWider).get renewedWider_accepted).ledger.given 0 2 =
      some [.load] := by
    decide +kernel
  have hsame := hload.symm.trans hgiven
  obtain rfl := Option.some.inj hsame
  exact absurd (hwithin .seek (by decide)) (by decide)

end Portico.Receivers
