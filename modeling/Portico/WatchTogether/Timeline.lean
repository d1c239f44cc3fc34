import Portico.Lib.Outcome
import Portico.WatchTogether.Commands

/-!
# Commands on the timeline

What each transport command makes of the group, one case a command.

## Main results

* `Room.selectEntry_ok`: what selects an entry
* `Room.applyTransport_ok`: what a command does
* `applyCommand_ok`: the same for a whole command
* `Room.applyTransport_error`, `Room.selectEntry_unavailable`: what a command is refused for
-/

namespace Portico.WatchTogether

variable {env : Env} {now : ℤ} {r s t : Room} {m : Member} {req : TransportRequest} {g : Group}
  {notes : Option (List MemberID)}

namespace Group

def paused (now position : ℤ) (g : Group) : Group :=
  { g with
    waitUntilMS := 0, positionUS := position, positionUpdatedMS := now
    state := if g.itemID = none then .lobby else .paused
    resumeState := .paused }

def stopped (now : ℤ) (g : Group) : Group :=
  { g with
    waitUntilMS := 0, positionUS := 0, positionUpdatedMS := now
    state := if g.itemID = none then .lobby else .ready
    resumeState := .paused }

def sought (now position : ℤ) (g : Group) : Group :=
  { g with positionUS := position, positionUpdatedMS := now }.beginWait now

def played (now position : ℤ) (g : Group) : Group :=
  { g with
    positionUS := position, positionUpdatedMS := now, waitUntilMS := 0, state := .playing
    resumeState := .playing }

/-- An entry starts, and the group prepares it if it played nothing. -/
def started (now target : ℤ) (entry : QueueRow) (start : ℤ) (g : Group) : Group :=
  let g :=
    { g with
      queuePosition := target, currentEntryID := some entry.entryID, itemID := some entry.itemID
      positionUS := start, positionUpdatedMS := now }
  (if g.state = .lobby ∨ g.state = .ready ∨ g.state = .preparing then
    { g with state := .preparing, resumeState := .paused }
  else g).beginWait now

end Group

namespace TransportRequest

/-- The commands that select an entry of the queue. -/
def Selects (req : TransportRequest) : Prop :=
  req.command ∈ [TransportCommand.next, .previous, .setQueuePosition, .load]

instance : Decidable req.Selects := inferInstanceAs (Decidable (_ ∈ _))

/-- Where a selected entry starts. -/
def start (req : TransportRequest) : ℤ :=
  if req.command = TransportCommand.load then req.positionUS.getD 0 else 0

end TransportRequest

namespace Room

theorem selectEntry_ok (h : r.selectEntry env now req = .ok (notes, g)) :
    ∃ target entry, r.queue ≠ [] ∧ r.selectPosition req = .ok target ∧
      r.entryAt target = some entry ∧
      r.gateEntry env now (some entry.entryID) req.allowUnavailable = .ok notes ∧
      g = r.group.started now target entry req.start := by
  unfold selectEntry at h
  by_cases hempty : r.queue = []
  · rw [if_pos hempty] at h
    cases h
  · rw [if_neg hempty] at h
    obtain ⟨target, htarget, h⟩ := bind_eq_ok.mp h
    split at h
    · cases h
    · rename_i entry hentry
      obtain ⟨notes', hnotes, h⟩ := bind_eq_ok.mp h
      obtain ⟨rfl, rfl⟩ := Prod.mk.inj (Except.ok.inj h)
      exact ⟨target, entry, hempty, htarget, hentry, hnotes, rfl⟩

/-- **What a command does to the timeline.** -/
theorem applyTransport_ok (h : r.applyTransport env now req = .ok (notes, g)) :
    (req.command = .pause ∧ g = (r.group.rated req.rate).paused now (r.group.extrapolate now)) ∨
    (req.command = .stop ∧ g = (r.group.rated req.rate).stopped now) ∨
    (req.command = .seek ∧ r.group.itemID ≠ none ∧
      g = (r.group.rated req.rate).sought now (req.positionUS.getD 0)) ∨
    (req.command = .play ∧ r.group.itemID ≠ none ∧
      g = (r.group.rated req.rate).played now (req.positionUS.getD (r.group.extrapolate now))) ∨
    (req.Selects ∧ { r with group := r.group.rated req.rate }.selectEntry env now req =
      .ok (notes, g)) := by
  have hitem : (r.group.rated req.rate).itemID = r.group.itemID := by
    unfold Group.rated
    split <;> rfl
  unfold applyTransport at h
  cases hcommand : req.command with
  | pause =>
    rw [hcommand] at h
    obtain ⟨-, rfl⟩ := Prod.mk.inj (Except.ok.inj h)
    exact Or.inl ⟨rfl, rfl⟩
  | stop =>
    rw [hcommand] at h
    obtain ⟨-, rfl⟩ := Prod.mk.inj (Except.ok.inj h)
    exact Or.inr (Or.inl ⟨rfl, rfl⟩)
  | seek =>
    rw [hcommand] at h
    dsimp only at h
    split_ifs at h with hnone
    rw [hitem] at hnone
    obtain ⟨-, rfl⟩ := Prod.mk.inj (Except.ok.inj h)
    exact Or.inr (Or.inr (Or.inl ⟨rfl, hnone, rfl⟩))
  | play =>
    rw [hcommand] at h
    dsimp only at h
    split_ifs at h with hnone
    rw [hitem] at hnone
    obtain ⟨notes', -, h⟩ := bind_eq_ok.mp h
    obtain ⟨-, rfl⟩ := Prod.mk.inj (Except.ok.inj h)
    exact Or.inr (Or.inr (Or.inr (Or.inl ⟨rfl, hnone, rfl⟩)))
  | next | previous | setQueuePosition | load =>
    rw [hcommand] at h
    exact Or.inr (Or.inr (Or.inr (Or.inr ⟨by simp [TransportRequest.Selects, hcommand], h⟩)))

/-! ## Refusals -/

theorem gateEntry_error {entryID : Option EntryID} {allow : Bool} {fault : Fault}
    (h : r.gateEntry env now entryID allow = .error fault) : fault = .mediaNoLongerAccessible := by
  unfold gateEntry at h
  split at h
  · cases h
  · dsimp only at h
    split_ifs at h
    exact (Except.error.inj h).symm

theorem selectPosition_error {req : TransportRequest} {fault : Fault}
    (h : r.selectPosition req = .error fault) : fault = .targetUnavailable := by
  unfold selectPosition at h
  dsimp only at h
  split at h
  · split_ifs at h
    exact (Except.error.inj h).symm
  · split_ifs at h
    exact (Except.error.inj h).symm
  · cases h
  · split at h
    · cases h
    · exact (Except.error.inj h).symm
  · cases h

theorem selectEntry_error {req : TransportRequest} {fault : Fault}
    (h : r.selectEntry env now req = .error fault) :
    fault = .targetUnavailable ∨ fault = .mediaNoLongerAccessible := by
  unfold selectEntry at h
  by_cases hempty : r.queue = []
  · rw [if_pos hempty] at h
    exact Or.inl (Except.error.inj h).symm
  · rw [if_neg hempty] at h
    rcases bind_eq_error.mp h with h | ⟨target, -, h⟩
    · exact Or.inl (selectPosition_error h)
    · split at h
      · exact Or.inl (Except.error.inj h).symm
      · rcases bind_eq_error.mp h with h | ⟨_, -, h⟩
        · exact Or.inr (gateEntry_error h)
        · cases h

theorem applyTransport_error {req : TransportRequest} {fault : Fault}
    (h : r.applyTransport env now req = .error fault) :
    fault = .targetUnavailable ∨ fault = .mediaNoLongerAccessible := by
  unfold applyTransport at h
  dsimp only at h
  split at h
  · cases h
  · cases h
  · split_ifs at h
    exact Or.inl (Except.error.inj h).symm
  · split_ifs at h
    · exact Or.inl (Except.error.inj h).symm
    · rcases bind_eq_error.mp h with h | ⟨_, -, h⟩
      · exact Or.inr (gateEntry_error h)
      · cases h
  all_goals exact selectEntry_error h

/-- Where no target is found: the queue is empty, or the position leads to no entry. -/
theorem selectEntry_unavailable (h : r.selectEntry env now req = .error .targetUnavailable) :
    r.queue = [] ∨ (∃ fault, r.selectPosition req = .error fault) ∨
      ∃ target, r.selectPosition req = .ok target ∧ r.entryAt target = none := by
  unfold selectEntry at h
  by_cases hempty : r.queue = []
  · exact Or.inl hempty
  · rw [if_neg hempty] at h
    right
    rcases bind_eq_error.mp h with h | ⟨target, htarget, h⟩
    · exact Or.inl ⟨_, h⟩
    · split at h
      · rename_i hnone
        exact Or.inr ⟨target, htarget, hnone⟩
      · rcases bind_eq_error.mp h with h | ⟨_, -, h⟩
        · cases gateEntry_error h
        · cases h

/-- The host's command is a sign of life. -/
def greeted (now : ℤ) (m : Member) (r : Room) : Room :=
  if m.role = .host then { r with group := r.group.hostReturned now } else r

end Room

/-- The group a command leaves, with its mark. -/
def Group.marked (req : TransportRequest) (g : Group) : Group :=
  { g with
    playbackRevision := g.playbackRevision + 1
    lastCommand := some req.command, lastCommandID := req.idempotencyKey }

/-- The receipt of a command. -/
def Group.receipt (now : ℤ) (req : TransportRequest) (notes : Option (List MemberID)) (g : Group) :
    TransportReceipt :=
  { idempotencyKey := req.idempotencyKey, disposition := .accepted
    command := req.command, groupState := g.state, revision := g.revision + 1
    playbackRevision := g.playbackRevision, queueRevision := g.queueRevision
    recordedAt := now
    timeline :=
      { itemID := g.itemID, currentEntryID := g.currentEntryID
        state := timelineState g.state
        anchorPositionUS := g.positionUS, anchorAt := g.positionUpdatedMS
        rateNum := g.rateNum, rateDen := g.rateDen, queuePosition := g.queuePosition
        waitUntil := g.waitUntilMS }
    shuffle := g.shuffle, repeatMode := g.repeatMode, override := notes }

theorem applyCommand_unavailable (hstep : req.command = .next ∨ req.command = .previous)
    (h : applyCommand env now req m s = .error .targetUnavailable) :
    { s.greeted now m with group := (s.greeted now m).group.rated req.rate }.selectEntry env now req =
      .error .targetUnavailable := by
  unfold applyCommand at h
  rcases guard_eq_error.mp h with ⟨-, hfault⟩ | ⟨-, h⟩
  · cases hfault
  rcases guard_eq_error.mp h with ⟨-, hfault⟩ | ⟨-, h⟩
  · cases hfault
  rcases guard_eq_error.mp h with ⟨-, hfault⟩ | ⟨-, h⟩
  · cases hfault
  dsimp only at h
  rw [show (if m.role = .host then { s with group := s.group.hostReturned now } else s) =
    s.greeted now m from rfl] at h
  cases happly : (s.greeted now m).applyTransport env now req with
  | ok result =>
    rw [happly] at h
    cases h
  | error fault =>
    rw [happly] at h
    obtain rfl : fault = .targetUnavailable := Except.error.inj h
    unfold Room.applyTransport at happly
    rcases hstep with hstep | hstep
    all_goals
      rw [hstep] at happly
      exact happly

/-- **What a command does to the swept room.** -/
theorem applyCommand_ok {answer : Answer} (h : applyCommand env now req m s = .ok (answer, t)) :
    s.group.mayControl m = true ∧ req.expectedRevision = s.group.playbackRevision ∧
      ∃ notes g, (s.greeted now m).applyTransport env now req = .ok (notes, g) ∧
        t = { s.greeted now m with group := g.marked req } ∧
        answer = .transport ((g.marked req).receipt now req notes) := by
  unfold applyCommand at h
  by_cases hcontrol : (!s.group.mayControl m) = true
  · rw [if_pos hcontrol] at h
    cases h
  rw [if_neg hcontrol] at h
  by_cases hfence : req.expectedRevision ≠ s.group.playbackRevision
  · rw [if_pos hfence] at h
    cases h
  rw [if_neg hfence] at h
  by_cases hallow : req.allowUnavailable = true ∧ m.role ≠ .host
  · rw [if_pos hallow] at h
    cases h
  rw [if_neg hallow] at h
  dsimp only at h
  rw [show (if m.role = .host then { s with group := s.group.hostReturned now } else s) =
    s.greeted now m from rfl] at h
  obtain ⟨⟨notes, g⟩, happly, hresult⟩ := exists_of_map_eq_ok h
  obtain ⟨rfl, rfl⟩ := Prod.mk.inj hresult
  exact ⟨by simpa using hcontrol, not_not.mp hfence, notes, g, happly, rfl, rfl⟩

end Portico.WatchTogether
