import Portico.Lib.Outcome
import Portico.Recordings.Record

/-!
# The claim of the next recording

A call of the worker looks at one due recording: the one with the highest priority, then the
earliest start. It claims it, records that it failed or when to look again, brings it up to the
guide, or gives up, which leaves everything as it was. The tuner that a recording is planned to use
is reserved for its interval; the tuners may leave less than that, which is stored and reserved
then.

## Main definitions

* `State`: the recordings, which of them share a capture, and the reservations of tuners
* `Env`: what a call finds outside of the recordings and the guide
* `State.due`, `State.pick`: the recordings that are due, and the one that is looked at
* `State.claimNext`: a call
-/

namespace Portico.Recordings

/-- A reservation of a tuner, under the number of its recording. -/
structure Reservation where
  id : String
  source : String
  start : ℤ
  stop : ℤ
  priority : ℤ
  enabled : Bool := true
deriving DecidableEq, Repr

/-- The recordings, by their numbers, which recording takes part in the capture of which, and the
reservations. -/
structure State where
  recordings : List Recording := []
  shares : List (String × String) := []
  reservations : List Reservation := []
  keys : (recordings.map Recording.id).Nodup := by simp
  owned : ∀ x ∈ shares, x.2 ∈ recordings.map Recording.id := by simp

inductive Verdict
  | allowed
  | denied
  | unavailable
deriving DecidableEq, Repr

inductive StorageFault
  | floor
  | cap
  | unavailable
deriving DecidableEq, Repr

def StorageFault.reason : StorageFault → String
  | .floor => "storage-floor"
  | .cap => "storage-cap"
  | .unavailable => "storage-unavailable"

/-- What the allocator answers. -/
inductive Acquired
  | granted (allocation : String)
  | preemptPending
  | liveInUse
  | full
  | broken
deriving DecidableEq, Repr

/-- What a call finds: the clock, the authority of the owners (and of those who share a withdrawn
recording), the storage, the tuners and their allocations, and the interval that the tuners leave.
-/
structure Env where
  now : ℤ
  token : String := ""
  available : Bool := true
  storage : Option StorageFault := none
  retained : Bool := true
  deleteWork : Bool := false
  sharing : Bool := true
  authority : Recording → Verdict := fun _ => .allowed
  sharedAuthority : Recording → Verdict := fun _ => .allowed
  visible : Recording → Verdict := fun _ => .allowed
  released : String → Option Bool := fun _ => none
  window : Recording → Option (ℤ × ℤ × Bool) := fun r => some (r.start, r.stop, false)
  acquire : Recording → Acquired := fun r => .granted r.id

structure Claim where
  recording : String
  sharedFrom : Option String := none
  generation : ℕ
  allocation : String := ""
  input : Option Guide.Input := none
  recovery : Bool := false
  recoveryContinues : Bool := false
  start : ℤ
  stop : ℤ
deriving DecidableEq, Repr

/-- How a call ends. -/
inductive Exit
  | idle
  | broken
  | retried
  | claimed (c : Claim)
deriving DecidableEq, Repr

/-- What stands against a claim: a fact that the call can't deal with, a failure, a later attempt,
which may be one in the interval that the tuners leave, or a guide that says something else. -/
inductive Refusal
  | broken
  | fail (reason : String)
  | later (reason : String) (window : Option (ℤ × ℤ) := none)
  | refresh (generation : String) (p : Programme) (start stop : ℤ)
deriving DecidableEq, Repr

/-! ## Stages of a claim -/

def Verdict.check : Verdict → Except Refusal Unit
  | .allowed => .ok ()
  | .denied => .error (.fail "permission-denied")
  | .unavailable => .error (.later "authorization-unavailable")

/-- The guide says something else than the recording. -/
def Recording.Stale (g : Guide) (r : Recording) (source : Source) : Prop :=
  source.generation ≠ r.generation ∨ g.committedProgrammeTx r source.generation ≠ r.programme

instance (g : Guide) (r : Recording) (source : Source) : Decidable (r.Stale g source) := by
  unfold Recording.Stale
  infer_instance

namespace Recording

variable (g : Guide) (env : Env) (r : Recording)

/-- A withdrawn recording that its owner has left with its lease. -/
def left : Bool :=
  r.state.withdrawn && (r.reason = "owner-cancelled" || r.reason = "owner-delete") &&
    0 < r.leaseUntil

/-- The owner may still record, and see the programme; a withdrawn recording needs somebody who
takes part in it. -/
def authorised : Except Refusal Unit :=
  (if r.state.withdrawn then env.sharedAuthority r else env.authority r).check >>= fun _ =>
  if r.state.withdrawn then .ok () else (env.visible r).check

/-- The rule of a recording that isn't captured yet stands, at the revision that was accepted. -/
def ruled : Except Refusal Unit :=
  match r.rule with
  | none => .ok ()
  | some id =>
    if r.state.capturing ∨ r.state.withdrawn then .ok ()
    else match g.rule id with
    | none => .error .broken
    | some rule =>
      if rule.enabled = false ∨ rule.deleted = true then .error (.fail "rule-disabled")
      else if rule.revision ≠ r.ruleRevision then .error (.later "rule-reconciliation-pending")
      else .ok ()

/-- A capture that was interrupted goes on when its interval isn't over, or is finished. -/
def recover : Except Refusal Claim :=
  let c : Claim :=
    { recording := r.id, generation := r.claimGeneration + 1, allocation := r.allocation
      recovery := true, start := r.start, stop := r.stop }
  if 2 ≤ r.recoveryAttempt then .error (.fail "capture-validation-failed")
  else match env.released r.allocation with
  | none => .error .broken
  | some false => .error (.later "previous-worker-retiring")
  | some true =>
    if r.media = false then .error (.fail "capture-no-media")
    else if r.stop ≤ env.now then .ok c
    else match g.sources.find? fun s => s.id = r.source && s.active with
    | none => .error (.later "source-disabled")
    | some source =>
      match g.inputTx r.source r.channel source.generation with
      | .error _ => .error .broken
      | .ok input =>
        match env.acquire r with
        | .granted allocation =>
          .ok { c with allocation, input := some input, recoveryContinues := true }
        | _ => .error (.later "tuner-retiring")

/-- Why a recording whose interval is over wasn't captured. -/
def missed : String :=
  if r.state = .conflicted ∨ r.reason = "tuner-conflict" then "tuner-conflict"
  else if r.reason = "tuner-in-use-live" then "tuner-in-use-live"
  else "capture-window-missed"

/-- A tuner for a recording, whose interval is what the other recordings leave. -/
def tune (generation : String) : Except Refusal Claim :=
  match env.window r with
  | none => .error .broken
  | some (start, stop, blocked) =>
    if blocked then .error (.later "tuner-conflict")
    else match g.inputTx r.source r.channel generation with
    | .error _ => .error .broken
    | .ok input =>
      match env.acquire r with
      | .granted allocation =>
        .ok { recording := r.id, generation := r.claimGeneration + 1, allocation
              input := some input, start, stop }
      | .preemptPending => .error (.later "tuner-preemption-countdown" (some (start, stop)))
      | .liveInUse => .error (.later "tuner-in-use-live" (some (start, stop)))
      | .full => .error (.later "tuner-retiring" (some (start, stop)))
      | .broken => .error .broken

/-- The storage has room, and the interval isn't over. -/
def unspent : Except Refusal Unit :=
  match env.storage with
  | some fault =>
    if fault ≠ .unavailable ∧ env.now < r.stop ∧ (env.retained = false ∨ env.deleteWork = true) then
      .error (.later fault.reason)
    else .error (.fail fault.reason)
  | none => if r.stop ≤ env.now then .error (.fail r.missed) else .ok ()

/-- The first capture of a recording, once it is what the guide says. -/
def capture : Except Refusal Claim :=
  match g.source r.source with
  | none => .error .broken
  | some source =>
    if source.active = false then .error (.later "source-disabled")
    else
      let p := g.committedProgrammeTx r source.generation
      if r.Stale g source then
        match padded p r.options with
        | none => .error .broken
        | some (start, stop) => .error (.refresh source.generation p start stop)
      else r.unspent env >>= fun _ => r.tune g env source.generation

def recovering : Bool := r.state.capturing || r.state.withdrawn

/-- A recording that is looked at again in three seconds, in the interval that is left. -/
def postponed (reason : String) (window : Option (ℤ × ℤ)) : Recording :=
  { r with
    reason, nextAttempt := env.now + 3000
    start := (window.getD (r.start, r.stop)).1, stop := (window.getD (r.start, r.stop)).2 }

/-- A recording that is claimed for half a minute. -/
def claimed (c : Claim) : Recording :=
  { r with
    state := if r.state.withdrawn then r.state else if c.recovery then .finalizing else .preparing
    reason := if r.state.withdrawn then r.reason else ""
    start := c.start, stop := c.stop
    claimGeneration := c.generation, claimToken := env.token, leaseUntil := env.now + 30000
    allocation := c.allocation, nextAttempt := 0
    artifact := if c.recovery then r.artifact else some (r.id, c.generation)
    recoveryAttempt := if c.recovery then r.recoveryAttempt + 1 else r.recoveryAttempt }

/-- A recording that is claimed to take part in another capture. -/
def attached : Recording :=
  { r with
    state := .preparing, reason := "", claimToken := env.token
    claimGeneration := r.claimGeneration + 1, artifact := some (r.id, r.claimGeneration + 1)
    leaseUntil := env.now + 30000, recoveryAttempt := r.recoveryAttempt + 1 }

end Recording

namespace State

variable (g : Guide) (s : State) (env : Env) (r : Recording)

/-! ## The recording that is looked at -/

/-- Somebody takes part in the capture of a recording. -/
def followed (id : String) : Bool :=
  s.shares.any fun x => x.2 = id && s.recordings.any fun f =>
    f.id = x.1 && (f.state.mutable || f.state.capturing)

def due (now : ℤ) (r : Recording) : Bool :=
  r.nextAttempt ≤ now && ((r.state.mutable && r.start ≤ now) ||
    ((r.state.capturing || (r.left && s.followed r.id)) && r.leaseUntil ≤ now))

def before (r r' : Recording) : Prop :=
  r'.priority < r.priority ∨
    (r.priority = r'.priority ∧ (r.start < r'.start ∨ (r.start = r'.start ∧ r.id ≤ r'.id)))

instance (r r' : Recording) : Decidable (before r r') := by
  unfold before
  infer_instance

def pick (now : ℤ) : Option Recording :=
  ((s.recordings.filter (s.due now)).insertionSort before).head?

/-! ## Changes -/

/-- The recording with a number becomes another one. -/
def update (id : String) (f : Recording → Recording) (h : ∀ r, (f r).id = r.id) : State :=
  { s with
    recordings := updateWhere (fun r => r.id = id) f s.recordings
    keys := by rw [map_updateWhere h]; exact s.keys
    owned := by rw [map_updateWhere h]; exact s.owned }

/-- The reservation of a recording is made, or made again. -/
def reserve (id source : String) (start stop priority : ℤ) : State :=
  { s with
    reservations :=
      if s.reservations.any fun v => v.id = id then
        updateWhere (fun v => v.id = id) (fun v => { v with start, stop, priority, enabled := true })
          s.reservations
      else s.reservations ++ [{ id, source, start, stop, priority }] }

def unreserve (id : String) : State :=
  { s with
    reservations :=
      updateWhere (fun v => v.id = id) (fun v => { v with enabled := false }) s.reservations }

/-- The interval that the tuners leave is reserved when it isn't the one of the recording. -/
def narrow (window : ℤ × ℤ) : State :=
  if window = (r.start, r.stop) then s
  else s.reserve r.id r.source window.1 window.2 r.options.priority

def fail (reason : String) : State :=
  (s.update r.id (fun r => { r with state := .failed, reason, leaseUntil := 0 })
    fun _ => rfl).unreserve r.id

def later (reason : String) (window : Option (ℤ × ℤ)) : State :=
  (s.update r.id (fun r => r.postponed env reason window) fun _ => rfl).narrow r
    (window.getD (r.start, r.stop))

def refresh (generation : String) (p : Programme) (start stop : ℤ) : State :=
  (s.update r.id (fun r => { r with generation, programme := p, start, stop }) fun _ => rfl).reserve
    r.id r.source start stop r.options.priority

section Rows

variable {s : State} {r : Recording} {id source : String} {start stop priority : ℤ} {window : ℤ × ℤ}

@[simp] theorem recordings_reserve :
    (s.reserve id source start stop priority).recordings = s.recordings := rfl

@[simp] theorem shares_reserve : (s.reserve id source start stop priority).shares = s.shares := rfl

@[simp] theorem recordings_unreserve : (s.unreserve id).recordings = s.recordings := rfl

@[simp] theorem shares_unreserve : (s.unreserve id).shares = s.shares := rfl

@[simp] theorem recordings_narrow : (s.narrow r window).recordings = s.recordings := by
  unfold narrow
  split_ifs <;> rfl

end Rows

/-- What stands against a claim is recorded; a call that can't go on leaves the state before it. -/
def refuse (s' : State) : Refusal → Exit × State
  | .broken => (.broken, s)
  | .fail reason => (.retried, s'.fail r reason)
  | .later reason window => (.retried, s'.later env r reason window)
  | .refresh generation p start stop => (.retried, s'.refresh r generation p start stop)

def claim (c : Claim) : State :=
  (s.update r.id (fun r => r.claimed env c) fun _ => rfl).narrow r (c.start, c.stop)

/-! ## Shared captures -/

inductive Sharing
  | alone
  | waiting
  | attached (c : Claim)
deriving DecidableEq, Repr

/-- A capture of the same programme that a recording may take part in. -/
def leader : Option Recording :=
  ((s.recordings.filter fun l => l.source = r.source && l.channel = r.channel &&
    l.programme.id = r.programme.id && l.id ≠ r.id &&
    (l.state.capturing || l.state = .completed || l.state = .incompletePlayable || l.left) &&
    !s.shares.any fun x => x.1 = l.id).insertionSort
      fun a b => a.start < b.start ∨ (a.start = b.start ∧ a.id ≤ b.id)).head?

theorem mem_of_leader {s : State} {r l : Recording} (h : s.leader r = some l) : l ∈ s.recordings := by
  have hmem := List.mem_of_head? h
  rw [List.mem_insertionSort] at hmem
  exact List.mem_of_mem_filter hmem

def unshare (id : String) : State :=
  { s with
    shares := s.shares.filter fun x => x.1 ≠ id
    owned := fun x hx => s.owned x (List.mem_of_mem_filter hx) }

def share (id : String) (l : Recording) (h : l ∈ s.recordings) : State :=
  { s with
    shares := s.shares ++ [(id, l.id)]
    owned := by
      intro x hx
      rcases List.mem_append.mp hx with hx | hx
      · exact s.owned x hx
      · rw [List.mem_singleton.mp hx]
        exact List.mem_map_of_mem h }

/-- A recording takes part in a capture that is over, waits for one that isn't, or is on its own. -/
def join (leader : String) : Option (State × Sharing) :=
  (rowOf Recording.id leader s.recordings).map fun l =>
    if l.state ≠ .completed ∧ l.state ≠ .incompletePlayable ∧
        ¬ (l.state.withdrawn = true ∧ l.ready = true) then
      if l.state.capturing = true ∨ (l.state.withdrawn = true ∧ 0 < l.leaseUntil) then (s, .waiting)
      else (s.unshare r.id, .alone)
    else
      (s.update r.id (fun r => r.attached env) fun _ => rfl,
        .attached { recording := r.id, sharedFrom := some leader, generation := r.claimGeneration + 1
                    start := r.start, stop := r.stop })

def sharedCaptureTx : Option (State × Sharing) :=
  if env.sharing = false then some (s, .alone)
  else match s.shares.find? fun x => x.1 = r.id with
  | some share => s.join env r share.2
  | none =>
    match h : s.leader r with
    | none => some (s, .alone)
    | some l => (s.share r.id l (mem_of_leader h)).join env r l.id

/-! ## Calls -/

/-- What becomes of the recording that is looked at. -/
def examine : Exit × State :=
  match r.authorised env >>= fun _ => r.ruled g with
  | .error refusal => s.refuse env r s refusal
  | .ok _ =>
    match s.sharedCaptureTx env r with
    | none => (.broken, s)
    | some (s', .waiting) => s.refuse env r s' (.later "shared-capture")
    | some (s', .attached c) =>
      if 3 ≤ r.recoveryAttempt then s.refuse env r s' (.fail "shared-capture-unavailable")
      else (.claimed c, s')
    | some (s', .alone) =>
      match if r.recovering then r.recover g env else r.capture g env with
      | .error refusal => s.refuse env r s' refusal
      | .ok c => (.claimed c, s'.claim env r c)

/-- A call looks at the first due recording. -/
def claimNext : Exit × State :=
  if env.available = false then (.idle, s)
  else match s.pick env.now with
  | none => (.idle, s)
  | some r => s.examine g env (g.load r)

end State

end Portico.Recordings
