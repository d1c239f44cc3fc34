import Portico.Recordings.Reconciliation

/-!
# What happens to the recordings

The requests of the owners, the rounds of the server, and what the workers report, in any order.
What can't be done leaves the store as it was.
-/

namespace Portico.Recordings

open LiveChannels (Capacity)

namespace Store

variable (s : Store)

/-! ## Workers -/

/-- The recording that a worker still has. -/
def held (id token : String) : Option Recording :=
  (rowOf Recording.id id s.state.recordings).filter fun r => r.claimToken = token

/-- A worker gave up: the capture failed, or is finished later. A withdrawn recording is left. -/
def failWorker (now : ℤ) (id token reason : String) (recoverable : Bool) : Option Store :=
  match s.held id token with
  | none => none
  | some r =>
    if r.state.capturing then
      some (s.setState ((s.state.update id (fun r =>
        { r with
          state := if recoverable then .finalizing else .failed
          reason, leaseUntil := 0, nextAttempt := now + 3000 }) fun _ => rfl).unreserve id))
    else if r.state.withdrawn then
      some (s.setState (s.state.update id (fun r => { r with leaseUntil := 0 }) fun _ => rfl))
    else none

/-- The owner of a capture may not record any more. -/
def deny (id token : String) : Option Store :=
  match s.held id token with
  | none => none
  | some r =>
    if r.state.capturing then
      some (s.setState ((s.state.update id (fun r =>
        { r with state := .cancelled, reason := "permission-denied" }) fun _ => rfl).unreserve id))
    else some (s.setState (s.state.unreserve id))

/-- A worker renews its lease. -/
def renew (now : ℤ) (id token : String) : Option Store :=
  (s.held id token).map fun _ =>
    s.setState (s.state.update id (fun r => { r with leaseUntil := now + 30000 }) fun _ => rfl)

/-- A worker has written media; `retired` says that its writer is done. -/
def checkpoint (id token : String) (retired : Bool) : Option Store :=
  match s.held id token with
  | none => none
  | some r =>
    if r.state.capturing ∨ r.state.withdrawn then
      some (s.setState (s.state.update id (fun r =>
        { r with
          media := true
          state := if r.state.withdrawn then r.state else if retired then .finalizing else .recording })
        fun _ => rfl))
    else none

/-- A capture is over and can be played, or shared when its owner has withdrawn it. -/
def publish (id token : String) (complete : Bool) (reason : String) : Option Store :=
  match s.held id token with
  | none => none
  | some r =>
    if r.state.withdrawn then
      some (s.setState (s.state.update id (fun r => { r with ready := true, leaseUntil := 0 })
        fun _ => rfl))
    else if r.state.capturing then
      some (s.setState ((s.state.update id (fun r =>
        { r with
          state := if complete then .completed else .incompletePlayable
          reason, ready := true, leaseUntil := 0 }) fun _ => rfl).unreserve id))
    else none

end Store

/-! ## Events -/

/-- A transaction, with what it finds outside of the store. -/
inductive Event
  | guide (g : Guide)
  | schedule (now : ℤ) (o : Owner) (binding : Occurrence) (options : Options)
      (defaults : Option Options) (permitted available visible : Bool)
  | change (now : ℤ) (o : Owner) (id : String) (options : Options) (permitted : Bool)
  | cancel (o : Owner) (id : String)
  | delete (o : Owner) (id reason : String)
  | deleted (id : String)
  | saveRule (now : ℤ) (o : Owner) (id : String) (revision : Option ℕ) (config : RuleConfig)
      (enabled permitted available : Bool) (anchor : Option Programme)
  | deleteRule (now : ℤ) (o : Owner) (id : String) (revision : ℕ) (keep : Bool)
  | sweepRules (now : ℤ)
  | reconcileOne (env : RuleEnv)
  | reconcileScheduled (now : ℤ) (authority : Recording → Verdict)
  | expireMissed (now : ℤ)
  | claimNext (env : Env) (capacity : String → Option Capacity)
  | failWorker (now : ℤ) (id token reason : String) (recoverable : Bool)
  | deny (id token : String)
  | renew (now : ℤ) (id token : String)
  | checkpoint (id token : String) (retired : Bool)
  | publish (id token : String) (complete : Bool) (reason : String)

/-- What a claim finds: the tuners leave what the reservations say. -/
def Store.claimEnv (s : Store) (env : Env) (capacity : String → Option Capacity) : Env :=
  { env with window := fun r => s.state.captureWindowTx (capacity r.source) env.now r }

variable (recordID : Owner → String → String → String)

def Store.apply (s : Store) : Event → Option Store
  | .guide g => some { s with guide := { g with rules := s.guide.rules } }
  | .schedule now o binding options defaults permitted available visible =>
    s.schedule recordID now o binding options defaults permitted available visible
  | .change now o id options permitted => s.change now o id options permitted
  | .cancel o id => s.cancel o id
  | .delete o id reason => s.delete o id reason
  | .deleted id => s.deleted id
  | .saveRule now o id revision config enabled permitted available anchor =>
    s.saveRule now o id revision config enabled permitted available anchor
  | .deleteRule now o id revision keep => s.deleteRule now o id revision keep
  | .sweepRules now => some (s.sweepRules now)
  | .reconcileOne env => s.reconcileOne recordID env
  | .reconcileScheduled now authority => s.reconcileScheduled now authority
  | .expireMissed now => some (s.setState (s.state.expireMissed s.guide now))
  | .claimNext env capacity =>
    some (s.setState (s.state.claimNext s.guide (s.claimEnv env capacity)).2)
  | .failWorker now id token reason recoverable => s.failWorker now id token reason recoverable
  | .deny id token => s.deny id token
  | .renew now id token => s.renew now id token
  | .checkpoint id token retired => s.checkpoint id token retired
  | .publish id token complete reason => s.publish id token complete reason

/-- What can't be done leaves the store as it was. -/
def Store.step (s : Store) (e : Event) : Option Store := some ((s.apply recordID e).getD s)

end Portico.Recordings
