import Portico.Lib.Outcome
import Portico.WatchTogether.Requests

/-!
# What a write can do

The two write paths taken apart: a request is refused and leaves the room alone, or finds the group
ended by time and saves that, or is answered from its receipt, or runs on the swept room. Every later
result is derived from these cases.

## Main results

* `Room.command_cases`, `Room.mutateGroup_cases`: what a write can do
* `Room.command_error_iff`: where a refusal comes from
* `serve_served`: what any action can do
-/

namespace Portico.WatchTogether

variable {env : Env} {now : ℤ} {viewer : Viewer} {r s : Room} {m : Member}

namespace Room

/-! ## The viewer's row -/

theorem loadMember_map {f : Member → Member} (hf : ∀ m, (f m).viewer = m.viewer)
    (members : List Member) :
    (members.map f).find? (fun m => decide (m.viewer = viewer)) =
      (members.find? fun m => decide (m.viewer = viewer)).map f := by
  rw [List.find?_map]
  congr 2
  funext m
  simp [hf]

theorem mem_of_loadMember (h : r.loadMember viewer = some m) :
    m ∈ r.members ∧ m.viewer = viewer :=
  ⟨List.mem_of_find?_eq_some h, by simpa using List.find?_some h⟩

theorem loadJoinedMember_eq :
    r.loadJoinedMember viewer = some m ↔ r.loadMember viewer = some m ∧ m.state = .joined := by
  unfold loadJoinedMember
  rw [Option.filter_eq_some_iff]
  simp

theorem mem_of_loadJoinedMember (h : r.loadJoinedMember viewer = some m) :
    m ∈ r.members ∧ m.viewer = viewer ∧ m.state = .joined := by
  rw [loadJoinedMember_eq] at h
  obtain ⟨hmem, hviewer⟩ := mem_of_loadMember h.1
  exact ⟨hmem, hviewer, h.2⟩

theorem members_sweepGroup (hlive : r.group.isOver = false) :
    (r.sweepGroup now).2.members =
      r.members.map fun m => if m.leaves now then { m with state := .left } else m := by
  unfold sweepGroup
  rw [if_neg (by simp [hlive])]
  dsimp only
  unfold hostTimeline releaseWait endGroup
  dsimp only
  split_ifs <;> rfl

theorem loadMember_sweepGroup (hlive : r.group.isOver = false) :
    (r.sweepGroup now).2.loadMember viewer =
      (r.loadMember viewer).map fun m => if m.leaves now then { m with state := .left } else m := by
  unfold loadMember
  rw [members_sweepGroup hlive]
  apply loadMember_map
  intro m
  split_ifs <;> rfl

/-- The viewer's row after the sweep: joined, and not silent for too long. -/
def Admits (now : ℤ) (viewer : Viewer) (r : Room) (m : Member) : Prop :=
  r.loadJoinedMember viewer = some m ∧ m.leaves now = false

theorem loadJoinedMember_sweepGroup (hlive : r.group.isOver = false) :
    (r.sweepGroup now).2.loadJoinedMember viewer = some m ↔ r.Admits now viewer m := by
  unfold Admits
  rw [loadJoinedMember_eq, loadJoinedMember_eq, loadMember_sweepGroup hlive, Option.map_eq_some_iff]
  constructor
  · rintro ⟨⟨n, hn, hm⟩, hjoined⟩
    cases hleaves : n.leaves now with
    | true =>
      rw [hleaves, if_pos rfl] at hm
      rw [← hm] at hjoined
      cases hjoined
    | false =>
      rw [hleaves] at hm
      obtain rfl : n = m := hm
      exact ⟨⟨hn, hjoined⟩, hleaves⟩
  · rintro ⟨⟨hm, hjoined⟩, hleaves⟩
    refine ⟨⟨m, hm, ?_⟩, hjoined⟩
    rw [hleaves]
    rfl

theorem loadMember_updateMember {id : MemberID} {f : Member → Member}
    (hf : ∀ m, (f m).viewer = m.viewer) :
    (r.updateMember id f).loadMember viewer =
      (r.loadMember viewer).map fun m => if m.id = id then f m else m := by
  unfold loadMember updateMember
  apply loadMember_map
  intro m
  split_ifs
  · exact hf m
  · rfl

theorem loadJoinedMember_seen (h : r.loadJoinedMember viewer = some m) :
    (r.seen now m.id).loadJoinedMember viewer = some { m with seenMS := now } := by
  rw [loadJoinedMember_eq] at h ⊢
  refine ⟨?_, h.2⟩
  have hload : (r.seen now m.id).loadMember viewer =
      (r.updateMember m.id fun m => { m with seenMS := now }).loadMember viewer := rfl
  rw [hload, loadMember_updateMember (by simp), h.1]
  simp

/-! ## Commands -/

variable {key : String} {body : Body} {apply : Member → Room → Except Fault (Answer × Room)}

/-- A member's receipt for a key. -/
def receiptFor (member : MemberID) (key : String) (r : Room) : Option Receipt :=
  r.receipts.find? fun e => e.member = member ∧ e.key = key

/-- What a command runs on: its member, and the room it finds. -/
structure Runs (env : Env) (now : ℤ) (viewer : Viewer) (key : String) (r : Room) (m : Member)
    (s : Room) : Prop where
  admits : r.Admits now viewer m
  fresh : r.receiptFor m.id key = none
  live : (r.sweepGroup now).2.group.isOver = false
  free : env.limited = false
  room : s = (r.sweepGroup now).2.seen now m.id

theorem live_of_sweepGroup (hlive : (r.sweepGroup now).2.group.isOver = false) :
    r.group.isOver = false := by
  cases hr : r.group.isOver with
  | false => rfl
  | true =>
    rw [sweepGroup, if_pos hr, hr] at hlive
    cases hlive

theorem command_stranger (h : r.loadJoinedMember viewer = none) :
    r.command env now viewer key body apply = (.error .membershipRevoked, r) := by
  unfold command
  rw [h]

variable (env now body apply) in
theorem command_retry {e : Receipt} (h : r.loadJoinedMember viewer = some m)
    (he : r.receiptFor m.id key = some e) :
    r.command env now viewer key body apply =
      (if e.body = body then .ok e.answer.duplicate else .error .idempotencyKeyReused, r) := by
  unfold receiptFor at he
  unfold command
  rw [h]
  dsimp only
  rw [he]

section Fresh

variable (h : r.loadJoinedMember viewer = some m) (hfresh : r.receiptFor m.id key = none)
include h hfresh

variable (env body apply) in
theorem command_over (hover : (r.sweepGroup now).2.group.isOver = true) :
    r.command env now viewer key body apply =
      (.error .groupEnded, if (r.sweepGroup now).1 then (r.sweepGroup now).2.save true else r) := by
  unfold receiptFor at hfresh
  unfold command
  rw [h]
  dsimp only
  rw [hfresh]
  dsimp only
  rw [if_pos hover]

variable (hlive : (r.sweepGroup now).2.group.isOver = false)
include hlive

theorem command_limited (hlimited : env.limited = true) :
    r.command env now viewer key body apply = (.error .rateLimited, r) := by
  unfold receiptFor at hfresh
  unfold command
  rw [h]
  dsimp only
  rw [hfresh]
  dsimp only
  rw [if_neg (by simp [hlive]), if_pos hlimited]

theorem command_swept (hfree : env.limited = false) (hleaves : m.leaves now = true) :
    r.command env now viewer key body apply = (.error .membershipRevoked, r) := by
  have hgone : ((r.sweepGroup now).2.seen now m.id).loadJoinedMember viewer = none := by
    have hseen : ((r.sweepGroup now).2.seen now m.id).loadMember viewer =
        ((r.sweepGroup now).2.updateMember m.id fun m =>
          { m with seenMS := now }).loadMember viewer := rfl
    unfold loadJoinedMember
    rw [hseen, loadMember_updateMember (by simp), loadMember_sweepGroup (live_of_sweepGroup hlive),
      (loadJoinedMember_eq.mp h).1, Option.map_some, Option.map_some, hleaves, if_pos rfl,
      if_pos rfl]
    rfl
  unfold receiptFor at hfresh
  unfold command
  rw [h]
  dsimp only
  rw [hfresh]
  dsimp only
  rw [if_neg (by simp [hlive]), if_neg (by simp [hfree]), hgone]

end Fresh

/-- How a command that ran ends: a refusal is rolled back, an answer is saved with its receipt. -/
def concluded (receipt : Answer → Receipt) (r : Room) :
    Except Fault (Answer × Room) → Except Fault Answer × Room
  | .error fault => (.error fault, r)
  | .ok (answer, t) => (.ok answer, ((t.save true).receive (receipt answer)).trimReceipts)

variable (body apply) in
theorem command_run (h : Runs env now viewer key r m s) :
    r.command env now viewer key body apply =
      r.concluded (fun answer => ⟨m.id, key, body, answer, now⟩)
        (apply { m with seenMS := now } s) := by
  have hjoined := (loadJoinedMember_sweepGroup (live_of_sweepGroup h.live)).mpr h.admits
  have hfresh := h.fresh
  unfold receiptFor at hfresh
  unfold command
  rw [h.admits.1]
  dsimp only
  rw [hfresh]
  dsimp only
  rw [if_neg (by simp [h.live]), if_neg (by simp [h.free]), loadJoinedMember_seen hjoined, h.room]
  rfl

variable (env now viewer r key body apply) in
/-- **What a command can do.** It is refused and changes nothing, is answered from its receipt, finds
the group ended by time, or runs. -/
theorem command_cases :
    (∃ fault, r.command env now viewer key body apply = (.error fault, r)) ∨
    (∃ m e, r.loadJoinedMember viewer = some m ∧ r.receiptFor m.id key = some e ∧ e.body = body ∧
      r.command env now viewer key body apply = (.ok e.answer.duplicate, r)) ∨
    ((r.sweepGroup now).1 = true ∧ (r.sweepGroup now).2.group.isOver = true ∧
      r.command env now viewer key body apply =
        (.error .groupEnded, (r.sweepGroup now).2.save true)) ∨
    (∃ m s answer t, Runs env now viewer key r m s ∧
      apply { m with seenMS := now } s = .ok (answer, t) ∧
      r.command env now viewer key body apply =
        (.ok answer, ((t.save true).receive ⟨m.id, key, body, answer, now⟩).trimReceipts)) := by
  cases hload : r.loadJoinedMember viewer with
  | none => exact Or.inl ⟨_, command_stranger hload⟩
  | some m =>
    cases hreceipt : r.receiptFor m.id key with
    | some e =>
      have hretry := command_retry env now body apply
        hload hreceipt
      by_cases hbody : e.body = body
      · rw [if_pos hbody] at hretry
        exact Or.inr (Or.inl ⟨m, e, rfl, hreceipt, hbody, hretry⟩)
      · rw [if_neg hbody] at hretry
        exact Or.inl ⟨_, hretry⟩
    | none =>
      cases hover : (r.sweepGroup now).2.group.isOver with
      | true =>
        have hended := command_over env body apply hload hreceipt hover
        cases hswept : (r.sweepGroup now).1 with
        | true =>
          rw [hswept] at hended
          exact Or.inr (Or.inr (Or.inl ⟨rfl, rfl, hended⟩))
        | false =>
          rw [hswept] at hended
          exact Or.inl ⟨_, hended⟩
      | false =>
        cases hlimited : env.limited with
        | true => exact Or.inl ⟨_, command_limited hload hreceipt hover hlimited⟩
        | false =>
          cases hleaves : m.leaves now with
          | true => exact Or.inl ⟨_, command_swept hload hreceipt hover hlimited hleaves⟩
          | false =>
            have hruns : Runs env now viewer key r m ((r.sweepGroup now).2.seen now m.id) :=
              ⟨⟨hload, hleaves⟩, hreceipt, hover, hlimited, rfl⟩
            have hcommand := command_run body apply hruns
            cases happly : apply { m with seenMS := now } ((r.sweepGroup now).2.seen now m.id) with
            | error fault =>
              rw [happly] at hcommand
              exact Or.inl ⟨fault, hcommand⟩
            | ok result =>
              rw [happly] at hcommand
              exact Or.inr (Or.inr (Or.inr
                ⟨m, _, result.1, result.2, hruns, happly, hcommand⟩))

variable (body) in
/-- A refusal that the write path doesn't make itself comes from the command. -/
theorem command_error_iff {fault : Fault} (hrevoked : fault ≠ .membershipRevoked)
    (hended : fault ≠ .groupEnded) (hlimited : fault ≠ .rateLimited)
    (hreused : fault ≠ .idempotencyKeyReused) :
    (r.command env now viewer key body apply).1 = .error fault ↔
      ∃ m s, Runs env now viewer key r m s ∧ apply { m with seenMS := now } s = .error fault := by
  constructor
  · intro hfault
    cases hload : r.loadJoinedMember viewer with
    | none =>
      rw [command_stranger hload] at hfault
      exact absurd (Except.error.inj hfault).symm hrevoked
    | some m =>
      cases hreceipt : r.receiptFor m.id key with
      | some e =>
        rw [command_retry _ _ _ _ hload hreceipt] at hfault
        dsimp only at hfault
        split_ifs at hfault
        exact absurd (Except.error.inj hfault).symm hreused
      | none =>
        cases hover : (r.sweepGroup now).2.group.isOver with
        | true =>
          rw [command_over _ _ _ hload hreceipt hover] at hfault
          exact absurd (Except.error.inj hfault).symm hended
        | false =>
          cases hfree : env.limited with
          | true =>
            rw [command_limited hload hreceipt hover hfree] at hfault
            exact absurd (Except.error.inj hfault).symm hlimited
          | false =>
            cases hleaves : m.leaves now with
            | true =>
              rw [command_swept hload hreceipt hover hfree hleaves] at hfault
              exact absurd (Except.error.inj hfault).symm hrevoked
            | false =>
              have hruns : Runs env now viewer key r m ((r.sweepGroup now).2.seen now m.id) :=
                ⟨⟨hload, hleaves⟩, hreceipt, hover, hfree, rfl⟩
              rw [command_run _ _ hruns] at hfault
              refine ⟨m, _, hruns, ?_⟩
              cases happly : apply { m with seenMS := now }
                  ((r.sweepGroup now).2.seen now m.id) with
              | error fault' =>
                rw [happly] at hfault
                exact congrArg Except.error (Except.error.inj hfault)
              | ok result =>
                rw [happly] at hfault
                cases hfault
  · rintro ⟨m, s, hruns, happly⟩
    rw [command_run _ _ hruns, happly]
    rfl

/-! ## Transport -/

theorem transport_error_iff {req : TransportRequest} {fault : Fault}
    (hinvalid : fault ≠ .invalidRequest) (hrevoked : fault ≠ .membershipRevoked)
    (hended : fault ≠ .groupEnded) (hlimited : fault ≠ .rateLimited)
    (hreused : fault ≠ .idempotencyKeyReused) :
    (transport env now viewer req r).1 = .error fault ↔
      req.valid = true ∧ ∃ m s, Runs env now viewer req.idempotencyKey r m s ∧
        applyCommand env now req { m with seenMS := now } s = .error fault := by
  unfold transport
  cases hvalid : req.valid with
  | false => simpa using hinvalid.symm
  | true =>
    rw [if_neg (by simp), ← command_error_iff (.transport req) hrevoked hended hlimited
      hreused]
    simp only [true_and]
    cases (r.command env now viewer req.idempotencyKey (.transport req)
      (applyCommand env now req)).1 with
    | error fault' => simp [Except.map]
    | ok answer => simp [Except.map]

/-- A fresh acceptance of the command: a retry is told that it is one. -/
theorem transport_accepted {req : TransportRequest} {receipt : TransportReceipt}
    (h : (transport env now viewer req r).1 = .ok (.transport receipt))
    (haccepted : receipt.disposition = .accepted) :
    ∃ m s answer t, Runs env now viewer req.idempotencyKey r m s ∧
      applyCommand env now req { m with seenMS := now } s = .ok (answer, t) ∧
      (transport env now viewer req r).2 =
        ((t.save true).receive
          ⟨m.id, req.idempotencyKey, .transport req, answer, now⟩).trimReceipts := by
  unfold transport at h ⊢
  cases hvalid : req.valid with
  | false =>
    rw [hvalid] at h
    cases h
  | true =>
    rw [hvalid, if_neg (by simp)] at h
    rw [if_neg (by simp)]
    dsimp only at h ⊢
    rcases command_cases env now viewer r req.idempotencyKey (.transport req) (applyCommand env now req)
      with ⟨fault, hc⟩ | ⟨m, e, -, -, -, hc⟩ | ⟨-, -, hc⟩ | ⟨m, s, answer, t, hruns, happly, hc⟩
    · rw [hc] at h
      cases h
    · rw [hc] at h
      obtain ⟨answer, hanswer, hshown⟩ := exists_of_map_eq_ok h
      obtain rfl := Except.ok.inj hanswer
      -- a replayed transport receipt says that it is a duplicate
      cases hstored : e.answer with
      | transport stored =>
        rw [hstored] at hshown
        obtain rfl := Answer.transport.inj hshown
        cases haccepted
      | group _ | queue _ | readiness _ _ _ _ | invite _ | done =>
        rw [hstored] at hshown
        cases hshown
    · rw [hc] at h
      cases h
    · rw [hc]
      exact ⟨m, s, answer, t, hruns, happly, rfl⟩

/-! ## The other requests -/

variable {semantic : Bool} {change : Member → Room → Except Fault Room}
  {answer : Member → Room → Answer}

/-- What a request runs on: its member, and the room it finds. -/
structure Enters (env : Env) (now : ℤ) (viewer : Viewer) (r : Room) (m : Member) (s : Room) :
    Prop where
  admits : r.Admits now viewer m
  live : (r.sweepGroup now).2.group.isOver = false
  free : env.limited = false
  room : s = (r.sweepGroup now).2.seen now m.id

/-- The room a request leaves saved. -/
def settledAs (semantic : Bool) (r s : Room) : Room :=
  s.save (semantic || s.group.state ≠ r.group.state || s.group.reconnect ≠ r.group.reconnect)

/-- How a request that ran ends: a refusal is rolled back, a change is saved and shown. -/
def finished (viewer : Viewer) (semantic : Bool) (answer : Member → Room → Answer) (r : Room) :
    Except Fault Room → Except Fault Answer × Room
  | .error fault => (.error fault, r)
  | .ok t =>
    match (settledAs semantic r t).loadMember viewer with
    | none => (.error .membershipRevoked, r)
    | some m => (.ok (answer m (settledAs semantic r t)), settledAs semantic r t)

variable (semantic change answer) in
theorem mutateGroup_enters (h : Enters env now viewer r m s) :
    r.mutateGroup env now viewer semantic change answer =
      r.finished viewer semantic answer (change m s) := by
  have hjoined := (loadJoinedMember_sweepGroup (live_of_sweepGroup h.live)).mpr h.admits
  have hrow := (loadJoinedMember_eq.mp h.admits.1).1
  unfold mutateGroup
  rw [if_neg (by simp [hrow])]
  dsimp only
  rw [if_neg (by simp [h.live]), hjoined]
  dsimp only
  rw [if_neg (by simp [h.free]), h.room]
  rfl

variable (semantic change answer) in
/-- A request that doesn't run is refused: it leaves the room alone, or finds the group over. -/
theorem mutateGroup_refused (h : ¬ ∃ m s, Enters env now viewer r m s) :
    (∃ fault, (fault = .membershipRevoked ∨ fault = .groupEnded ∨ fault = .rateLimited) ∧
      r.mutateGroup env now viewer semantic change answer = (.error fault, r)) ∨
    ((r.sweepGroup now).1 = true ∧ (r.sweepGroup now).2.group.isOver = true ∧
      r.mutateGroup env now viewer semantic change answer =
        (.error .groupEnded, (r.sweepGroup now).2.save true)) := by
  unfold mutateGroup
  by_cases hrow : (r.loadMember viewer).isNone = true
  · left
    exact ⟨_, Or.inl rfl, if_pos hrow⟩
  · rw [if_neg hrow]
    dsimp only
    cases hover : (r.sweepGroup now).2.group.isOver with
    | true =>
      rw [if_pos rfl]
      cases hswept : (r.sweepGroup now).1 with
      | true => exact Or.inr ⟨rfl, rfl, rfl⟩
      | false => exact Or.inl ⟨_, Or.inr (Or.inl rfl), rfl⟩
    | false =>
      rw [if_neg (by simp)]
      left
      cases hload : (r.sweepGroup now).2.loadJoinedMember viewer with
      | none => exact ⟨_, Or.inl rfl, rfl⟩
      | some m =>
        dsimp only
        cases hlimited : env.limited with
        | true => exact ⟨_, Or.inr (Or.inr rfl), if_pos rfl⟩
        | false =>
          have hadmits := (loadJoinedMember_sweepGroup (live_of_sweepGroup hover)).mp hload
          exact absurd ⟨m, _, hadmits, hover, hlimited, rfl⟩ h

variable (env now viewer r semantic change answer) in
/-- **What a request can do.** -/
theorem mutateGroup_cases :
    (∃ fault, r.mutateGroup env now viewer semantic change answer = (.error fault, r)) ∨
    ((r.sweepGroup now).1 = true ∧ (r.sweepGroup now).2.group.isOver = true ∧
      r.mutateGroup env now viewer semantic change answer =
        (.error .groupEnded, (r.sweepGroup now).2.save true)) ∨
    (∃ m s t m', Enters env now viewer r m s ∧ change m s = .ok t ∧
      r.mutateGroup env now viewer semantic change answer =
        (.ok (answer m' (settledAs semantic r t)), settledAs semantic r t)) := by
  by_cases henters : ∃ m s, Enters env now viewer r m s
  · obtain ⟨m, s, hms⟩ := henters
    have hrun := mutateGroup_enters semantic change answer hms
    cases hchange : change m s with
    | error fault =>
      rw [hchange] at hrun
      exact Or.inl ⟨fault, hrun⟩
    | ok t =>
      rw [hchange] at hrun
      unfold finished at hrun
      dsimp only at hrun
      cases hload : (settledAs semantic r t).loadMember viewer with
      | none =>
        rw [hload] at hrun
        exact Or.inl ⟨_, hrun⟩
      | some m' =>
        rw [hload] at hrun
        exact Or.inr (Or.inr ⟨m, s, t, m', hms, hchange, hrun⟩)
  · rcases mutateGroup_refused semantic change answer
      henters with ⟨fault, -, hrefused⟩ | hended
    · exact Or.inl ⟨fault, hrefused⟩
    · exact Or.inr (Or.inl hended)

theorem mutateGroup_error {fault : Fault} (hrevoked : fault ≠ .membershipRevoked)
    (hended : fault ≠ .groupEnded) (hlimited : fault ≠ .rateLimited)
    (hfault : (r.mutateGroup env now viewer semantic change answer).1 = .error fault) :
    ∃ m s, Enters env now viewer r m s ∧ change m s = .error fault := by
  by_cases henters : ∃ m s, Enters env now viewer r m s
  · obtain ⟨m, s, hms⟩ := henters
    refine ⟨m, s, hms, ?_⟩
    rw [mutateGroup_enters _ _ _ hms] at hfault
    cases hchange : change m s with
    | error fault' =>
      rw [hchange] at hfault
      exact congrArg Except.error (Except.error.inj hfault)
    | ok t =>
      rw [hchange] at hfault
      unfold finished at hfault
      dsimp only at hfault
      split at hfault
      · exact absurd (Except.error.inj hfault).symm hrevoked
      · cases hfault
  · exfalso
    rcases mutateGroup_refused semantic change answer
      henters with ⟨fault', hown, hrefused⟩ | ⟨-, -, hover⟩
    · rw [hrefused] at hfault
      rcases hown with hown | hown | hown <;> subst hown
      · exact hrevoked (Except.error.inj hfault).symm
      · exact hended (Except.error.inj hfault).symm
      · exact hlimited (Except.error.inj hfault).symm
    · rw [hover] at hfault
      exact hended (Except.error.inj hfault).symm

end Room

/-! ## Readiness -/

/-- A member's report recorded, and the host back when it is the host's. -/
def Room.reported (now : ℤ) (req : ReadinessRequest) (m : Member) (r : Room) : Room :=
  let s := r.updateMember m.id fun n =>
    { n with
      readiness := req.readiness, positionUS := req.positionUS.getD 0, readinessMS := now
      readinessRevision := r.group.playbackRevision }
  if m.role = .host then { s with group := s.group.hostReturned now } else s

/-- The group with its summary, and ready if it prepared. -/
def Group.summarised (summary : Option ReadinessSummary) (promoted : Bool) (g : Group) : Group :=
  { g with
    state := if promoted then .ready else g.state
    readinessSummary := summary }

/-- What a report does: nothing, the end of the title, or a look at the wait and the summary. -/
theorem applyReadiness_cases {req : ReadinessRequest} {t : Room}
    (h : applyReadiness now req m s = .ok t) :
    t = s ∨
    (req.playbackRevision = s.group.playbackRevision ∧ req.ended = true ∧ m.role = .host ∧
      timelineState (s.reported now req m).group.state = .playing ∧
      t = { s.reported now req m with
        group := (s.reported now req m).group.ended now (req.positionUS.getD 0) }) ∨
    (req.playbackRevision = s.group.playbackRevision ∧ ∃ summary promoted,
      (promoted = true → ((s.reported now req m).releaseWait now).2.group.state = .preparing) ∧
      t = { ((s.reported now req m).releaseWait now).2 with
        group := ((s.reported now req m).releaseWait now).2.group.summarised summary promoted }) := by
  unfold applyReadiness at h
  by_cases hcounter : (!parseCounter req.playbackRevision) = true
  · rw [if_pos hcounter] at h
    cases h
  rw [if_neg hcounter] at h
  by_cases hepoch : req.playbackRevision ≠ s.group.playbackRevision
  · rw [if_pos hepoch] at h
    exact Or.inl (Except.ok.inj h).symm
  rw [if_neg hepoch] at h
  right
  have hreported : (if m.role = .host then
      { s.updateMember m.id (fun n =>
          { n with
            readiness := req.readiness, positionUS := req.positionUS.getD 0, readinessMS := now
            readinessRevision := s.group.playbackRevision }) with
        group := (s.updateMember m.id (fun n =>
          { n with
            readiness := req.readiness, positionUS := req.positionUS.getD 0, readinessMS := now
            readinessRevision := s.group.playbackRevision })).group.hostReturned now }
    else s.updateMember m.id (fun n =>
        { n with
          readiness := req.readiness, positionUS := req.positionUS.getD 0, readinessMS := now
          readinessRevision := s.group.playbackRevision })) = s.reported now req m := rfl
  dsimp only at h
  rw [hreported] at h
  generalize s.reported now req m = u at *
  by_cases hended : req.ended = true ∧ m.role = .host ∧ timelineState u.group.state = .playing
  · rw [if_pos hended] at h
    exact Or.inl ⟨not_not.mp hepoch, hended.1, hended.2.1, hended.2.2, (Except.ok.inj h).symm⟩
  · rw [if_neg hended] at h
    generalize (u.releaseWait now).2 = v at *
    right
    refine ⟨not_not.mp hepoch, ?_⟩
    -- the group, promoted or not, with the new summary or the old
    by_cases hpromoted : v.group.state = .preparing ∧ (v.summary now).aggregate = .ready
    · simp only [if_pos hpromoted] at h
      split_ifs at h
      · exact ⟨v.group.readinessSummary, true, fun _ => hpromoted.1, (Except.ok.inj h).symm⟩
      · exact ⟨some (v.summary now), true, fun _ => hpromoted.1, (Except.ok.inj h).symm⟩
    · simp only [if_neg hpromoted] at h
      split_ifs at h
      · exact ⟨v.group.readinessSummary, false, nofun, (Except.ok.inj h).symm⟩
      · exact ⟨some (v.summary now), false, nofun, (Except.ok.inj h).symm⟩

/-! ## Invitations -/

/-- What a join asks of an invitation. -/
structure Redeemable (env : Env) (now : ℤ) (viewer : Viewer) (code : ℕ) (r : Room) (i : Invite) :
    Prop where
  free : env.limited = false
  found : r.invites.find? (fun i => decide (i.code = code)) = some i
  recipient : i.recipient = none ∨ i.recipient = some viewer.profile
  revoked : i.revoked = false
  expires : now < i.expiresMS
  uses : i.uses < i.maxUses
  live : r.group.isOver = false

variable (env now viewer r) in
theorem join_cases (code : ℕ) :
    (∃ fault, join env now viewer code r = (.error fault, r)) ∨
    ∃ i m s answer, Redeemable env now viewer code r i ∧ r.enter now viewer = .ok (m, s) ∧
      join env now viewer code r = (.ok answer, (s.useInvite i.id).save true) := by
  unfold join
  by_cases hlimited : env.limited = true
  · rw [if_pos hlimited]
    exact Or.inl ⟨_, rfl⟩
  rw [if_neg hlimited]
  split
  · exact Or.inl ⟨_, rfl⟩
  rename_i i hi
  by_cases hrecipient : i.recipient ≠ none ∧ i.recipient ≠ some viewer.profile
  · rw [if_pos hrecipient]
    exact Or.inl ⟨_, rfl⟩
  rw [if_neg hrecipient]
  by_cases hrevoked : i.revoked = true
  · rw [if_pos hrevoked]
    exact Or.inl ⟨_, rfl⟩
  rw [if_neg hrevoked]
  by_cases hexpires : i.expiresMS ≤ now
  · rw [if_pos hexpires]
    exact Or.inl ⟨_, rfl⟩
  rw [if_neg hexpires]
  by_cases huses : i.maxUses ≤ i.uses
  · rw [if_pos huses]
    exact Or.inl ⟨_, rfl⟩
  rw [if_neg huses]
  by_cases hover : r.group.isOver = true
  · rw [if_pos hover]
    exact Or.inl ⟨_, rfl⟩
  rw [if_neg hover]
  split
  · exact Or.inl ⟨_, rfl⟩
  · rename_i m s henter
    refine Or.inr ⟨i, m, s, _, ⟨by simpa using hlimited, hi, ?_, by simpa using hrevoked,
      not_le.mp hexpires, not_le.mp huses, by simpa using hover⟩, henter, rfl⟩
    by_cases hbound : i.recipient = none
    · exact Or.inl hbound
    · exact Or.inr (not_not.mp fun hne => hrecipient ⟨hbound, hne⟩)

variable (env now viewer r) in
theorem createInvite_cases (code : ℕ) (req : InviteRequest) :
    (∃ fault, createInvite env now viewer code req r = (.error fault, r)) ∨
    ∃ m i, (r.loadMember viewer = some m ∧ m.role = .host ∧ m.state = .joined) ∧
      r.group.isOver = false ∧
      (i.id = r.nextID ∧ i.code = code ∧ i.uses = 0 ∧ 1 ≤ i.maxUses ∧ i.revoked = false) ∧
      createInvite env now viewer code req r =
        (.ok (.invite i), { r with invites := r.invites ++ [i], nextID := r.nextID + 1 }) := by
  unfold createInvite
  dsimp only
  generalize (if req.expiresInMs = 0 then inviteTTLSeconds * 1000 else req.expiresInMs) = expiresIn
  generalize (if req.maxUses = 0 then inviteDefaultUses else req.maxUses) = maxUses
  by_cases hinvalid : expiresIn < 60000 ∨ inviteMaxTTLSeconds * 1000 < expiresIn ∨ maxUses < 1 ∨
      inviteMaxUses < maxUses
  · rw [if_pos hinvalid]
    exact Or.inl ⟨_, rfl⟩
  rw [if_neg hinvalid]
  by_cases hover : r.group.isOver = true
  · rw [if_pos hover]
    exact Or.inl ⟨_, rfl⟩
  rw [if_neg hover]
  split
  · exact Or.inl ⟨_, rfl⟩
  · rename_i m hm
    split_ifs with hhost
    · exact Or.inl ⟨_, rfl⟩
    · exact Or.inl ⟨_, rfl⟩
    · rw [not_or, not_not, not_not] at hhost
      simp only [not_or, not_lt] at hinvalid
      exact Or.inr ⟨m, _, ⟨hm, hhost⟩, by simpa using hover,
        ⟨rfl, rfl, rfl, hinvalid.2.2.1, rfl⟩, rfl⟩

variable (viewer r) in
theorem revokeInvite_cases (id : ℕ) :
    (∃ fault, revokeInvite viewer id r = (.error fault, r)) ∨
    ∃ m, r.loadJoinedMember viewer = some m ∧ m.role = .host ∧ (∃ i ∈ r.invites, i.id = id) ∧
      revokeInvite viewer id r = (.ok .done,
        { r with
          invites := r.invites.map fun i => if i.id = id then { i with revoked := true } else i }) := by
  unfold revokeInvite
  split
  · exact Or.inl ⟨_, rfl⟩
  · rename_i m hm
    split_ifs with hhost hany
    · exact Or.inl ⟨_, rfl⟩
    · exact Or.inl ⟨_, rfl⟩
    · exact Or.inr ⟨m, hm, not_not.mp hhost, by simpa using hany, rfl⟩

/-! ## Every action -/

/-- What an action leaves: the room as it was, the swept room, or the room its own change gives. -/
inductive Served (env : Env) (now : ℤ) (r : Room) : Action → Room → Prop
  | idle (a) : Served env now r a r
  | swept (a) (h : (r.sweepGroup now).1 = true) :
      Served env now r a ((r.sweepGroup now).2.save true)
  | transport (viewer req m s answer t) (hvalid : req.valid = true)
      (hruns : Room.Runs env now viewer req.idempotencyKey r m s)
      (happly : applyCommand env now req { m with seenMS := now } s = .ok (answer, t)) :
      Served env now r (.transport viewer req)
        ((t.save true).receive
          ⟨m.id, req.idempotencyKey, .transport req, answer, now⟩).trimReceipts
  | settings (viewer req m s answer t) (hvalid : req.valid = true)
      (hruns : Room.Runs env now viewer req.idempotencyKey r m s)
      (happly : applySettings env now viewer req { m with seenMS := now } s = .ok (answer, t)) :
      Served env now r (.settings viewer req)
        ((t.save true).receive
          ⟨m.id, req.idempotencyKey, .settings req, answer, now⟩).trimReceipts
  | queue (viewer req m s answer t) (hvalid : req.valid = true)
      (hruns : Room.Runs env now viewer req.idempotencyKey r m s)
      (happly : applyQueue env now viewer req { m with seenMS := now } s = .ok (answer, t)) :
      Served env now r (.queue viewer req)
        ((t.save true).receive ⟨m.id, req.idempotencyKey, .queue req, answer, now⟩).trimReceipts
  | heartbeat (viewer device m s t) (henters : Room.Enters env now viewer r m s)
      (hchange : applyHeartbeat now device m s = .ok t) :
      Served env now r (.heartbeat viewer device) (Room.settledAs false r t)
  | readiness (viewer req m s t) (hvalid : req.valid = true)
      (henters : Room.Enters env now viewer r m s) (hchange : applyReadiness now req m s = .ok t) :
      Served env now r (.readiness viewer req) (Room.settledAs false r t)
  | endGroup (viewer expected m s t) (henters : Room.Enters env now viewer r m s)
      (hchange : applyEnd expected m s = .ok t) :
      Served env now r (.endGroup viewer expected) (Room.settledAs true r t)
  | leave (viewer m s t) (henters : Room.Enters env now viewer r m s)
      (hchange : applyLeave m s = .ok t) :
      Served env now r (.leave viewer) (Room.settledAs true r t)
  | transfer (viewer device req m s t) (henters : Room.Enters env now viewer r m s)
      (hchange : applyTransfer now viewer device req m s = .ok t) :
      Served env now r (.transfer viewer device req) (Room.settledAs true r t)
  | createInvite (viewer code req m i) (hm : r.loadMember viewer = some m) (hhost : m.role = .host)
      (hjoined : m.state = .joined) (hlive : r.group.isOver = false) (hid : i.id = r.nextID)
      (hcode : i.code = code) (huses : i.uses = 0) (hbound : 1 ≤ i.maxUses)
      (hrevoked : i.revoked = false) :
      Served env now r (.createInvite viewer code req)
        { r with invites := r.invites ++ [i], nextID := r.nextID + 1 }
  | revokeInvite (viewer id m) (hm : r.loadJoinedMember viewer = some m) (hhost : m.role = .host) :
      Served env now r (.revokeInvite viewer id)
        { r with
          invites := r.invites.map fun i => if i.id = id then { i with revoked := true } else i }
  | join (viewer code i m s)
      (hi : r.invites.find? (fun i => decide (i.code = code)) = some i)
      (hrecipient : i.recipient = none ∨ i.recipient = some viewer.profile)
      (hrevoked : i.revoked = false) (hexpires : now < i.expiresMS) (huses : i.uses < i.maxUses)
      (hlive : r.group.isOver = false) (henter : r.enter now viewer = .ok (m, s)) :
      Served env now r (.join viewer code) ((s.useInvite i.id).save true)

theorem createInvite_served {code : ℕ} {req : InviteRequest} :
    Served env now r (.createInvite viewer code req) (createInvite env now viewer code req r).2 := by
  rcases createInvite_cases env now viewer r code req with ⟨fault, h⟩ | ⟨m, i, hm, hlive, hi, h⟩
  · rw [h]
    exact .idle _
  · rw [h]
    exact .createInvite viewer code req m i hm.1 hm.2.1 hm.2.2 hlive hi.1 hi.2.1 hi.2.2.1 hi.2.2.2.1
      hi.2.2.2.2

theorem revokeInvite_served {id : ℕ} :
    Served env now r (.revokeInvite viewer id) (revokeInvite viewer id r).2 := by
  rcases revokeInvite_cases viewer r id with ⟨fault, h⟩ | ⟨m, hm, hhost, -, h⟩
  · rw [h]
    exact .idle _
  · rw [h]
    exact .revokeInvite viewer id m hm hhost

theorem join_served {code : ℕ} :
    Served env now r (.join viewer code) (join env now viewer code r).2 := by
  rcases join_cases env now viewer r code with
    ⟨fault, h⟩ | ⟨i, m, s, answer, hi, henter, h⟩
  · rw [h]
    exact .idle _
  · rw [h]
    exact .join viewer code i m s hi.found hi.recipient hi.revoked hi.expires hi.uses hi.live henter

variable (env now r) in
/-- **What any action can do.** -/
theorem serve_served (a : Action) : Served env now r a (serve env now r a).2 := by
  cases a with
  | transport viewer req =>
    change Served env now r _ (WatchTogether.transport env now viewer req r).2
    unfold WatchTogether.transport
    cases hvalid : req.valid with
    | false => exact .idle _
    | true =>
      rw [if_neg (by simp)]
      dsimp only
      rcases Room.command_cases env now viewer r req.idempotencyKey (.transport req) (applyCommand env now req)
        with ⟨fault, h⟩ | ⟨m, e, -, -, -, h⟩ | ⟨hswept, -, h⟩ | ⟨m, s, answer, t, hruns, happly, h⟩
      · rw [h]; exact .idle _
      · rw [h]; exact .idle _
      · rw [h]; exact .swept _ hswept
      · rw [h]; exact .transport viewer req m s answer t hvalid hruns happly
  | settings viewer req =>
    change Served env now r _ (updateSettings env now viewer req r).2
    unfold updateSettings
    cases hvalid : req.valid with
    | false => exact .idle _
    | true =>
      rw [if_neg (by simp)]
      rcases Room.command_cases env now viewer r req.idempotencyKey (.settings req) (applySettings env now viewer req)
        with ⟨fault, h⟩ | ⟨m, e, -, -, -, h⟩ | ⟨hswept, -, h⟩ | ⟨m, s, answer, t, hruns, happly, h⟩
      · rw [h]; exact .idle _
      · rw [h]; exact .idle _
      · rw [h]; exact .swept _ hswept
      · rw [h]; exact .settings viewer req m s answer t hvalid hruns happly
  | queue viewer req =>
    change Served env now r _ (mutateQueue env now viewer req r).2
    unfold mutateQueue
    cases hvalid : req.valid with
    | false => exact .idle _
    | true =>
      rw [if_neg (by simp)]
      rcases Room.command_cases env now viewer r req.idempotencyKey (.queue req) (applyQueue env now viewer req)
        with ⟨fault, h⟩ | ⟨m, e, -, -, -, h⟩ | ⟨hswept, -, h⟩ | ⟨m, s, answer, t, hruns, happly, h⟩
      · rw [h]; exact .idle _
      · rw [h]; exact .idle _
      · rw [h]; exact .swept _ hswept
      · rw [h]; exact .queue viewer req m s answer t hvalid hruns happly
  | heartbeat viewer device =>
    change Served env now r _ (WatchTogether.heartbeat env now viewer device r).2
    unfold WatchTogether.heartbeat
    rcases Room.mutateGroup_cases env now viewer r false (applyHeartbeat now device) (projected env now viewer)
      with ⟨fault, h⟩ | ⟨hswept, -, h⟩ | ⟨m, s, t, m', henters, hchange, h⟩
    · rw [h]; exact .idle _
    · rw [h]; exact .swept _ hswept
    · rw [h]; exact .heartbeat viewer device m s t henters hchange
  | readiness viewer req =>
    change Served env now r _ (reportReadiness env now viewer req r).2
    unfold reportReadiness
    cases hvalid : req.valid with
    | false => exact .idle _
    | true =>
      rw [if_neg (by simp)]
      rcases Room.mutateGroup_cases env now viewer r false (applyReadiness now req) (fun _ r =>
          .readiness r.group.state r.group.revision r.group.playbackRevision
            (r.group.readinessSummary.getD (r.summary now)))
        with ⟨fault, h⟩ | ⟨hswept, -, h⟩ | ⟨m, s, t, m', henters, hchange, h⟩
      · rw [h]; exact .idle _
      · rw [h]; exact .swept _ hswept
      · rw [h]; exact .readiness viewer req m s t hvalid henters hchange
  | endGroup viewer expected =>
    change Served env now r _ (WatchTogether.endGroup env now viewer expected r).2
    unfold WatchTogether.endGroup
    rcases Room.mutateGroup_cases env now viewer r true (applyEnd expected) (projected env now viewer)
      with ⟨fault, h⟩ | ⟨hswept, -, h⟩ | ⟨m, s, t, m', henters, hchange, h⟩
    · rw [h]; exact .idle _
    · rw [h]; exact .swept _ hswept
    · rw [h]; exact .endGroup viewer expected m s t henters hchange
  | leave viewer =>
    change Served env now r _ (WatchTogether.leave env now viewer r).2
    unfold WatchTogether.leave
    rcases Room.mutateGroup_cases env now viewer r true applyLeave (projected env now viewer)
      with ⟨fault, h⟩ | ⟨hswept, -, h⟩ | ⟨m, s, t, m', henters, hchange, h⟩
    · rw [h]; exact .idle _
    · rw [h]; exact .swept _ hswept
    · rw [h]; exact .leave viewer m s t henters hchange
  | transfer viewer device req =>
    change Served env now r _ (transferHost env now viewer device req r).2
    unfold transferHost
    rcases Room.mutateGroup_cases env now viewer r true (applyTransfer now viewer device req) (projected env now viewer)
      with ⟨fault, h⟩ | ⟨hswept, -, h⟩ | ⟨m, s, t, m', henters, hchange, h⟩
    · rw [h]; exact .idle _
    · rw [h]; exact .swept _ hswept
    · rw [h]; exact .transfer viewer device req m s t henters hchange
  | createInvite viewer code req => exact createInvite_served
  | revokeInvite viewer id => exact revokeInvite_served
  | join viewer code => exact join_served
  | sweep =>
    change Served env now r _ (WatchTogether.sweep now r)
    unfold WatchTogether.sweep
    dsimp only
    cases hswept : (r.sweepGroup now).1 with
    | true => exact .swept _ hswept
    | false => exact .idle _

theorem act_serve {e : Event} (h : act r e = some s) : s = (serve e.env e.now r e.action).2 := by
  unfold act at h
  split at h
  · split_ifs at h
    exact (Option.some.inj h).symm
  · exact (Option.some.inj h).symm

theorem act_served {e : Event} (h : act r e = some s) : Served e.env e.now r e.action s := by
  have hserved := serve_served e.env e.now r e.action
  unfold act at h
  split at h
  · split_ifs at h
    rwa [← Option.some.inj h]
  · rwa [← Option.some.inj h]

end Portico.WatchTogether
