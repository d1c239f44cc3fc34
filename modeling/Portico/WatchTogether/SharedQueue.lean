import Portico.Lib.Machine
import Portico.WatchTogether.Agreement
import Portico.WatchTogether.Positions
import Portico.WatchTogether.Timeline
import Portico.WatchTogether.WritePath

/-!
# The shared queue

The queue's positions are its places, the stored position follows the current entry, and the next and
the previous entry are its neighbours, as long as no edit takes the current entry out of the queue.

## Main results

* `QueueSound.served`: every action keeps the queue sound
* `shared_queue`: the law of the queue, in every run that keeps the current entry
-/

namespace Portico.WatchTogether

variable {env : Env} {now : ℤ} {viewer : Viewer} {r s t : Room} {m : Member}

/-! ## The queue of a run -/

/-- What holds of the queue in every run. -/
structure QueueSound (r : Room) : Prop where
  numbered : ∃ order, Numbered r.queue order
  fresh : ∀ row ∈ r.queue, row.entryID < r.nextID
  synced : ∀ row ∈ r.queue, r.group.currentEntryID = some row.entryID →
    r.group.queuePosition = row.position
  unset : r.group.currentEntryID = none → r.group.queuePosition = 0

/-- The queue and what the group says of it are untouched. -/
structure SameQueue (r s : Room) : Prop where
  queue : s.queue = r.queue
  nextID : r.nextID ≤ s.nextID
  position : s.group.queuePosition = r.group.queuePosition
  current : s.group.currentEntryID = r.group.currentEntryID

theorem SameQueue.refl (r : Room) : SameQueue r r := ⟨rfl, le_rfl, rfl, rfl⟩

theorem SameQueue.trans (h : SameQueue r s) (h' : SameQueue s t) : SameQueue r t :=
  ⟨h'.queue.trans h.queue, h.nextID.trans h'.nextID, h'.position.trans h.position,
    h'.current.trans h.current⟩

theorem QueueSound.of_same (h : QueueSound r) (hsame : SameQueue r s) : QueueSound s := by
  refine ⟨?_, ?_, ?_, ?_⟩
  · rw [hsame.queue]
    exact h.numbered
  · rw [hsame.queue]
    intro row hrow
    exact (h.fresh row hrow).trans_le hsame.nextID
  · rw [hsame.queue, hsame.position, hsame.current]
    exact h.synced
  · rw [hsame.position, hsame.current]
    exact h.unset

/-! ## What leaves the queue alone -/

variable (now r) in
theorem sameQueue_sweepGroup : SameQueue r (r.sweepGroup now).2 := by
  have hkeeps := Room.keeps_sweepGroup now r
  have hrows : (r.sweepGroup now).2.queue = r.queue ∧ (r.sweepGroup now).2.nextID = r.nextID := by
    unfold Room.sweepGroup Room.hostTimeline Room.releaseWait Room.endGroup
    dsimp only
    split_ifs <;> exact ⟨rfl, rfl⟩
  exact ⟨hrows.1, hrows.2.ge, hkeeps.queuePosition, hkeeps.currentEntryID⟩

theorem sameQueue_save {bump : Bool} : SameQueue r (r.save bump) := ⟨rfl, le_rfl, rfl, rfl⟩

theorem sameQueue_settledAs {semantic : Bool} : SameQueue s (Room.settledAs semantic r s) :=
  sameQueue_save

theorem sameQueue_seen {id : MemberID} : SameQueue r (r.seen now id) := ⟨rfl, le_rfl, rfl, rfl⟩

theorem sameQueue_receive {receipt : Receipt} :
    SameQueue r ((r.save true).receive receipt).trimReceipts := ⟨rfl, le_rfl, rfl, rfl⟩

theorem Room.Runs.sameQueue {key : String} (h : Room.Runs env now viewer key r m s) :
    SameQueue r s := by
  rw [h.room]
  exact (sameQueue_sweepGroup _ _).trans sameQueue_seen

theorem Room.Enters.sameQueue (h : Room.Enters env now viewer r m s) : SameQueue r s := by
  rw [h.room]
  exact (sameQueue_sweepGroup _ _).trans sameQueue_seen

variable (now) in
theorem queue_hostReturned (g : Group) :
    (g.hostReturned now).queuePosition = g.queuePosition ∧
      (g.hostReturned now).currentEntryID = g.currentEntryID ∧
      (g.hostReturned now).repeatMode = g.repeatMode := by
  unfold Group.hostReturned
  dsimp only
  split_ifs <;> exact ⟨rfl, rfl, rfl⟩

variable (now r) in
theorem sameQueue_releaseWait : SameQueue r (r.releaseWait now).2 := by
  unfold Room.releaseWait
  dsimp only
  split_ifs <;> exact ⟨rfl, le_rfl, rfl, rfl⟩

theorem sameQueue_reported {req : ReadinessRequest} : SameQueue s (s.reported now req m) := by
  unfold Room.reported
  dsimp only
  split_ifs
  · have hqueue := queue_hostReturned now s.group
    exact ⟨rfl, le_rfl, hqueue.1, hqueue.2.1⟩
  · exact ⟨rfl, le_rfl, rfl, rfl⟩

theorem sameQueue_applySettings {req : SettingsRequest} {answer : Answer}
    (h : applySettings env now viewer req m s = .ok (answer, t)) : SameQueue s t := by
  unfold applySettings at h
  split_ifs at h
  obtain ⟨-, rfl⟩ := Prod.mk.inj (Except.ok.inj h)
  exact ⟨rfl, le_rfl, rfl, rfl⟩

theorem sameQueue_applyHeartbeat {device : Option DeviceID}
    (h : applyHeartbeat now device m s = .ok t) : SameQueue s t := by
  unfold applyHeartbeat at h
  split_ifs at h
  · obtain rfl := Except.ok.inj h
    exact SameQueue.refl s
  · obtain rfl := Except.ok.inj h
    have hqueue := queue_hostReturned now
      { s.group with hostDevice := device.or s.group.hostDevice }
    exact ⟨rfl, le_rfl, hqueue.1, hqueue.2.1⟩

theorem sameQueue_applyReadiness {req : ReadinessRequest} (h : applyReadiness now req m s = .ok t) :
    SameQueue s t := by
  rcases applyReadiness_cases h with rfl | ⟨-, -, -, -, rfl⟩ | ⟨-, summary, promoted, -, rfl⟩
  · exact SameQueue.refl t
  · exact sameQueue_reported.trans ⟨rfl, le_rfl, rfl, rfl⟩
  · have hrelease := sameQueue_reported.trans
      (sameQueue_releaseWait now (s.reported now req m))
    exact hrelease.trans ⟨rfl, le_rfl, rfl, rfl⟩

theorem sameQueue_applyEnd {expected : ℤ} (h : applyEnd expected m s = .ok t) : SameQueue s t := by
  unfold applyEnd at h
  split_ifs at h
  obtain rfl := Except.ok.inj h
  exact ⟨rfl, le_rfl, rfl, rfl⟩

theorem sameQueue_applyLeave (h : applyLeave m s = .ok t) : SameQueue s t := by
  unfold applyLeave at h
  dsimp only at h
  split_ifs at h <;>
  · obtain rfl := Except.ok.inj h
    exact ⟨rfl, le_rfl, rfl, rfl⟩

theorem queue_hostedBy {host : MemberID} {device : Option DeviceID} (g : Group) :
    (g.hostedBy now host device).queuePosition = g.queuePosition ∧
      (g.hostedBy now host device).currentEntryID = g.currentEntryID := by
  unfold Group.hostedBy
  dsimp only
  split_ifs <;> exact ⟨rfl, rfl⟩

theorem sameQueue_applyTransfer {device : Option DeviceID} {req : TransferRequest}
    (h : applyTransfer now viewer device req m s = .ok t) : SameQueue s t := by
  unfold applyTransfer at h
  simp only [guard_eq_ok] at h
  obtain ⟨-, -, -, -, h⟩ := h
  split at h
  · cases h
  · simp only [guard_eq_ok] at h
    obtain ⟨-, -, -, h⟩ := h
    obtain rfl := Except.ok.inj h
    exact ⟨rfl, le_rfl, (queue_hostedBy s.group).1, (queue_hostedBy s.group).2⟩

theorem sameQueue_enter (h : r.enter now viewer = .ok (m, s)) : SameQueue r s := by
  unfold Room.enter at h
  split at h
  · split_ifs at h
    obtain ⟨-, rfl⟩ := Prod.mk.inj (Except.ok.inj h)
    exact ⟨rfl, Nat.le_succ _, rfl, rfl⟩
  · obtain ⟨-, rfl⟩ := Prod.mk.inj (Except.ok.inj h)
    exact ⟨rfl, le_rfl, rfl, rfl⟩

/-! ## Edits -/

/-- What is added to a queue: new entries, at the places from `next`. -/
def added (addedBy : MemberID) : ℕ → ℤ → List ItemID → List QueueRow
  | _, _, [] => []
  | id, next, item :: items => ⟨id, next, item, addedBy⟩ :: added addedBy (id + 1) (next + 1) items

theorem appendItems_ok {addedBy : MemberID} {next : ℤ} {items : List ItemID}
    (h : r.appendItems env viewer addedBy next items = .ok t) :
    t = { r with
      queue := r.queue ++ added addedBy r.nextID next items
      nextID := r.nextID + items.length } := by
  induction items generalizing next r with
  | nil =>
    obtain rfl := Except.ok.inj h
    simp [added]
  | cons item items ih =>
    rw [Room.appendItems] at h
    split_ifs at h
    rw [ih h, added]
    simp only [List.append_assoc, List.singleton_append, List.length_cons, Room.mk.injEq, true_and]
    omega

theorem mem_added {addedBy : MemberID} {id : ℕ} {next : ℤ} {items : List ItemID}
    {row : QueueRow} (h : row ∈ added addedBy id next items) :
    id ≤ row.entryID ∧ row.entryID < id + items.length ∧ next ≤ row.position := by
  induction items generalizing id next with
  | nil => cases h
  | cons item items ih =>
    rw [List.length_cons]
    rcases List.mem_cons.mp h with rfl | h
    · exact ⟨le_rfl, Nat.lt_add_of_pos_right (Nat.succ_pos _), le_rfl⟩
    · obtain ⟨hlow, hhigh, hnext⟩ := ih h
      refine ⟨Nat.le_of_succ_le hlow, ?_, ?_⟩
      · rwa [Nat.add_right_comm] at hhigh
      · exact (Int.lt_add_one_of_le le_rfl).le.trans hnext

theorem pairwise_added {addedBy : MemberID} {id : ℕ} {next : ℤ} {items : List ItemID} :
    (added addedBy id next items).Pairwise fun a b =>
      a.entryID < b.entryID ∧ a.position < b.position := by
  induction items generalizing id next with
  | nil => exact List.Pairwise.nil
  | cons item items ih =>
    refine List.Pairwise.cons (fun row hrow => ?_) ih
    obtain ⟨hid, -, hnext⟩ := mem_added hrow
    exact ⟨Nat.lt_of_succ_le hid, Int.lt_of_add_one_le hnext⟩

theorem QueueSound.readQueue (h : QueueSound r) : Numbered r.queue r.readQueue := by
  obtain ⟨order, horder⟩ := h.numbered
  rw [horder.ordered.readQueue]
  exact horder

/-- The queue, its keys numbered again in the order of a read. -/
def renumbered (r : Room) : Room :=
  { r with queue := renumber 0 (r.readQueue.map QueueRow.entryID) r.queue }

theorem numbered_renumbered {order : List QueueRow} (h : Ordered r.queue order) :
    (∃ order', Numbered (renumbered r).queue order' ∧
      order'.map QueueRow.entryID = order.map QueueRow.entryID) ∧
    (renumbered r).queue.map QueueRow.entryID = r.queue.map QueueRow.entryID := by
  have hread := h.readQueue
  unfold renumbered
  dsimp only
  rw [hread]
  refine ⟨numbered_renumber ?_ h.nodup, entryID_renumber _ h.nodup 0⟩
  exact h.perm.map _

theorem ordered_added {order : List QueueRow} (addedBy : MemberID) (items : List ItemID)
    (h : Numbered r.queue order) (hfresh : ∀ row ∈ r.queue, row.entryID < r.nextID) :
    Ordered (r.queue ++ added addedBy r.nextID r.queue.length items)
      (order ++ added addedBy r.nextID r.queue.length items) := by
  refine ⟨h.perm.append_right _, ?_, ?_⟩
  · rw [List.map_append, List.nodup_append]
    refine ⟨h.nodup, ?_, ?_⟩
    · exact List.pairwise_map.mpr (pairwise_added.imp fun hab => hab.1.ne)
    · rintro _ hleft _ hright heq
      obtain ⟨old, hold, rfl⟩ := List.mem_map.mp hleft
      obtain ⟨new, hnew, rfl⟩ := List.mem_map.mp hright
      have hbefore := hfresh old (h.perm.mem_iff.mp hold)
      exact absurd heq (hbefore.trans_le (mem_added hnew).1).ne
  · refine List.pairwise_append.mpr ⟨h.ordered.increasing, ?_, ?_⟩
    · exact pairwise_added.imp fun hab => hab.2
    · intro old hold new hnew
      -- the old places are below the queue's length, the new ones aren't
      obtain ⟨i, hi, rfl⟩ := List.getElem_of_mem hold
      rw [h.positions i hi]
      have hlength := h.perm.length_eq
      have hnext := (mem_added hnew).2.2
      omega

theorem mem_of_keys {row : QueueRow}
    (hkeys : t.queue.map QueueRow.entryID = s.queue.map QueueRow.entryID) (hrow : row ∈ s.queue) :
    ∃ row' ∈ t.queue, row'.entryID = row.entryID := by
  have hkey : row.entryID ∈ t.queue.map QueueRow.entryID := hkeys ▸ List.mem_map_of_mem hrow
  exact List.mem_map.mp hkey

/-- The queue after an edit, for the group: numbered, with its keys. -/
structure Edited (r t : Room) : Prop where
  group : t.group = r.group
  numbered : ∃ order, Numbered t.queue order
  fresh : ∀ row ∈ t.queue, row.entryID < t.nextID

theorem edited_renumbered {order : List QueueRow} (h : Ordered r.queue order)
    (hfresh : ∀ row ∈ r.queue, row.entryID < r.nextID) : Edited r (renumbered r) := by
  obtain ⟨⟨order', hnumbered, -⟩, hkeys⟩ := numbered_renumbered h
  refine ⟨rfl, ⟨order', hnumbered⟩, fun row hrow => ?_⟩
  have hkey : row.entryID ∈ r.queue.map QueueRow.entryID := hkeys ▸ List.mem_map_of_mem hrow
  obtain ⟨old, hold, hid⟩ := List.mem_map.mp hkey
  rw [← hid]
  exact hfresh old hold

/-- The keys an edit keeps. -/
def KeepsEntry (req : QueueRequest) (id : EntryID) : Prop :=
  match req.operation with
  | .append | .move => True
  | .replace => False
  | .remove => req.entryID ≠ some id

instance {req : QueueRequest} {id : EntryID} : Decidable (KeepsEntry req id) := by
  unfold KeepsEntry
  cases req.operation <;> infer_instance

/-- **What an edit does to the queue.** -/
theorem editQueue_ok {req : QueueRequest} (h : QueueSound r)
    (hedit : r.editQueue env viewer m req = .ok t) :
    Edited r t ∧ ∀ row ∈ r.queue, KeepsEntry req row.entryID →
      ∃ row' ∈ t.queue, row'.entryID = row.entryID := by
  have happend : ∀ {q : Room}, QueueSound q → ∀ {u},
      (if maxQueueEntries < q.queue.length + req.itemIDs.length then .error .queueFull
        else (q.appendItems env viewer m.id q.queue.length req.itemIDs).map renumbered) =
        (.ok u : Except Fault Room) →
      Edited q u ∧ ∀ row ∈ q.queue, ∃ row' ∈ u.queue, row'.entryID = row.entryID := by
    intro q hq u hu
    split_ifs at hu
    obtain ⟨v, hv, rfl⟩ := exists_of_map_eq_ok hu
    obtain rfl := appendItems_ok hv
    have hordered := ordered_added m.id req.itemIDs hq.readQueue hq.fresh
    have hfresh : ∀ row ∈ q.queue ++ added m.id q.nextID q.queue.length req.itemIDs,
        row.entryID < q.nextID + req.itemIDs.length := by
      intro row hrow
      rcases List.mem_append.mp hrow with hrow | hrow
      · exact (hq.fresh row hrow).trans_le (Nat.le_add_right _ _)
      · exact (mem_added hrow).2.1
    refine ⟨?_, fun row hrow => ?_⟩
    · have hedited := edited_renumbered
        (r := { q with
          queue := q.queue ++ added m.id q.nextID q.queue.length req.itemIDs
          nextID := q.nextID + req.itemIDs.length }) hordered hfresh
      exact ⟨hedited.group, hedited.numbered, hedited.fresh⟩
    · apply mem_of_keys (numbered_renumbered
        (r := { q with
          queue := q.queue ++ added m.id q.nextID q.queue.length req.itemIDs
          nextID := q.nextID + req.itemIDs.length }) hordered).2
      exact List.mem_append_left _ hrow
  unfold Room.editQueue at hedit
  unfold KeepsEntry
  cases hop : req.operation with
  | append =>
    rw [hop] at hedit
    obtain ⟨hedited, hkeys⟩ := happend h hedit
    exact ⟨hedited, fun row hrow _ => hkeys row hrow⟩
  | replace =>
    rw [hop] at hedit
    -- the emptied queue is sound, and keeps the group
    have hempty : Numbered ({ r with queue := [] } : Room).queue [] :=
      ⟨List.Perm.refl _, List.nodup_nil, fun i hi => absurd hi (Nat.not_lt_zero i)⟩
    have hsound : QueueSound { r with queue := [] } :=
      ⟨⟨[], hempty⟩, fun row hrow => (nomatch hrow), fun row hrow => (nomatch hrow), h.unset⟩
    obtain ⟨hedited, -⟩ := happend hsound hedit
    exact ⟨⟨hedited.group, hedited.numbered, hedited.fresh⟩, fun _ _ hkept => hkept.elim⟩
  | remove =>
    rw [hop] at hedit
    dsimp only at hedit
    split_ifs at hedit
    obtain rfl := Except.ok.inj hedit
    have hordered : Ordered (r.queue.filter fun row => decide (some row.entryID ≠ req.entryID))
        (r.readQueue.filter fun row => decide (some row.entryID ≠ req.entryID)) :=
      h.readQueue.ordered.sublist
    have hedited := edited_renumbered
      (r := { r with queue := r.queue.filter fun row => decide (some row.entryID ≠ req.entryID) })
      hordered fun row hrow => h.fresh row (List.mem_of_mem_filter hrow)
    refine ⟨⟨hedited.group, hedited.numbered, hedited.fresh⟩, fun row hrow hkept => ?_⟩
    apply mem_of_keys (numbered_renumbered
      (r := { r with queue := r.queue.filter fun row => decide (some row.entryID ≠ req.entryID) })
      hordered).2
    exact List.mem_filter.mpr ⟨hrow, by simpa using Ne.symm hkept⟩
  | move =>
    rw [hop] at hedit
    dsimp only at hedit
    split at hedit
    · obtain ⟨ids, hids, rfl⟩ := exists_of_map_eq_ok hedit
      have hperm := queueOrderAfterMove_perm h.readQueue.nodup hids
      have hnodup := hperm.nodup_iff.mpr h.readQueue.nodup
      have hkeys := entryID_renumber r.queue hnodup 0
      obtain ⟨order, hnumbered, -⟩ := numbered_renumber
        (hperm.trans (h.readQueue.perm.map _)) hnodup
      refine ⟨⟨rfl, ⟨order, hnumbered⟩, fun row hrow => ?_⟩, fun row hrow _ => ?_⟩
      · have hkey : row.entryID ∈ r.queue.map QueueRow.entryID := hkeys ▸ List.mem_map_of_mem hrow
        obtain ⟨old, hold, hid⟩ := List.mem_map.mp hkey
        rw [← hid]
        exact h.fresh old hold
      · exact mem_of_keys (s := r) (t := { r with queue := renumber 0 ids r.queue }) hkeys hrow
    · cases hedit

/-! ## Steps -/

theorem queueSound_refreshPosition (hnumbered : ∃ order, Numbered r.queue order)
    (hfresh : ∀ row ∈ r.queue, row.entryID < r.nextID)
    (hunset : r.group.currentEntryID = none → r.group.queuePosition = 0) :
    QueueSound r.refreshPosition := by
  obtain ⟨order, horder⟩ := hnumbered
  unfold Room.refreshPosition
  split
  · rename_i row hfind
    rw [Option.bind_eq_some_iff] at hfind
    obtain ⟨id, hid, hfind⟩ := hfind
    have hrow := List.mem_of_find?_eq_some hfind
    have hkey : row.entryID = id := by simpa using List.find?_some hfind
    refine ⟨⟨order, horder⟩, hfresh, fun row' hrow' hcurrent => ?_, fun hnone => ?_⟩
    · have hsame : row'.entryID = row.entryID := by
        rw [hkey]
        exact Option.some.inj (hcurrent.symm.trans hid)
      rw [horder.ordered.eq_of_entryID hrow' hrow hsame]
    · rw [hid] at hnone
      cases hnone
  · rename_i hfind
    refine ⟨⟨order, horder⟩, hfresh, fun row hrow hcurrent => ?_, hunset⟩
    rw [hcurrent, Option.bind_some, List.find?_eq_none] at hfind
    exact absurd (decide_eq_true rfl) (hfind row hrow)

theorem refreshPosition_current :
    r.refreshPosition.queue = r.queue ∧
      r.refreshPosition.group.currentEntryID = r.group.currentEntryID := by
  unfold Room.refreshPosition
  split <;> exact ⟨rfl, rfl⟩

theorem applyQueue_ok {req : QueueRequest} {answer : Answer}
    (h : applyQueue env now viewer req m s = .ok (answer, t)) :
    ∃ u, s.editQueue env viewer m req = .ok u ∧
      t = { u with
        group := { u.group with queueRevision := u.group.queueRevision + 1 } }.refreshPosition := by
  unfold applyQueue at h
  split_ifs at h
  obtain ⟨u, hu, hresult⟩ := exists_of_map_eq_ok h
  exact ⟨u, hu, (Prod.mk.inj hresult).2.symm⟩

theorem queueSound_applyQueue {req : QueueRequest} {answer : Answer} (hs : QueueSound s)
    (h : applyQueue env now viewer req m s = .ok (answer, t)) :
    QueueSound t ∧ t.group.currentEntryID = s.group.currentEntryID ∧
      ∀ row ∈ s.queue, KeepsEntry req row.entryID →
        ∃ row' ∈ t.queue, row'.entryID = row.entryID := by
  obtain ⟨u, hu, rfl⟩ := applyQueue_ok h
  obtain ⟨hedited, hkeys⟩ := editQueue_ok hs hu
  obtain ⟨hqueue, hcurrent⟩ := refreshPosition_current (r := { u with
    group := { u.group with queueRevision := u.group.queueRevision + 1 } })
  refine ⟨queueSound_refreshPosition hedited.numbered hedited.fresh ?_, ?_, ?_⟩
  · rw [hedited.group]
    exact hs.unset
  · rw [hcurrent, hedited.group]
  · rw [hqueue]
    exact hkeys

theorem queue_rated (rate : Option (ℤ × ℤ)) (g : Group) :
    (g.rated rate).queuePosition = g.queuePosition ∧
      (g.rated rate).currentEntryID = g.currentEntryID ∧
      (g.rated rate).repeatMode = g.repeatMode := by
  unfold Group.rated
  split <;> exact ⟨rfl, rfl, rfl⟩

variable (now s m) in
theorem sameQueue_greeted : SameQueue s (s.greeted now m) := by
  unfold Room.greeted
  have hqueue := queue_hostReturned now s.group
  split_ifs
  · exact ⟨rfl, le_rfl, hqueue.1, hqueue.2.1⟩
  · exact SameQueue.refl s

theorem repeatMode_greeted : (s.greeted now m).group.repeatMode = s.group.repeatMode := by
  unfold Room.greeted
  split_ifs
  · exact (queue_hostReturned _ s.group).2.2
  · rfl

/-- The position a command selects is read off the queue, the stored position and the repeat mode. -/
theorem selectPosition_congr {req : TransportRequest} (hqueue : t.queue = s.queue)
    (hposition : t.group.queuePosition = s.group.queuePosition)
    (hrepeat : t.group.repeatMode = s.group.repeatMode) :
    t.selectPosition req = s.selectPosition req := by
  unfold Room.selectPosition Room.readQueue
  dsimp only
  rw [hqueue, hposition, hrepeat]

theorem queueSound_applyCommand {req : TransportRequest} {answer : Answer} (hs : QueueSound s)
    (h : applyCommand env now req m s = .ok (answer, t)) :
    QueueSound t ∧ t.queue = s.queue ∧
      (¬ req.Selects → t.group.currentEntryID = s.group.currentEntryID) ∧
      (req.Selects → ∃ target entry, s.selectPosition req = .ok target ∧
        s.entryAt target = some entry ∧ t.group.currentEntryID = some entry.entryID) := by
  obtain ⟨-, -, notes, g, happly, rfl, -⟩ := applyCommand_ok h
  have hsame := sameQueue_greeted now s m
  have hrated := queue_rated req.rate (s.greeted now m).group
  -- a command that selects no entry leaves the position and the entry
  have hstay : g.queuePosition = (s.greeted now m).group.queuePosition →
      g.currentEntryID = (s.greeted now m).group.currentEntryID →
      QueueSound { s.greeted now m with group := g.marked req } ∧
        g.currentEntryID = s.group.currentEntryID := by
    intro hposition hcurrent
    refine ⟨hs.of_same ⟨hsame.queue, hsame.nextID, ?_, ?_⟩, hcurrent.trans hsame.current⟩
    · exact hposition.trans hsame.position
    · exact hcurrent.trans hsame.current
  have hnone : ∀ {command : TransportCommand}, req.command = command →
      command ∉ [TransportCommand.next, .previous, .setQueuePosition, .load] → ¬ req.Selects := by
    rintro command rfl hnot
    exact hnot
  rcases Room.applyTransport_ok happly with ⟨hcommand, rfl⟩ | ⟨hcommand, rfl⟩ | ⟨hcommand, -, rfl⟩ |
    ⟨hcommand, -, rfl⟩ | ⟨hselects, hselect⟩
  · obtain ⟨hsound, hcurrent⟩ := hstay hrated.1 hrated.2.1
    exact ⟨hsound, hsame.queue, fun _ => hcurrent, fun h => absurd h (hnone hcommand (by decide))⟩
  · obtain ⟨hsound, hcurrent⟩ := hstay hrated.1 hrated.2.1
    exact ⟨hsound, hsame.queue, fun _ => hcurrent, fun h => absurd h (hnone hcommand (by decide))⟩
  · obtain ⟨hsound, hcurrent⟩ := hstay hrated.1 hrated.2.1
    exact ⟨hsound, hsame.queue, fun _ => hcurrent, fun h => absurd h (hnone hcommand (by decide))⟩
  · obtain ⟨hsound, hcurrent⟩ := hstay hrated.1 hrated.2.1
    exact ⟨hsound, hsame.queue, fun _ => hcurrent, fun h => absurd h (hnone hcommand (by decide))⟩
  · obtain ⟨target, entry, -, htarget, hentry, -, rfl⟩ := Room.selectEntry_ok hselect
    have hentry' : s.entryAt target = some entry := by
      unfold Room.entryAt at hentry ⊢
      rw [← hsame.queue]
      exact hentry
    obtain ⟨hmem, hposition⟩ := mem_of_entryAt hentry'
    have hnew : ∀ h : Group, (h.started now target entry req.start).queuePosition = target ∧
        (h.started now target entry req.start).currentEntryID = some entry.entryID := by
      intro h
      unfold Group.started Group.beginWait
      dsimp only
      split_ifs <;> exact ⟨rfl, rfl⟩
    have hset := hnew ((s.greeted now m).group.rated req.rate)
    refine ⟨⟨?_, ?_, ?_, ?_⟩, hsame.queue, fun h => absurd hselects h, fun _ =>
      ⟨target, entry, ?_, hentry', hset.2⟩⟩
    · obtain ⟨order, horder⟩ := hs.numbered
      exact ⟨order, hsame.queue ▸ horder⟩
    · intro row hrow
      rw [show ({ s.greeted now m with group := _ } : Room).queue = s.queue from hsame.queue] at hrow
      exact (hs.fresh row hrow).trans_le hsame.nextID
    · intro row hrow hcurrent
      rw [show ({ s.greeted now m with group := _ } : Room).queue = s.queue from hsame.queue] at hrow
      obtain ⟨order, horder⟩ := hs.numbered
      have hid : row.entryID = entry.entryID := Option.some.inj (hcurrent.symm.trans hset.2)
      rw [horder.ordered.eq_of_entryID hrow hmem hid, hposition]
      exact hset.1
    · intro hempty
      have hcurrent := hset.2
      rw [show ((s.greeted now m).group.rated req.rate |>.started now target entry
        req.start).currentEntryID = none from hempty] at hcurrent
      cases hcurrent
    · rw [← htarget]
      exact (selectPosition_congr
        (t := { s.greeted now m with group := (s.greeted now m).group.rated req.rate })
        hsame.queue (hrated.1.trans hsame.position)
        (hrated.2.2.trans repeatMode_greeted)).symm

/-- **Every action keeps the queue sound.** -/
theorem QueueSound.served {a : Action} (h : QueueSound r) (hserved : Served env now r a s) :
    QueueSound s := by
  cases hserved with
  | idle => exact h
  | swept _ hswept => exact h.of_same ((sameQueue_sweepGroup _ _).trans sameQueue_save)
  | transport viewer req m s answer t hvalid hruns happly =>
    exact (queueSound_applyCommand (h.of_same hruns.sameQueue) happly).1.of_same sameQueue_receive
  | settings viewer req m s answer t hvalid hruns happly =>
    exact (h.of_same hruns.sameQueue).of_same
      ((sameQueue_applySettings happly).trans sameQueue_receive)
  | queue viewer req m s answer t hvalid hruns happly =>
    exact (queueSound_applyQueue (h.of_same hruns.sameQueue) happly).1.of_same sameQueue_receive
  | heartbeat viewer device m s t henters hchange =>
    exact h.of_same (henters.sameQueue.trans
      ((sameQueue_applyHeartbeat hchange).trans sameQueue_settledAs))
  | readiness viewer req m s t hvalid henters hchange =>
    exact h.of_same (henters.sameQueue.trans
      ((sameQueue_applyReadiness hchange).trans sameQueue_settledAs))
  | endGroup viewer expected m s t henters hchange =>
    exact h.of_same (henters.sameQueue.trans
      ((sameQueue_applyEnd hchange).trans sameQueue_settledAs))
  | leave viewer m s t henters hchange =>
    exact h.of_same (henters.sameQueue.trans
      ((sameQueue_applyLeave hchange).trans sameQueue_settledAs))
  | transfer viewer device req m s t henters hchange =>
    exact h.of_same (henters.sameQueue.trans
      ((sameQueue_applyTransfer hchange).trans sameQueue_settledAs))
  | createInvite viewer code req m i hm hhost hjoined hlive hid hcode huses hbound hrevoked =>
    exact h.of_same ⟨rfl, Nat.le_succ _, rfl, rfl⟩
  | revokeInvite viewer id m hm hhost => exact h.of_same ⟨rfl, le_rfl, rfl, rfl⟩
  | join viewer code i m s hi hrecipient hrevoked hexpires huses hlive henter =>
    exact h.of_same ((sameQueue_enter henter).trans ⟨rfl, le_rfl, rfl, rfl⟩)

theorem queueSound_createGroup {device : DeviceID} {authority : HostAuthority} :
    QueueSound (createGroup now viewer device authority) := by
  have hempty : Numbered (createGroup now viewer device authority).queue [] :=
    ⟨List.Perm.refl _, List.nodup_nil, fun i hi => absurd hi (Nat.not_lt_zero i)⟩
  exact ⟨⟨[], hempty⟩, fun row hrow => (nomatch hrow), fun row hrow => (nomatch hrow),
    fun _ => rfl⟩

/-! ## The current entry -/

/-- An edit that takes the current entry out of the queue. -/
def TakesCurrent (r : Room) : Action → Prop
  | .queue _ req => ∃ id, r.group.currentEntryID = some id ∧ ¬ KeepsEntry req id
  | _ => False

/-- The current entry is in the queue. -/
def CurrentPresent (r : Room) : Prop :=
  ∀ id, r.group.currentEntryID = some id → ∃ row ∈ r.queue, row.entryID = id

theorem CurrentPresent.of_same (h : CurrentPresent r) (hsame : SameQueue r s) :
    CurrentPresent s := by
  unfold CurrentPresent
  rw [hsame.current, hsame.queue]
  exact h

theorem CurrentPresent.served {a : Action} (hsound : QueueSound r) (h : CurrentPresent r)
    (htakes : ¬ TakesCurrent r a) (hserved : Served env now r a s) : CurrentPresent s := by
  cases hserved with
  | idle => exact h
  | swept _ hswept => exact h.of_same ((sameQueue_sweepGroup _ _).trans sameQueue_save)
  | transport viewer req m s answer t hvalid hruns happly =>
    have hs := h.of_same hruns.sameQueue
    obtain ⟨-, hqueue, hstay, hselect⟩ :=
      queueSound_applyCommand (hsound.of_same hruns.sameQueue) happly
    refine CurrentPresent.of_same (r := t) (fun id hid => ?_) sameQueue_receive
    rw [hqueue]
    by_cases hselects : req.Selects
    · obtain ⟨target, entry, -, hentry, hcurrent⟩ := hselect hselects
      exact ⟨entry, (mem_of_entryAt hentry).1, Option.some.inj (hcurrent.symm.trans hid)⟩
    · rw [hstay hselects] at hid
      exact hs id hid
  | settings viewer req m s answer t hvalid hruns happly =>
    exact h.of_same (hruns.sameQueue.trans
      ((sameQueue_applySettings happly).trans sameQueue_receive))
  | queue viewer req m s answer t hvalid hruns happly =>
    have hs := h.of_same hruns.sameQueue
    obtain ⟨-, hcurrent, hkeys⟩ := queueSound_applyQueue (hsound.of_same hruns.sameQueue) happly
    refine CurrentPresent.of_same (r := t) (fun id hid => ?_) sameQueue_receive
    rw [hcurrent] at hid
    obtain ⟨row, hrow, rfl⟩ := hs id hid
    apply hkeys row hrow
    by_contra hgone
    exact htakes ⟨row.entryID, hruns.sameQueue.current ▸ hid, hgone⟩
  | heartbeat viewer device m s t henters hchange =>
    exact h.of_same (henters.sameQueue.trans
      ((sameQueue_applyHeartbeat hchange).trans sameQueue_settledAs))
  | readiness viewer req m s t hvalid henters hchange =>
    exact h.of_same (henters.sameQueue.trans
      ((sameQueue_applyReadiness hchange).trans sameQueue_settledAs))
  | endGroup viewer expected m s t henters hchange =>
    exact h.of_same (henters.sameQueue.trans
      ((sameQueue_applyEnd hchange).trans sameQueue_settledAs))
  | leave viewer m s t henters hchange =>
    exact h.of_same (henters.sameQueue.trans
      ((sameQueue_applyLeave hchange).trans sameQueue_settledAs))
  | transfer viewer device req m s t henters hchange =>
    exact h.of_same (henters.sameQueue.trans
      ((sameQueue_applyTransfer hchange).trans sameQueue_settledAs))
  | createInvite viewer code req m i hm hhost hjoined hlive hid hcode huses hbound hrevoked =>
    exact h.of_same (SameQueue.mk rfl (Nat.le_succ _) rfl rfl)
  | revokeInvite viewer id m hm hhost => exact h.of_same (SameQueue.mk rfl le_rfl rfl rfl)
  | join viewer code i m s hi hrecipient hrevoked hexpires huses hlive henter =>
    exact h.of_same ((sameQueue_enter henter).trans (SameQueue.mk rfl le_rfl rfl rfl))

/-! ## Next and previous -/

/-- The entry a step from the current one leads to: its neighbour, or, in a queue that repeats, the
other end. -/
def Leads (order : List EntryID) (current : EntryID) (repeats : Prop) :
    TransportCommand → EntryID → Prop
  | .next, x => (∃ before after, order = before ++ current :: x :: after) ∨
      repeats ∧ order.getLast? = some current ∧ order.head? = some x
  | .previous, x => (∃ before after, order = before ++ x :: current :: after) ∨
      repeats ∧ order.head? = some current ∧ order.getLast? = some x
  | _, _ => False

/-- Nothing is left in the direction of a step. -/
def AtEnd (order : List EntryID) (current : EntryID) : TransportCommand → Prop
  | .next => order.getLast? = some current
  | .previous => order.head? = some current
  | _ => False

/-- The entries in the order of the queue. -/
def Room.entries (r : Room) : List EntryID := r.readQueue.map QueueRow.entryID

theorem neighbours {α : Type*} {l : List α} {i : ℕ} {a b : α} (ha : l[i]? = some a)
    (hb : l[i + 1]? = some b) : l = l.take i ++ a :: b :: l.drop (i + 2) := by
  obtain ⟨hi, rfl⟩ := List.getElem?_eq_some_iff.mp ha
  obtain ⟨hi', rfl⟩ := List.getElem?_eq_some_iff.mp hb
  conv_lhs => rw [← List.take_append_drop i l, List.drop_eq_getElem_cons hi,
    List.drop_eq_getElem_cons hi']

/-- The position a step selects is the place of the entry it leads to. -/
theorem selectPosition_step {req : TransportRequest} {current : EntryID} (h : QueueSound r)
    (hpresent : CurrentPresent r) (hcurrent : r.group.currentEntryID = some current)
    (hstep : req.command = .next ∨ req.command = .previous) :
    (∃ i, ∃ hi : i < r.readQueue.length, r.selectPosition req = .ok (i : ℤ) ∧
      Leads r.entries current (r.group.repeatMode = .all) req.command r.readQueue[i].entryID) ∨
    (r.selectPosition req = .error .targetUnavailable ∧ AtEnd r.entries current req.command ∧
      r.group.repeatMode ≠ .all) := by
  have hnumbered := h.readQueue
  obtain ⟨row, hrow, rfl⟩ := hpresent current hcurrent
  obtain ⟨i, hi, rfl, hplace⟩ := hnumbered.split hrow
  have hposition : r.group.queuePosition = i := (h.synced _ hrow hcurrent).trans hplace
  have hlength : r.queue.length = r.readQueue.length := hnumbered.perm.length_eq.symm
  have hids : ∀ j (hj : j < r.readQueue.length), r.entries[j]? = some r.readQueue[j].entryID := by
    intro j hj
    unfold Room.entries
    rw [List.getElem?_map, List.getElem?_eq_getElem hj]
    rfl
  have hcount : r.entries.length = r.readQueue.length := List.length_map _
  unfold Room.selectPosition
  dsimp only
  rw [hposition, hlength]
  rcases hstep with hstep | hstep
  · rw [hstep]
    dsimp only
    by_cases hnext : (i : ℤ) + 1 < r.readQueue.length
    · have hj : i + 1 < r.readQueue.length := by exact_mod_cast hnext
      left
      refine ⟨i + 1, hj, by rw [if_pos hnext]; rfl, Or.inl ⟨_, _, neighbours (hids i hi) (hids _ hj)⟩⟩
    · -- the current entry is the last one
      have hlast : r.entries.getLast? = some r.readQueue[i].entryID := by
        rw [List.getLast?_eq_getElem?, ← hids i hi]
        congr 1
        omega
      rw [if_neg hnext]
      by_cases hrepeat : r.group.repeatMode = .all
      · have hj : 0 < r.readQueue.length := by omega
        left
        refine ⟨0, hj, if_neg (not_not.mpr hrepeat), Or.inr ⟨hrepeat, hlast, ?_⟩⟩
        rw [List.head?_eq_getElem?]
        exact hids 0 hj
      · exact Or.inr ⟨if_pos hrepeat, hlast, hrepeat⟩
  · rw [hstep]
    dsimp only
    by_cases hprevious : 0 ≤ (i : ℤ) - 1
    · have hj : i - 1 < r.readQueue.length := by omega
      have hi' : i - 1 + 1 = i := by omega
      left
      refine ⟨i - 1, hj, ?_, Or.inl ⟨_, _, neighbours (hids _ hj) ?_⟩⟩
      · rw [if_pos hprevious]
        congr 1
        omega
      · rw [hi']
        exact hids i hi
    · -- the current entry is the first one
      have hfirst : r.entries.head? = some r.readQueue[i].entryID := by
        rw [List.head?_eq_getElem?, ← hids i hi]
        congr 1
        omega
      rw [if_neg hprevious]
      by_cases hrepeat : r.group.repeatMode = .all
      · have hj : r.readQueue.length - 1 < r.readQueue.length := by omega
        left
        refine ⟨r.readQueue.length - 1, hj, ?_, Or.inr ⟨hrepeat, hfirst, ?_⟩⟩
        · rw [if_neg (not_not.mpr hrepeat)]
          congr 1
          omega
        · rw [List.getLast?_eq_getElem?, hcount]
          exact hids _ hj
      · exact Or.inr ⟨if_pos hrepeat, hfirst, hrepeat⟩

theorem repeatMode_sweepGroup :
    ((r.sweepGroup now).2.seen now m.id).group.repeatMode = r.group.repeatMode :=
  (Room.keeps_sweepGroup now r).repeatMode

theorem Room.Runs.entries {key : String} (h : Room.Runs env now viewer key r m s) :
    s.entries = r.entries ∧ s.group.repeatMode = r.group.repeatMode := by
  refine ⟨?_, ?_⟩
  · unfold Room.entries Room.readQueue
    rw [h.sameQueue.queue]
  · rw [h.room]
    exact repeatMode_sweepGroup

/-- A step that is taken leads to the neighbour of the current entry. -/
theorem transport_step {req : TransportRequest} {current : EntryID} {receipt : TransportReceipt}
    (h : QueueSound r) (hpresent : CurrentPresent r)
    (hcurrent : r.group.currentEntryID = some current)
    (hstep : req.command = .next ∨ req.command = .previous)
    (hanswer : (transport env now viewer req r).1 = .ok (.transport receipt))
    (haccepted : receipt.disposition = .accepted) :
    ∃ x, (transport env now viewer req r).2.group.currentEntryID = some x ∧
      Leads r.entries current (r.group.repeatMode = .all) req.command x := by
  obtain ⟨m, s, answer, t, hruns, happly, hroom⟩ := Room.transport_accepted hanswer haccepted
  have hsame := hruns.sameQueue
  obtain ⟨hentries, hrepeat⟩ := hruns.entries
  have hs := h.of_same hsame
  have hselects : req.Selects := by
    unfold TransportRequest.Selects
    rcases hstep with hstep | hstep <;> rw [hstep] <;> decide
  obtain ⟨-, -, -, hselect⟩ := queueSound_applyCommand hs happly
  obtain ⟨target, entry, htarget, hentry, hnew⟩ := hselect hselects
  refine ⟨entry.entryID, ?_, ?_⟩
  · rw [hroom]
    exact hnew
  · have hpresent' := hpresent.of_same hsame
    rcases selectPosition_step hs hpresent' (hsame.current.trans hcurrent) hstep with
      ⟨i, hi, hposition, hleads⟩ | ⟨hrefused, -⟩
    · obtain rfl : target = i := Except.ok.inj (htarget.symm.trans hposition)
      rw [hs.readQueue.entryAt i hi] at hentry
      obtain rfl := Option.some.inj hentry
      rw [hentries, hrepeat] at hleads
      exact hleads
    · rw [htarget] at hrefused
      cases hrefused

/-- A step is refused for want of a target only at the end of the queue. -/
theorem transport_end {req : TransportRequest} {current : EntryID} (h : QueueSound r)
    (hpresent : CurrentPresent r) (hcurrent : r.group.currentEntryID = some current)
    (hstep : req.command = .next ∨ req.command = .previous)
    (hrefused : (transport env now viewer req r).1 = .error .targetUnavailable) :
    AtEnd r.entries current req.command ∧ r.group.repeatMode ≠ .all := by
  obtain ⟨-, m, s, hruns, happly⟩ := (Room.transport_error_iff (by simp) (by simp) (by simp)
    (by simp) (by simp)).mp hrefused
  have hsame := hruns.sameQueue
  obtain ⟨hentries, hrepeat⟩ := hruns.entries
  have hs := h.of_same hsame
  have hpresent' := hpresent.of_same hsame
  obtain ⟨row, hrow, -⟩ := hpresent' current (hsame.current.trans hcurrent)
  -- the position was refused: the queue has an entry at every position selected
  rcases selectPosition_step hs hpresent' (hsame.current.trans hcurrent) hstep with
    ⟨i, hi, hposition, -⟩ | ⟨-, hend, hrepeats⟩
  · exfalso
    have hentry := hs.readQueue.entryAt i hi
    have hgreeted := sameQueue_greeted now s { m with seenMS := now }
    have hrated := queue_rated req.rate (s.greeted now { m with seenMS := now }).group
    have hselect : ({ s.greeted now { m with seenMS := now } with
        group := (s.greeted now { m with seenMS := now }).group.rated req.rate } :
          Room).selectPosition req = s.selectPosition req :=
      selectPosition_congr hgreeted.queue (hrated.1.trans hgreeted.position)
        (hrated.2.2.trans repeatMode_greeted)
    rcases Room.selectEntry_unavailable (applyCommand_unavailable hstep happly) with
      hempty | ⟨fault, hfault⟩ | ⟨target, htarget, hnone⟩
    · rw [show ({ s.greeted now { m with seenMS := now } with group := _ } : Room).queue = s.queue
        from hgreeted.queue] at hempty
      rw [hempty] at hrow
      cases hrow
    · rw [hselect, hposition] at hfault
      cases hfault
    · rw [hselect, hposition] at htarget
      obtain rfl : (i : ℤ) = target := Except.ok.inj htarget
      unfold Room.entryAt at hnone hentry
      rw [show ({ s.greeted now { m with seenMS := now } with group := _ } : Room).queue = s.queue
        from hgreeted.queue, hentry] at hnone
      cases hnone
  · rw [hentries] at hend
    rw [hrepeat] at hrepeats
    exact ⟨hend, hrepeats⟩

/-! ## The law -/

/-- The law of the queue in a state. -/
structure QueueLaw (r : Room) : Prop where
  /-- The positions are the places. -/
  places : ∀ i (hi : i < r.readQueue.length), r.readQueue[i].position = i
  /-- The stored position is the current entry's. -/
  synced : ∀ row ∈ r.queue, r.group.currentEntryID = some row.entryID →
    r.group.queuePosition = row.position
  present : CurrentPresent r
  /-- The stored position is inside the queue. -/
  inside : r.queue ≠ [] → 0 ≤ r.group.queuePosition ∧ r.group.queuePosition < r.queue.length
  /-- A step that is taken leads to the neighbour. -/
  steps : ∀ env now viewer req current receipt,
    req.command = TransportCommand.next ∨ req.command = TransportCommand.previous →
    r.group.currentEntryID = some current →
    (transport env now viewer req r).1 = .ok (.transport receipt) →
    receipt.disposition = .accepted →
    ∃ x, (transport env now viewer req r).2.group.currentEntryID = some x ∧
      Leads r.entries current (r.group.repeatMode = .all) req.command x
  /-- A step is reported as one past the end only at the end. -/
  ends : ∀ env now viewer req current,
    req.command = TransportCommand.next ∨ req.command = TransportCommand.previous →
    r.group.currentEntryID = some current →
    (transport env now viewer req r).1 = .error .targetUnavailable →
    AtEnd r.entries current req.command ∧ r.group.repeatMode ≠ .all

theorem QueueSound.law (h : QueueSound r) (hpresent : CurrentPresent r) : QueueLaw r := by
  have hnumbered := h.readQueue
  have hlength : r.queue.length = r.readQueue.length := hnumbered.perm.length_eq.symm
  refine ⟨hnumbered.positions, h.synced, hpresent, fun hne => ?_, ?_, ?_⟩
  · cases hcurrent : r.group.currentEntryID with
    | none =>
      rw [h.unset hcurrent]
      have hpos := List.length_pos_iff.mpr hne
      omega
    | some current =>
      obtain ⟨row, hrow, rfl⟩ := hpresent current hcurrent
      obtain ⟨i, hi, -, hplace⟩ := hnumbered.split hrow
      rw [h.synced row hrow hcurrent, hplace]
      omega
  · intro env now viewer req current receipt hstep hcurrent hanswer haccepted
    exact transport_step h hpresent hcurrent hstep hanswer haccepted
  · intro env now viewer req current hstep hcurrent hrefused
    exact transport_end h hpresent hcurrent hstep hrefused

/-- **The shared queue.** In every run of a group whose edits leave the current entry in the queue,
the positions are the places in the queue, the stored position is the current entry's, and next and
previous lead to its neighbours and end only at the ends. -/
theorem shared_queue (now : ℤ) (viewer : Viewer) (device : DeviceID) (authority : HostAuthority)
    (es : List Event) (r : Room)
    (hrun : Machine.run act (createGroup now viewer device authority) es = some r)
    (heach : Machine.Each act (fun r e => ¬ TakesCurrent r e.action)
      (createGroup now viewer device authority) es) : QueueLaw r := by
  have hinv : QueueSound r ∧ CurrentPresent r := by
    refine Machine.run_history (P := fun _ r => QueueSound r ∧ CurrentPresent r)
      (Q := fun r e => ¬ TakesCurrent r e.action) ⟨queueSound_createGroup, ?_⟩ ?_ hrun heach
    · intro id hid
      cases hid
    · rintro _ r e r' ⟨hsound, hpresent⟩ htakes hact
      have hserved := act_served hact
      exact ⟨hsound.served hserved, hpresent.served hsound htakes hserved⟩
  exact hinv.1.law hinv.2

def queueRequest (key : String) (expected : ℤ) (operation : QueueOperation) (items : List ItemID)
    (entry : Option EntryID) : QueueRequest :=
  ⟨key, expected, operation, items, entry, none, none⟩

def transportRequest (key : String) (expected : ℤ) (command : TransportCommand)
    (entry : Option EntryID) : TransportRequest :=
  ⟨key, expected, command, none, none, entry, none, false⟩

/-- The host fills the queue and loads its first entry. -/
def listening (items : List ItemID) : List Event :=
  [⟨⟨false, fun _ _ => true⟩, 1001, .queue ⟨1, 1, 1⟩ (queueRequest "a" 1 .append items none)⟩,
    ⟨⟨false, fun _ _ => true⟩, 1002, .transport ⟨1, 1, 1⟩ (transportRequest "b" 1 .load (some 1))⟩]

/-- The host takes the entry it listens to out of the queue. -/
def removal : Event :=
  ⟨⟨false, fun _ _ => true⟩, 1003, .queue ⟨1, 1, 1⟩ (queueRequest "c" 2 .remove [] (some 1))⟩

theorem shared_queue_listening : ∃ r,
    Machine.run act (createGroup 1000 ⟨1, 1, 1⟩ 5 .hostOnly) (listening [10, 11]) = some r ∧
      QueueLaw r := by
  refine ⟨_, rfl, shared_queue 1000 ⟨1, 1, 1⟩ 5 .hostOnly (listening [10, 11]) _ rfl ?_⟩
  refine ⟨?_, fun r hr => ⟨fun htakes => htakes, fun _ _ => trivial⟩⟩
  rintro ⟨id, hid, -⟩
  cases hid

/-- After the first of three entries was taken out, next passes over the second; of two, it reports
the end. -/
theorem shared_queue_skips :
    (∃ r, Machine.run act (createGroup 1000 ⟨1, 1, 1⟩ 5 .hostOnly)
        (listening [10, 11, 12] ++ [removal]) = some r ∧ r.entries = [2, 3] ∧
      (transport ⟨false, fun _ _ => true⟩ 1004 ⟨1, 1, 1⟩ (transportRequest "d" 2 .next none)
        r).2.group.currentEntryID = some 3) ∧
    (∃ r, Machine.run act (createGroup 1000 ⟨1, 1, 1⟩ 5 .hostOnly)
        (listening [10, 11] ++ [removal]) = some r ∧ r.entries = [2] ∧
      (transport ⟨false, fun _ _ => true⟩ 1004 ⟨1, 1, 1⟩ (transportRequest "d" 2 .next none)
        r).1 = .error .targetUnavailable) := by
  refine ⟨⟨_, rfl, ?_, ?_⟩, ⟨_, rfl, ?_, ?_⟩⟩
  · decide +kernel
  · decide +kernel
  · decide +kernel
  · decide +kernel

end Portico.WatchTogether
