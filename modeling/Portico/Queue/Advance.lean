import Portico.Queue.Commands

/-!
# Moving through a queue

`Advance` and the queue part of `CommitNext` (`playbackv1/queue_commands.go`, `transitions.go`):
the current position moves, past entries the caller may not play, and a shuffled queue that wraps
takes the next lap's order. A radio queue takes more keys in the same write.
-/

namespace Portico

/-- The most keys of one snapshot. -/
def maxSnapshotKeys : ℕ := 10000000

/-- A prepared radio batch: the snapshot it continues, at the count it was prepared for. -/
structure RadioRefill where
  snapshot : ℕ
  built : ℕ
  ids : List ℕ

namespace Layout

variable (l : Layout)

/-! ## Radio -/

/-- `writeRadioKeysTx`: only new ordinals are appended, to the last segment if it is the snapshot's
end, else to a segment of their own. -/
def writeRadioKeys (refill : RadioRefill) : Except QueueError Layout :=
  let stored : Layout :=
    { l with
      snapshots := l.snapshots.map fun s =>
        if s.id = refill.snapshot then
          { s with keys := s.keys.take refill.built ++ refill.ids
                   count := refill.built + refill.ids.length }
        else s }
  match l.segments.getLast? with
  | some tail =>
    if tail.snapshot = refill.snapshot ∧ tail.first + tail.count = refill.built then
      .ok { stored with
        segments := l.segments.modify (l.segments.length - 1) fun g =>
          { g with count := g.count + refill.ids.length } }
    else do
      let key ← sortKeyOr tail.sortKey []
      return stored.addRow refill.snapshot key refill.built refill.ids.length 0
  | none => do
    let key ← sortKeyOr [] []
    return stored.addRow refill.snapshot key refill.built refill.ids.length 0

/-- `appendRadioTx`: the batch is refused unless the snapshot still ends where it was prepared
for. -/
def appendRadio (refill : Option RadioRefill) : Except QueueError Layout :=
  match refill with
  | none => .ok l
  | some refill =>
    if l.q.shuffle ∨ maxQueueKeys < l.total + refill.ids.length ∨
        maxSnapshotKeys < refill.built + refill.ids.length then
      .error .tooLarge
    else
      match l.snapshot? refill.snapshot with
      | none => .error .notFound
      | some s =>
        if s.state ≠ .ready then .error .notFound
        else if s.built ≠ refill.built then .error .revision
        else l.writeRadioKeys refill

end Layout

end Portico
