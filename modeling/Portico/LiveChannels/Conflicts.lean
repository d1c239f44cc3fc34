import Portico.LiveChannels.Allocator

/-!
# Where a reservation loses its tuner

The reservations of a source are ranked: by priority, then by start, then by number. A reservation
loses its tuner where reservations that rank before it need all tuners. Those of one channel share a
tuner.
-/

namespace Portico.LiveChannels

namespace Conflicts

structure Reservation where
  channelID : String
  id : String
  start : ℤ
  stop : ℤ
  priority : ℤ
deriving DecidableEq, Repr

/-- An interval in which a reservation has no tuner, with the channels that are needed in it. -/
structure LosingInterval where
  start : ℤ
  stop : ℤ
  demand : ℤ
  capacity : ℤ
deriving DecidableEq, Repr

def reservationBefore (a b : Reservation) : Bool :=
  if a.priority ≠ b.priority then b.priority < a.priority
  else if a.start ≠ b.start then a.start < b.start
  else a.id < b.id

/-- A reservation begins or ends. `higher` is `demand` for one that ranks before the target, and
zero for any other. -/
structure Edge where
  instant : ℤ
  demand : ℤ
  higher : ℤ
  channel : String
deriving DecidableEq, Repr

/-- The channels that are needed, and those that are needed by reservations that rank before the
target, with the count of each; and the losing intervals so far. -/
structure Sweep where
  demand : ℤ := 1
  higher : ℤ := 0
  counts : String → ℤ × ℤ := fun _ => (0, 0)
  last : ℤ
  found : List LosingInterval := []

/-- The intervals with one more, which carries the last one on when it has the same demand. -/
def extend (found : List LosingInterval) (x : LosingInterval) : List LosingInterval :=
  match found.getLast? with
  | some l =>
    if l.stop = x.start ∧ l.demand = x.demand then found.dropLast ++ [{ l with stop := x.stop }]
    else found ++ [x]
  | none => [x]

def Sweep.move (capacity : ℤ) (s : Sweep) (e : Edge) : Sweep :=
  let old := s.counts e.channel
  let next := (old.1 + e.demand, old.2 + e.higher)
  { demand :=
      if old.1 = 0 ∧ 0 < next.1 then s.demand + 1
      else if 0 < old.1 ∧ next.1 = 0 then s.demand - 1 else s.demand
    higher :=
      if old.2 = 0 ∧ 0 < next.2 then s.higher + 1
      else if 0 < old.2 ∧ next.2 = 0 then s.higher - 1 else s.higher
    counts := Function.update s.counts e.channel next
    last := e.instant
    found :=
      if s.last < e.instant ∧ capacity ≤ s.higher then
        extend s.found ⟨s.last, e.instant, s.demand, capacity⟩
      else s.found }

/-- The edges of a reservation, within the target. -/
def edges (target r : Reservation) : List Edge :=
  let higher := if reservationBefore r target then 1 else 0
  let channel := if r.channelID = "" then r.id else r.channelID
  [⟨max r.start target.start, 1, higher, channel⟩, ⟨min r.stop target.stop, -1, -higher, channel⟩]

/-- A reservation that competes with the target. -/
def rival (target r : Reservation) : Bool :=
  r.id ≠ target.id && !(target.channelID ≠ "" && r.channelID = target.channelID) &&
    r.start < target.stop && target.start < r.stop

end Conflicts

open Conflicts

/-- The intervals in which a reservation has no tuner. -/
def conflicts (all : List Conflicts.Reservation) (target : String) (capacity : Capacity) :
    List LosingInterval :=
  if capacity.known = false then []
  else match all.find? fun r => r.id = target with
  | none => []
  | some selected =>
    if selected.stop ≤ selected.start then []
    else
      ((((all.filter (rival selected)).flatMap (Conflicts.edges selected)).insertionSort
        fun e f => e.instant ≤ f.instant).foldl (Sweep.move capacity.effective)
          { last := selected.start }).found

theorem conflicts_of_not_mem {all : List Conflicts.Reservation} {target : String} {capacity : Capacity}
    (h : ∀ r ∈ all, r.id ≠ target) : conflicts all target capacity = [] := by
  unfold conflicts
  split_ifs
  · rfl
  · rw [List.find?_eq_none.mpr (by simpa using h)]

end Portico.LiveChannels
