import Portico.Lib.Machine

/-!
# The authority gate

The server acts for one incarnation at a time (`authoritygate`). Work that acts for it holds a lease,
and commits under it. To install another incarnation, the gate is quiesced: it hands out no leases
and lets no commit start, and its leases are cancelled; when the last lease is closed and the last
commit is over, the incarnation is rotated and the gate is opened again.

Each section under the gate's lock is one event. A commit is two: it is let in, and its callback
returns. A channel is its number, and a waiter that has read one waits until it is closed.

## Main results

* `authority_fenced`: a commit runs under the incarnation of its lease, from its start to its end
* `waitDrained_spec`: who waits for the gate to drain, waits for every lease and every commit
-/

namespace Portico.AuthorityGate

open Machine

structure Lease where
  incarnation : String
  cancelled : Bool := false
  closed : Bool := false
  committing : Bool := false
deriving DecidableEq

/-- `made` has the leases by their numbers, `leases` the numbers of those that are waited for, and
`closedChannels` the channels that were closed. Closing a closed channel panics. -/
structure Gate where
  incarnation : String
  denied : Bool
  made : List Lease := []
  leases : List ℕ := []
  drained : ℕ := 0
  closedChannels : List ℕ := [0]
  panicked : Bool := false
deriving DecidableEq

inductive Event where
  | acquire (expired : Bool)
  | commit (l : ℕ)
  | committed (l : ℕ)
  | close (l : ℕ)
  | expire (l : ℕ)
  | beginQuiesce
  | rotate (incarnation : String)
  | activate (incarnation : String)
deriving DecidableEq

/-- Sixty-four lower-case hexadecimal digits. -/
def digest (s : String) : Bool :=
  s.length = 64 && s.toList.all fun c => ('a' ≤ c && c ≤ 'f') || ('0' ≤ c && c ≤ '9')

def newAuthorityGate (incarnation : String) (denied : Bool) : Option Gate :=
  if digest incarnation then some { incarnation, denied } else none

namespace Gate

variable (g : Gate)

def check (x : Lease) : Bool :=
  !x.closed && !g.denied && g.incarnation = x.incarnation && !x.cancelled

def update (l : ℕ) (f : Lease → Lease) : Gate := { g with made := g.made.modify l f }

def closeDrained : Gate :=
  if g.drained ∈ g.closedChannels then { g with panicked := true }
  else { g with closedChannels := g.drained :: g.closedChannels }

/-- A lease that is waited for no more. The last one closes the channel. -/
def retire (l : ℕ) : Gate :=
  let g := { g with leases := g.leases.filter (· ≠ l) }
  if g.leases = [] then g.closeDrained else g

/-- One section. It gives nothing when the call is refused. -/
def step : Event → Option Gate
  | .acquire expired =>
    if g.denied || expired then none
    else
      some { g with
        made := g.made ++ [{ incarnation := g.incarnation }]
        leases := g.leases ++ [g.made.length]
        drained := if g.leases = [] then g.drained + 1 else g.drained }
  | .commit l =>
    match g.made[l]? with
    | none => none
    | some x =>
      if !g.check x || x.committing then none
      else some (g.update l fun x => { x with committing := true })
  | .committed l =>
    match g.made[l]? with
    | none => none
    | some x =>
      if !x.committing then none
      else
        let g := g.update l fun x => { x with committing := false }
        some (if x.closed then g.retire l else g)
  | .close l =>
    match g.made[l]? with
    | none => none
    | some x =>
      if x.closed then some g
      else
        let g := g.update l fun x => { x with closed := true, cancelled := true }
        some (if x.committing then g else g.retire l)
  | .expire l => some (g.update l fun x => { x with cancelled := true })
  | .beginQuiesce =>
    some { g with
      denied := true
      made := g.made.mapIdx fun i x => if i ∈ g.leases then { x with cancelled := true } else x }
  | .rotate incarnation =>
    if !g.denied || g.leases ≠ [] || !digest incarnation then none
    else some { g with incarnation }
  | .activate incarnation =>
    if !g.denied || g.leases ≠ [] || incarnation ≠ g.incarnation then none
    else some { g with denied := false }

end Gate

/-! ## What the sections keep -/

/-- The gate waits for the leases that aren't closed or still commit, and those are of its
incarnation. Its channel is closed while it waits for none. -/
structure Sound (g : Gate) : Prop where
  waited : ∀ l, l ∈ g.leases ↔ ∃ x, g.made[l]? = some x ∧ (x.closed = false ∨ x.committing = true)
  same : ∀ l ∈ g.leases, ∀ x, g.made[l]? = some x → x.incarnation = g.incarnation
  channel : g.drained ∈ g.closedChannels ↔ g.leases = []
  older : ∀ c ∈ g.closedChannels, c ≤ g.drained
  calm : g.panicked = false

variable {g g' s t : Gate} {l : ℕ} {x : Lease} {f : Lease → Lease} {e : Event} {es : List Event}

theorem getElem?_update {j : ℕ} :
    (g.update l f).made[j]? = if l = j then g.made[j]?.map f else g.made[j]? := by
  unfold Gate.update
  rw [List.getElem?_modify]
  split_ifs
  · rfl
  · simp

theorem Sound.update (h : Sound g) (hx : g.made[l]? = some x)
    (hinc : (f x).incarnation = x.incarnation)
    (hwait : ((f x).closed = false ∨ (f x).committing = true) ↔
      (x.closed = false ∨ x.committing = true)) : Sound (g.update l f) where
  waited j := by
    rw [getElem?_update]
    change j ∈ g.leases ↔ _
    rw [h.waited j]
    split_ifs with hj
    · subst hj
      simp [hx, hwait]
    · rfl
  same j hj y hy := by
    change y.incarnation = g.incarnation
    rw [getElem?_update] at hy
    split_ifs at hy with hlj
    · subst hlj
      rw [hx] at hy
      obtain rfl := Option.some.inj hy
      rw [hinc]
      exact h.same l hj x hx
    · exact h.same j hj y hy
  channel := h.channel
  older := h.older
  calm := h.calm

theorem retire_eq (hopen : g.drained ∉ g.closedChannels) :
    g.retire l =
      { g with
        leases := g.leases.filter (· ≠ l)
        closedChannels := if g.leases.filter (· ≠ l) = [] then g.drained :: g.closedChannels
          else g.closedChannels } := by
  unfold Gate.retire Gate.closeDrained
  dsimp only
  split_ifs
  all_goals rfl

/-- A lease that was waited for, and is closed and doesn't commit any more. -/
theorem Sound.retire (h : Sound g) (hx : g.made[l]? = some x) (hl : l ∈ g.leases)
    (hover : (f x).closed = true ∧ (f x).committing = false) : Sound ((g.update l f).retire l) := by
  have hopen : g.drained ∉ g.closedChannels := fun hd => by
    rw [h.channel.mp hd] at hl
    cases hl
  have hwaited (j : ℕ) : j ∈ g.leases.filter (· ≠ l) ↔
      ∃ y, (g.update l f).made[j]? = some y ∧ (y.closed = false ∨ y.committing = true) := by
    rw [List.mem_filter, decide_eq_true_iff, h.waited j, getElem?_update]
    by_cases hj : l = j
    · subst hj
      rw [if_pos rfl, hx]
      simp [hover]
    · rw [if_neg hj]
      exact and_iff_left (Ne.symm hj)
  have hsame (j : ℕ) (hj : j ∈ g.leases.filter (· ≠ l)) (y : Lease)
      (hy : (g.update l f).made[j]? = some y) : y.incarnation = g.incarnation := by
    obtain ⟨hj, hne⟩ := List.mem_filter.mp hj
    rw [getElem?_update, if_neg (Ne.symm (of_decide_eq_true hne))] at hy
    exact h.same j hj y hy
  rw [retire_eq (g := g.update l f) hopen]
  refine ⟨hwaited, hsame, ?_, fun c hc => ?_, h.calm⟩
  · dsimp only
    split_ifs with hnone
    · exact ⟨fun _ => hnone, fun _ => List.mem_cons_self⟩
    · exact ⟨fun hd => absurd hd hopen, fun hnil => absurd hnil hnone⟩
  · dsimp only at hc
    split_ifs at hc
    · rcases List.mem_cons.mp hc with rfl | hc
      · exact le_rfl
      · exact h.older c hc
    · exact h.older c hc

theorem Sound.acquire (h : Sound g) {expired : Bool} (ht : g.step (.acquire expired) = some t) :
    Sound t := by
  rw [Gate.step] at ht
  by_cases hdenied : (g.denied || expired) = true
  · rw [if_pos hdenied] at ht
    cases ht
  rw [if_neg hdenied] at ht
  obtain rfl := Option.some.inj ht
  refine ⟨fun j => ?_, fun j hj y hy => ?_, ?_, ?_, h.calm⟩
  · rw [List.mem_append, List.mem_singleton, List.getElem?_append]
    split_ifs with hj
    · rw [h.waited j]
      exact or_iff_left hj.ne
    · rw [h.waited j, List.getElem?_eq_none (not_lt.mp hj)]
      constructor
      · rintro (⟨y, hy, -⟩ | rfl)
        · cases hy
        · exact ⟨{ incarnation := g.incarnation }, by simp, .inl rfl⟩
      · rintro ⟨y, hy, -⟩
        have := (List.getElem?_eq_some_iff.mp hy).1
        simp only [List.length_singleton] at this
        exact .inr (by omega)
  · rw [List.getElem?_append] at hy
    split_ifs at hy with hlt
    · rw [List.mem_append, List.mem_singleton] at hj
      exact h.same j (hj.resolve_right hlt.ne) y hy
    · obtain rfl := List.mem_singleton.mp (List.mem_of_getElem? hy)
      rfl
  · have hpast : g.drained + 1 ∉ g.closedChannels := fun hd => by
      have := h.older _ hd
      omega
    dsimp only
    split_ifs with hnil
    · simp [hpast]
    · simp [h.channel, hnil]
  · intro c hc
    have := h.older c hc
    dsimp only
    split_ifs <;> omega

/-- **Every section** keeps the gate sound. -/
theorem Sound.step (h : Sound g) (ht : g.step e = some t) : Sound t := by
  cases e with
  | acquire expired => exact h.acquire ht
  | commit l =>
    rw [Gate.step] at ht
    split at ht
    · cases ht
    · rename_i x hx
      split_ifs at ht with hbad
      obtain rfl := Option.some.inj ht
      simp only [Gate.check, Bool.not_and, Bool.or_eq_true, Bool.not_eq_true', not_or] at hbad
      refine h.update hx rfl ⟨fun _ => .inl ?_, fun _ => .inr rfl⟩
      exact (by simpa using hbad.1.1.1 : x.closed = false ∧ g.denied = false).1
  | committed l =>
    rw [Gate.step] at ht
    split at ht
    · cases ht
    · rename_i x hx
      split_ifs at ht with hcommitting hclosed
      · obtain rfl := Option.some.inj ht
        have hc : x.committing = true := by simpa using hcommitting
        exact h.retire hx ((h.waited l).mpr ⟨x, hx, .inr hc⟩) ⟨hclosed, rfl⟩
      · obtain rfl := Option.some.inj ht
        have hopen : x.closed = false := by simpa using hclosed
        exact h.update hx rfl ⟨fun _ => .inl hopen, fun _ => .inl hopen⟩
  | close l =>
    rw [Gate.step] at ht
    split at ht
    · cases ht
    · rename_i x hx
      split_ifs at ht with hclosed hcommitting
      · exact Option.some.inj ht ▸ h
      · obtain rfl := Option.some.inj ht
        exact h.update hx rfl ⟨fun _ => .inr hcommitting, fun _ => .inr hcommitting⟩
      · obtain rfl := Option.some.inj ht
        have hopen : x.closed = false := by simpa using hclosed
        exact h.retire hx ((h.waited l).mpr ⟨x, hx, .inl hopen⟩)
          ⟨rfl, by simpa using hcommitting⟩
  | expire l =>
    obtain rfl := Option.some.inj ht
    cases hx : g.made[l]? with
    | some x => exact h.update hx rfl Iff.rfl
    | none =>
      have hsame : g.update l (fun x => { x with cancelled := true }) = g := by
        unfold Gate.update
        rw [List.modify_eq_self (List.getElem?_eq_none_iff.mp hx)]
      rw [hsame]
      exact h
  | beginQuiesce =>
    obtain rfl := Option.some.inj ht
    refine ⟨fun j => ?_, fun j hj y hy => ?_, h.channel, h.older, h.calm⟩
    · rw [h.waited j, List.getElem?_mapIdx]
      cases g.made[j]? with
      | none => simp
      | some x =>
        simp only [Option.map_some, Option.some.injEq, exists_eq_left']
        split_ifs <;> rfl
    · rw [List.getElem?_mapIdx, Option.map_eq_some_iff] at hy
      obtain ⟨x, hx, rfl⟩ := hy
      rw [← h.same j hj x hx]
      split_ifs <;> rfl
  | rotate incarnation =>
    rw [Gate.step] at ht
    split_ifs at ht with hbad
    obtain rfl := Option.some.inj ht
    have hnil : g.leases = [] := by
      by_contra hne
      simp [hne] at hbad
    exact ⟨h.waited, fun j hj => by simp [hnil] at hj, h.channel, h.older, h.calm⟩
  | activate incarnation =>
    rw [Gate.step] at ht
    split_ifs at ht
    obtain rfl := Option.some.inj ht
    exact ⟨h.waited, h.same, h.channel, h.older, h.calm⟩

/-- What a new gate comes to. -/
def Reachable (g : Gate) : Prop :=
  ∃ incarnation denied s, newAuthorityGate incarnation denied = some s ∧ Reaches Gate.step s g

theorem Reachable.sound (h : Reachable g) : Sound g := by
  obtain ⟨incarnation, denied, s, hs, hreach⟩ := h
  rw [newAuthorityGate] at hs
  split_ifs at hs
  obtain rfl := Option.some.inj hs
  refine hreach.invariant ⟨fun l => ?_, nofun, ?_, ?_, rfl⟩ fun _ _ _ h => h.step
  · simp
  · simp
  · simp

/-- **The fence.** However its sections interleave, a commit that is under way is of the gate's
incarnation, so no other one is installed before it is over; where an incarnation is installed or
the gate is opened, every lease is closed and no commit is under way; and no channel is closed
twice. -/
theorem authority_fenced (h : Reachable g) :
    (∀ x ∈ g.made, x.committing = true → x.incarnation = g.incarnation) ∧
      (∀ incarnation t, g.step (.rotate incarnation) = some t ∨ g.step (.activate incarnation) = some t →
        ∀ x ∈ g.made, x.closed = true ∧ x.committing = false) ∧ g.panicked = false := by
  have hg := h.sound
  refine ⟨fun x hx hcommitting => ?_, fun incarnation t ht x hx => ?_, hg.calm⟩
  · obtain ⟨l, hl⟩ := List.mem_iff_getElem?.mp hx
    exact hg.same l ((hg.waited l).mpr ⟨x, hl, .inr hcommitting⟩) x hl
  · have hnil : g.leases = [] := by
      by_contra hne
      rcases ht with ht | ht
      · rw [Gate.step, if_pos (by simp [hne])] at ht
        cases ht
      · rw [Gate.step, if_pos (by simp [hne])] at ht
        cases ht
    obtain ⟨l, hl⟩ := List.mem_iff_getElem?.mp hx
    have hout : l ∉ g.leases := by simp [hnil]
    rw [hg.waited l] at hout
    push Not at hout
    obtain ⟨hclosed, hcommitting⟩ := hout x hl
    exact ⟨by simpa using hclosed, by simpa using hcommitting⟩

/-- An incarnation. -/
def zeros : String := "0000000000000000000000000000000000000000000000000000000000000000"

/-- A gate that is quiesced while the commit of a closed lease is under way. -/
def quiesced : Gate where
  incarnation := zeros
  denied := true
  made := [⟨zeros, true, true, true⟩]
  leases := [0]
  drained := 1

theorem reachable_quiesced : Reachable quiesced :=
  ⟨zeros, false, _, rfl, [.acquire false, .commit 0, .beginQuiesce, .close 0], by decide +kernel⟩

theorem authority_fenced_quiesced :
    (⟨zeros, true, true, true⟩ : Lease).incarnation = quiesced.incarnation ∧
      quiesced.panicked = false := by
  obtain ⟨hcommitting, -, hcalm⟩ := authority_fenced reachable_quiesced
  exact ⟨hcommitting _ (List.mem_singleton.mpr rfl) rfl, hcalm⟩

/-! ## Waiting for the gate to drain -/

/-- A section hands out a lease, or leaves the channel and waits for no other lease. -/
theorem step_cases (ht : g.step e = some t) :
    (∃ expired, e = .acquire expired ∧ g.denied = false ∧ t.leases = g.leases ++ [g.made.length] ∧
        t.made.length = g.made.length + 1 ∧
        t.drained = if g.leases = [] then g.drained + 1 else g.drained) ∨
      t.drained = g.drained ∧ (∀ l ∈ t.leases, l ∈ g.leases) ∧ t.made.length = g.made.length := by
  have hupdate (l : ℕ) (f : Lease → Lease) : (g.update l f).made.length = g.made.length :=
    List.length_modify _ _ _
  have hretire (g : Gate) (l : ℕ) : (g.retire l).drained = g.drained ∧
      (∀ j ∈ (g.retire l).leases, j ∈ g.leases) ∧ (g.retire l).made.length = g.made.length := by
    unfold Gate.retire Gate.closeDrained
    dsimp only
    split_ifs
    all_goals exact ⟨rfl, fun j hj => (List.mem_filter.mp hj).1, rfl⟩
  cases e with
  | acquire expired =>
    rw [Gate.step] at ht
    by_cases hdenied : (g.denied || expired) = true
    · rw [if_pos hdenied] at ht
      cases ht
    rw [if_neg hdenied] at ht
    obtain rfl := Option.some.inj ht
    exact .inl ⟨expired, rfl, by simp at hdenied; exact hdenied.1, rfl, by simp, rfl⟩
  | commit l =>
    rw [Gate.step] at ht
    split at ht
    · cases ht
    · split_ifs at ht
      obtain rfl := Option.some.inj ht
      exact .inr ⟨rfl, fun _ => id, hupdate _ _⟩
  | committed l =>
    rw [Gate.step] at ht
    split at ht
    · cases ht
    · split_ifs at ht
      · obtain rfl := Option.some.inj ht
        obtain ⟨hd, hl, hm⟩ := hretire (g.update l fun x => { x with committing := false }) l
        exact .inr ⟨hd, hl, hm.trans (hupdate _ _)⟩
      · obtain rfl := Option.some.inj ht
        exact .inr ⟨rfl, fun _ => id, hupdate _ _⟩
  | close l =>
    rw [Gate.step] at ht
    split at ht
    · cases ht
    · split_ifs at ht
      · obtain rfl := Option.some.inj ht
        exact .inr ⟨rfl, fun _ => id, rfl⟩
      · obtain rfl := Option.some.inj ht
        exact .inr ⟨rfl, fun _ => id, hupdate _ _⟩
      · obtain rfl := Option.some.inj ht
        obtain ⟨hd, hl, hm⟩ :=
          hretire (g.update l fun x => { x with closed := true, cancelled := true }) l
        exact .inr ⟨hd, hl, hm.trans (hupdate _ _)⟩
  | expire l =>
    obtain rfl := Option.some.inj ht
    exact .inr ⟨rfl, fun _ => id, hupdate _ _⟩
  | beginQuiesce =>
    obtain rfl := Option.some.inj ht
    exact .inr ⟨rfl, fun _ => id, List.length_mapIdx⟩
  | rotate incarnation =>
    rw [Gate.step] at ht
    split_ifs at ht
    obtain rfl := Option.some.inj ht
    exact .inr ⟨rfl, fun _ => id, rfl⟩
  | activate incarnation =>
    rw [Gate.step] at ht
    split_ifs at ht
    obtain rfl := Option.some.inj ht
    exact .inr ⟨rfl, fun _ => id, rfl⟩

/-- The channel that was read is still the gate's, or the leases of that time are waited for no
more. -/
def Follows (s g : Gate) : Prop :=
  s.made.length ≤ g.made.length ∧ (g.drained = s.drained ∨
    s.drained < g.drained ∧ ∀ l ∈ s.leases, l ∉ g.leases)

theorem Follows.step (hs : Sound s) (h : Follows s g) (ht : g.step e = some t) : Follows s t := by
  obtain ⟨hlen, h⟩ := h
  have hold (l : ℕ) (hl : l ∈ s.leases) : l < s.made.length := by
    obtain ⟨x, hx, -⟩ := (hs.waited l).mp hl
    exact (List.getElem?_eq_some_iff.mp hx).1
  rcases step_cases ht with ⟨expired, -, -, hleases, hmade, hdrained⟩ | ⟨hdrained, hleases, hmade⟩
  · refine ⟨by omega, ?_⟩
    rw [hleases, hdrained]
    have hnew (l : ℕ) (hl : l ∈ s.leases) (hg : l ∉ g.leases) : l ∉ g.leases ++ [g.made.length] := by
      rw [List.mem_append, List.mem_singleton]
      have := hold l hl
      rintro (hl | rfl)
      · exact hg hl
      · omega
    split_ifs with hnil
    · refine .inr ⟨by omega, fun l hl => ?_⟩
      exact hnil ▸ hnew l hl (by simp [hnil])
    · rcases h with h | ⟨hlt, hgone⟩
      · exact .inl h
      · exact .inr ⟨hlt, fun l hl => hnew l hl (hgone l hl)⟩
  · refine ⟨by omega, ?_⟩
    rw [hdrained]
    rcases h with h | ⟨hlt, hgone⟩
    · exact .inl h
    · exact .inr ⟨hlt, fun l hl hin => hgone l hl (hleases l hin)⟩

theorem denied_retire (g : Gate) (l : ℕ) : (g.retire l).denied = g.denied := by
  unfold Gate.retire Gate.closeDrained
  dsimp only
  split_ifs
  all_goals rfl

theorem denied_step (he : ∀ incarnation, e ≠ .activate incarnation) (hq : g.denied = true)
    (ht : g.step e = some t) : t.denied = true := by
  cases e with
  | acquire expired =>
    rw [Gate.step, if_pos (by rw [hq]; rfl)] at ht
    cases ht
  | commit l =>
    rw [Gate.step] at ht
    split at ht
    · cases ht
    · rw [Gate.check, hq, if_pos (by simp)] at ht
      cases ht
  | committed l =>
    rw [Gate.step] at ht
    split at ht
    · cases ht
    · split_ifs at ht
      · obtain rfl := Option.some.inj ht
        exact (denied_retire _ _).trans hq
      · obtain rfl := Option.some.inj ht
        exact hq
  | close l =>
    rw [Gate.step] at ht
    split at ht
    · cases ht
    · split_ifs at ht
      · exact Option.some.inj ht ▸ hq
      · obtain rfl := Option.some.inj ht
        exact hq
      · obtain rfl := Option.some.inj ht
        exact (denied_retire _ _).trans hq
  | expire l =>
    obtain rfl := Option.some.inj ht
    exact hq
  | beginQuiesce =>
    obtain rfl := Option.some.inj ht
    rfl
  | rotate incarnation =>
    rw [Gate.step] at ht
    split_ifs at ht
    obtain rfl := Option.some.inj ht
    exact hq
  | activate incarnation => exact absurd rfl (he incarnation)

/-- **Draining.** When the channel that a waiter has read is closed, every lease of that time is
closed and its commit is over, whatever happened since. Unless the gate was opened again, no lease is
open at all, and no commit is under way. -/
theorem waitDrained_spec (h : Reachable s) (hrun : run Gate.step s es = some t)
    (hclosed : s.drained ∈ t.closedChannels) :
    (∀ l ∈ s.leases, ∀ x, t.made[l]? = some x → x.closed = true ∧ x.committing = false) ∧
      (s.denied = true → (∀ e ∈ es, ∀ incarnation, e ≠ .activate incarnation) →
        ∀ x ∈ t.made, x.closed = true ∧ x.committing = false) := by
  have hs := h.sound
  have ht : Sound t := run_invariant (fun _ _ _ h => h.step) hs hrun
  have hover {l : ℕ} {x : Lease} (hl : l ∉ t.leases) (hx : t.made[l]? = some x) :
      x.closed = true ∧ x.committing = false := by
    rw [ht.waited l] at hl
    push Not at hl
    obtain ⟨hclosed, hcommitting⟩ := hl x hx
    exact ⟨by simpa using hclosed, by simpa using hcommitting⟩
  refine ⟨fun l hl x hx => hover ?_ hx, fun hdenied hes x hx => ?_⟩
  · have hfollows : Follows s t :=
      run_invariant (fun _ _ _ h ht => h.step hs ht) ⟨le_rfl, .inl rfl⟩ hrun
    rcases hfollows.2 with hsame | ⟨-, hgone⟩
    · rw [ht.channel.mp (hsame ▸ hclosed)]
      exact List.not_mem_nil
    · exact hgone l hl
  · -- A quiesced gate hands out no lease, so its channel is the one that was read.
    have hkept : t.drained = s.drained ∧ t.denied = true := by
      refine run_invariant_of (P := fun g => g.drained = s.drained ∧ g.denied = true)
        (Q := fun e => ∀ incarnation, e ≠ .activate incarnation) ?_ ⟨rfl, hdenied⟩ hes hrun
      rintro g e g' ⟨hd, hq⟩ he hg'
      rcases step_cases hg' with ⟨expired, -, hopen, -⟩ | ⟨hdrained, -, -⟩
      · rw [hq] at hopen
        cases hopen
      · exact ⟨hdrained.trans hd, denied_step he hq hg'⟩
    obtain ⟨l, hl⟩ := List.mem_iff_getElem?.mp hx
    refine hover ?_ hl
    rw [ht.channel.mp (hkept.1 ▸ hclosed)]
    exact List.not_mem_nil

/-- The commit of the closed lease returns. -/
theorem waitDrained_spec_quiesced :
    (⟨zeros, true, true, false⟩ : Lease).closed = true ∧
      (⟨zeros, true, true, false⟩ : Lease).committing = false := by
  have hrun : run Gate.step quiesced [.committed 0] =
      some ⟨zeros, true, [⟨zeros, true, true, false⟩], [], 1, [1, 0], false⟩ := by decide +kernel
  obtain ⟨-, hall⟩ := waitDrained_spec reachable_quiesced hrun (by decide)
  refine hall rfl (fun e he _ heq => ?_) _ (List.mem_singleton.mpr rfl)
  rw [List.mem_singleton.mp he] at heq
  cases heq

end Portico.AuthorityGate
