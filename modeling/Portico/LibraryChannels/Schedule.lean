import Portico.Lib.Tiling
import Portico.LibraryChannels.Generator
import Portico.LibraryChannels.Cycles

/-!
# Library channels: the schedule has no gaps

Passes are cut off anywhere, generations are superseded and go on, and leases are taken over. Still
the entries of a generation cover the time from its first entry to its cursor, each instant once, and
every planned slot is committed at most once.

## Main results

* `inv_step`: every event keeps the invariant
* `schedule_tiles`: in every run, schedules have no gaps and no overlaps, no slot is committed twice,
  and a pass without its lease commits nothing
-/

namespace Portico.LibraryChannels

open Machine

/-- Entries cover a range of time. -/
def Covers (lo : ℤ) (entries : List Entry) (hi : ℤ) : Prop :=
  Tiles Entry.startMS Entry.endMS lo entries hi

variable {entries rows : List Entry} {v e : Entry} {lo hi : ℤ} {g g' b : Generation}
  {cal : Calendar} {chance : Chance} {w : SlotWrites}

/-! ## Entries -/

theorem orderedInsert_of_lt (h : ∀ e ∈ entries, e.startMS < v.startMS) :
    entries.orderedInsert (fun a b => a.startMS ≤ b.startMS) v = entries ++ [v] := by
  induction entries with
  | nil => rfl
  | cons e entries ih =>
    obtain ⟨he, hrest⟩ := List.forall_mem_cons.mp h
    rw [List.orderedInsert_cons, if_neg (not_le.mpr he), ih hrest]
    rfl

theorem insertEntry_of_lt (h : ∀ e ∈ entries, e.startMS < v.startMS) :
    insertEntry entries v = .ok (entries ++ [v]) := by
  have hid : (entries.any fun e => e.id = v.id) = false := by
    rw [List.any_eq_false]
    intro e he heq
    have hlt := h e he
    rw [← e.started, ← v.started, of_decide_eq_true heq] at hlt
    exact lt_irrefl _ hlt
  have hstart : (entries.any fun e => e.startMS = v.startMS) = false := by
    rw [List.any_eq_false]
    intro e he heq
    exact (h e he).ne (of_decide_eq_true heq)
  unfold insertEntry
  rw [if_neg (by simp [hid]), if_neg (by simp [hstart]), orderedInsert_of_lt h]

theorem foldlM_insertEntry (h : ∀ e ∈ entries, ∀ v ∈ rows, e.startMS < v.startMS)
    (hrows : rows.Pairwise fun v v' => v.startMS < v'.startMS) :
    rows.foldlM insertEntry entries = .ok (entries ++ rows) := by
  induction rows generalizing entries with
  | nil => simp
  | cons v rows ih =>
    obtain ⟨hv, hrest⟩ := List.pairwise_cons.mp hrows
    rw [List.foldlM_cons, insertEntry_of_lt fun e he => h e he v List.mem_cons_self, ok_bind, ih]
    · rw [List.append_assoc]
      rfl
    · intro e he v' hv'
      rcases List.mem_append.mp he with he | he
      · exact h e he v' (List.mem_cons_of_mem _ hv')
      · obtain rfl := List.mem_singleton.mp he
        exact hv v' hv'
    · exact hrest

theorem Covers.sorted (h : Covers lo entries hi) :
    entries.Pairwise fun e e' => e.startMS < e'.startMS := by
  refine (Tiles.sorted h).imp fun {e e'} hle => ?_
  have := e.positive
  omega

theorem Covers.insertEntry (h : Covers lo entries hi) (hv : v.startMS = hi) :
    insertEntry entries v = .ok (entries ++ [v]) ∧ Covers lo (entries ++ [v]) v.endMS := by
  refine ⟨insertEntry_of_lt fun e he => ?_, Tiles.concat h hv v.positive⟩
  have hle := (Tiles.mem h he).2.2
  have := e.positive
  omega

/-! ## Copies -/

/-- The base's entries that a generation copies. -/
def window (b g : Generation) : List Entry :=
  (b.tables.entries.filter g.keeps).filter fun e => -1 < e.startMS

/-- What a generation has copied of its base: all up to the entry it goes on after. -/
def Copied (b g : Generation) : Prop :=
  g.tables.entries = (window b g).filter fun e => e.startMS ≤ g.copyAfter

/-- The copied entries of a schedule cover a range that ends by the boundary. -/
theorem covers_window (h : Covers lo b.tables.entries hi) :
    ∃ lo' hi', Covers lo' (window b g) hi' ∧ (window b g ≠ [] → hi' ≤ g.key.boundary) := by
  have hwindow : window b g = ((b.tables.entries.filter fun e => g.startMS < e.endMS).filter
      fun e => e.endMS ≤ g.key.boundary).filter fun e => -1 < e.startMS := by
    unfold window Generation.keeps
    rw [List.filter_filter, List.filter_filter, List.filter_filter]
    apply List.filter_congr
    intro e _
    cases decide (g.startMS < e.endMS) <;> simp [Bool.and_comm]
  obtain ⟨lo₁, h₁⟩ := Tiles.filter_later (p := fun e : Entry => g.startMS < e.endMS) h (by
    intro e e' hle he
    have := e'.positive
    simp only [decide_eq_true_eq] at he ⊢
    omega)
  obtain ⟨hi₂, h₂⟩ := Tiles.filter_earlier (p := fun e : Entry => e.endMS ≤ g.key.boundary) h₁ (by
    intro e e' hle he
    have := e'.positive
    simp only [decide_eq_true_eq] at he ⊢
    omega)
  obtain ⟨lo₃, h₃⟩ := Tiles.filter_later (p := fun e : Entry => -1 < e.startMS) h₂ (by
    intro e e' hle he
    have := e.positive
    simp only [decide_eq_true_eq] at he ⊢
    omega)
  rw [← hwindow] at h₃
  refine ⟨lo₃, hi₂, h₃, fun hne => ?_⟩
  -- the last entry of the window ends where the window does
  have hmax := List.max?_mem (Tiles.max_stop h₃ hne)
  obtain ⟨e, he, heq⟩ := List.mem_map.mp hmax
  rw [hwindow] at he
  have hle := (List.mem_filter.mp (List.mem_filter.mp he).1).2
  simp only [decide_eq_true_eq] at hle
  omega

theorem Copied.next (h : Copied b g) (hb : Covers lo b.tables.entries hi) (hafter : -1 ≤ g.copyAfter) :
    ∃ rows, rows = batch Entry.startMS candidateBatch g.copyAfter (b.tables.entries.filter g.keeps) ∧
      rows.foldlM LibraryChannels.insertEntry g.tables.entries =
        .ok ((window b g).filter fun e =>
          e.startMS ≤ batchEnd Entry.startMS g.copyAfter rows) ∧
      -1 ≤ batchEnd Entry.startMS g.copyAfter rows ∧
      (rows.length < candidateBatch → ((window b g).filter fun e =>
        e.startMS ≤ batchEnd Entry.startMS g.copyAfter rows) = window b g) := by
  obtain ⟨lo', hi', hwindow, -⟩ := covers_window (g := g) hb
  have hrows : batch Entry.startMS candidateBatch g.copyAfter (b.tables.entries.filter g.keeps) =
      batch Entry.startMS candidateBatch g.copyAfter (window b g) := by
    unfold window batch
    generalize b.tables.entries.filter g.keeps = l
    rw [List.filter_filter]
    congr 1
    apply List.filter_congr
    intro e _
    by_cases he : g.copyAfter < e.startMS
    · simp [he, hafter.trans_lt he]
    · simp [he]
  refine ⟨_, rfl, ?_, ?_, ?_⟩ <;> rw [hrows]
  · rw [foldlM_insertEntry, h, filter_batch hwindow.sorted]
    · rw [h]
      intro e he v hv
      have hle := (List.mem_filter.mp he).2
      have hlt := (mem_batch hv).2
      simp only [decide_eq_true_eq] at hle
      omega
    · exact (hwindow.sorted.filter _).take
  · unfold batchEnd
    cases hlast : (batch Entry.startMS candidateBatch g.copyAfter (window b g)).getLast? with
    | none => exact hafter
    | some e =>
      have hlt := (mem_batch (List.mem_of_getLast? hlast)).2
      simp only [Option.map_some, Option.getD_some]
      omega
  · exact filter_batch_short hwindow.sorted

theorem fillGap_covers (h : g.tables.entries = window b g) (hb : Covers lo b.tables.entries hi) :
    ∃ entries lo', fillGap g g.tables.lastEnd = .ok entries ∧ Covers lo' entries g.key.boundary := by
  obtain ⟨lo', hi', hwindow, hle⟩ := covers_window (g := g) hb
  by_cases hnil : window b g = []
  · refine ⟨[], g.key.boundary, ?_, rfl⟩
    unfold Tables.lastEnd
    rw [h, hnil]
    exact congrArg Except.ok (h.trans hnil)
  · have hlast : g.tables.lastEnd = some hi' := by
      unfold Tables.lastEnd
      rw [h]
      exact Tiles.max_stop hwindow hnil
    rw [hlast]
    unfold fillGap
    simp only
    by_cases hgap : hi' < g.key.boundary
    · rw [dif_pos hgap]
      obtain ⟨hinsert, hcovers⟩ := hwindow.insertEntry (v := gapEntry g hi' hgap) rfl
      exact ⟨_, lo', h ▸ hinsert, hcovers⟩
    · rw [dif_neg hgap]
      obtain rfl : hi' = g.key.boundary := by
        have := hle hnil
        omega
      exact ⟨_, lo', rfl, h ▸ hwindow⟩

/-- **A batch of entries** is copied without a gap; after the last one the entries end at the
boundary. -/
theorem Copied.copyEntries (h : Copied b g) (hb : Covers lo b.tables.entries hi)
    (hafter : -1 ≤ g.copyAfter) (hcopy : copyEntries b g = .ok g') :
    (g'.number = g.number ∧ g'.key = g.key ∧ g'.createdMS = g.createdMS ∧ g'.status = g.status ∧
        g'.startMS = g.startMS ∧ g'.cursor = g.cursor) ∧
      (g'.phase = g.phase ∧ -1 ≤ g'.copyAfter ∧ Copied b g' ∨
        g'.phase = .copyUsed ∧ ∃ lo', Covers lo' g'.tables.entries g.key.boundary) := by
  obtain ⟨rows, hrows, hfold, hafter', hshort⟩ := h.next hb hafter
  unfold LibraryChannels.copyEntries at hcopy
  simp only [← hrows] at hcopy
  obtain ⟨entries, hentries, hcopy⟩ := bind_eq_ok.mp hcopy
  obtain rfl := Except.ok.inj (hfold.symm.trans hentries)
  split_ifs at hcopy with hlast
  · -- the last batch
    unfold finishCopy at hcopy
    obtain ⟨entries', hfill, hcopy⟩ := bind_eq_ok.mp hcopy
    obtain rfl := Except.ok.inj hcopy
    refine ⟨⟨rfl, rfl, rfl, rfl, rfl, rfl⟩, Or.inr ⟨rfl, ?_⟩⟩
    obtain ⟨entries'', lo', hfill', hcovers⟩ := fillGap_covers (g := { g with
      copyAfter := batchEnd Entry.startMS g.copyAfter rows
      tables := { g.tables with
        entries := (window b g).filter fun e =>
          e.startMS ≤ batchEnd Entry.startMS g.copyAfter rows } }) (hshort hlast) hb
    obtain rfl := Except.ok.inj (hfill'.symm.trans hfill)
    exact ⟨lo', hcovers⟩
  · obtain rfl := Except.ok.inj hcopy
    exact ⟨⟨rfl, rfl, rfl, rfl, rfl, rfl⟩, Or.inl ⟨rfl, hafter', rfl⟩⟩

/-! ## The invariant -/

/-- What a run has done: the generations that pruning has begun on, the slots that were committed, by
their generation and cursor, and the leases that were taken over. -/
structure Past where
  pruned : ℕ → Prop
  done : ℕ → ℤ → Prop
  lost : ℕ → Prop

/-- A schedule that has left the slot at a cursor behind. -/
def Behind (cursor : ℤ) (g : Generation) : Prop :=
  cursor < g.cursor ∨ g.phase = .validating ∨ g.phase = .published

/-- A row that has gone on. -/
def Onward (g g' : Generation) : Prop := ∀ cursor, Behind cursor g → Behind cursor g'

/-- The rows of a generation that pruning hasn't begun on. -/
structure Good (past : Past) (s : Store) (g : Generation) : Prop where
  copying : g.phase = .copying → g.cursor = g.key.boundary ∧ -1 ≤ g.copyAfter ∧
    ∀ b ∈ s.generations, g.key.base = some b.number → ¬ past.pruned b.number → Copied b g
  filled : g.phase ≠ .copying → ∃ lo, Covers lo g.tables.entries g.cursor
  published : g.status = .published → g.phase = .published ∧ g.endMS = g.cursor ∧
    Covers g.startMS g.tables.entries g.cursor

/-- A planned slot: the end of the schedule, or an entry that begins at the cursor. -/
structure Planned (cursor : ℤ) (w : SlotWrites) : Prop where
  phase : w.phase = .scheduling ∨ w.phase = .validating
  entry : w.entry = none ∧ w.cursor = cursor ∧ w.phase = .validating ∨
    ∃ v, w.entry = some v ∧ v.startMS = cursor ∧ w.cursor = v.endMS

/-- A published generation that pruning hasn't begun on. -/
def Usable (past : Past) (s : Store) (active : Option ℕ) : Prop :=
  ∀ n, active = some n → ¬ past.pruned n ∧ ∃ g ∈ s.generations, g.number = n ∧ g.status = .published

/-- The passes have tokens of their own, and plan slots at their cursors. -/
structure Held (tokens : List ℕ) (passes : List Pass) : Prop where
  keyed : (passes.map Pass.token).Nodup
  spent : ∀ p ∈ passes, p.token ∈ tokens
  planned : ∀ p ∈ passes, ∀ w, p.planned = some w → Planned p.g.cursor w

/-- A lease that is held is that of a pass of the generation, which hasn't lost it. -/
def Leased (past : Past) (s : Store) (g : Generation) : Prop :=
  ∀ t, g.leaseToken = some t → ¬ past.lost t ∧ t ∈ s.tokens ∧
    ∀ p ∈ s.passes, p.token = t → p.g.number = g.number

/-- The invariant of the tables. -/
structure Inv (past : Past) (s : Store) : Prop where
  numbers : (s.generations.map Generation.number).Nodup
  fresh : ∀ g ∈ s.generations, g.number < s.nextNumber
  old : ∀ n, past.pruned n → n < s.nextNumber
  based : ∀ g ∈ s.generations, ∀ n, g.key.base = some n → n < s.nextNumber
  bases : ∀ g ∈ s.generations, ∀ b ∈ s.generations, g.key.base = some b.number →
    b.status = .published
  active : ∀ c ∈ s.channels, Usable past s c.active
  windows : ∀ g ∈ s.generations, g.key.stop ≤ g.createdMS + 10 * 86400000
  good : ∀ g ∈ s.generations, ¬ past.pruned g.number → Good past s g
  gone : ∀ g ∈ s.generations, past.pruned g.number → s.prunable g = true
  held : Held s.tokens s.passes
  done : ∀ n cursor, past.done n cursor → n < s.nextNumber
  behind : ∀ g ∈ s.generations, ∀ cursor, past.done g.number cursor → Behind cursor g
  lost : ∀ t, past.lost t → t ∈ s.tokens
  leased : ∀ g ∈ s.generations, Leased past s g

variable {s s' : Store} {past : Past} {c : Channel} {f : Generation → Generation}

theorem prunable_iff : s.prunable g = true ↔
    g.status ≠ .pending ∧ g.createdMS < s.now - weekMS ∧
      (∀ c ∈ s.channels, c.active ≠ some g.number) ∧
        ∀ child ∈ s.generations, child.status = .pending → child.key.base ≠ some g.number := by
  unfold Store.prunable
  simp [and_assoc]

theorem Onward.refl (g : Generation) : Onward g g := fun _ => id

theorem onward_of_cursor (hcursor : g'.cursor = g.cursor) (hphase : g.phase ≠ .validating)
    (hphase' : g.phase ≠ .published) : Onward g g' := by
  rintro cursor (hlt | hlate | hlate)
  · exact Or.inl (hcursor ▸ hlt)
  · exact absurd hlate hphase
  · exact absurd hlate hphase'

theorem start_inv (now : ℤ) : Inv ⟨fun _ => False, fun _ _ => False, fun _ => False⟩ (start now) where
  numbers := List.nodup_nil
  fresh _ hg := nomatch hg
  old _ h := h.elim
  based _ hg := nomatch hg
  bases _ hg := nomatch hg
  active _ hc := nomatch hc
  windows _ hg := nomatch hg
  good _ hg := nomatch hg
  gone _ hg := nomatch hg
  held := ⟨List.nodup_nil, fun _ hp => (nomatch hp), fun _ hp => (nomatch hp)⟩
  done _ _ h := h.elim
  behind _ hg := nomatch hg
  lost _ h := h.elim
  leased _ hg := nomatch hg

/-- A pending generation, and the one it goes on from, are not pruned. -/
theorem Inv.pending (h : Inv past s) (hg : g ∈ s.generations) (hpending : g.status = .pending) :
    ¬ past.pruned g.number ∧ ∀ b ∈ s.generations, g.key.base = some b.number → ¬ past.pruned b.number := by
  constructor
  · intro hgone
    exact (prunable_iff.mp (h.gone g hg hgone)).1 hpending
  · intro b hb hbase hgone
    exact (prunable_iff.mp (h.gone b hb hgone)).2.2.2 g hg hpending hbase

/-! ## What the operations keep -/

theorem Inv.tick (h : Inv past s) {now : ℤ} (hnow : s.now ≤ now) :
    Inv past { s with now } where
  numbers := h.numbers
  fresh := h.fresh
  old := h.old
  based := h.based
  bases := h.bases
  active := h.active
  windows := h.windows
  good g hg hkept := ⟨(h.good g hg hkept).copying, (h.good g hg hkept).filled,
    (h.good g hg hkept).published⟩
  gone g hg hgone := by
    obtain ⟨h1, h2, h3, h4⟩ := prunable_iff.mp (h.gone g hg hgone)
    refine prunable_iff.mpr ⟨h1, ?_, h3, h4⟩
    change g.createdMS < now - weekMS
    omega
  held := h.held
  done := h.done
  behind := h.behind
  lost := h.lost
  leased := h.leased

theorem Inv.passes (h : Inv past s) {tokens : List ℕ} {passes : List Pass}
    (htokens : ∀ t ∈ s.tokens, t ∈ tokens) (hheld : Held tokens passes)
    (hpasses : ∀ p ∈ passes, ∀ g ∈ s.generations, g.leaseToken = some p.token →
      p.g.number = g.number) :
    Inv past { s with tokens, passes } where
  numbers := h.numbers
  fresh := h.fresh
  old := h.old
  based := h.based
  bases := h.bases
  active := h.active
  windows := h.windows
  good g hg hkept := ⟨(h.good g hg hkept).copying, (h.good g hg hkept).filled,
    (h.good g hg hkept).published⟩
  gone := h.gone
  held := hheld
  done := h.done
  behind := h.behind
  lost t ht := htokens t (h.lost t ht)
  leased g hg t ht := by
    obtain ⟨hnot, htok, -⟩ := h.leased g hg t ht
    refine ⟨hnot, htokens t htok, fun p hp hpt => ?_⟩
    exact hpasses p hp g hg (hpt ▸ ht)

theorem Inv.putChannel (h : Inv past s) (hc : Usable past s c.active) :
    Inv past (s.putChannel c) where
  numbers := h.numbers
  fresh := h.fresh
  old := h.old
  based := h.based
  bases := h.bases
  active d hd := by
    rcases List.mem_cons.mp hd with rfl | hd
    · exact hc
    · exact h.active d (List.mem_of_mem_filter hd)
  windows := h.windows
  good g hg hkept := ⟨(h.good g hg hkept).copying, (h.good g hg hkept).filled,
    (h.good g hg hkept).published⟩
  gone g hg hgone := by
    obtain ⟨h1, h2, h3, h4⟩ := prunable_iff.mp (h.gone g hg hgone)
    refine prunable_iff.mpr ⟨h1, h2, fun d hd => ?_, h4⟩
    rcases List.mem_cons.mp hd with rfl | hd
    · exact fun hactive => (hc _ hactive).1 hgone
    · exact h3 d (List.mem_of_mem_filter hd)
  held := h.held
  done := h.done
  behind := h.behind
  lost := h.lost
  leased := h.leased

/-- A row that only changed what schedules don't depend on: the lease, the configuration, or the
status, between pending and superseded. -/
structure Like (past : Past) (g g' : Generation) : Prop where
  number : g'.number = g.number
  key : g'.key = g.key
  created : g'.createdMS = g.createdMS
  phase : g'.phase = g.phase
  tables : g'.tables = g.tables
  cursor : g'.cursor = g.cursor
  copyAfter : g'.copyAfter = g.copyAfter
  startMS : g'.startMS = g.startMS
  endMS : g'.endMS = g.endMS
  lease : g'.leaseToken = g.leaseToken ∨ g'.leaseToken = none
  published : g'.status = .published ↔ g.status = .published
  pending : g'.status = .pending → g.status = .pending ∨
    ¬ past.pruned g.number ∧ ∀ n, g.key.base = some n → ¬ past.pruned n

theorem Like.refl (g : Generation) : Like past g g :=
  ⟨rfl, rfl, rfl, rfl, rfl, rfl, rfl, rfl, rfl, Or.inl rfl, Iff.rfl, Or.inl⟩

theorem Like.copied {b b' : Generation} (hb : Like past b b') (h : Like past g g') :
    Copied b' g' ↔ Copied b g := by
  unfold Copied window Generation.keeps
  rw [hb.tables, h.tables, h.copyAfter, h.startMS, h.key]

theorem Inv.like (h : Inv past s) (hf : ∀ g ∈ s.generations, Like past g (f g)) :
    Inv past { s with generations := s.generations.map f } where
  numbers := by
    rw [List.map_map]
    have hmap : s.generations.map (Generation.number ∘ f) = s.generations.map Generation.number :=
      List.map_congr_left fun g hg => (hf g hg).number
    rw [hmap]
    exact h.numbers
  fresh g' hg' := by
    obtain ⟨g, hg, rfl⟩ := List.mem_map.mp hg'
    rw [(hf g hg).number]
    exact h.fresh g hg
  old := h.old
  based g' hg' := by
    obtain ⟨g, hg, rfl⟩ := List.mem_map.mp hg'
    rw [(hf g hg).key]
    exact h.based g hg
  bases g' hg' b' hb' hbase := by
    obtain ⟨g, hg, rfl⟩ := List.mem_map.mp hg'
    obtain ⟨b, hb, rfl⟩ := List.mem_map.mp hb'
    rw [(hf g hg).key, (hf b hb).number] at hbase
    exact (hf b hb).published.mpr (h.bases g hg b hb hbase)
  active c hc n hn := by
    obtain ⟨hkept, g, hg, rfl, hpub⟩ := h.active c hc n hn
    exact ⟨hkept, f g, List.mem_map_of_mem hg, (hf g hg).number, (hf g hg).published.mpr hpub⟩
  windows g' hg' := by
    obtain ⟨g, hg, rfl⟩ := List.mem_map.mp hg'
    rw [(hf g hg).key, (hf g hg).created]
    exact h.windows g hg
  good g' hg' hkept := by
    obtain ⟨g, hg, rfl⟩ := List.mem_map.mp hg'
    have hl := hf g hg
    rw [hl.number] at hkept
    obtain ⟨hcopying, hfilled, hpublished⟩ := h.good g hg hkept
    refine ⟨fun hphase => ?_, fun hphase => ?_, fun hstatus => ?_⟩
    · obtain ⟨hcursor, hafter, hcopied⟩ := hcopying (hl.phase ▸ hphase)
      rw [hl.cursor, hl.key, hl.copyAfter]
      refine ⟨hcursor, hafter, fun b' hb' hbase hbkept => ?_⟩
      obtain ⟨b, hb, rfl⟩ := List.mem_map.mp hb'
      rw [(hf b hb).number] at hbase hbkept
      exact ((hf b hb).copied hl).mpr (hcopied b hb hbase hbkept)
    · rw [hl.tables, hl.cursor]
      exact hfilled (hl.phase ▸ hphase)
    · rw [hl.tables, hl.cursor, hl.phase, hl.startMS, hl.endMS]
      exact hpublished (hl.published.mp hstatus)
  gone g' hg' hgone := by
    obtain ⟨g, hg, rfl⟩ := List.mem_map.mp hg'
    have hl := hf g hg
    rw [hl.number] at hgone
    obtain ⟨h1, h2, h3, h4⟩ := prunable_iff.mp (h.gone g hg hgone)
    rw [prunable_iff, hl.number, hl.created]
    refine ⟨fun hpending => ?_, h2, h3, fun child' hchild' hpending => ?_⟩
    · exact (hl.pending hpending).elim h1 fun hnot => hnot.1 hgone
    · obtain ⟨child, hchild, rfl⟩ := List.mem_map.mp hchild'
      have hcl := hf child hchild
      rw [hcl.key]
      intro hbase
      rcases hcl.pending hpending with hwas | ⟨-, hnot⟩
      · exact h4 child hchild hwas hbase
      · exact hnot _ hbase hgone
  held := h.held
  done := h.done
  behind g' hg' cursor hdone := by
    obtain ⟨g, hg, rfl⟩ := List.mem_map.mp hg'
    have hl := hf g hg
    rw [hl.number] at hdone
    unfold Behind
    rw [hl.cursor, hl.phase]
    exact h.behind g hg cursor hdone
  lost := h.lost
  leased g' hg' t ht := by
    obtain ⟨g, hg, rfl⟩ := List.mem_map.mp hg'
    rcases (hf g hg).lease with hsame | hnone
    · rw [(hf g hg).number]
      exact h.leased g hg t (hsame ▸ ht)
    · exact nomatch hnone.symm.trans ht

theorem Inv.updateWhere {p : Generation → Bool} (h : Inv past s)
    (hf : ∀ g ∈ s.generations, p g = true → Like past g (f g)) :
    Inv past { s with generations := updateWhere p f s.generations } := by
  refine h.like fun g hg => ?_
  by_cases hp : p g = true
  · rw [if_pos hp]
    exact hf g hg hp
  · rw [if_neg hp]
    exact Like.refl g

theorem mem_write (hg : g ∈ s.generations) (hnumber : g'.number = g.number)
    {k : Generation} : k ∈ (s.write g').generations ↔
      k = g' ∨ k ∈ s.generations ∧ k.number ≠ g'.number := by
  unfold Store.write
  simp only [mem_updateWhere, decide_eq_true_eq]
  constructor
  · rintro ⟨k', hk', rfl⟩
    split_ifs with hsame
    · exact Or.inl rfl
    · exact Or.inr ⟨hk', hsame⟩
  · rintro (rfl | ⟨hk, hne⟩)
    · exact ⟨g, hg, by rw [if_pos hnumber.symm]⟩
    · exact ⟨k, hk, by rw [if_neg hne]⟩

theorem numbers_write : (s.write g').generations.map Generation.number =
    s.generations.map Generation.number := by
  unfold Store.write Portico.updateWhere
  rw [List.map_map]
  apply List.map_congr_left
  intro k _
  simp only [Function.comp_apply, decide_eq_true_eq]
  split_ifs with hsame
  · exact hsame.symm
  · rfl

theorem Inv.write (h : Inv past s) (hg : g ∈ s.generations) (hpending : g.status = .pending)
    (hnumber : g'.number = g.number) (hkey : g'.key = g.key) (hcreated : g'.createdMS = g.createdMS)
    (honward : Onward g g') (hleased : Leased past s g')
    (hgood : Good past s g') : Inv past (s.write g') := by
  have hmem := fun k => mem_write (k := k) hg hnumber
  obtain ⟨hkept, hbkept⟩ := h.pending hg hpending
  -- what others go on from is published, and isn't what is written
  have hbase : ∀ k ∈ s.generations, k.key.base ≠ some g'.number := by
    intro k hk hb
    have hpub := h.bases k hk g hg (hnumber ▸ hb)
    rw [hpending] at hpub
    cases hpub
  have hkeyed : ∀ k ∈ (s.write g').generations, ∃ k' ∈ s.generations, k.number = k'.number ∧
      k.key = k'.key ∧ k.createdMS = k'.createdMS := by
    intro k hk
    rcases (hmem k).mp hk with rfl | ⟨hk, -⟩
    · exact ⟨g, hg, hnumber, hkey, hcreated⟩
    · exact ⟨k, hk, rfl, rfl, rfl⟩
  have hgood' : ∀ k k', k' ∈ s.generations → k.key = k'.key → Good past s k →
      Good past (s.write g') k := by
    intro k k' hk' hkeys hk
    refine ⟨fun hphase => ?_, hk.filled, hk.published⟩
    obtain ⟨hcursor, hafter, hcopied⟩ := hk.copying hphase
    refine ⟨hcursor, hafter, fun b hb hbb hbk => ?_⟩
    rcases (hmem b).mp hb with rfl | ⟨hb, -⟩
    · exact absurd (hkeys ▸ hbb) (hbase k' hk')
    · exact hcopied b hb hbb hbk
  exact {
    numbers := by rw [numbers_write]; exact h.numbers
    fresh := by
      intro k hk
      obtain ⟨k', hk', hn, -, -⟩ := hkeyed k hk
      rw [hn]
      exact h.fresh k' hk'
    old := h.old
    based := by
      intro k hk
      obtain ⟨k', hk', -, hks, -⟩ := hkeyed k hk
      rw [hks]
      exact h.based k' hk'
    bases := by
      intro k hk b hb hbb
      obtain ⟨k', hk', -, hks, -⟩ := hkeyed k hk
      rw [hks] at hbb
      rcases (hmem b).mp hb with rfl | ⟨hb, -⟩
      · exact absurd hbb (hbase k' hk')
      · exact h.bases k' hk' b hb hbb
    active := by
      intro c hc n hn
      obtain ⟨hnk, k, hk, rfl, hpub⟩ := h.active c hc n hn
      refine ⟨hnk, k, (hmem k).mpr (Or.inr ⟨hk, fun hsame => ?_⟩), rfl, hpub⟩
      obtain rfl := eq_of_key h.numbers hk hg (hsame.trans hnumber)
      rw [hpending] at hpub
      cases hpub
    windows := by
      intro k hk
      obtain ⟨k', hk', -, hks, hcs⟩ := hkeyed k hk
      rw [hks, hcs]
      exact h.windows k' hk'
    good := by
      intro k hk hkk
      rcases (hmem k).mp hk with rfl | ⟨hk, -⟩
      · exact hgood' k g hg hkey hgood
      · exact hgood' k k hk rfl (h.good k hk hkk)
    gone := by
      intro k hk hgone
      rcases (hmem k).mp hk with rfl | ⟨hk, -⟩
      · exact absurd (hnumber ▸ hgone) hkept
      · obtain ⟨h1, h2, h3, h4⟩ := prunable_iff.mp (h.gone k hk hgone)
        refine prunable_iff.mpr ⟨h1, h2, h3, fun child hchild hp hb => ?_⟩
        rcases (hmem child).mp hchild with rfl | ⟨hchild, -⟩
        · exact h4 g hg hpending (hkey ▸ hb)
        · exact h4 child hchild hp hb
    held := h.held
    done := h.done
    behind := by
      intro k hk cursor hdone
      rcases (hmem k).mp hk with rfl | ⟨hk, -⟩
      · exact honward cursor (h.behind g hg cursor (hnumber ▸ hdone))
      · exact h.behind k hk cursor hdone
    lost := h.lost
    leased := by
      intro k hk
      rcases (hmem k).mp hk with rfl | ⟨hk, -⟩
      · exact hleased
      · exact h.leased k hk }

theorem Inv.insert (h : Inv past s) {key : Key} {start : ℤ} (hbase : Usable past s key.base)
    (hstop : key.stop ≤ s.now + 10 * 86400000) :
    Inv past { s with
      generations := s.generations ++ [newGeneration s.nextNumber key c start s.now]
      nextNumber := s.nextNumber + 1 } := by
  set new := newGeneration s.nextNumber key c start s.now
  have hmem : ∀ k, k ∈ s.generations ++ [new] ↔ k ∈ s.generations ∨ k = new := by simp
  have hnew : ∀ k ∈ s.generations, k.number ≠ new.number := fun k hk => (h.fresh k hk).ne
  have hgood : Good past s new := by
    refine ⟨fun _ => ⟨rfl, le_rfl, fun b _ _ _ => ?_⟩, fun _ => ⟨_, rfl⟩, fun hpub => by cases hpub⟩
    -- nothing has been copied, and nothing begins before the first entry to go on after
    change [] = (window b new).filter fun e => e.startMS ≤ -1
    symm
    rw [List.filter_eq_nil_iff]
    intro e he
    have hlt := (List.mem_filter.mp he).2
    simp only [decide_eq_true_eq] at hlt ⊢
    omega
  have hgood' : ∀ k, (∀ n, k.key.base = some n → n < s.nextNumber) → Good past s k →
      Good past { s with
        generations := s.generations ++ [new], nextNumber := s.nextNumber + 1 } k := by
    intro k hk hgood
    refine ⟨fun hphase => ?_, hgood.filled, hgood.published⟩
    obtain ⟨hcursor, hafter, hcopied⟩ := hgood.copying hphase
    refine ⟨hcursor, hafter, fun b hb hbb hbk => ?_⟩
    rcases (hmem b).mp hb with hb | rfl
    · exact hcopied b hb hbb hbk
    · exact absurd (hk _ hbb) (lt_irrefl _)
  have hless : ∀ n, key.base = some n → n < s.nextNumber := by
    intro n hn
    obtain ⟨-, b, hb, rfl, -⟩ := hbase n hn
    exact h.fresh b hb
  exact {
    numbers := by
      rw [List.map_append, List.map_singleton, List.nodup_append]
      refine ⟨h.numbers, List.nodup_singleton _, ?_⟩
      intro a ha b hb
      obtain ⟨k, hk, rfl⟩ := List.mem_map.mp ha
      obtain rfl := List.mem_singleton.mp hb
      exact hnew k hk
    fresh := by
      intro k hk
      rcases (hmem k).mp hk with hk | rfl
      · exact (h.fresh k hk).trans (Nat.lt_succ_self _)
      · exact Nat.lt_succ_self _
    old := fun n hn => (h.old n hn).trans (Nat.lt_succ_self _)
    based := by
      intro k hk n hn
      rcases (hmem k).mp hk with hk | rfl
      · exact (h.based k hk n hn).trans (Nat.lt_succ_self _)
      · exact (hless n hn).trans (Nat.lt_succ_self _)
    bases := by
      intro k hk b hb hbb
      have hlt : b.number < s.nextNumber := by
        rcases (hmem k).mp hk with hk | rfl
        · exact h.based k hk _ hbb
        · exact hless _ hbb
      have hb : b ∈ s.generations := by
        rcases (hmem b).mp hb with hb | rfl
        · exact hb
        · exact absurd hlt (lt_irrefl _)
      rcases (hmem k).mp hk with hk | rfl
      · exact h.bases k hk b hb hbb
      · obtain ⟨-, b', hb', hn, hpub⟩ := hbase _ hbb
        obtain rfl := eq_of_key h.numbers hb' hb hn
        exact hpub
    active := by
      intro c hc n hn
      obtain ⟨hk, g, hg, hgn, hpub⟩ := h.active c hc n hn
      exact ⟨hk, g, (hmem g).mpr (Or.inl hg), hgn, hpub⟩
    windows := by
      intro k hk
      rcases (hmem k).mp hk with hk | rfl
      · exact h.windows k hk
      · exact hstop
    good := by
      intro k hk hkk
      rcases (hmem k).mp hk with hk | rfl
      · exact hgood' k (h.based k hk) (h.good k hk hkk)
      · exact hgood' new hless hgood
    gone := by
      intro k hk hgone
      rcases (hmem k).mp hk with hk | rfl
      · obtain ⟨h1, h2, h3, h4⟩ := prunable_iff.mp (h.gone k hk hgone)
        refine prunable_iff.mpr ⟨h1, h2, h3, fun child hchild hp hb => ?_⟩
        rcases (hmem child).mp hchild with hchild | rfl
        · exact h4 child hchild hp hb
        · exact (hbase _ hb).1 hgone
      · exact absurd (h.old _ hgone) (lt_irrefl _)
    held := h.held
    done := fun n cursor hdone => (h.done n cursor hdone).trans (Nat.lt_succ_self _)
    behind := by
      intro k hk cursor hdone
      rcases (hmem k).mp hk with hk | rfl
      · exact h.behind k hk cursor hdone
      · exact absurd (h.done _ _ hdone) (lt_irrefl _)
    lost := h.lost
    leased := by
      intro k hk
      rcases (hmem k).mp hk with hk | rfl
      · exact h.leased k hk
      · exact fun t ht => by cases ht }

/-- Pruning begins, or goes on, on a prunable generation, or ends with it. -/
theorem Inv.remove (h : Inv past s) (hg : g ∈ s.generations) (hprunable : s.prunable g = true)
    (generations : List Generation) (hnumbers : (generations.map Generation.number).Nodup)
    (hrows : ∀ k' ∈ generations, ∃ k ∈ s.generations, k'.number = k.number ∧ k'.key = k.key ∧
      k'.createdMS = k.createdMS ∧ k'.status = k.status ∧ (k.number ≠ g.number → k' = k) ∧
        Onward k k' ∧ k'.leaseToken = k.leaseToken)
    (hothers : ∀ k ∈ s.generations, k.number ≠ g.number → k ∈ generations) :
    Inv { past with pruned := fun n => past.pruned n ∨ n = g.number } { s with generations } := by
  obtain ⟨hdone, hage, hunused, hfree⟩ := prunable_iff.mp hprunable
  exact {
    numbers := hnumbers
    fresh := by
      intro k' hk'
      obtain ⟨k, hk, hn, -⟩ := hrows k' hk'
      rw [hn]
      exact h.fresh k hk
    old := by
      rintro n (hn | rfl)
      · exact h.old n hn
      · exact h.fresh g hg
    based := by
      intro k' hk'
      obtain ⟨k, hk, -, hks, -⟩ := hrows k' hk'
      rw [hks]
      exact h.based k hk
    bases := by
      intro k' hk' b' hb' hbb
      obtain ⟨k, hk, -, hks, -⟩ := hrows k' hk'
      obtain ⟨b, hb, hbn, -, -, hbs, -⟩ := hrows b' hb'
      rw [hks, hbn] at hbb
      rw [hbs]
      exact h.bases k hk b hb hbb
    active := by
      intro c hc n hn
      obtain ⟨hnk, k, hk, rfl, hpub⟩ := h.active c hc n hn
      have hne : k.number ≠ g.number := fun hsame => hunused c hc (hsame ▸ hn)
      exact ⟨fun hp => hp.elim hnk hne, k, hothers k hk hne, rfl, hpub⟩
    windows := by
      intro k' hk'
      obtain ⟨k, hk, -, hks, hcs, -⟩ := hrows k' hk'
      rw [hks, hcs]
      exact h.windows k hk
    good := by
      intro k' hk' hkept
      obtain ⟨k, hk, hn, -, -, -, heq, -⟩ := hrows k' hk'
      obtain ⟨hkk, hne⟩ := not_or.mp hkept
      obtain rfl := heq (hn ▸ hne)
      refine ⟨fun hphase => ?_, (h.good k' hk hkk).filled, (h.good k' hk hkk).published⟩
      obtain ⟨hcursor, hafter, hcopied⟩ := (h.good k' hk hkk).copying hphase
      refine ⟨hcursor, hafter, fun b' hb' hbb hbkept => ?_⟩
      obtain ⟨b, hb, hbn, -, -, -, hbeq, -⟩ := hrows b' hb'
      obtain ⟨hbk, hbne⟩ := not_or.mp hbkept
      obtain rfl := hbeq (hbn ▸ hbne)
      exact hcopied b' hb hbb hbk
    gone := by
      intro k' hk' hgone
      obtain ⟨k, hk, hn, -, hcs, hss, -⟩ := hrows k' hk'
      have hk : s.prunable k = true := by
        rcases hgone with hgone | hsame
        · exact h.gone k hk (hn ▸ hgone)
        · obtain rfl := eq_of_key h.numbers hk hg (hn.symm.trans hsame)
          exact hprunable
      obtain ⟨h1, h2, h3, h4⟩ := prunable_iff.mp hk
      rw [prunable_iff, hn, hcs, hss]
      refine ⟨h1, h2, h3, fun child' hchild' hp => ?_⟩
      obtain ⟨child, hchild, -, hcks, -, hcss, -⟩ := hrows child' hchild'
      rw [hcks]
      exact h4 child hchild (hcss ▸ hp)
    held := h.held
    done := h.done
    behind := by
      intro k' hk' cursor hdone
      obtain ⟨k, hk, hn, -, -, -, -, honward, -⟩ := hrows k' hk'
      exact honward cursor (h.behind k hk cursor (hn ▸ hdone))
    lost := h.lost
    leased := by
      intro k' hk' t ht
      obtain ⟨k, hk, hn, -, -, -, -, -, hlease⟩ := hrows k' hk'
      rw [hn]
      exact h.leased k hk t (hlease ▸ ht) }

theorem Inv.prune (h : Inv past s) {number : ℕ} {keep : Option Kept}
    (hs : s.prune number keep = .ok s') :
    ∃ pruned, Inv { past with pruned } s' := by
  unfold Store.prune at hs
  obtain ⟨g, hg, hs⟩ := bind_eq_ok.mp hs
  obtain ⟨hrow, hprunable⟩ := Option.filter_eq_some_iff.mp (require_eq_ok.mp hg)
  have hg := mem_of_rowOf hrow
  refine ⟨fun n => past.pruned n ∨ n = g.number, ?_⟩
  cases keep with
  | some keep =>
    obtain rfl := Except.ok.inj hs
    have hmem := fun k => mem_write (k := k) (s := s) hg
      (show ({ g with tables := keep.tables g.tables } : Generation).number = g.number from rfl)
    refine h.remove hg hprunable (s.write { g with tables := keep.tables g.tables }).generations
      ?_ ?_ ?_
    · rw [numbers_write]
      exact h.numbers
    · intro k' hk'
      rcases (hmem k').mp hk' with rfl | ⟨hk', -⟩
      · exact ⟨g, hg, rfl, rfl, rfl, rfl, fun hne => absurd rfl hne, Onward.refl g, rfl⟩
      · exact ⟨k', hk', rfl, rfl, rfl, rfl, fun _ => rfl, Onward.refl k', rfl⟩
    · intro k hk hne
      exact (hmem k).mpr (Or.inr ⟨hk, hne⟩)
  | none =>
    obtain rfl := Except.ok.inj hs
    refine h.remove hg hprunable _ ?_ ?_ ?_
    · exact h.numbers.sublist (List.filter_sublist.map _)
    · intro k' hk'
      exact ⟨k', List.mem_of_mem_filter hk', rfl, rfl, rfl, rfl, fun _ => rfl, Onward.refl k', rfl⟩
    · intro k hk hne
      exact List.mem_filter.mpr ⟨hk, by simpa using hne⟩

/-! ## Queueing -/

theorem Inv.supersede (h : Inv past s) (channel : String) : Inv past (s.supersede channel) := by
  refine h.updateWhere fun g _ hp => ?_
  simp only [Bool.and_eq_true, decide_eq_true_eq] at hp
  refine ⟨rfl, rfl, rfl, rfl, rfl, rfl, rfl, rfl, rfl, Or.inl rfl, ?_, fun hpending => ?_⟩
  · rw [hp.2]
    exact iff_of_false (by simp) (by simp)
  · cases hpending

theorem Usable.supersede {a : Option ℕ} (h : Usable past s a) (channel : String) :
    Usable past (s.supersede channel) a := by
  intro n hn
  obtain ⟨hk, g, hg, rfl, hpub⟩ := h n hn
  refine ⟨hk, g, ?_, rfl, hpub⟩
  refine mem_updateWhere.mpr ⟨g, hg, ?_⟩
  rw [if_neg]
  rw [hpub]
  simp

/-- A queued generation goes on from its channel's schedule. One that was superseded is young enough
to go on: its window is the one of today. -/
theorem Inv.upsert (h : Inv past s) {key : Key} {start : ℤ} (hbase : Usable past s key.base)
    (hwindow : s.now + 4 * 86400000 ≤ key.stop ∧ key.stop ≤ s.now + 10 * 86400000) :
    Inv past (s.upsert key c start) := by
  unfold Store.upsert
  split_ifs
  · refine h.updateWhere fun g hg hp => ?_
    simp only [Bool.and_eq_true, decide_eq_true_eq] at hp
    obtain ⟨rfl, hstatus⟩ := hp
    refine ⟨rfl, rfl, rfl, rfl, rfl, rfl, rfl, rfl, rfl, Or.inl rfl, ?_,
      fun _ => Or.inr ⟨fun hgone => ?_, ?_⟩⟩
    · rw [hstatus]
      exact iff_of_false (by simp) (by simp)
    · have hage := (prunable_iff.mp (h.gone g hg hgone)).2.1
      have hstop := h.windows g hg
      unfold weekMS at hage
      omega
    · intro n hn
      exact (hbase n hn).1
  · exact h.insert hbase hwindow.2

theorem Inv.enqueueTx (h : Inv past s) (hc : Usable past s c.active) {boundary history : ℤ}
    {tail : Bool} {fence : String}
    (hs : s.enqueueTx cal c boundary tail fence history = .ok s') : Inv past s' := by
  unfold Store.enqueueTx at hs
  obtain ⟨win, hwin, hs⟩ := bind_eq_ok.mp hs
  obtain ⟨boundary', -, hs⟩ := bind_eq_ok.mp hs
  have hbounds := cal.window_end _ _ _ _ (require_eq_ok.mp hwin)
  obtain rfl := Except.ok.inj hs
  by_cases hend : win.2 ≤ max boundary' win.1
  · rw [if_pos hend]
    exact h
  · rw [if_neg hend]
    exact h.upsert hc hbounds

theorem Inv.readChannel (h : Inv past s) {id : String} (hc : s.readChannel id = .ok c) :
    c ∈ s.channels ∧ Usable past s c.active := by
  have hrow := (Option.filter_eq_some_iff.mp (require_eq_ok.mp hc)).1
  exact ⟨mem_of_rowOf hrow, h.active c (mem_of_rowOf hrow)⟩

theorem Inv.save (h : Inv past s) {id fence : String} {config : Config} {enabled : Bool}
    {history : ℤ} {refs : Option ℤ}
    (hs : s.save cal id config enabled fence history refs = .ok s') : Inv past s' := by
  have hactive : Usable past s ((s.channel id).bind Channel.active) := by
    intro n hn
    obtain ⟨old, hold, hn⟩ := Option.bind_eq_some_iff.mp hn
    exact h.active old (mem_of_rowOf hold) n hn
  have hput : ∀ c : Channel, c.active = (s.channel id).bind Channel.active →
      Inv past ((s.putChannel c).supersede id) ∧
        Usable past ((s.putChannel c).supersede id) c.active := by
    intro c hc
    rw [← hc] at hactive
    exact ⟨(h.putChannel hactive).supersede id,
      Usable.supersede (s := s.putChannel c) hactive id⟩
  unfold Store.save at hs
  simp only at hs
  split_ifs at hs
  · exact (hput _ (by rfl)).1.enqueueTx (hput _ (by rfl)).2 hs
  · obtain rfl := Except.ok.inj hs
    exact (hput _ (by rfl)).1

theorem Inv.regenerate (h : Inv past s) {id fence : String} {history : ℤ} {refs : Option ℤ}
    (hs : s.regenerate cal id fence history refs = .ok s') : Inv past s' := by
  unfold Store.regenerate at hs
  obtain ⟨c, hc, hs⟩ := bind_eq_ok.mp hs
  obtain ⟨-, hs⟩ := guard_eq_ok.mp hs
  obtain ⟨-, husable⟩ := h.readChannel hc
  exact (h.supersede id).enqueueTx (husable.supersede id) hs

theorem Inv.maintain (h : Inv past s) {id fence : String} {tail : Bool} {history : ℤ}
    {refs : Option ℤ} (hs : s.maintain cal id tail fence history refs = .ok s') : Inv past s' := by
  unfold Store.maintain at hs
  obtain ⟨c, hc, hs⟩ := bind_eq_ok.mp hs
  obtain ⟨-, hs⟩ := guard_eq_ok.mp hs
  exact h.enqueueTx (h.readChannel hc).2 hs

theorem Inv.delete (h : Inv past s) {id : String} (hs : s.delete id = .ok s') : Inv past s' := by
  unfold Store.delete at hs
  obtain ⟨c, hc, hs⟩ := bind_eq_ok.mp hs
  obtain rfl := Except.ok.inj hs
  have hput := h.putChannel
    (c := { c with enabled := false, removed := true, revision := c.revision + 1 })
    (h.readChannel hc).2
  exact hput.supersede id

theorem Inv.reorder (h : Inv past s) {id : String} (hs : s.reorder id = .ok s') :
    Inv past s' := by
  unfold Store.reorder at hs
  obtain ⟨c, hc, hs⟩ := bind_eq_ok.mp hs
  obtain rfl := Except.ok.inj hs
  have hput := h.putChannel (c := { c with revision := c.revision + 1 }) (h.readChannel hc).2
  exact hput.updateWhere fun g _ _ =>
    ⟨rfl, rfl, rfl, rfl, rfl, rfl, rfl, rfl, rfl, Or.inl rfl, Iff.rfl, Or.inl⟩

/-! ## Passes -/

/-- What a batch of a pass leaves as it is. -/
structure Batch (g g' : Generation) : Prop where
  number : g'.number = g.number
  key : g'.key = g.key
  created : g'.createdMS = g.createdMS
  status : g'.status = g.status
  onward : Onward g g'

theorem Batch.trans {g₀ : Generation} (h : Batch g₀ g) (h' : Batch g g') : Batch g₀ g' :=
  ⟨h'.number.trans h.number, h'.key.trans h.key, h'.created.trans h.created,
    h'.status.trans h.status, fun cursor hb => h'.onward cursor (h.onward cursor hb)⟩

theorem batch_of_cursor (hnumber : g'.number = g.number) (hkey : g'.key = g.key)
    (hcreated : g'.createdMS = g.createdMS) (hstatus : g'.status = g.status)
    (hcursor : g'.cursor = g.cursor) (hphase : g.phase ≠ .validating) (hphase' : g.phase ≠ .published) :
    Batch g g' :=
  ⟨hnumber, hkey, hcreated, hstatus, onward_of_cursor hcursor hphase hphase'⟩

theorem Good.lease (h : Good past s g) (token : Option ℕ) (stop : ℤ) :
    Good past s { g with leaseToken := token, leaseUntil := stop } :=
  ⟨h.copying, h.filled, h.published⟩

theorem Good.release (h : Good past s g) : Good past s g.release := h.lease none 0

theorem Good.later (h : Good past s g) (hpending : g.status = .pending) (hb : Batch g g')
    (hphase : g.phase ≠ .copying) (hphase' : g'.phase ≠ .copying)
    (hentries : g'.tables.entries = g.tables.entries) (hcursor : g'.cursor = g.cursor) :
    Good past s g' := by
  refine ⟨fun h => absurd h hphase', fun _ => ?_, fun hpub => ?_⟩
  · rw [hentries, hcursor]
    exact h.filled hphase
  · rw [hb.status, hpending] at hpub
    cases hpub

theorem copyUsed_spec (t : Tables) (hphase : g.phase = .copyUsed) :
    Batch g (copyUsed t g) ∧ (copyUsed t g).phase ≠ .copying ∧
      (copyUsed t g).tables.entries = g.tables.entries ∧ (copyUsed t g).cursor = g.cursor := by
  have hbatch : ∀ g' : Generation, g'.number = g.number → g'.key = g.key →
      g'.createdMS = g.createdMS → g'.status = g.status → g'.cursor = g.cursor → Batch g g' :=
    fun g' h1 h2 h3 h4 h5 => batch_of_cursor h1 h2 h3 h4 h5 (by simp [hphase]) (by simp [hphase])
  unfold copyUsed
  simp only
  split_ifs
  · exact ⟨hbatch _ rfl rfl rfl rfl rfl, by simp, rfl, rfl⟩
  · exact ⟨hbatch _ rfl rfl rfl rfl rfl, by simp [hphase], rfl, rfl⟩

theorem snapshotCandidates_spec {read : Rule → String → ℕ → CandidatePage}
    (h : snapshotCandidates read g = .ok g') (hphase : g.phase = .candidates) :
    Batch g g' ∧ g'.phase ≠ .copying ∧ g'.tables.entries = g.tables.entries ∧
      g'.cursor = g.cursor := by
  have hbatch : ∀ g' : Generation, g'.number = g.number → g'.key = g.key →
      g'.createdMS = g.createdMS → g'.status = g.status → g'.cursor = g.cursor → Batch g g' :=
    fun g' h1 h2 h3 h4 h5 => batch_of_cursor h1 h2 h3 h4 h5 (by simp [hphase]) (by simp [hphase])
  unfold snapshotCandidates at h
  cases hr : g.config.rules[g.scanRule]? with
  | none =>
    rw [hr] at h
    obtain rfl := Except.ok.inj h
    exact ⟨hbatch _ rfl rfl rfl rfl rfl, by simp, rfl, rfl⟩
  | some r =>
    rw [hr] at h
    simp only at h
    generalize (if 0 < r.limit then min candidateBatch (r.limit - (g.tables.pool r.id).length)
      else candidateBatch) = limit at h
    by_cases hlimit : limit = 0
    · rw [if_pos hlimit] at h
      obtain rfl := Except.ok.inj h
      exact ⟨hbatch _ rfl rfl rfl rfl rfl, by simp [hphase], rfl, rfl⟩
    · rw [if_neg hlimit] at h
      obtain ⟨pool, -, h⟩ := bind_eq_ok.mp h
      obtain rfl := Except.ok.inj h
      split_ifs <;> exact ⟨hbatch _ rfl rfl rfl rfl rfl, by simp [hphase], rfl, rfl⟩

theorem Inv.writeBatch {g₀ : Generation} (h : Inv past s) (hg : g₀ ∈ s.generations)
    (hpending : g₀.status = .pending) (hb : Batch g₀ g') (hgood : Good past s g') :
    Inv past (s.write g'.release) :=
  h.write hg hpending hb.number hb.key hb.created hb.onward (fun _ hnone => by cases hnone)
    hgood.release

theorem Inv.copying {g₀ : Generation} (h : Inv past s) (hg : g₀ ∈ s.generations)
    (hpending : g₀.status = .pending) (hlease : Batch g₀ g) (hgood : Good past s g)
    (hphase : g.phase = .copying) (hbase : g.key.base.bind s.generation = some b)
    (hcopy : copyEntries b g = .ok g') : Inv past (s.write g'.release) := by
  obtain ⟨n, hn, hrow⟩ := Option.bind_eq_some_iff.mp hbase
  obtain rfl := key_of_rowOf hrow
  have hb := mem_of_rowOf hrow
  rw [hlease.key] at hn
  -- the base is published, and can't be pruned while this generation is pending
  have hbk := (h.pending hg hpending).2 b hb hn
  have hpub := h.bases g₀ hg b hb hn
  obtain ⟨-, -, hcovers⟩ := (h.good b hb hbk).published hpub
  obtain ⟨hcursor, hafter, hcopied⟩ := hgood.copying hphase
  obtain ⟨⟨hnumber, hkey, hcreated, hstatus, -, hcur⟩, hnext⟩ :=
    (hcopied b hb (hlease.key ▸ hn) hbk).copyEntries hcovers hafter hcopy
  have hbatch : Batch g₀ g' := hlease.trans
    (batch_of_cursor hnumber hkey hcreated hstatus hcur (by simp [hphase]) (by simp [hphase]))
  refine h.writeBatch hg hpending hbatch ⟨fun hcopying => ?_, fun hfilled => ?_, fun hp => ?_⟩
  · rcases hnext with ⟨-, hafter', hcopied'⟩ | ⟨hused, -⟩
    · refine ⟨by rw [hcur, hcursor, hkey], hafter', fun b' hb' hbb' _ => ?_⟩
      rw [hbatch.key, hn] at hbb'
      obtain rfl := eq_of_key h.numbers hb hb' (Option.some.inj hbb')
      exact hcopied'
    · rw [hused] at hcopying
      cases hcopying
  · rcases hnext with ⟨hsame, -, -⟩ | ⟨-, lo, hlo⟩
    · exact absurd (hsame.trans hphase) hfilled
    · exact ⟨lo, by rw [hcur, hcursor]; exact hlo⟩
  · rw [hbatch.status, hpending] at hp
    cases hp

/-- **What is published** covers the range from its start to its end. -/
theorem Inv.publishGeneration {g₀ : Generation} (h : Inv past s) (hg : g₀ ∈ s.generations)
    (hpending : g₀.status = .pending) (hlease : Batch g₀ g) (hgood : Good past s g)
    (hphase : g.phase = .validating) (hs : s.publishGeneration g = .ok s') : Inv past s' := by
  unfold Store.publishGeneration at hs
  obtain ⟨first, hfirst, hs⟩ := bind_eq_ok.mp hs
  obtain ⟨last, hlast, hs⟩ := bind_eq_ok.mp hs
  obtain ⟨-, hs⟩ := guard_eq_ok.mp hs
  obtain ⟨c, -, hs⟩ := bind_eq_ok.mp hs
  obtain ⟨lo, hcovers⟩ := hgood.filled (by simp [hphase])
  have hne : g.tables.entries ≠ [] := by
    intro hnil
    rw [hnil] at hfirst
    cases hfirst
  obtain rfl := Option.some.inj ((Tiles.min_start hcovers hne).symm.trans
    (require_eq_ok.mp hfirst))
  obtain rfl := Option.some.inj ((Tiles.max_stop hcovers hne).symm.trans (require_eq_ok.mp hlast))
  obtain ⟨published, hpublished⟩ : ∃ published : Generation, published =
      { g with status := .published, phase := .published, startMS := lo, endMS := g.cursor
               leaseUntil := 0, leaseToken := none } := ⟨_, rfl⟩
  have hrow : Good past s published := by
    subst hpublished
    exact ⟨fun hp => (nomatch hp), fun _ => ⟨lo, hcovers⟩, fun _ => ⟨rfl, rfl, hcovers⟩⟩
  have hnumber : published.number = g₀.number := by
    rw [hpublished]
    exact hlease.number
  have hwrite := h.write hg hpending hnumber (by rw [hpublished]; exact hlease.key)
    (by rw [hpublished]; exact hlease.created)
    (fun _ _ => Or.inr (Or.inr (by rw [hpublished])))
    (fun _ hnone => by rw [hpublished] at hnone; cases hnone) hrow
  have hput := hwrite.putChannel (c := { c with active := some g.number }) (by
    intro n hn
    obtain rfl := Option.some.inj hn
    refine ⟨fun hgone => (h.pending hg hpending).1 (hlease.number ▸ hgone), published, ?_, ?_, ?_⟩
    · exact (mem_write hg hnumber).mpr (Or.inl rfl)
    · rw [hpublished]
    · rw [hpublished])
  obtain rfl := Except.ok.inj hs
  rw [← hpublished]
  exact hput

theorem Inv.runPhase {g₀ : Generation} {token : ℕ} {read : Rule → String → ℕ → CandidatePage}
    (h : Inv past s) (hg : g₀ ∈ s.generations) (hpending : g₀.status = .pending)
    (hlease : Batch g₀ g) (hgood : Good past s g)
    (hleased : Leased past s g) (hfree : ∀ k ∈ s.generations, k.leaseToken ≠ some token)
    (hheld : ∀ g, Held s.tokens (⟨token, g, none, entryBatch⟩ :: s.passes))
    (hs : s.runPhase g token read = .ok s') : Inv past s' := by
  have hstatus := hlease.status.trans hpending
  unfold Store.runPhase at hs
  cases hphase : g.phase with
  | copying =>
    simp only [hphase] at hs
    obtain ⟨b, hb, hs⟩ := bind_eq_ok.mp hs
    obtain ⟨g', hcopy, hs⟩ := bind_eq_ok.mp hs
    obtain rfl := Except.ok.inj hs
    exact h.copying hg hpending hlease hgood hphase (require_eq_ok.mp hb) hcopy
  | copyUsed =>
    simp only [hphase] at hs
    obtain rfl := Except.ok.inj hs
    obtain ⟨hb, hp, hentries, hcursor⟩ := copyUsed_spec
      (((g.key.base.bind s.generation).map Generation.tables).getD .empty) hphase
    exact h.writeBatch hg hpending (hlease.trans hb)
      (hgood.later hstatus hb (by simp [hphase]) hp hentries hcursor)
  | candidates =>
    simp only [hphase] at hs
    obtain ⟨g', hg', hs⟩ := bind_eq_ok.mp hs
    obtain rfl := Except.ok.inj hs
    obtain ⟨hb, hp, hentries, hcursor⟩ := snapshotCandidates_spec hg' hphase
    exact h.writeBatch hg hpending (hlease.trans hb)
      (hgood.later hstatus hb (by simp [hphase]) hp hentries hcursor)
  | scheduling =>
    simp only [hphase] at hs
    obtain rfl := Except.ok.inj hs
    have hwrite := h.write hg hpending hlease.number hlease.key hlease.created hlease.onward
      hleased hgood
    refine hwrite.passes (fun _ => id) (hheld g) fun p hp k hk hkt => ?_
    have hk := (mem_write hg hlease.number).mp hk
    rcases List.mem_cons.mp hp with rfl | hold
    · rcases hk with rfl | ⟨hk, -⟩
      · rfl
      · exact absurd hkt (hfree k hk)
    · rcases hk with rfl | ⟨hk, -⟩
      · exact (hleased p.token hkt).2.2 p hold rfl
      · exact (h.leased k hk p.token hkt).2.2 p hold rfl
  | validating =>
    simp only [hphase] at hs
    exact h.publishGeneration hg hpending hlease hgood hphase hs
  | published =>
    simp only [hphase] at hs
    cases hs

theorem Inv.runBatch {number token : ℕ} {fence : String}
    {read : Rule → String → ℕ → CandidatePage} (h : Inv past s)
    (hs : s.runBatch number token fence read = .ok s') : Inv past s' := by
  unfold Store.runBatch at hs
  obtain ⟨g, hg, hs⟩ := bind_eq_ok.mp hs
  obtain ⟨c, -, hs⟩ := bind_eq_ok.mp hs
  obtain ⟨hfresh, hs⟩ := guard_eq_ok.mp hs
  obtain ⟨hrow, hfree⟩ := Option.filter_eq_some_iff.mp (require_eq_ok.mp hg)
  have hg := mem_of_rowOf hrow
  simp only [Bool.and_eq_true, decide_eq_true_eq] at hfree
  have hheld : Held (token :: s.tokens) s.passes :=
    ⟨h.held.keyed, fun p hp => List.mem_cons_of_mem _ (h.held.spent p hp), h.held.planned⟩
  have htoken : Inv past { s with tokens := token :: s.tokens } := 
    h.passes (fun _ => List.mem_cons_of_mem _) hheld fun p hp k hk hkt =>
      (h.leased k hk p.token hkt).2.2 p hp rfl
  -- the new lease is no other pass's
  have hleased : ∀ t, some token = some t → ¬ past.lost t ∧ t ∈ token :: s.tokens ∧
      ∀ p ∈ s.passes, p.token = t → p.g.number = g.number := by
    intro t ht
    obtain rfl := Option.some.inj ht
    refine ⟨fun hlost => hfresh (h.lost _ hlost), List.mem_cons_self, fun p hp hpt => ?_⟩
    exact absurd (hpt ▸ h.held.spent p hp) hfresh
  have hunleased : ∀ k ∈ s.generations, k.leaseToken ≠ some token :=
    fun k hk hkt => hfresh (h.leased k hk token hkt).2.1
  have hbegin : ∀ g, Held (token :: s.tokens) (⟨token, g, none, entryBatch⟩ :: s.passes) := by
    intro g
    refine ⟨?_, fun p hp => ?_, fun p hp w hw => ?_⟩
    · rw [List.map_cons, List.nodup_cons]
      refine ⟨fun hmem => ?_, h.held.keyed⟩
      obtain ⟨p, hp, rfl⟩ := List.mem_map.mp hmem
      exact hfresh (h.held.spent p hp)
    · rcases List.mem_cons.mp hp with rfl | hp
      · exact List.mem_cons_self
      · exact hheld.spent p hp
    · rcases List.mem_cons.mp hp with rfl | hp
      · cases hw
      · exact h.held.planned p hp w hw
  have hgood := (htoken.good g hg (h.pending hg hfree.1).1).lease (some token) (s.now + leaseMS)
  simp only at hs
  by_cases hmoved : c.revision ≠ g.revision ∨ fence ≠ g.key.fence
  · -- the configuration or the catalogue has changed
    rw [if_pos (by simpa using hmoved)] at hs
    obtain rfl := Except.ok.inj hs
    refine htoken.write hg hfree.1 rfl rfl rfl (Onward.refl g) hleased ⟨hgood.copying, hgood.filled, fun hp => ?_⟩
    cases hp
  · rw [if_neg (by simpa using hmoved)] at hs
    exact Inv.runPhase
      (g := { g with leaseToken := some token, leaseUntil := s.now + leaseMS })
      htoken hg hfree.1 ⟨rfl, rfl, rfl, rfl, Onward.refl g⟩ hgood hleased
      hunleased hbegin hs

/-! ## Slots -/

theorem planned_of_planSlot (hphase : g.phase = .scheduling) (h : planSlot g cal chance = .ok w) :
    Planned g.cursor w := by
  rcases planSlot_cases h with ⟨-, rfl⟩ | ⟨-, slot, r, w', r', found, v, -, -, -, hv, rfl⟩
  · exact ⟨Or.inr rfl, Or.inl ⟨rfl, rfl, rfl⟩⟩
  · refine ⟨?_, Or.inr ⟨v, rfl, startMS_of_slotEntry hv, rfl⟩⟩
    change (if g.endMS ≤ v.endMS then Phase.validating else g.phase) = _ ∨
      (if g.endMS ≤ v.endMS then Phase.validating else g.phase) = _
    split_ifs
    · exact Or.inr rfl
    · exact Or.inl hphase

theorem Held.update {tokens : List ℕ} {passes : List Pass} {token : ℕ} {f : Pass → Pass}
    (h : Held tokens passes) (hf : ∀ q, (f q).token = q.token)
    (hplanned : ∀ q ∈ passes, q.token = token → ∀ w, (f q).planned = some w →
      Planned (f q).g.cursor w) :
    Held tokens (updateWhere (fun q => q.token = token) f passes) where
  keyed := by
    rw [map_updateWhere hf]
    exact h.keyed
  spent := forall_updateWhere (fun q hq _ => (hf q).symm ▸ h.spent q hq) fun q hq _ => h.spent q hq
  planned := forall_updateWhere
    (fun q hq htoken => hplanned q hq (of_decide_eq_true htoken)) fun q hq _ => h.planned q hq

theorem Inv.updatePasses {f : Pass → Pass} (h : Inv past s) (token : ℕ)
    (hf : ∀ q, (f q).token = q.token ∧ (f q).g.number = q.g.number)
    (hplanned : ∀ q ∈ s.passes, q.token = token → ∀ w, (f q).planned = some w →
      Planned (f q).g.cursor w) :
    Inv past { s with passes := Portico.updateWhere (fun q => q.token = token) f s.passes } := by
  refine h.passes (fun t (ht : t ∈ s.tokens) => ht) (h.held.update (fun q => (hf q).1) hplanned) ?_
  refine forall_updateWhere (fun q hq _ k hk hkt => ?_) fun q hq _ k hk hkt => ?_
  · rw [(hf q).2]
    rw [(hf q).1] at hkt
    exact (h.leased k hk q.token hkt).2.2 q hq rfl
  · exact (h.leased k hk q.token hkt).2.2 q hq rfl

theorem Inv.planPass {token : ℕ} (h : Inv past s) (hs : s.planPass cal chance token = .ok s') :
    Inv past s' := by
  unfold Store.planPass at hs
  obtain ⟨p, hp, hs⟩ := bind_eq_ok.mp hs
  obtain ⟨w, hw, hs⟩ := bind_eq_ok.mp hs
  obtain ⟨hrow, hturn⟩ := Option.filter_eq_some_iff.mp (require_eq_ok.mp hp)
  simp only [Bool.and_eq_true, decide_eq_true_eq] at hturn
  obtain rfl := Except.ok.inj hs
  have hplanned : Planned p.g.cursor w := planned_of_planSlot (g := { p.g with
    tables := ((s.generation p.g.number).map Generation.tables).getD .empty }) hturn.2 hw
  refine h.updatePasses token (fun q => ⟨rfl, rfl⟩) fun q hq htoken w' hw' => ?_
  rw [← Option.some.inj hw',
    eq_of_key h.held.keyed hq (mem_of_rowOf hrow) (htoken.trans (key_of_rowOf hrow).symm)]
  exact hplanned

theorem Good.applySlot (h : Good past s g) (hpending : g.status = .pending)
    (hphase : g.phase = .scheduling) (hw : Planned g.cursor w) (happly : applySlot g w = .ok g') :
    Batch g g' ∧ Good past s g' ∧ Behind g.cursor g' := by
  obtain ⟨entries, hentries, rfl⟩ := applySlot_cases happly
  obtain ⟨lo, hcovers⟩ := h.filled (by simp [hphase])
  obtain ⟨hcovers', hlt⟩ : Covers lo entries w.cursor ∧
      (g.cursor < w.cursor ∨ w.phase = .validating ∧ w.cursor = g.cursor) := by
    rcases hw.entry with ⟨hnone, hcursor, hend⟩ | ⟨v, hv, hstart, hcursor⟩
    · rw [hnone] at hentries
      obtain rfl := Except.ok.inj hentries
      exact ⟨hcursor ▸ hcovers, Or.inr ⟨hend, hcursor⟩⟩
    · rw [hv] at hentries
      obtain ⟨hinsert, hnext⟩ := hcovers.insertEntry hstart
      obtain rfl := Except.ok.inj (hinsert.symm.trans hentries)
      have hpos := v.positive
      exact ⟨hcursor ▸ hnext, Or.inl (by omega)⟩
  refine ⟨⟨rfl, rfl, rfl, rfl, ?_⟩, ⟨fun hcopying => ?_, fun _ => ⟨lo, hcovers'⟩, fun hpub => ?_⟩, ?_⟩
  · rintro cursor (hbehind | hlate | hlate)
    · rcases hlt with hlt | ⟨-, hsame⟩
      · exact Or.inl (hbehind.trans hlt)
      · exact Or.inl (hbehind.trans_eq hsame.symm)
    · exact nomatch hphase.symm.trans hlate
    · exact nomatch hphase.symm.trans hlate
  · rcases hw.phase with hp | hp <;> exact nomatch hp.symm.trans hcopying
  · exact nomatch hpending.symm.trans hpub
  · rcases hlt with hlt | ⟨hend, -⟩
    · exact Or.inl hlt
    · exact Or.inr (Or.inl hend)

theorem Inv.endPass (h : Inv past s) (token : ℕ) : Inv past (s.endPass token) := by
  refine h.passes (fun t (ht : t ∈ s.tokens) => ht) ⟨?_, ?_, ?_⟩ ?_
  · exact h.held.keyed.sublist (List.filter_sublist.map _)
  · exact fun p hp => h.held.spent p (List.mem_of_mem_filter hp)
  · exact fun p hp => h.held.planned p (List.mem_of_mem_filter hp)
  · exact fun p hp k hk hkt => (h.leased k hk p.token hkt).2.2 p (List.mem_of_mem_filter hp) rfl

/-- The slot that a pass's commit writes: its generation and cursor. -/
def Store.commits (s : Store) (token : ℕ) : Option (ℕ × ℤ) := do
  let p ← s.pass token
  let w ← p.planned
  let g ← (s.generation p.g.number).filter p.holds
  let _ ← (applySlot g w).toOption
  return (g.number, g.cursor)

/-- What a commit does: nothing, or it moves a generation that is where the plan found it. -/
theorem scheduleSlot_cases {token : ℕ} (hs : s.scheduleSlot token = .ok s') :
    s.commits token = none ∧ s' = s.endPass token ∨
      ∃ p w g g', s.pass token = some p ∧ p.planned = some w ∧
        s.generation p.g.number = some g ∧ p.holds g = true ∧ applySlot g w = .ok g' ∧
          s.commits token = some (g.number, g.cursor) ∧
            s' = { s.write g' with
              passes := updateWhere (fun q => q.token = token) (fun q => { q with
                g := { q.g with cursor := w.cursor, phase := w.phase }
                planned := none
                left := q.left - 1 }) s.passes } := by
  unfold Store.scheduleSlot at hs
  obtain ⟨p, hp, hs⟩ := bind_eq_ok.mp hs
  obtain ⟨w, hw, hs⟩ := bind_eq_ok.mp hs
  have hp := require_eq_ok.mp hp
  have hw := require_eq_ok.mp hw
  unfold Store.commits
  cases hg : (s.generation p.g.number).filter p.holds with
  | none =>
    rw [hg] at hs
    exact Or.inl ⟨by simp [hp, hw, hg], (Except.ok.inj hs).symm⟩
  | some g =>
    rw [hg] at hs
    simp only at hs
    obtain ⟨hrow, hholds⟩ := Option.filter_eq_some_iff.mp hg
    cases happly : applySlot g w with
    | error e =>
      rw [happly] at hs
      exact Or.inl ⟨by simp [hp, hw, hg, happly, Except.toOption], (Except.ok.inj hs).symm⟩
    | ok g' =>
      rw [happly] at hs
      exact Or.inr ⟨p, w, g, g', hp, hw, hrow, hholds, happly,
        by simp [hp, hw, hg, happly, Except.toOption], (Except.ok.inj hs).symm⟩

theorem Inv.record (h : Inv past s) {slot : Option (ℕ × ℤ)}
    (hslot : ∀ n cursor, slot = some (n, cursor) → n < s.nextNumber ∧
      ∀ g ∈ s.generations, g.number = n → Behind cursor g) :
    Inv { past with done := fun n cursor => past.done n cursor ∨ slot = some (n, cursor) } s where
  numbers := h.numbers
  fresh := h.fresh
  old := h.old
  based := h.based
  bases := h.bases
  active := h.active
  windows := h.windows
  good g hg hkept := ⟨(h.good g hg hkept).copying, (h.good g hg hkept).filled,
    (h.good g hg hkept).published⟩
  gone := h.gone
  held := h.held
  done n cursor hdone := hdone.elim (h.done n cursor) fun hnow => (hslot n cursor hnow).1
  behind g hg cursor hdone :=
    hdone.elim (h.behind g hg cursor) fun hnow => (hslot g.number cursor hnow).2 g hg rfl
  lost := h.lost
  leased := h.leased

theorem Inv.lose {p : Pass} (h : Inv past s) (hp : p ∈ s.passes)
    (hlease : ∀ g ∈ s.generations, g.number = p.g.number → g.leaseToken ≠ some p.token) :
    Inv { past with lost := fun t => past.lost t ∨ t = p.token } s where
  numbers := h.numbers
  fresh := h.fresh
  old := h.old
  based := h.based
  bases := h.bases
  active := h.active
  windows := h.windows
  good g hg hkept := ⟨(h.good g hg hkept).copying, (h.good g hg hkept).filled,
    (h.good g hg hkept).published⟩
  gone := h.gone
  held := h.held
  done := h.done
  behind := h.behind
  lost t ht := ht.elim (h.lost t) fun hsame => hsame ▸ h.held.spent p hp
  leased g hg t ht := by
    obtain ⟨hnot, hrest⟩ := h.leased g hg t ht
    refine ⟨?_, hrest⟩
    rintro (hlost | rfl)
    · exact hnot hlost
    · exact hlease g hg (hrest.2 p hp rfl).symm ht

/-- **A commit** moves its generation past a slot that no commit has moved it past. -/
theorem Inv.scheduleSlot {token : ℕ} (h : Inv past s) (hs : s.scheduleSlot token = .ok s') :
    (∀ n cursor, s.commits token = some (n, cursor) → ¬ past.done n cursor) ∧
      Inv { past with
        done := fun n cursor => past.done n cursor ∨ s.commits token = some (n, cursor) } s' := by
  rcases scheduleSlot_cases hs with ⟨hnone, rfl⟩ |
    ⟨p, w, g, g', hp, hw, hrow, hholds, happly, hcommits, rfl⟩
  · constructor
    · intro n cursor hsome
      exact nomatch hnone.symm.trans hsome
    · refine (h.endPass token).record fun n cursor hsome => ?_
      exact nomatch hnone.symm.trans hsome
  · have hg := mem_of_rowOf hrow
    obtain rfl := key_of_rowOf hp
    have hp := mem_of_rowOf hp
    unfold Pass.holds at hholds
    simp only [Bool.and_eq_true, decide_eq_true_eq] at hholds
    obtain ⟨⟨⟨hpending, hphase⟩, -⟩, hcursor⟩ := hholds
    have hplanned := h.held.planned p hp w hw
    rw [← hcursor] at hplanned
    obtain ⟨hbatch, hgood, hbehind⟩ :=
      (h.good g hg (h.pending hg hpending).1).applySlot hpending hphase hplanned happly
    have hleased : Leased past s g' := by
      obtain ⟨-, -, rfl⟩ := applySlot_cases happly
      exact h.leased g hg
    have hwrite := h.write hg hpending hbatch.number hbatch.key hbatch.created hbatch.onward hleased
      hgood
    constructor
    · intro n cursor hsome hdone
      obtain ⟨rfl, rfl⟩ := Prod.mk.inj (Option.some.inj (hcommits.symm.trans hsome))
      -- the generation is still before the slot
      rcases h.behind g hg _ hdone with hlt | hlate | hlate
      · exact lt_irrefl _ hlt
      · exact nomatch hphase.symm.trans hlate
      · exact nomatch hphase.symm.trans hlate
    · have hpasses := hwrite.updatePasses p.token
        (f := fun q => { q with
          g := { q.g with cursor := w.cursor, phase := w.phase }
          planned := none
          left := q.left - 1 }) (fun q => ⟨rfl, rfl⟩) (fun q _ _ w' hw' => nomatch hw')
      refine hpasses.record fun n cursor hsome => ?_
      obtain ⟨rfl, rfl⟩ := Prod.mk.inj (Option.some.inj (hcommits.symm.trans hsome))
      refine ⟨h.fresh g hg, fun k hk hkn => ?_⟩
      rcases (mem_write hg hbatch.number).mp hk with rfl | ⟨-, hne⟩
      · exact hbehind
      · exact absurd (hkn.trans hbatch.number.symm) hne

theorem Inv.finishPass {token : ℕ} {handsBack : Bool} (h : Inv past s)
    (hs : s.finishPass token handsBack = .ok s') : Inv past s' := by
  unfold Store.finishPass at hs
  obtain ⟨p, -, hs⟩ := bind_eq_ok.mp hs
  obtain rfl := Except.ok.inj hs
  split_ifs
  · exact (h.endPass token).updateWhere fun g _ _ =>
      ⟨rfl, rfl, rfl, rfl, rfl, rfl, rfl, rfl, rfl, Or.inr rfl, Iff.rfl, Or.inl⟩
  · exact h.endPass token

/-! ## Runs -/

/-- The slot that an event commits: its generation and cursor. -/
def committed (s : Store) : Event → Option (ℕ × ℤ)
  | .commit token => s.commits token
  | _ => none

variable {e : Event}

/-- **Every event** keeps the invariant, and commits no slot again. -/
theorem inv_step (h : Inv past s) (hs : step cal chance s e = some s') :
    (∀ n cursor, committed s e = some (n, cursor) → ¬ past.done n cursor) ∧
      ∃ pruned, Inv { past with
        pruned
        done := fun n cursor => past.done n cursor ∨ committed s e = some (n, cursor) } s' := by
  have hs : apply cal chance s e = .ok s' := toOption_eq_some.mp hs
  -- events that commit nothing
  have hquiet : committed s e = none → (∃ pruned, Inv { past with pruned } s') →
      (∀ n cursor, committed s e = some (n, cursor) → ¬ past.done n cursor) ∧
        ∃ pruned, Inv { past with
          pruned
          done := fun n cursor => past.done n cursor ∨ committed s e = some (n, cursor) } s' := by
    rintro hnone ⟨pruned, hinv⟩
    rw [hnone]
    exact ⟨fun _ _ h => (nomatch h), pruned, hinv.record fun _ _ h => (nomatch h)⟩
  cases e with
  | tick now =>
    change (if s.now ≤ now then .ok { s with now } else .error Fault.invalid) = Except.ok s' at hs
    split_ifs at hs with hnow
    obtain rfl := Except.ok.inj hs
    exact hquiet rfl ⟨_, h.tick hnow⟩
  | save => exact hquiet rfl ⟨_, h.save hs⟩
  | regenerate => exact hquiet rfl ⟨_, h.regenerate hs⟩
  | maintain => exact hquiet rfl ⟨_, h.maintain hs⟩
  | delete => exact hquiet rfl ⟨_, h.delete hs⟩
  | reorder => exact hquiet rfl ⟨_, h.reorder hs⟩
  | runBatch => exact hquiet rfl ⟨_, h.runBatch hs⟩
  | plan => exact hquiet rfl ⟨_, h.planPass hs⟩
  | commit token =>
    obtain ⟨hnew, hinv⟩ := h.scheduleSlot hs
    exact ⟨hnew, _, hinv⟩
  | finish => exact hquiet rfl ⟨_, h.finishPass hs⟩
  | prune => exact hquiet rfl (h.prune hs)

theorem inv_run {es : List Event} (h : Inv past s) (hrun : run (step cal chance) s es = some s') :
    ∃ past', past'.lost = past.lost ∧ Inv past' s' := by
  refine run_invariant (P := fun s => ∃ past', past'.lost = past.lost ∧ Inv past' s) ?_
    ⟨past, rfl, h⟩ hrun
  rintro s e s' ⟨past', hsame, h⟩ hs
  obtain ⟨-, pruned, hnext⟩ := inv_step h hs
  exact ⟨_, by exact hsame, hnext⟩

theorem Inv.commits_eq_none {token : ℕ} (h : Inv past s) (hlost : past.lost token) :
    s.commits token = none := by
  unfold Store.commits
  cases hp : s.pass token with
  | none => rfl
  | some p =>
    cases hw : p.planned with
    | none => simp [hw]
    | some w =>
      have hnone : (s.generation p.g.number).filter p.holds = none := by
        rw [Option.filter_eq_none_iff]
        intro g hrow hholds
        unfold Pass.holds at hholds
        simp only [Bool.and_eq_true, decide_eq_true_eq] at hholds
        rw [key_of_rowOf hp] at hholds
        exact (h.leased g (mem_of_rowOf hrow) token hholds.1.2).1 hlost
      simp [hw, hnone]

theorem outputs_committed {now : ℤ} {es : List Event}
    (hrun : run (step cal chance) (start now) es = some s) :
    (outputs (step cal chance) committed (start now) es).Nodup ∧ ∃ past, Inv past s := by
  have hall := run_history (Q := fun _ _ => True)
    (P := fun es t => run (step cal chance) (start now) es = some t ∧
      (outputs (step cal chance) committed (start now) es).Nodup ∧
        ∃ past : Past, (∀ n cursor, past.done n cursor ↔
          (n, cursor) ∈ outputs (step cal chance) committed (start now) es) ∧ Inv past t)
    ?_ ?_ hrun (each_of_kept (I := fun _ => True) (fun _ _ _ _ _ => trivial) (fun _ _ _ => trivial)
      trivial)
  · obtain ⟨-, hnodup, past, -, h⟩ := hall
    exact ⟨hnodup, past, h⟩
  · exact ⟨rfl, List.nodup_nil, _, fun _ _ => by simp [outputs], start_inv now⟩
  · rintro es t e t' ⟨hes, hnodup, past, hdone, h⟩ - ht
    obtain ⟨hnew, pruned, hnext⟩ := inv_step h ht
    rw [outputs_concat hes]
    refine ⟨run_concat.mpr ⟨t, hes, ht⟩, ?_, _, fun n cursor => ?_, hnext⟩
    · rw [List.nodup_append]
      refine ⟨hnodup, by cases committed t e <;> simp, ?_⟩
      rintro ⟨n, cursor⟩ hold slot hslot rfl
      exact hnew n cursor (Option.mem_toList.mp hslot) ((hdone n cursor).mpr hold)
    · rw [List.mem_append, ← hdone, Option.mem_toList]

/-- **The schedules of a channel.** In every run, whatever cuts its passes off, a generation that is
kept has, once it has copied what it goes on from, entries of positive length that cover the time from
the first of them to its cursor, one after the other; what is published covers its whole range. No
slot is committed twice. A commit that isn't one changes no generation, and once a generation's lease
isn't a pass's any more, that pass commits nothing. -/
theorem schedule_tiles {now : ℤ} {es : List Event}
    (hrun : run (step cal chance) (start now) es = some s) :
    (∀ g ∈ s.generations, s.prunable g = false → g.phase ≠ .copying →
      Covers (first Entry.startMS g.cursor g.tables.entries) g.tables.entries g.cursor) ∧
    (∀ g ∈ s.generations, s.prunable g = false → g.status = .published →
      g.endMS = g.cursor ∧ Covers g.startMS g.tables.entries g.cursor) ∧
    (∀ c ∈ s.channels, ∀ n, c.active = some n →
      ∃ g ∈ s.generations, g.number = n ∧ g.status = .published ∧ s.prunable g = false) ∧
    (outputs (step cal chance) committed (start now) es).Nodup ∧
    (∀ token s', s.commits token = none → step cal chance s (.commit token) = some s' →
      s'.generations = s.generations) ∧
    ∀ before after t p, es = before ++ after → run (step cal chance) (start now) before = some t →
      p ∈ t.passes → (∀ g ∈ t.generations, g.number = p.g.number → g.leaseToken ≠ some p.token) →
      s.commits p.token = none := by
  obtain ⟨hnodup, past, h⟩ := outputs_committed hrun
  have hkept : ∀ g ∈ s.generations, s.prunable g = false → Good past s g := by
    intro g hg hnot
    refine h.good g hg fun hgone => ?_
    rw [h.gone g hg hgone] at hnot
    cases hnot
  refine ⟨?_, ?_, ?_, hnodup, ?_, ?_⟩
  · intro g hg hnot hphase
    obtain ⟨lo, hcovers⟩ := (hkept g hg hnot).filled hphase
    rw [Tiles.first hcovers]
    exact hcovers
  · intro g hg hnot hpub
    exact ((hkept g hg hnot).published hpub).2
  · intro c hc n hn
    obtain ⟨-, g, hg, rfl, hpub⟩ := h.active c hc n hn
    refine ⟨g, hg, rfl, hpub, ?_⟩
    rw [Bool.eq_false_iff, Ne, prunable_iff]
    rintro ⟨-, -, hunused, -⟩
    exact hunused c hc hn
  · intro token s' hnone hs
    rcases scheduleSlot_cases (toOption_eq_some.mp hs) with ⟨-, rfl⟩ |
      ⟨p, w, g, g', -, -, -, -, -, hcommits, -⟩
    · rfl
    · exact nomatch hnone.symm.trans hcommits
  · rintro before after t p rfl hbefore hp hlease
    obtain ⟨u, hu, hafter⟩ := run_append.mp hrun
    obtain rfl := Option.some.inj (hbefore.symm.trans hu)
    obtain ⟨-, past', h'⟩ := outputs_committed hbefore
    -- from here on the lease is lost
    obtain ⟨past'', hlost, h''⟩ := inv_run (h'.lose hp hlease) hafter
    apply h''.commits_eq_none
    rw [hlost]
    exact Or.inr rfl

/-- A channel that plays two films of three days in turn. -/
def filmChannel : Config :=
  { timezone := "UTC", seed := "seed", defaultRuleID := "loop", rules := [loopRule], blocks := [] }

def readFilms (_ : Rule) (_ : String) (_ : ℕ) : CandidatePage :=
  { page := [film 1 "a" 259200000 (by decide), film 2 "b" 259200000 (by decide)]
    after := "", scanned := 2, unresolved := 0 }

/-- A pass has planned a slot when its lease ends, and another one goes on. -/
def takeover : List Event :=
  [.save "channel" filmChannel true "fence" 0 none, .runBatch 0 10 "fence" readFilms,
    .runBatch 0 11 "fence" readFilms, .runBatch 0 12 "fence" readFilms, .plan 12, .commit 12, .plan 12,
    .tick 30000, .runBatch 0 13 "fence" readFilms, .commit 12, .plan 13, .commit 13, .plan 13,
    .commit 13, .finish 13 true, .runBatch 0 14 "fence" readFilms]

theorem schedule_tiles_takeover :
    ∃ s, run (step dayCalendar noChance) (start 0) takeover = some s ∧
      s.generations.map (fun g => (g.status, g.endMS, g.tables.entries.map Entry.startMS)) =
        [(.published, 777600000, [0, 259200000, 518400000])] ∧
      outputs (step dayCalendar noChance) committed (start 0) takeover =
        [(0, 0), (0, 259200000), (0, 518400000)] ∧
      ∀ g ∈ s.generations, s.prunable g = false → g.status = .published →
        g.endMS = g.cursor ∧ Covers g.startMS g.tables.entries g.cursor := by
  have hrun : (run (step dayCalendar noChance) (start 0) takeover).map (fun s =>
      s.generations.map fun g => (g.status, g.endMS, g.tables.entries.map Entry.startMS)) =
        some [(.published, 777600000, [0, 259200000, 518400000])] := by decide +kernel
  obtain ⟨s, hs, hrows⟩ := Option.map_eq_some_iff.mp hrun
  exact ⟨s, hs, hrows, by decide +kernel, (schedule_tiles hs).2.1⟩

end Portico.LibraryChannels
