import Portico.Lib.CountedBlocks
import Portico.Lib.Runs

/-!
# Positions through counted blocks

The running totals of counted blocks say how many places come before each start. So the place at a
position is found by its block and a walk inside it, and the number of the first places that meet a
condition by those before a block and the ones inside it.

## Main results

* `blockAt_spec`, `blockAt_none`: a position lies in the block that is found for it
* `blockRank_eq`: the count of the first places that meet a condition
-/

namespace Portico.CountedBlocks

open Runs Direction

/-! ## Running totals -/

section

variable {α : Type*}

/-- Blocks with the number of places before each of them. -/
def running (before : ℕ) : List (Block α) → List (Block α × ℕ)
  | [] => []
  | b :: bs => (b, before) :: running (before + b.total) bs

variable {bs l l' : List (Block α)} {b : Block α} {n before : ℕ}

theorem mem_running : (b, n) ∈ running before bs ↔
    ∃ l l', bs = l ++ b :: l' ∧ n = before + (l.map Block.total).sum := by
  induction bs generalizing before with
  | nil => simp [running]
  | cons c bs ih =>
    unfold running
    rw [List.mem_cons, ih]
    constructor
    · rintro (heq | ⟨l, l', rfl, rfl⟩)
      · obtain ⟨rfl, rfl⟩ := Prod.mk.inj heq
        exact ⟨[], bs, rfl, by simp⟩
      · exact ⟨c :: l, l', rfl, by simp [add_assoc]⟩
    · rintro ⟨l, l', heq, rfl⟩
      cases l with
      | nil =>
        obtain ⟨rfl, rfl⟩ := List.cons.inj heq
        exact Or.inl (by simp)
      | cons d l =>
        obtain ⟨rfl, rfl⟩ := List.cons.inj heq
        exact Or.inr ⟨l, l', rfl, by simp [add_assoc]⟩

/-- The first block whose running total passes a position is the one that the position is in. -/
theorem find_running (hbefore : before ≤ n) (hn : n < before + (bs.map Block.total).sum) :
    ∃ b m, (running before bs).find? (fun x => n < x.2 + x.1.total) = some (b, m) ∧
      m ≤ n ∧ n < m + b.total := by
  induction bs generalizing before with
  | nil => simp at hn; omega
  | cons c bs ih =>
    unfold running
    by_cases hpasses : n < before + c.total
    · refine ⟨c, before, ?_, hbefore, hpasses⟩
      exact List.find?_cons_of_pos (by simpa using hpasses)
    · rw [List.find?_cons_of_neg (by simpa using hpasses)]
      rw [List.map_cons, List.sum_cons] at hn
      exact ih (by omega) (by omega)

theorem find_running_none (hn : before + (bs.map Block.total).sum ≤ n) :
    (running before bs).find? (fun x => n < x.2 + x.1.total) = none := by
  induction bs generalizing before with
  | nil => rfl
  | cons c bs ih =>
    rw [List.map_cons, List.sum_cons] at hn
    unfold running
    rw [List.find?_cons_of_neg (by simp; omega)]
    exact ih (by omega)

end

variable {α : Type*} [LinearOrder α]

/-- The blocks in the order of their starts. -/
def byStart (bs : List (Block α)) : List (Block α) := bs.insertionSort fun a b => a.start ≤ b.start

/-- The block whose running total passes a position, with the number of places before it. -/
def blockAt (bs : List (Block α)) (n : ℕ) : Option (Block α × ℕ) :=
  (running 0 (byStart bs)).find? fun x => n < x.2 + x.1.total

/-- The last block that starts up to a place, with the number of places before it. -/
def blockBefore (bs : List (Block α)) (q : α) : Option (Block α × ℕ) :=
  ((running 0 (byStart bs)).filter fun x => x.1.start ≤ q).getLast?

/-- The places before the block that covers one, and those that are counted from its start on; all
places are counted when no block starts up to it. -/
def blockRank (bs : List (Block α)) (q : α) (inside : Option α → ℕ) : ℕ :=
  match blockBefore bs q with
  | none => inside none
  | some (b, before) => before + inside (some b.start)

variable {bs : List (Block α)} {rows : Finset α} {b : Block α} {n m : ℕ} {q : α}

instance : IsTrans (Block α) fun a b => a.start ≤ b.start := ⟨fun _ _ _ h h' => le_trans h h'⟩

instance : Std.Total fun a b : Block α => a.start ≤ b.start := ⟨fun a b => le_total a.start b.start⟩

theorem perm_byStart : (byStart bs).Perm bs := List.perm_insertionSort _ _

theorem sorted_byStart : (byStart bs).Pairwise fun a b => a.start ≤ b.start :=
  List.pairwise_insertionSort _ _

theorem sum_byStart : ((byStart bs).map Block.total).sum = (bs.map Block.total).sum :=
  (perm_byStart.map _).sum_eq

theorem sum_before (h : Exact rows bs) (hb : b ∈ bs) :
    ((bs.filter fun c => c.start < b.start).map Block.total).sum =
      (rows.filter fun p => p < b.start).card := by
  have hexact : Exact (rows.filter fun p => p < b.start) (bs.filter fun c => c.start < b.start) := by
    refine ⟨h.keys.sublist (List.filter_sublist.map _), fun p hp => ?_, fun c hc => ?_⟩
    · obtain ⟨hp, hlt⟩ := Finset.mem_filter.mp hp
      obtain ⟨c, hc, hle⟩ := h.covered p hp
      exact ⟨c, List.mem_filter.mpr ⟨hc, decide_eq_true (hle.trans_lt hlt)⟩, hle⟩
    · obtain ⟨hc, hlt⟩ := List.mem_filter.mp hc
      have hlt := of_decide_eq_true hlt
      rw [h.total c hc]
      unfold width
      congr 1
      ext p
      simp only [Finset.mem_filter, Within]
      constructor
      · rintro ⟨hp, hle, hnext⟩
        refine ⟨⟨hp, hnext _ (List.mem_map_of_mem hb) hlt⟩, hle, fun s hs => hnext s ?_⟩
        obtain ⟨d, hd, rfl⟩ := List.mem_map.mp hs
        exact List.mem_map_of_mem (List.mem_of_mem_filter hd)
      · rintro ⟨⟨hp, hplt⟩, hle, hnext⟩
        refine ⟨hp, hle, fun s hs hcs => ?_⟩
        obtain ⟨d, hd, rfl⟩ := List.mem_map.mp hs
        by_cases hdb : d.start < b.start
        · exact hnext _ (List.mem_map_of_mem (List.mem_filter.mpr ⟨hd, decide_eq_true hdb⟩)) hcs
        · exact hplt.trans_le (not_lt.mp hdb)
  exact hexact.sum_total

/-- The running total before a block is the number of places before its start. -/
theorem mem_running_byStart (h : Exact rows bs) : (b, m) ∈ running 0 (byStart bs) ↔
    b ∈ bs ∧ m = (rows.filter fun p => p < b.start).card := by
  have hkeys : ((byStart bs).map Block.start).Nodup := (perm_byStart.map _).nodup_iff.mpr h.keys
  have hsplit : ∀ l l', byStart bs = l ++ b :: l' →
      (l.map Block.total).sum = (rows.filter fun p => p < b.start).card := by
    intro l l' heq
    have hsorted : (byStart bs).Pairwise _ := sorted_byStart
    rw [heq, List.pairwise_append, List.pairwise_cons] at hsorted
    obtain ⟨-, ⟨hafter, -⟩, hbefore⟩ := hsorted
    rw [heq, List.map_append, List.map_cons, List.nodup_append] at hkeys
    obtain ⟨-, -, hdisjoint⟩ := hkeys
    have hb : b ∈ bs := perm_byStart.mem_iff.mp (heq ▸ by simp)
    have hl : (byStart bs).filter (fun c => c.start < b.start) = l := by
      rw [heq, List.filter_append, List.filter_cons_of_neg (by simp),
        List.filter_eq_self.mpr, List.filter_eq_nil_iff.mpr, List.append_nil]
      · intro c hc
        simpa using hafter c hc
      · intro c hc
        refine decide_eq_true (lt_of_le_of_ne (hbefore c hc b List.mem_cons_self) ?_)
        exact hdisjoint _ (List.mem_map_of_mem hc) _ List.mem_cons_self
    rw [← sum_before h hb, ← hl]
    exact ((perm_byStart.filter _).map _).sum_eq
  rw [mem_running]
  constructor
  · rintro ⟨l, l', heq, rfl⟩
    exact ⟨perm_byStart.mem_iff.mp (heq ▸ by simp), (Nat.zero_add _).trans (hsplit l l' heq)⟩
  · rintro ⟨hb, rfl⟩
    obtain ⟨l, l', heq⟩ := List.append_of_mem (perm_byStart.mem_iff.mpr hb)
    exact ⟨l, l', heq, by rw [hsplit l l' heq, Nat.zero_add]⟩

/-- **Positions.** A position lies in the block that is found for it. -/
theorem blockAt_spec (h : Exact rows bs) (hn : n < rows.card) :
    ∃ b ∈ bs, blockAt bs n = some (b, (rows.filter fun p => p < b.start).card) ∧
      (rows.filter fun p => p < b.start).card ≤ n := by
  have hsum : n < 0 + ((byStart bs).map Block.total).sum := by
    rw [Nat.zero_add, sum_byStart, h.sum_total]
    exact hn
  obtain ⟨b, m, hfind, hle, -⟩ := find_running (Nat.zero_le n) hsum
  obtain ⟨hb, rfl⟩ := (mem_running_byStart h).mp (List.mem_of_find?_eq_some hfind)
  exact ⟨b, hb, hfind, hle⟩

theorem blockAt_none (h : Exact rows bs) (hn : rows.card ≤ n) : blockAt bs n = none := by
  apply find_running_none
  rw [Nat.zero_add, sum_byStart, h.sum_total]
  exact hn

/-- The block that is found for a place starts last of those that start up to it. -/
theorem blockBefore_cases (h : Exact rows bs) :
    (blockBefore bs q = none ∧ ∀ b ∈ bs, q < b.start) ∨
      ∃ b ∈ bs, b.start ≤ q ∧
        blockBefore bs q = some (b, (rows.filter fun p => p < b.start).card) := by
  unfold blockBefore
  cases hlast : ((running 0 (byStart bs)).filter fun x => x.1.start ≤ q).getLast? with
  | none =>
    refine Or.inl ⟨rfl, fun b hb => ?_⟩
    rw [List.getLast?_eq_none_iff, List.filter_eq_nil_iff] at hlast
    have hnot := hlast _ ((mem_running_byStart h).mpr ⟨hb, rfl⟩)
    exact not_le.mp fun hle => hnot (decide_eq_true hle)
  | some x =>
    obtain ⟨b, m⟩ := x
    obtain ⟨hmem, hle⟩ := List.mem_filter.mp (List.mem_of_getLast? hlast)
    obtain ⟨hb, rfl⟩ := (mem_running_byStart h).mp hmem
    exact Or.inr ⟨b, hb, of_decide_eq_true hle, rfl⟩

/-- **Ranks.** The places that meet a condition are counted through the block that covers `q`, when
those before each block that starts up to `q` meet it. -/
theorem blockRank_eq {l : List α} {f : α → Bool} (h : Exact l.toFinset bs) (hl : l.Nodup)
    (hf : ∀ b ∈ bs, b.start ≤ q → ∀ p ∈ l, p < b.start → f p = true) :
    blockRank bs q (fun start => l.countP fun p => f p && (start.all fun s => decide (s ≤ p))) =
      l.countP f := by
  unfold blockRank
  rcases blockBefore_cases (q := q) h with ⟨hnone, -⟩ | ⟨b, hb, hle, hsome⟩
  · rw [hnone]
    simp
  · rw [hsome]
    have hcard : (l.toFinset.filter fun p => p < b.start).card = l.countP fun p => p < b.start := by
      rw [List.countP_eq_length_filter, ← List.toFinset_card_of_nodup (hl.filter _),
        List.toFinset_filter]
      simp only [decide_eq_true_eq]
    simp only [Option.all_some]
    rw [hcard, List.countP_eq_length_filter, List.countP_eq_length_filter,
      List.countP_eq_length_filter, ← List.length_append]
    -- the places that meet it are those before the start, and those from there on
    have hpartition := List.filter_append_perm (fun p => decide (p < b.start)) (l.filter f)
    rw [← hpartition.length_eq, List.filter_filter, List.filter_filter]
    congr 2
    · apply List.filter_congr
      intro p hp
      by_cases hlt : p < b.start
      · simp [hlt, hf b hb hle p hp hlt]
      · simp [hlt]
    · apply List.filter_congr
      intro p _
      rw [Bool.and_comm, ← decide_not]
      congr 1
      exact decide_eq_decide.mpr not_lt.symm

end Portico.CountedBlocks
