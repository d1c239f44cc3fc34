import Portico.Lib.Table

/-!
# Counted blocks

A set of places in order is cut into blocks. A block starts at a place and has the number of places
from its start up to the next start, so that positions are found without walking the places before
them. Places join and leave one at a time, and a block that grew too large is split.

## Main results

* `exact_count`: a place that joins is counted in its block
* `exact_leave`: a place that leaves is counted no more, and a block that it started starts at the
  next
* `Exact.sum_total`: the blocks have as many places as there are
-/

namespace Portico.CountedBlocks

variable {α : Type*} [LinearOrder α]

structure Block (α : Type*) where
  start : α
  total : ℕ
deriving DecidableEq, Repr

/-- A place lies in the block that starts at `s`: from there on, before every later start. -/
def Within (starts : List α) (s p : α) : Prop := s ≤ p ∧ ∀ c ∈ starts, s < c → p < c

instance (starts : List α) (s p : α) : Decidable (Within starts s p) := by
  unfold Within
  infer_instance

/-- The last start up to a place. -/
def covering (bs : List (Block α)) (p : α) : WithBot α :=
  ((bs.map Block.start).filter (· ≤ p)).maximum

variable {bs : List (Block α)} {starts : List α} {rows after : Finset α} {b : Block α} {p s n : α}

theorem covering_eq : covering bs p = s ↔ s ∈ bs.map Block.start ∧ Within (bs.map Block.start) s p := by
  unfold covering Within
  rw [List.maximum_eq_coe_iff]
  simp only [List.mem_filter, decide_eq_true_eq, and_imp]
  constructor
  · rintro ⟨⟨hs, hp⟩, hmax⟩
    exact ⟨hs, hp, fun c hc hlt => lt_of_not_ge fun hcp => absurd (hmax c hc hcp) (not_le.mpr hlt)⟩
  · rintro ⟨hs, hp, hnext⟩
    exact ⟨⟨hs, hp⟩, fun c hc hcp => le_of_not_gt fun hlt => absurd (hnext c hc hlt) (not_lt.mpr hcp)⟩

theorem covering_eq_bot : covering bs p = ⊥ ↔ ∀ b ∈ bs, p < b.start := by
  unfold covering
  rw [List.maximum_eq_bot, List.filter_eq_nil_iff]
  simp

/-- The number of places in the block that starts at `s`. -/
def width (rows : Finset α) (starts : List α) (s : α) : ℕ := (rows.filter (Within starts s)).card

/-- Each block has the number of its places, and each place lies in a block. -/
structure Exact (rows : Finset α) (bs : List (Block α)) : Prop where
  keys : (bs.map Block.start).Nodup
  covered : ∀ p ∈ rows, ∃ b ∈ bs, b.start ≤ p
  total : ∀ b ∈ bs, b.total = width rows (bs.map Block.start) b.start

theorem width_insert (hp : p ∉ rows) :
    width (insert p rows) starts s = width rows starts s + if Within starts s p then 1 else 0 := by
  unfold width
  rw [Finset.filter_insert]
  split_ifs
  · exact Finset.card_insert_of_notMem fun h => hp (Finset.mem_filter.mp h).1
  · rfl

theorem width_erase (hp : p ∈ rows) :
    width rows starts s = width (rows.erase p) starts s + if Within starts s p then 1 else 0 := by
  conv_lhs => rw [← Finset.insert_erase hp]
  exact width_insert (Finset.notMem_erase p rows)

/-- A block has the same places between other starts when they lie in it as before. -/
theorem width_congr {starts' : List α} {s' : α}
    (h : ∀ p ∈ rows, Within starts' s' p ↔ Within starts s p) :
    width rows starts' s' = width rows starts s := by
  unfold width
  rw [Finset.filter_congr h]

theorem within_append : Within (starts ++ [n]) s p ↔ Within starts s p ∧ (s < n → p < n) := by
  unfold Within
  simp only [List.mem_append, List.mem_singleton, or_imp, forall_and, forall_eq]
  tauto

theorem Exact.within (h : Exact rows bs) (hp : p ∈ rows) :
    ∃ b ∈ bs, Within (bs.map Block.start) b.start p := by
  obtain ⟨b, hb, hle⟩ := h.covered p hp
  cases hcover : covering bs p with
  | bot => exact absurd (covering_eq_bot.mp hcover b hb) (not_lt.mpr hle)
  | coe s =>
    obtain ⟨hs, hwithin⟩ := covering_eq.mp hcover
    obtain ⟨c, hc, rfl⟩ := List.mem_map.mp hs
    exact ⟨c, hc, hwithin⟩

theorem within_unique {s' : α} (hs : s ∈ starts) (hs' : s' ∈ starts) (h : Within starts s p)
    (h' : Within starts s' p) : s = s' := by
  rcases lt_trichotomy s s' with hlt | heq | hgt
  · exact absurd (h.2 s' hs' hlt) (not_lt.mpr h'.1)
  · exact heq
  · exact absurd (h'.2 s hs hgt) (not_lt.mpr h.1)

theorem Exact.sum_total (h : Exact rows bs) : (bs.map Block.total).sum = rows.card := by
  have hstarts : ((bs.map Block.start).toFinset.biUnion fun s =>
      rows.filter (Within (bs.map Block.start) s)) = rows := by
    ext p
    simp only [Finset.mem_biUnion, List.mem_toFinset, Finset.mem_filter]
    constructor
    · rintro ⟨s, -, hp, -⟩
      exact hp
    · intro hp
      obtain ⟨b, hb, hwithin⟩ := h.within hp
      exact ⟨b.start, List.mem_map_of_mem hb, hp, hwithin⟩
  have hcard := Finset.card_biUnion (s := (bs.map Block.start).toFinset)
    (t := fun s => rows.filter (Within (bs.map Block.start) s)) (by
      intro s hs s' hs' hne
      refine Finset.disjoint_left.mpr fun p hp hp' => hne ?_
      exact within_unique (List.mem_toFinset.mp hs) (List.mem_toFinset.mp hs')
        (Finset.mem_filter.mp hp).2 (Finset.mem_filter.mp hp').2)
  rw [hstarts] at hcard
  rw [hcard, List.sum_toFinset _ h.keys, List.map_map]
  exact congrArg List.sum (List.map_congr_left fun b hb => h.total b hb)

/-! ## Joins -/

/-- The block that covers a place counts one more; a place before all blocks starts one. -/
def count (bs : List (Block α)) (p : α) : List (Block α) :=
  let counted := updateWhere (fun b => (b.start : WithBot α) = covering bs p)
    (fun b => { b with total := b.total + 1 }) bs
  if ∃ b ∈ counted, b.start ≤ p then counted else counted ++ [⟨p, 1⟩]

theorem covers_iff (hb : b ∈ bs) : (b.start : WithBot α) = covering bs p ↔
    Within (bs.map Block.start) b.start p := by
  rw [eq_comm, covering_eq]
  exact and_iff_right (List.mem_map_of_mem hb)

theorem exact_count (h : Exact rows bs) (hp : p ∉ rows) : Exact (insert p rows) (count bs p) := by
  have hstarts : (updateWhere (fun b => (b.start : WithBot α) = covering bs p)
      (fun b => { b with total := b.total + 1 }) bs).map Block.start = bs.map Block.start :=
    map_updateWhere fun _ => rfl
  have hexists : (∃ b ∈ updateWhere (fun b => (b.start : WithBot α) = covering bs p)
      (fun b => { b with total := b.total + 1 }) bs, b.start ≤ p) ↔ ∃ b ∈ bs, b.start ≤ p := by
    have hmem : ∀ l : List (Block α), (∃ b ∈ l, b.start ≤ p) ↔ ∃ s ∈ l.map Block.start, s ≤ p := by
      simp
    rw [hmem, hmem, hstarts]
  -- the block that covers the place has one more
  have htotal : ∀ b ∈ updateWhere (fun b => (b.start : WithBot α) = covering bs p)
      (fun b => { b with total := b.total + 1 }) bs,
      b.total = width (insert p rows) (bs.map Block.start) b.start := by
    intro y hy
    obtain ⟨b, hb, rfl⟩ := mem_updateWhere.mp hy
    simp only [decide_eq_true_eq, covers_iff hb]
    rw [apply_ite Block.start, ite_self, width_insert hp, ← h.total b hb]
    split_ifs <;> rfl
  unfold count
  simp only
  by_cases hcovered : ∃ b ∈ bs, b.start ≤ p
  · rw [if_pos (hexists.mpr hcovered)]
    refine ⟨hstarts ▸ h.keys, ?_, hstarts ▸ htotal⟩
    intro q hq
    have hle : ∃ s ∈ bs.map Block.start, s ≤ q := by
      rcases Finset.mem_insert.mp hq with rfl | hq
      · simpa using hcovered
      · simpa using h.covered q hq
    rw [← hstarts] at hle
    simpa using hle
  · rw [if_neg (mt hexists.mp hcovered)]
    simp only [not_exists, not_and, not_le] at hcovered
    have hlater : ∀ s ∈ bs.map Block.start, p < s := by
      intro s hs
      obtain ⟨b, hb, rfl⟩ := List.mem_map.mp hs
      exact hcovered b hb
    constructor
    · rw [List.map_append, hstarts]
      exact List.nodup_append.mpr ⟨h.keys, List.nodup_singleton _, fun a ha b hb => by
        rw [List.mem_singleton.mp hb]
        exact (hlater a ha).ne'⟩
    · intro q hq
      rcases Finset.mem_insert.mp hq with rfl | hq
      · exact ⟨⟨q, 1⟩, by simp, le_rfl⟩
      · obtain ⟨b, hb, hle⟩ := h.covered q hq
        exact ⟨⟨p, 1⟩, by simp, (hcovered b hb).le.trans hle⟩
    · intro y hy
      rw [List.map_append, hstarts]
      rcases List.mem_append.mp hy with hy | hy
      · -- the new start comes before this block
        have hstart : p < y.start := hlater _ (hstarts ▸ List.mem_map_of_mem hy)
        rw [htotal y hy]
        exact (width_congr fun q _ => within_append.trans
          (and_iff_left fun hlt => absurd hlt (not_lt.mpr hstart.le))).symm
      · obtain rfl := List.mem_singleton.mp hy
        have hnone : width rows (bs.map Block.start) p = 0 := by
          refine Finset.card_eq_zero.mpr (Finset.filter_eq_empty_iff.mpr fun q hq hwithin => ?_)
          obtain ⟨b, hb, hle⟩ := h.covered q hq
          exact absurd (hwithin.2 b.start (List.mem_map_of_mem hb) (hcovered b hb)) (not_lt.mpr hle)
        have hself : Within (bs.map Block.start) p p := ⟨le_rfl, fun _ _ hlt => hlt⟩
        have hsame : width (insert p rows) (bs.map Block.start ++ [p]) p =
            width (insert p rows) (bs.map Block.start) p :=
          width_congr fun q _ => within_append.trans (and_iff_left fun hlt => absurd hlt (lt_irrefl p))
        have hone : width (insert p rows) (bs.map Block.start) p = 1 := by
          rw [width_insert hp, hnone, if_pos hself]
        exact (hsame.trans hone).symm

/-! ## Leaves -/

/-- The block that covers a place counts one less. -/
def uncount (bs : List (Block α)) (p : α) : List (Block α) :=
  updateWhere (fun b => (b.start : WithBot α) = covering bs p)
    (fun b => { b with total := b.total - 1 }) bs

/-- Adds a block, or what it counts to the block that starts there. -/
def upsert (bs : List (Block α)) (b : Block α) : List (Block α) :=
  if ∃ c ∈ bs, c.start = b.start then
    updateWhere (fun c => c.start = b.start) (fun c => { c with total := c.total + b.total }) bs
  else bs ++ [b]

/-- A block that starts at `p` starts at the next place, when it has any. -/
def restart (bs : List (Block α)) (p : α) (next : Option α) : List (Block α) :=
  let moved := (bs.filter fun b => b.start = p ∧ 0 < b.total).filterMap fun b =>
    next.map fun n => ⟨n, b.total⟩
  (moved.foldl upsert bs).filter fun b => b.start ≠ p

theorem map_start_uncount : (uncount bs p).map Block.start = bs.map Block.start :=
  map_updateWhere fun _ => rfl

theorem exact_uncount (h : Exact rows bs) (hp : p ∈ rows) :
    Exact (rows.erase p) (uncount bs p) := by
  have hstarts : (uncount bs p).map Block.start = bs.map Block.start := map_start_uncount
  refine ⟨hstarts ▸ h.keys, ?_, ?_⟩
  · intro q hq
    have hle : ∃ s ∈ (uncount bs p).map Block.start, s ≤ q := by
      rw [hstarts]
      simpa using h.covered q (Finset.mem_of_mem_erase hq)
    simpa using hle
  · intro y hy
    rw [hstarts]
    obtain ⟨b, hb, rfl⟩ := mem_updateWhere.mp hy
    have hold := h.total b hb
    rw [width_erase hp] at hold
    simp only [decide_eq_true_eq, covers_iff hb]
    rw [apply_ite Block.start, ite_self]
    split_ifs at hold ⊢
    · exact Nat.sub_eq_of_eq_add hold
    · exact hold

theorem exact_relabel {bs' : List (Block α)} {g : α → α} (h : Exact rows bs)
    (hkeys : (bs'.map Block.start).Nodup)
    (hinj : ∀ b ∈ bs, ∀ c ∈ bs, g b.start = g c.start → b.start = c.start)
    (hto : ∀ b ∈ bs, ∀ q ∈ rows, Within (bs.map Block.start) b.start q →
      g b.start ∈ bs'.map Block.start ∧ Within (bs'.map Block.start) (g b.start) q)
    (hfrom : ∀ c ∈ bs', ∃ b ∈ bs, c.start = g b.start ∧ c.total = b.total) : Exact rows bs' := by
  refine ⟨hkeys, ?_, ?_⟩
  · intro q hq
    obtain ⟨b, hb, hwithin⟩ := h.within hq
    obtain ⟨hmem, hwithin'⟩ := hto b hb q hq hwithin
    obtain ⟨c, hc, hstart⟩ := List.mem_map.mp hmem
    exact ⟨c, hc, hstart ▸ hwithin'.1⟩
  · intro c hc
    obtain ⟨b, hb, hstart, htotal⟩ := hfrom c hc
    rw [htotal, h.total b hb]
    apply width_congr
    intro q hq
    constructor
    · intro hwithin
      rw [hstart]
      exact (hto b hb q hq hwithin).2
    · -- the place lies in one block before, and that one starts here now
      intro hwithin
      obtain ⟨b', hb', hbefore⟩ := h.within hq
      obtain ⟨hmem, hwithin'⟩ := hto b' hb' q hq hbefore
      have hsame := within_unique hmem (List.mem_map_of_mem hc) hwithin' hwithin
      rw [hinj b hb b' hb' (hstart.symm.trans hsame.symm)]
      exact hbefore

theorem restart_of_empty {next : Option α} (h : ∀ b ∈ bs, b.start = p → b.total = 0) :
    restart bs p next = bs.filter fun b => b.start ≠ p := by
  have hnone : (bs.filter fun b => b.start = p ∧ 0 < b.total) = [] := by
    rw [List.filter_eq_nil_iff]
    intro b hb hmoved
    have hmoved := of_decide_eq_true hmoved
    have hzero := h b hb hmoved.1
    omega
  unfold restart
  rw [hnone]
  rfl

omit [LinearOrder α] in
theorem filter_eq_singleton {f : Block α → Bool} (hkeys : (bs.map Block.start).Nodup) (hb : b ∈ bs)
    (hf : f b = true) (hall : ∀ c ∈ bs, f c = true → c = b) : bs.filter f = [b] := by
  have hmem : b ∈ bs.filter f := List.mem_filter.mpr ⟨hb, hf⟩
  have hrep := List.eq_replicate_of_mem fun c hc =>
    hall c (List.mem_of_mem_filter hc) (List.mem_filter.mp hc).2
  have hnodup := (List.Nodup.of_map Block.start hkeys).filter f
  rw [hrep, List.nodup_replicate] at hnodup
  have hlength := le_antisymm hnodup (List.length_pos_of_mem hmem)
  rw [hlength] at hrep
  exact hrep

theorem restart_of_block (hkeys : (bs.map Block.start).Nodup) (hb : b ∈ bs) (hpos : 0 < b.total)
    (hn : n ∉ bs.map Block.start) (hne : n ≠ b.start) : restart bs b.start (some n) =
      (bs.filter fun c => c.start ≠ b.start) ++ [⟨n, b.total⟩] := by
  have hone : (bs.filter fun c => c.start = b.start ∧ 0 < c.total) = [b] := by
    apply filter_eq_singleton hkeys hb (by simp [hpos])
    exact fun c hc hstart => eq_of_key hkeys hc hb (of_decide_eq_true hstart).1
  unfold restart
  rw [hone]
  have hfresh : ¬ ∃ c ∈ bs, c.start = n := by simpa using hn
  simp only [List.filterMap_cons, List.filterMap_nil, Option.map_some, List.foldl_cons,
    List.foldl_nil]
  unfold upsert
  rw [if_neg hfresh, List.filter_append, List.filter_cons_of_pos (by simpa using hne),
    List.filter_nil]

/-- The block that started at a place that isn't there is gone, or starts at the next one, which
comes before the places of the block. -/
theorem restart_cases {next : Option α} (h : Exact rows bs) (hp : p ∉ rows)
    (hnext : ∀ q ∈ rows, p < q → ∃ n, next = some n ∧ p < n ∧ n ≤ q) :
    ((∀ b ∈ bs, b.start = p → b.total = 0) ∧ restart bs p next = bs.filter fun c => c.start ≠ p) ∨
      ∃ b ∈ bs, ∃ n, b.start = p ∧ next = some n ∧ p < n ∧
        (∀ c ∈ bs.map Block.start, p < c → n < c) ∧
        restart bs p next = (bs.filter fun c => c.start ≠ p) ++ [⟨n, b.total⟩] := by
  by_cases hblock : ∃ b ∈ bs, b.start = p ∧ 0 < b.total
  · obtain ⟨b, hb, rfl, hpos⟩ := hblock
    -- some place of the block is there, and the next one is at most that
    have hplace : ∃ q ∈ rows, Within (bs.map Block.start) b.start q := by
      rw [h.total b hb] at hpos
      obtain ⟨q, hq⟩ := Finset.card_pos.mp hpos
      exact ⟨q, (Finset.mem_filter.mp hq).1, (Finset.mem_filter.mp hq).2⟩
    obtain ⟨q₀, hq₀, hwithin₀⟩ := hplace
    have hlt : b.start < q₀ := lt_of_le_of_ne hwithin₀.1 fun heq => hp (heq ▸ hq₀)
    obtain ⟨n, rfl, hpn, hn₀⟩ := hnext q₀ hq₀ hlt
    have hlater : ∀ c ∈ bs.map Block.start, b.start < c → n < c := fun c hc hbc =>
      hn₀.trans_lt (hwithin₀.2 c hc hbc)
    have hfresh : n ∉ bs.map Block.start := fun hmem => lt_irrefl n (hlater n hmem hpn)
    exact Or.inr ⟨b, hb, n, rfl, rfl, hpn, hlater, restart_of_block h.keys hb hpos hfresh hpn.ne'⟩
  · simp only [not_exists, not_and, not_lt, Nat.le_zero] at hblock
    exact Or.inl ⟨hblock, restart_of_empty hblock⟩

theorem exact_restart {next : Option α} (h : Exact rows bs) (hp : p ∉ rows)
    (hnext : ∀ q ∈ rows, p < q → ∃ n, next = some n ∧ p < n ∧ n ≤ q) :
    Exact rows (restart bs p next) := by
  have hkept : ((bs.filter fun b => b.start ≠ p).map Block.start).Nodup :=
    h.keys.sublist (List.filter_sublist.map _)
  rcases restart_cases h hp hnext with ⟨hblock, hrestart⟩ |
    ⟨b, hb, n, rfl, rfl, hpn, hlater, hrestart⟩
  · rw [hrestart]
    apply exact_relabel h (g := id)
    · exact hkept
    · exact fun b _ c _ heq => heq
    · intro b hb q hq hwithin
      have hne : b.start ≠ p := by
        intro heq
        have hzero := h.total b hb
        rw [hblock b hb heq] at hzero
        exact absurd hwithin (Finset.filter_eq_empty_iff.mp (Finset.card_eq_zero.mp hzero.symm) hq)
      exact ⟨List.mem_map_of_mem (List.mem_filter.mpr ⟨hb, by simpa using hne⟩), hwithin.1,
        fun d hd => hwithin.2 d ((List.filter_sublist.map _).mem hd)⟩
    · intro c hc
      exact ⟨c, List.mem_of_mem_filter hc, rfl, rfl⟩
  · have hfresh : n ∉ bs.map Block.start := fun hmem => lt_irrefl n (hlater n hmem hpn)
    have hlt : ∀ q ∈ rows, b.start ≤ q → b.start < q := fun q hq hle =>
      lt_of_le_of_ne hle fun heq => hp (heq ▸ hq)
    rw [hrestart]
    apply exact_relabel h (g := fun s => if s = b.start then n else s)
    · rw [List.map_append]
      refine List.nodup_append.mpr ⟨hkept, List.nodup_singleton _, fun a ha c hc hac => ?_⟩
      obtain rfl := hac.trans (List.mem_singleton.mp hc)
      exact hfresh ((List.filter_sublist.map _).mem ha)
    · intro c hc c' hc' heq
      split_ifs at heq with hcb hcb' hcb'
      · rw [hcb, hcb']
      · exact absurd (List.mem_map_of_mem hc') (heq ▸ hfresh)
      · exact absurd (List.mem_map_of_mem hc) (heq ▸ hfresh)
      · exact heq
    · intro c hc q hq hwithin
      simp only [List.map_append, List.map_cons, List.map_nil, within_append, List.mem_append,
        List.mem_singleton]
      split_ifs with hcb
      · -- the block that starts at the next place
        rw [hcb] at hwithin
        obtain ⟨m, hm, -, hle⟩ := hnext q hq (hlt q hq hwithin.1)
        obtain rfl := Option.some.inj hm
        refine ⟨Or.inr rfl, ⟨hle, fun d hd hnd => ?_⟩, fun h => absurd h (lt_irrefl _)⟩
        exact hwithin.2 d ((List.filter_sublist.map _).mem hd) (hpn.trans hnd)
      · refine ⟨Or.inl (List.mem_map_of_mem (List.mem_filter.mpr ⟨hc, by simpa using hcb⟩)),
          ⟨hwithin.1, fun d hd => hwithin.2 d ((List.filter_sublist.map _).mem hd)⟩, fun hcn => ?_⟩
        -- a block before the new start ends before the old one
        rcases lt_trichotomy c.start b.start with hlt' | heq | hgt
        · exact (hwithin.2 b.start (List.mem_map_of_mem hb) hlt').trans hpn
        · exact absurd heq hcb
        · exact absurd (hlater c.start (List.mem_map_of_mem hc) hgt) (lt_asymm hcn)
    · intro c hc
      rcases List.mem_append.mp hc with hc | hc
      · obtain ⟨hc, hne⟩ := List.mem_filter.mp hc
        exact ⟨c, hc, (if_neg (by simpa using hne)).symm, rfl⟩
      · obtain rfl := List.mem_singleton.mp hc
        exact ⟨b, hb, (if_pos rfl).symm, rfl⟩

/-- What leaves of the blocks: a block is what it was, or starts at the next place. -/
theorem mem_restart {next : Option α} (h : Exact rows bs) (hp : p ∉ rows)
    (hnext : ∀ q ∈ rows, p < q → ∃ n, next = some n ∧ p < n ∧ n ≤ q)
    (hb : b ∈ restart bs p next) :
    (b ∈ bs ∧ b.start ≠ p) ∨ (next = some b.start ∧ ∃ c ∈ bs, b.total = c.total) := by
  rcases restart_cases h hp hnext with ⟨-, hrestart⟩ | ⟨c, hc, n, -, rfl, -, -, hrestart⟩
  · rw [hrestart] at hb
    exact Or.inl (by simpa using hb)
  · rw [hrestart] at hb
    rcases List.mem_append.mp hb with hb | hb
    · exact Or.inl (by simpa using hb)
    · obtain rfl := List.mem_singleton.mp hb
      exact Or.inr ⟨rfl, c, hc, rfl⟩

/-! ## Splits -/

/-- Each block with more than twice `half` places gives all but `half` of them to a new block, which
starts where `place` says, and one such block has `half` places left. A place that isn't there, or
starts a block, makes this fail. -/
def split (half : ℕ) (place : α → Option α) (bs : List (Block α)) : Option (List (Block α)) := do
  let made ← (bs.filter fun b => 2 * half < b.total).mapM fun b =>
    (place b.start).map fun q => (⟨q, b.total - half⟩ : Block α)
  let bs := bs ++ made
  if (bs.map Block.start).Nodup then
    match bs.find? fun b => 2 * half < b.total with
    | none => some bs
    | some b => some (updateWhere (fun c => c.start = b.start) (fun c => { c with total := half }) bs)
  else none

theorem split_of_small {half : ℕ} {place : α → Option α} (hkeys : (bs.map Block.start).Nodup)
    (h : ∀ b ∈ bs, b.total ≤ 2 * half) : split half place bs = some bs := by
  have hnone : (bs.filter fun b => 2 * half < b.total) = [] := by
    rw [List.filter_eq_nil_iff]
    intro b hb hfull
    have hsmall := h b hb
    have hfull := of_decide_eq_true hfull
    omega
  have hfind : (bs.find? fun b => 2 * half < b.total) = none := by
    rw [List.find?_eq_none]
    intro b hb
    simpa using h b hb
  unfold split
  rw [hnone]
  simp [hkeys, hfind]

theorem within_half {half : ℕ} (h : Exact rows bs) (hb : b ∈ bs) (hfull : half < b.total)
    (hhalf : 0 < half) (hrank : (rows.filter fun r => b.start ≤ r ∧ r < p).card = half) :
    b.start < p ∧ Within (bs.map Block.start) b.start p := by
  have hlt : b.start < p := by
    obtain ⟨r, hr⟩ := Finset.card_pos.mp (hrank ▸ hhalf)
    obtain ⟨-, hle, hlt⟩ := Finset.mem_filter.mp hr
    exact hle.trans_lt hlt
  refine ⟨hlt, hlt.le, fun c hc hbc => lt_of_not_ge fun hcp => ?_⟩
  -- the whole block would come before the place
  have hsub : rows.filter (Within (bs.map Block.start) b.start) ⊆
      rows.filter fun r => b.start ≤ r ∧ r < p := by
    intro r hr
    obtain ⟨hr, hwithin⟩ := Finset.mem_filter.mp hr
    exact Finset.mem_filter.mpr ⟨hr, hwithin.1, (hwithin.2 c hc hbc).trans_le hcp⟩
  have hcard := Finset.card_le_card hsub
  rw [hrank] at hcard
  have htotal := h.total b hb
  unfold width at htotal
  omega

theorem width_cut_first (hlt : s < p) (hwithin : Within starts s p) :
    width rows (starts ++ [p]) s = (rows.filter fun r => s ≤ r ∧ r < p).card := by
  refine congrArg Finset.card (Finset.filter_congr fun r _ => within_append.trans ?_)
  constructor
  · rintro ⟨hr, hrp⟩
    exact ⟨hr.1, hrp hlt⟩
  · rintro ⟨hle, hrp⟩
    exact ⟨⟨hle, fun c hc hsc => hrp.trans (hwithin.2 c hc hsc)⟩, fun _ => hrp⟩

theorem width_cut (hlt : s < p) (hwithin : Within starts s p) :
    width rows (starts ++ [p]) s + width rows (starts ++ [p]) p = width rows starts s := by
  have hsum := Finset.card_filter_add_card_filter_not (s := rows.filter (Within starts s))
    (fun r => r < p)
  rw [Finset.filter_filter, Finset.filter_filter] at hsum
  rw [← width] at hsum
  rw [← hsum]
  congr 1
  · refine congrArg Finset.card (Finset.filter_congr fun r _ => within_append.trans ?_)
    exact and_congr_right fun _ => ⟨fun hrp => hrp hlt, fun hrp _ => hrp⟩
  · refine congrArg Finset.card (Finset.filter_congr fun r _ => within_append.trans ?_)
    rw [not_lt]
    constructor
    · rintro ⟨hr, -⟩
      refine ⟨⟨hlt.le.trans hr.1, fun c hc hsc => ?_⟩, hr.1⟩
      exact hr.2 c hc (hwithin.2 c hc hsc)
    · rintro ⟨hr, hpr⟩
      exact ⟨⟨hpr, fun c hc hpc => hr.2 c hc (hlt.trans hpc)⟩, fun h => absurd h (lt_irrefl p)⟩

omit [LinearOrder α] in
theorem map_start_cut {f : Block α → Bool} {half total : ℕ} :
    (updateWhere f (fun c => { c with total := half }) (bs ++ [⟨p, total⟩])).map Block.start =
      bs.map Block.start ++ [p] := by
  have hmap : (updateWhere f (fun c => { c with total := half }) (bs ++ [⟨p, total⟩])).map
      Block.start = (bs ++ [(⟨p, total⟩ : Block α)]).map Block.start := map_updateWhere fun _ => rfl
  rw [hmap, List.map_append]
  rfl

theorem exact_cut {half : ℕ} (h : Exact rows bs) (hb : b ∈ bs) (hfull : half < b.total)
    (hhalf : 0 < half) (hrank : (rows.filter fun r => b.start ≤ r ∧ r < p).card = half) :
    Exact rows (updateWhere (fun c => c.start = b.start) (fun c => { c with total := half })
      (bs ++ [⟨p, b.total - half⟩])) := by
  obtain ⟨hlt, hwithin⟩ := within_half h hb hfull hhalf hrank
  have hfresh : p ∉ bs.map Block.start := fun hmem => lt_irrefl p (hwithin.2 p hmem hlt)
  have hfirst : width rows (bs.map Block.start ++ [p]) b.start = half :=
    (width_cut_first hlt hwithin).trans hrank
  have hrest : width rows (bs.map Block.start ++ [p]) b.start +
      width rows (bs.map Block.start ++ [p]) p = width rows (bs.map Block.start) b.start :=
    width_cut hlt hwithin
  rw [hfirst, ← h.total b hb] at hrest
  refine ⟨?_, ?_, ?_⟩
  · rw [map_start_cut]
    refine List.nodup_append.mpr ⟨h.keys, List.nodup_singleton _, fun a ha c hc hac => ?_⟩
    obtain rfl := hac.trans (List.mem_singleton.mp hc)
    exact hfresh ha
  · intro q hq
    have hle : ∃ s ∈ bs.map Block.start ++ [p], s ≤ q := by
      obtain ⟨c, hc, hle⟩ := h.covered q hq
      exact ⟨c.start, List.mem_append_left _ (List.mem_map_of_mem hc), hle⟩
    rw [← map_start_cut (f := fun c => c.start = b.start)] at hle
    simpa using hle
  · intro y hy
    rw [map_start_cut]
    obtain ⟨c, hc, rfl⟩ := mem_updateWhere.mp hy
    rcases List.mem_append.mp hc with hc | hc
    · by_cases hcb : c.start = b.start
      · rw [if_pos (by simpa using hcb), hcb]
        exact hfirst.symm
      · rw [if_neg (by simpa using hcb), h.total c hc]
        apply width_congr
        intro r _
        rw [within_append]
        refine (and_iff_left_of_imp fun hr hcp => ?_).symm
        -- another block before the cut ends before the block that is cut
        rcases lt_trichotomy c.start b.start with hlt' | heq | hgt
        · exact (hr.2 b.start (List.mem_map_of_mem hb) hlt').trans hlt
        · exact absurd heq hcb
        · exact absurd (hwithin.2 c.start (List.mem_map_of_mem hc) hgt) (lt_asymm hcp)
    · obtain rfl := List.mem_singleton.mp hc
      rw [if_neg (by simpa using hlt.ne')]
      dsimp only
      omega

/-- **Splits.** A block that grew by one place too many is cut in half. -/
theorem split_of_full {half : ℕ} {place : α → Option α} (h : Exact rows bs) (hb : b ∈ bs)
    (hfull : b.total = 2 * half + 1) (hothers : ∀ c ∈ bs, c ≠ b → c.total ≤ 2 * half)
    (hhalf : 0 < half) (hplace : place b.start = some p)
    (hrank : (rows.filter fun r => b.start ≤ r ∧ r < p).card = half) :
    ∃ bs', split half place bs = some bs' ∧ Exact rows bs' ∧ (∀ c ∈ bs', c.total ≤ 2 * half) ∧
      ∀ c ∈ bs', c.start ∈ bs.map Block.start ∨ c.start = p := by
  have hcut := exact_cut h hb (by omega) hhalf hrank
  have hfull' : ∀ c ∈ bs, decide (2 * half < c.total) = true → c = b := by
    intro c hc hc'
    by_contra hne
    have hsmall := hothers c hc hne
    have hc' := of_decide_eq_true hc'
    omega
  have hone : (bs.filter fun c => 2 * half < c.total) = [b] :=
    filter_eq_singleton h.keys hb (decide_eq_true (by omega)) hfull'
  have hkeys := hcut.keys
  rw [map_start_cut] at hkeys
  have hfind : (bs ++ [(⟨p, b.total - half⟩ : Block α)]).find? (fun c => 2 * half < c.total) =
      some b := by
    rw [List.find?_append, ← List.head?_filter, hone]
    rfl
  refine ⟨_, ?_, hcut, ?_, ?_⟩
  · unfold split
    rw [hone]
    simp only [List.mapM_cons, List.mapM_nil, hplace, Option.map_some, Option.bind_eq_bind,
      Option.bind_some, Option.pure_def]
    rw [if_pos (by simpa using hkeys), hfind]
  · intro y hy
    obtain ⟨c, hc, rfl⟩ := mem_updateWhere.mp hy
    split_ifs with hcb
    · dsimp only
      omega
    · rcases List.mem_append.mp hc with hc | hc
      · exact hothers c hc fun heq => hcb (by simp [heq])
      · obtain rfl := List.mem_singleton.mp hc
        dsimp only
        omega
  · intro y hy
    obtain ⟨c, hc, rfl⟩ := mem_updateWhere.mp hy
    have hstart : (if decide (c.start = b.start) = true then { c with total := half } else c).start =
        c.start := by split_ifs <;> rfl
    rw [hstart]
    rcases List.mem_append.mp hc with hc | hc
    · exact Or.inl (List.mem_map_of_mem hc)
    · exact Or.inr (by rw [List.mem_singleton.mp hc])

/-! ## Joins and leaves as a whole -/

/-- Each block starts at a place, has the number of its places, and isn't too large. -/
structure Counted (limit : ℕ) (rows : Finset α) (bs : List (Block α)) : Prop extends
    Exact rows bs where
  starts : ∀ b ∈ bs, b.start ∈ rows
  small : ∀ b ∈ bs, b.total ≤ limit

theorem Counted.pos {limit : ℕ} (h : Counted limit rows bs) (hb : b ∈ bs) : 0 < b.total := by
  rw [h.total b hb]
  exact Finset.card_pos.mpr ⟨b.start, Finset.mem_filter.mpr
    ⟨h.starts b hb, le_rfl, fun _ _ hlt => hlt⟩⟩

theorem mem_count (hb : b ∈ count bs p) : b = ⟨p, 1⟩ ∨ b ∈ bs ∨
    ((b.start : WithBot α) = covering bs p ∧ ∃ c ∈ bs, c.start = b.start ∧ b.total = c.total + 1) := by
  have hcounted : ∀ y ∈ updateWhere (fun b => (b.start : WithBot α) = covering bs p)
      (fun b => { b with total := b.total + 1 }) bs, y ∈ bs ∨
        ((y.start : WithBot α) = covering bs p ∧ ∃ c ∈ bs, c.start = y.start ∧
          y.total = c.total + 1) := by
    intro y hy
    obtain ⟨c, hc, rfl⟩ := mem_updateWhere.mp hy
    split_ifs with hcover
    · exact Or.inr ⟨of_decide_eq_true hcover, c, hc, rfl, rfl⟩
    · exact Or.inl hc
  unfold count at hb
  simp only at hb
  split_ifs at hb
  · exact Or.inr (hcounted b hb)
  · rcases List.mem_append.mp hb with hb | hb
    · exact Or.inr (hcounted b hb)
    · exact Or.inl (List.mem_singleton.mp hb)

/-- **Joins.** A place that joins is counted, and the block that grew too large for it is split. -/
theorem counted_join {half : ℕ} {place : α → Option α} (h : Exact rows bs)
    (hsmall : ∀ b ∈ bs, b.total ≤ 2 * half) (hstarts : ∀ b ∈ bs, b.start ∈ insert p rows)
    (hp : p ∉ rows) (hhalf : 0 < half)
    (hplace : ∀ s, half < ((insert p rows).filter fun r => s ≤ r).card →
      ∃ q ∈ insert p rows, place s = some q ∧
        ((insert p rows).filter fun r => s ≤ r ∧ r < q).card = half) :
    ∃ bs', split half place (count bs p) = some bs' ∧ Counted (2 * half) (insert p rows) bs' := by
  have hexact := exact_count h hp
  have hstarts' : ∀ b ∈ count bs p, b.start ∈ insert p rows := by
    intro b hb
    rcases mem_count hb with rfl | hb | ⟨-, c, hc, hstart, -⟩
    · exact Finset.mem_insert_self _ _
    · exact hstarts b hb
    · exact hstart ▸ hstarts c hc
  by_cases hfull : ∃ b ∈ count bs p, 2 * half < b.total
  · obtain ⟨b, hb, hfull⟩ := hfull
    -- only the block that covers the place may have grown
    have hgrown : ∀ c ∈ count bs p, 2 * half < c.total →
        (c.start : WithBot α) = covering bs p ∧ c.total = 2 * half + 1 := by
      intro c hc hfull
      rcases mem_count hc with rfl | hc | ⟨hcover, d, hd, -, htotal⟩
      · dsimp only at hfull
        omega
      · exact absurd (hsmall c hc) (not_le.mpr hfull)
      · have hd := hsmall d hd
        exact ⟨hcover, by omega⟩
    obtain ⟨hcover, htotal⟩ := hgrown b hb hfull
    have hothers : ∀ c ∈ count bs p, c ≠ b → c.total ≤ 2 * half := by
      intro c hc hne
      by_contra hlarge
      have hcover' := (hgrown c hc (not_le.mp hlarge)).1
      exact hne (eq_of_key hexact.keys hc hb (WithBot.coe_injective (hcover'.trans hcover.symm)))
    have hmany : half < ((insert p rows).filter fun r => b.start ≤ r).card := by
      have hsub : (insert p rows).filter (Within ((count bs p).map Block.start) b.start) ⊆
          (insert p rows).filter fun r => b.start ≤ r := fun r hr =>
        Finset.mem_filter.mpr ⟨(Finset.mem_filter.mp hr).1, (Finset.mem_filter.mp hr).2.1⟩
      have hcard := Finset.card_le_card hsub
      have hwidth := hexact.total b hb
      unfold width at hwidth
      omega
    obtain ⟨q, hq, hplace, hrank⟩ := hplace b.start hmany
    obtain ⟨bs', hsplit, hexact', hsmall', hfrom⟩ :=
      split_of_full hexact hb htotal hothers hhalf hplace hrank
    refine ⟨bs', hsplit, hexact', fun c hc => ?_, hsmall'⟩
    rcases hfrom c hc with hmem | rfl
    · obtain ⟨d, hd, hstart⟩ := List.mem_map.mp hmem
      exact hstart ▸ hstarts' d hd
    · exact hq
  · simp only [not_exists, not_and, not_lt] at hfull
    exact ⟨_, split_of_small hexact.keys hfull, hexact, hstarts', hfull⟩

/-- **Leaves.** A place that leaves is counted no more, and the block that it started starts at the
next place. -/
theorem exact_leave {limit : ℕ} {next : Option α} (h : Counted limit rows bs) (hp : p ∈ rows)
    (hafter : rows.erase p ⊆ after) (hmem : ∀ n, next = some n → n ∈ after ∧ p < n)
    (hleast : ∀ q ∈ after, p < q → ∃ n, next = some n ∧ n ≤ q) :
    Exact (rows.erase p) (restart (uncount bs p) p next) ∧
      ∀ b ∈ restart (uncount bs p) p next, b.start ∈ after ∧ b.total ≤ limit := by
  have hexact := exact_uncount h.toExact hp
  have hnot := Finset.notMem_erase p rows
  have hnext : ∀ q ∈ rows.erase p, p < q → ∃ n, next = some n ∧ p < n ∧ n ≤ q := by
    intro q hq hpq
    obtain ⟨n, hn, hle⟩ := hleast q (hafter hq) hpq
    exact ⟨n, hn, (hmem n hn).2, hle⟩
  have huncount : ∀ b ∈ uncount bs p, ∃ c ∈ bs, b.start = c.start ∧ b.total ≤ c.total := by
    intro b hb
    obtain ⟨c, hc, rfl⟩ := mem_updateWhere.mp hb
    refine ⟨c, hc, ?_⟩
    split_ifs
    · exact ⟨rfl, Nat.sub_le ..⟩
    · exact ⟨rfl, le_rfl⟩
  refine ⟨exact_restart hexact hnot hnext, fun b hb => ?_⟩
  rcases mem_restart hexact hnot hnext hb with ⟨hb, hne⟩ | ⟨hstart, c, hc, htotal⟩
  · obtain ⟨c, hc, hstart, hle⟩ := huncount b hb
    refine ⟨hafter (Finset.mem_erase.mpr ⟨hne, ?_⟩), hle.trans (h.small c hc)⟩
    rw [hstart]
    exact h.starts c hc
  · obtain ⟨d, hd, -, hle⟩ := huncount c hc
    exact ⟨(hmem _ hstart).1, (htotal.trans_le hle).trans (h.small d hd)⟩

end Portico.CountedBlocks
