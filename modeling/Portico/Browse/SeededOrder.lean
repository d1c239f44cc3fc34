import Portico.Browse.BlockRuns
import Portico.Browse.Positions

/-!
# Seeded random orders

A seed rotates the maintained order of the random keys: the keys from the seed on come first, then
the others. Its pages are read by position through the counted blocks, by a count of the first half,
or by cursors, and all of them are slices of the rotated order.

## Main results

* `positionRandomPage_eq`, `seededRandomRange_eq`, `seededRandomPage_after`: pages are slices
* `pages_plain`: pages, cursors and ranks of all orders
-/

namespace Portico.Browse

open CountedBlocks Runs Direction Pages

/-- The half of the rotation that a place is in: the first one begins at the seed. -/
def InFirst (d : Direction) (seed : ℤ) (q : Place) : Prop := ¬ d.precedes (ofLex q).1 (number seed)

instance (d : Direction) (seed : ℤ) (q : Place) : Decidable (InFirst d seed q) := by
  unfold InFirst
  infer_instance

section

variable (p : PageShape) (d : Direction) (seed : ℤ)

/-- The order that begins at the seed. -/
def rotated : List Place :=
  d.ordered ((p.places .random).filter fun q => InFirst d seed q) ++
    d.ordered ((p.places .random).filter fun q => ¬ InFirst d seed q)

/-! ## Pages -/

/-- The number of rows before the seed, found from its counted block. -/
def seedRank : ℤ :=
  let anchor : ℤ := if d = .desc then PageShape.maxInt64 else 0
  let inside (start : Option Place) : ℕ := (p.places .random).countP fun q =>
    (if d = .desc then decide ((ofLex q).1 ≤ number seed) else decide ((ofLex q).1 < number seed)) &&
      start.all fun s => decide ((ofLex s).1 ≤ (ofLex q).1 ∧
        ((ofLex s).1 < (ofLex q).1 ∨ (ofLex s).2 ≤ (ofLex q).2))
  let rank : ℤ := blockRank (p.blocks .random) (toLex (number seed, anchor)) inside
  if d = .desc then p.total - rank else rank

/-- The page is read from the seed's rank on, across the wrap. -/
def positionRandomPage (start limit : ℤ) : List Place :=
  if p.total = 0 then []
  else
    let start' := (seedRank p d seed + start) % p.total
    let want := min limit (p.total - start)
    let first := min want (p.total - start')
    let rows := positionPage p .random d start' first
    if rows.length = first ∧ first < want then rows ++ positionPage p .random d 0 (want - first)
    else rows

/-- A run of one half, from an offset on. -/
def halfRun (first : Bool) (limit offset : ℕ) : List Place :=
  ((d.ordered ((p.places .random).filter fun q => decide (InFirst d seed q) = first)).drop
    offset).take limit

/-- A direct range counts the first half, and skips entries in each. -/
def seededRandomRange (start limit : ℕ) : List Place :=
  let firstCount := (p.places .random).countP fun q => InFirst d seed q
  if firstCount ≤ start then halfRun p d seed false limit (start - firstCount)
  else
    let out := halfRun p d seed true limit start
    if out.length = limit then out else out ++ halfRun p d seed false (limit - out.length) 0

/-- A run of one half, from a cursor on when there is one. -/
def halfPage (first : Bool) (last : Option Place) (limit : ℕ) : List Place :=
  match last with
  | none => halfRun p d seed first limit 0
  | some q => bounded d false (ofLex q).1 (ofLex q).2 limit 0
      ((p.places .random).filter fun q => decide (InFirst d seed q) = first)

/-- The page after a cursor: in its own half, then in the second one from its beginning. -/
def seededRandomPage (cursor : Option Place) (limit : ℕ) : List Place :=
  let second := cursor.any fun q => decide (d.precedes (ofLex q).1 (number seed))
  if second then (if 0 < limit then halfPage p d seed false cursor limit else [])
  else
    let out := if 0 < limit then halfPage p d seed true cursor limit else []
    if out.length < limit then out ++ halfPage p d seed false none (limit - out.length) else out

/-- The rows before one, counted in the order or its rotation. -/
def indexedFactAnchorRank (o : Ordering) (anchor : ℤ) : Option ℕ :=
  (rowOf Row.entity anchor p.rows).map fun r =>
    let q := o.place r
    let bound (a : Place) : Bool := decide (d.precedes (ofLex a).1 (ofLex q).1 ∨
      (ofLex a).1 = (ofLex q).1 ∧ d.precedes (ofLex a).2 (ofLex q).2)
    (p.places o).countP fun a =>
      if o = .random then
        if InFirst d seed q then decide (InFirst d seed a) && bound a
        else decide (InFirst d seed a) || bound a
      else bound a

end

variable {p : PageShape} {o : Ordering} {d : Direction} {seed anchor : ℤ} {start limit : ℕ}
  {q : Place} {r : Row} {first : Bool}

/-! ## The rotation -/

theorem filter_second : ((p.places .random).filter fun q => decide (InFirst d seed q) = false) =
    (p.places .random).filter fun q => ¬ InFirst d seed q := by
  apply List.filter_congr
  intro q _
  simp

theorem filter_first : ((p.places .random).filter fun q => decide (InFirst d seed q) = true) =
    (p.places .random).filter fun q => InFirst d seed q := by
  apply List.filter_congr
  intro q _
  simp

theorem InFirst.upward {a b : Place} (hab : ¬ d.precedes b a) (hb : ¬ InFirst d seed b) :
    ¬ InFirst d seed a := by
  unfold InFirst at hb ⊢
  rw [not_not] at hb ⊢
  rcases precedes_or (d := d) (ofLex a).1 (ofLex b).1 with hlt | heq | hlt
  · exact precedes_trans hlt hb
  · exact heq ▸ hb
  · exact absurd (precedes_lex.mpr (Or.inl hlt)) hab

/-- The rotated order is the plain one, rotated by the number of keys that come before the seed. -/
theorem rotated_eq : rotated p d seed = (p.plain .random d).rotate
    ((p.places .random).countP fun q => ¬ InFirst d seed q) := by
  have hpairwise := pairwise_ordered (d := d) (l := p.places .random)
  have hfirst : (d.ordered (p.places .random)).filter (fun q => decide (InFirst d seed q)) =
      (d.ordered (p.places .random)).drop
        ((p.places .random).countP fun q => ¬ InFirst d seed q) := by
    rw [filter_eq_drop, perm_ordered.countP_eq]
    · simp only [decide_not]
    · refine hpairwise.imp fun hab ha => ?_
      by_contra hb
      exact InFirst.upward hab (by simpa using hb) (of_decide_eq_true ha)
  have hsecond : (d.ordered (p.places .random)).filter (fun q => decide ¬ InFirst d seed q) =
      (d.ordered (p.places .random)).take
        ((p.places .random).countP fun q => ¬ InFirst d seed q) := by
    rw [filter_eq_take, perm_ordered.countP_eq]
    exact hpairwise.imp fun hab hb => decide_eq_true (InFirst.upward hab (of_decide_eq_true hb))
  unfold rotated PageShape.plain
  rw [ordered_filter, ordered_filter, hfirst, hsecond, List.rotate_eq_drop_append_take]
  rw [length_ordered]
  exact List.countP_le_length

theorem length_rotated (d : Direction) (seed : ℤ) : (rotated p d seed).length = p.rows.length := by
  rw [rotated_eq, List.length_rotate, PageShape.length_plain]

theorem length_half : (d.ordered ((p.places .random).filter fun q => InFirst d seed q)).length =
    (p.places .random).countP fun q => InFirst d seed q := by
  rw [length_ordered, List.countP_eq_length_filter]

/-! ## Pages by position -/

theorem id_of_start (h : p.Correct) {b : Block Place} (hb : b ∈ p.blocks .random) :
    0 < (ofLex b.start).2 ∧ (ofLex b.start).2 ≤ PageShape.maxInt64 := by
  have hstart := (h.counted_places (o := .random) rfl).starts b hb
  obtain ⟨r, hr, heq⟩ := List.mem_map.mp (List.mem_toFinset.mp hstart)
  rw [← heq]
  exact h.ids r hr

theorem key_le_of_le {a b : Place} (h : a ≤ b) : (ofLex a).1 ≤ (ofLex b).1 := by
  rcases Prod.Lex.le_iff.mp h with hlt | heq
  · exact hlt.le
  · exact heq.1.le

theorem lex_le' {a b : Place} : ((ofLex a).1 ≤ (ofLex b).1 ∧
    ((ofLex a).1 < (ofLex b).1 ∨ (ofLex a).2 ≤ (ofLex b).2)) ↔ a ≤ b := by
  rw [Prod.Lex.le_iff]
  constructor
  · rintro ⟨hle, hlt | hid⟩
    · exact Or.inl hlt
    · exact hle.lt_or_eq.imp id fun heq => ⟨heq, hid⟩
  · rintro (hlt | ⟨heq, hid⟩)
    · exact ⟨hlt.le, Or.inl hlt⟩
    · exact ⟨heq.le, Or.inr hid⟩

/-- The seed's rank through its block is the number of keys before the seed, or up to it. -/
theorem seed_rank {f : Place → Bool} {a : ℤ} (h : p.Correct)
    (hf : ∀ b ∈ p.blocks .random, b.start ≤ toLex (number seed, a) →
      ∀ q : Place, (ofLex q).1 ≤ (ofLex b.start).1 → f q = true) :
    blockRank (p.blocks .random) (toLex (number seed, a)) (fun start =>
      (p.places .random).countP fun q => f q && start.all fun s =>
        decide ((ofLex s).1 ≤ (ofLex q).1 ∧
          ((ofLex s).1 < (ofLex q).1 ∨ (ofLex s).2 ≤ (ofLex q).2))) =
      (p.places .random).countP f := by
  rw [← blockRank_eq (h.counted_places (o := .random) rfl).toExact PageShape.nodup_places
    (q := toLex (number seed, a)) (f := f)]
  · simp only [lex_le']
  · exact fun b hb hle q _ hlt => hf b hb hle q (key_le_of_le hlt.le)

theorem seed_rank_asc (h : p.Correct) :
    blockRank (p.blocks .random) (toLex (number seed, 0)) (fun start =>
      (p.places .random).countP fun q => decide ((ofLex q).1 < number seed) && start.all fun s =>
        decide ((ofLex s).1 ≤ (ofLex q).1 ∧
          ((ofLex s).1 < (ofLex q).1 ∨ (ofLex s).2 ≤ (ofLex q).2))) =
      (p.places .random).countP fun q => ¬ InFirst .asc seed q := by
  rw [seed_rank (f := fun q => decide ((ofLex q).1 < number seed)) h]
  · congr 1
    ext q
    exact decide_eq_decide.mpr not_not.symm
  · intro b hb hle q hq
    -- no row has an id up to zero, so that the block starts before the seed
    rcases Prod.Lex.le_iff.mp hle with hlt | ⟨-, hid⟩
    · exact decide_eq_true (hq.trans_lt hlt)
    · exact absurd (id_of_start h hb).1 (not_lt.mpr hid)

theorem seed_rank_desc (h : p.Correct) :
    blockRank (p.blocks .random) (toLex (number seed, PageShape.maxInt64)) (fun start =>
      (p.places .random).countP fun q => decide ((ofLex q).1 ≤ number seed) && start.all fun s =>
        decide ((ofLex s).1 ≤ (ofLex q).1 ∧
          ((ofLex s).1 < (ofLex q).1 ∨ (ofLex s).2 ≤ (ofLex q).2))) =
      (p.places .random).countP fun q => InFirst .desc seed q := by
  rw [seed_rank (f := fun q => decide ((ofLex q).1 ≤ number seed)) h]
  · congr 1
    ext q
    exact decide_eq_decide.mpr not_lt.symm
  · exact fun b hb hle q hq => decide_eq_true (hq.trans (key_le_of_le hle))

theorem countP_first_add (p : PageShape) (d : Direction) (seed : ℤ) :
    ((p.places .random).countP fun q => InFirst d seed q) +
    ((p.places .random).countP fun q => ¬ InFirst d seed q) = p.rows.length := by
  rw [← PageShape.length_places (o := .random),
    List.length_eq_countP_add_countP (fun q => decide (InFirst d seed q)) (l := p.places .random)]
  simp

theorem seedRank_eq (h : p.Correct) :
    seedRank p d seed = ((p.places .random).countP fun q => ¬ InFirst d seed q : ℕ) := by
  unfold seedRank
  cases d with
  | asc =>
    simp only [reduceCtorEq, if_false]
    rw [seed_rank_asc h]
  | desc =>
    simp only [if_true]
    rw [seed_rank_desc h, h.total]
    have hsplit := countP_first_add p .desc seed
    omega

/-- **Random pages by position.** A page is the slice of the rotated order at its start. -/
theorem positionRandomPage_eq (h : p.Correct) : positionRandomPage p d seed start limit =
    ((rotated p d seed).drop start).take limit := by
  have hlength : (p.plain .random d).length = p.rows.length := PageShape.length_plain
  have hpage : ∀ {start limit : ℤ}, 0 ≤ start → positionPage p .random d start limit =
      ((p.plain .random d).drop start.toNat).take limit.toNat := positionPage_eq h rfl
  unfold positionRandomPage
  rw [h.total, seedRank_eq h, rotated_eq]
  generalize ((p.places .random).countP fun q => ¬ InFirst d seed q) = rank
  split_ifs with hempty
  · rw [List.drop_eq_nil_of_le, List.take_nil]
    rw [List.length_rotate, hlength]
    omega
  have hwrap : ((rank : ℤ) + start) % (p.rows.length : ℤ) =
      ((rank + start) % p.rows.length : ℕ) := by push_cast; rfl
  dsimp only
  rw [hwrap, hpage (by omega), hpage le_rfl]
  have hmod : (rank + start) % p.rows.length < p.rows.length := Nat.mod_lt _ (by omega)
  rcases Nat.lt_or_ge start p.rows.length with hstart | hstart
  · rw [slice_rotate (by rw [hlength]; exact hstart), hlength]
    generalize (rank + start) % p.rows.length = at_ at hmod ⊢
    have hfirst : (min (min (limit : ℤ) (p.rows.length - start)) (p.rows.length - at_)).toNat =
        min (min limit (p.rows.length - start)) (p.rows.length - at_) := by omega
    rw [hfirst, List.length_take, List.length_drop, hlength, Int.toNat_natCast]
    split_ifs with hmore
    · congr 2
      omega
    · have hnone : min limit (p.rows.length - start) -
          min (min limit (p.rows.length - start)) (p.rows.length - at_) = 0 := by omega
      rw [hnone, List.take_zero, List.append_nil]
  · -- from the end on there is nothing to read
    have hnone : (min (min (limit : ℤ) (p.rows.length - start))
        (p.rows.length - ((rank + start) % p.rows.length : ℕ))).toNat = 0 := by omega
    rw [hnone, List.take_zero, if_neg (by omega), List.drop_eq_nil_of_le, List.take_nil]
    rw [List.length_rotate, hlength]
    exact hstart

/-! ## Pages by a count of the first half -/

theorem halfRun_true {offset : ℕ} : halfRun p d seed true limit offset =
    ((d.ordered ((p.places .random).filter fun q => InFirst d seed q)).drop offset).take limit := by
  unfold halfRun
  rw [filter_first]

theorem halfRun_false {offset : ℕ} : halfRun p d seed false limit offset =
    ((d.ordered ((p.places .random).filter fun q => ¬ InFirst d seed q)).drop offset).take limit := by
  unfold halfRun
  rw [filter_second]

/-- **Random ranges.** A direct range is the slice of the rotated order at its start. -/
theorem seededRandomRange_eq : seededRandomRange p d seed start limit =
    ((rotated p d seed).drop start).take limit := by
  unfold seededRandomRange rotated
  dsimp only
  rw [Pages.slice_append, length_half, halfRun_true, halfRun_false, halfRun_false]
  split_ifs with hpast hfull
  · rw [List.drop_eq_nil_of_le (length_half.trans_le hpast), List.take_nil, List.nil_append,
      List.length_nil, Nat.sub_zero]
  · rw [hfull, Nat.sub_self, List.take_zero, List.append_nil]
  · have hskip : start - (p.places .random).countP (fun q => InFirst d seed q) = 0 := by omega
    rw [hskip]

/-! ## Pages by cursors -/

theorem seededRandomPage_none :
    seededRandomPage p d seed none limit = (rotated p d seed).take limit := by
  unfold seededRandomPage halfPage rotated
  simp only [Option.any_none, Bool.false_eq_true, if_false]
  rw [halfRun_true, halfRun_false, List.drop_zero, List.drop_zero, List.take_append]
  split_ifs with hlimit hmore hmore
  · rw [List.length_take] at hmore ⊢
    congr 2
    omega
  · rw [List.length_take] at hmore
    have hnone : limit - (d.ordered ((p.places .random).filter fun q => InFirst d seed q)).length = 0 := by
      omega
    rw [hnone, List.take_zero, List.append_nil]
  · exact absurd hmore hlimit
  · have hzero : limit = 0 := by omega
    subst hzero
    simp

theorem halfPage_after {before after : List Place}
    (h : d.ordered ((p.places .random).filter fun q => decide (InFirst d seed q) = first) =
      before ++ q :: after) :
    halfPage p d seed first (some q) limit = after.take limit := by
  unfold halfPage
  simp only
  rw [bounded_eq, List.drop_zero, Prod.mk.eta, toLex_ofLex,
    ordered_after (PageShape.nodup_places.filter _) h]

theorem halfPage_false_none : halfPage p d seed false none limit =
    (d.ordered ((p.places .random).filter fun q => ¬ InFirst d seed q)).take limit := halfRun_false

/-- **Cursors.** The page after a row has the rows after it in the rotated order. -/
theorem seededRandomPage_after {before after : List Place}
    (h : rotated p d seed = before ++ q :: after) :
    seededRandomPage p d seed (some q) limit = after.take limit := by
  have hzero : ¬ 0 < limit → limit = 0 := fun h => Nat.le_zero.mp (not_lt.mp h)
  unfold seededRandomPage
  simp only [Option.any_some, decide_eq_true_eq]
  rcases split_append h with ⟨mid, hfirst, rfl⟩ | ⟨mid, hsecond⟩
  · have hmem : q ∈ d.ordered ((p.places .random).filter fun q => InFirst d seed q) :=
      hfirst ▸ by simp
    rw [if_neg (of_decide_eq_true (List.mem_filter.mp (mem_ordered.mp hmem)).2),
      halfPage_after (by rw [filter_first]; exact hfirst), List.take_append, halfPage_false_none]
    split_ifs with hlimit hmore hmore
    · rw [List.length_take] at hmore ⊢
      congr 2
      omega
    · rw [List.length_take] at hmore
      have hnone : limit - mid.length = 0 := by omega
      rw [hnone, List.take_zero, List.append_nil]
    · exact absurd hmore hlimit
    · rw [hzero hlimit]
      simp
  · -- the row is one of the second half
    have hmem : q ∈ d.ordered ((p.places .random).filter fun q => ¬ InFirst d seed q) :=
      hsecond ▸ by simp
    have hnot := of_decide_eq_true (List.mem_filter.mp (mem_ordered.mp hmem)).2
    rw [if_pos (not_not.mp hnot), halfPage_after (by rw [filter_second]; exact hsecond)]
    split_ifs with hlimit
    · rfl
    · rw [hzero hlimit, List.take_zero]

/-! ## Ranks -/

/-- **Ranks.** The rank of a row is its position in the rotated order. -/
theorem getElem?_rotated (seed : ℤ) (hq : q ∈ p.places .random) :
    (rotated p d seed)[(p.places .random).countP fun a =>
      if InFirst d seed q then decide (InFirst d seed a) && decide (d.precedes a q)
      else decide (InFirst d seed a) || decide (d.precedes a q)]? = some q := by
  unfold rotated
  by_cases hfirst : InFirst d seed q
  · have hat : (d.ordered ((p.places .random).filter fun q => InFirst d seed q))[_]? = some q :=
      getElem?_of_mem (PageShape.nodup_places.filter _)
        (List.mem_filter.mpr ⟨hq, decide_eq_true hfirst⟩)
    rw [List.countP_filter] at hat
    simp only [hfirst, if_true]
    have hlt := (List.getElem?_eq_some_iff.mp hat).1
    simp only [Bool.and_comm] at hat hlt ⊢
    rw [List.getElem?_append_left hlt]
    exact hat
  · have hat : (d.ordered ((p.places .random).filter fun q => ¬ InFirst d seed q))[_]? = some q :=
      getElem?_of_mem (PageShape.nodup_places.filter _)
        (List.mem_filter.mpr ⟨hq, decide_eq_true hfirst⟩)
    rw [List.countP_filter] at hat
    simp only [hfirst, if_false]
    -- all of the first half come before it, and those of its own half that precede it
    have hcount : ((p.places .random).countP fun a =>
        decide (InFirst d seed a) || decide (d.precedes a q)) =
          ((p.places .random).countP fun q => InFirst d seed q) +
            (p.places .random).countP fun a => decide (d.precedes a q) && decide ¬ InFirst d seed a := by
      induction p.places .random with
      | nil => rfl
      | cons a l ih =>
        simp only [List.countP_cons, ih]
        by_cases ha : InFirst d seed a <;> by_cases hpre : d.precedes a q <;> simp [ha, hpre] <;> omega
    rw [hcount, List.getElem?_append_right (by rw [length_half]; omega), length_half,
      Nat.add_sub_cancel_left]
    exact hat

theorem bound_iff {a : Place} : (d.precedes (ofLex a).1 (ofLex q).1 ∨
    (ofLex a).1 = (ofLex q).1 ∧ d.precedes (ofLex a).2 (ofLex q).2) ↔ d.precedes a q :=
  precedes_lex.symm

/-- The order that a sort shows: rotated when it is a random one. -/
def shown (p : PageShape) (o : Ordering) (d : Direction) (seed : ℤ) : List Place :=
  if o = .random then rotated p d seed else p.plain o d

theorem getElem?_indexedFactAnchorRank (hr : r ∈ p.rows) :
    ∃ k, indexedFactAnchorRank p d seed o r.entity = some k ∧
      (shown p o d seed)[k]? = some (o.place r) := by
  have hmem : o.place r ∈ p.places o := List.mem_map_of_mem hr
  unfold indexedFactAnchorRank shown
  rw [(rowOf_eq_some PageShape.keys_rows).mpr ⟨hr, rfl⟩]
  refine ⟨_, rfl, ?_⟩
  simp only [bound_iff]
  by_cases hrandom : o = .random
  · subst hrandom
    simp only [if_true]
    have hat := getElem?_rotated (d := d) seed hmem
    by_cases hfirst : InFirst d seed (Ordering.random.place r)
    · simpa only [hfirst, if_true] using hat
    · simpa only [hfirst, if_false] using hat
  · simp only [hrandom, if_false]
    exact getElem?_of_mem PageShape.nodup_places hmem

/-! ## All of it -/

/-- The page after a column order's cursor. -/
def keysetPage (p : PageShape) (o : Ordering) (d : Direction) (cursor : Place) (limit : ℕ) :
    List Place :=
  let (key, anchor) := ofLex cursor
  if p.classed then classBoundedRows p o d false key anchor limit 0
  else bounded d false key anchor limit 0 (p.places o)

/-- A column order's page: at the beginning by position, later by its cursor. -/
def columnPage (p : PageShape) (o : Ordering) (d : Direction) (limit : ℕ) : Option Place → List Place
  | none => positionPage p o d 0 limit
  | some cursor => keysetPage p o d cursor limit

/-- A random order's page: at the beginning by position, later by its cursor. -/
def randomPage (p : PageShape) (d : Direction) (seed : ℤ) (limit : ℕ) : Option Place → List Place
  | none => positionRandomPage p d seed 0 limit
  | some cursor => seededRandomPage p d seed (some cursor) limit

theorem keysetPage_eq (h : p.Correct) : keysetPage p o d q limit =
    (d.ordered ((p.places o).filter fun a => After d false q a)).take limit := by
  unfold keysetPage
  dsimp only
  split_ifs with hclassed
  · rw [classBoundedRows_eq h hclassed, bounded_eq, List.drop_zero, Prod.mk.eta, toLex_ofLex]
  · rw [bounded_eq, List.drop_zero, Prod.mk.eta, toLex_ofLex]

theorem keysetPage_filter (h : p.Correct) : keysetPage p o d q limit =
    ((p.plain o d).filter fun a => d.precedes q a).take limit := by
  rw [keysetPage_eq h, ordered_filter]
  simp only [After, Bool.false_eq_true, false_and, or_false]
  rfl

theorem follow_columns (h : p.Correct) (hkeeps : o.keeps p.kind = true) (hlimit : 0 < limit) :
    follow (columnPage p o d limit) p.total.toNat p.rows.length 0 none = p.plain o d := by
  rw [h.total, Int.toNat_natCast, ← PageShape.length_plain (o := o) (d := d)]
  apply follow_eq hlimit
  · exact positionPage_eq h hkeeps le_rfl
  · intro before q after hsplit
    exact (keysetPage_eq h).trans (by rw [ordered_after PageShape.nodup_places hsplit])

theorem follow_rotated {page : Option Place → List Place} (h : p.Correct) (hlimit : 0 < limit)
    (hfirst : page none = (rotated p d seed).take limit)
    (hnext : ∀ q, page (some q) = seededRandomPage p d seed (some q) limit) :
    follow page p.total.toNat p.rows.length 0 none = rotated p d seed := by
  rw [h.total, Int.toNat_natCast, ← length_rotated d seed]
  apply follow_eq hlimit hfirst
  intro before q after hsplit
  rw [hnext]
  exact seededRandomPage_after hsplit

theorem perm_rotated : (rotated p d seed).Perm (p.places .random) := by
  rw [rotated_eq]
  exact (List.rotate_perm _ _).trans perm_ordered

/-- **Pages.** With right blocks and the right total, in each direction: the pages of an order by
position are slices of the plain order, those by cursor have the rows after it, one after the other
they have each row once, and the rank of a row is its position; and the same of a random order and
the list that is rotated to begin at its seed. -/
theorem pages_plain (p : PageShape) (h : p.Correct) :
    (∀ o d, o.keeps p.kind = true →
      (p.plain o d).Perm (p.places o) ∧
      (∀ start limit : ℕ, positionPage p o d start limit = ((p.plain o d).drop start).take limit) ∧
      (∀ q limit, keysetPage p o d q limit =
        ((p.plain o d).filter fun a => d.precedes q a).take limit) ∧
      (∀ limit, 0 < limit →
        follow (columnPage p o d limit) p.total.toNat p.rows.length 0 none = p.plain o d) ∧
      (∀ r ∈ p.rows, ∃ k : ℕ, browseAnchorRankIn p o d r.entity = some (k : ℤ) ∧
        (p.plain o d)[k]? = some (o.place r))) ∧
    (∀ d seed,
      (rotated p d seed).Perm (p.places .random) ∧
      (∀ start limit : ℕ, positionRandomPage p d seed start limit =
        ((rotated p d seed).drop start).take limit) ∧
      (∀ start limit, seededRandomRange p d seed start limit =
        ((rotated p d seed).drop start).take limit) ∧
      (∀ limit, seededRandomPage p d seed none limit = (rotated p d seed).take limit) ∧
      (∀ before q after limit, rotated p d seed = before ++ q :: after →
        seededRandomPage p d seed (some q) limit = after.take limit) ∧
      ∀ limit, 0 < limit →
        follow (randomPage p d seed limit) p.total.toNat p.rows.length 0 none = rotated p d seed ∧
        follow (fun cursor => seededRandomPage p d seed cursor limit) p.total.toNat p.rows.length 0
          none = rotated p d seed) ∧
    ∀ o d seed, ∀ r ∈ p.rows, ∃ k, indexedFactAnchorRank p d seed o r.entity = some k ∧
      (shown p o d seed)[k]? = some (o.place r) := by
  refine ⟨fun o d hkeeps => ⟨perm_ordered, ?_, ?_, ?_, ?_⟩,
    fun d seed => ⟨perm_rotated, ?_, ?_, ?_, ?_, ?_⟩, ?_⟩
  · exact fun start limit => positionPage_eq h hkeeps (Int.natCast_nonneg start)
  · exact fun q limit => keysetPage_filter h
  · exact fun limit hlimit => follow_columns h hkeeps hlimit
  · exact fun r hr => getElem?_browseAnchorRankIn h hkeeps hr
  · exact fun start limit => positionRandomPage_eq h
  · exact fun start limit => seededRandomRange_eq
  · exact fun limit => seededRandomPage_none
  · exact fun before q after limit hsplit => seededRandomPage_after hsplit
  · intro limit hlimit
    refine ⟨follow_rotated h hlimit ?_ fun _ => rfl,
      follow_rotated h hlimit seededRandomPage_none fun _ => rfl⟩
    exact (positionRandomPage_eq h : positionRandomPage p d seed (0 : ℕ) limit = _)
  · exact fun o d seed r hr => getElem?_indexedFactAnchorRank hr

theorem tallied_inserts {rs : List Row} {s s' : State} (h : ∀ o, Tallied s.rows s.blocks o)
    (hrun : Machine.run step s (rs.map Event.insert) = some s') : ∀ o, Tallied s'.rows s'.blocks o := by
  induction rs generalizing s with
  | nil => exact Option.some.inj hrun ▸ h
  | cons r rs ih =>
    obtain ⟨t, ht, hrest⟩ := Machine.run_cons.mp hrun
    obtain ⟨t', ht', hleft⟩ := step_left (e := .insert r) h
    obtain rfl := Option.some.inj (ht.symm.trans ht')
    exact ih (fun o => (hleft o).1 fun hcrosses => hcrosses) hrest

/-- Two movies of a year, and a later one. -/
def movies : PageShape where
  state := (Machine.run step {} ([{ entity := 3, library := 1, kind := 1, year := 1979 },
    { entity := 5, library := 1, kind := 1, year := 1986 },
    { entity := 4, library := 1, kind := 1, year := 1979 }].map Event.insert)).getD {}
  library := 1
  kind := 1
  total := 3

theorem movies_correct : movies.Correct := by
  refine ⟨fun o => ?_, by decide +kernel, nofun, by decide +kernel⟩
  have htallied : ∀ o, Tallied movies.state.rows movies.state.blocks o := by
    unfold movies
    dsimp only
    cases hrun : Machine.run step {} _ with
    | none => exact tallied_empty
    | some s => exact tallied_inserts tallied_empty hrun
  exact htallied o 1 1

theorem pages_plain_movies : positionPage movies .year .desc 1 5 =
    ((movies.plain .year .desc).drop 1).take 5 :=
  ((pages_plain movies movies_correct).1 .year .desc rfl).2.1 1 5

end Portico.Browse
