import Portico.Lib.BlockPositions
import Portico.Lib.Pages
import Portico.Browse.BlockTriggers

/-!
# Pages by position

A page of an order is read from the counted block that its position is in, or from the end of the
order backwards, and the rank of a row is found through its block. A row is given by its place in
the order.

## Main results

* `positionPage_eq`: a page is a slice of the plain order
* `getElem?_browseAnchorRankIn`: the rank of a row is its position in the plain order
-/

namespace Portico.Browse

open CountedBlocks Runs Direction Pages

/-- The rows that a page is selected from: the browse rows of a library and kind, or those of a
visibility class that was published for the viewer. -/
structure PageShape where
  state : State
  library : ℤ
  kind : ℤ
  total : ℤ
  classed : Bool := false
  /-- The entities that aren't restricted since the class was published. -/
  live : ℤ → Bool := fun _ => true

namespace PageShape

def rows (p : PageShape) : List Row :=
  p.state.rows.filter fun r => r.library = p.library ∧ r.kind = p.kind

def blocks (p : PageShape) (o : Ordering) : List (Block Place) :=
  slice o p.library p.kind p.state.blocks

def places (p : PageShape) (o : Ordering) : List Place := p.rows.map o.place

/-- All rows, in the plain order. -/
def plain (p : PageShape) (o : Ordering) (d : Direction) : List Place := d.ordered (p.places o)

/-- The largest entity id. -/
def maxInt64 : ℤ := 2 ^ 63 - 1

/-- The block sets are right, the total is that of the rows, no row of a class is restricted by now,
and the entities are row ids. -/
structure Correct (p : PageShape) : Prop where
  counted : ∀ o, Counted 2048 (placeSet o p.library p.kind p.state.rows) (p.blocks o)
  total : p.total = p.rows.length
  live : p.classed = true → ∀ r ∈ p.rows, p.live r.entity = true
  ids : ∀ r ∈ p.rows, 0 < r.entity ∧ r.entity ≤ maxInt64

end PageShape

section

variable (p : PageShape) (o : Ordering) (d : Direction)

/-! ## Pages -/

/-- The rows of a class from a place on, without those that are restricted by now. -/
def classBoundedRows (inclusive : Bool) (key : Value) (anchor : ℤ) (limit offset : ℕ) : List Place :=
  (bounded d inclusive key anchor limit offset (p.places o)).filter fun q => p.live (ofLex q).2

/-- A page of a class that got short is read again with more rows, up to sixteen times as many. -/
def classPositionRows (key : Value) (anchor : ℤ) (count offset : ℕ) : List Place :=
  let rows := classBoundedRows p o .asc true key anchor count offset
  ([2, 4, 8, 16].foldl (fun rows times =>
    if rows.length < count then classBoundedRows p o .asc true key anchor (count * times) offset
    else rows) rows).take count

/-- The rows from an ascending position on: the block that it is in, then a walk inside. -/
def ascendingFrom (low count : ℕ) : List Place :=
  match blockAt (p.blocks o) low with
  | none => []
  | some (b, before) =>
    let (value, entity) := ofLex b.start
    if p.classed then classPositionRows p o value entity count (low - before)
    else bounded .asc true value entity count (low - before) (p.places o)

/-- A descending page is the ascending run at the mirrored position, read backwards. -/
def positionPage (start limit : ℤ) : List Place :=
  let low := if d = .desc then max 0 (p.total - start - limit) else start
  let count := if d = .desc then p.total - start - low else limit
  if count ≤ 0 ∨ p.total ≤ low then []
  else
    let rows := ascendingFrom p o low.toNat count.toNat
    if d = .desc then rows.reverse else rows

/-! ## Ranks -/

/-- The position of an entity's row in the order. -/
def browseAnchorRankIn (anchor : ℤ) : Option ℤ :=
  (rowOf Row.entity anchor p.rows).map fun r =>
    let (value, entity) := ofLex (o.place r)
    let inside (start : Option Place) : ℕ := (p.places o).countP fun q =>
      decide ((ofLex q).1 < value ∨ (ofLex q).1 = value ∧ (ofLex q).2 < entity) &&
        start.all fun s => decide ((ofLex s).1 < (ofLex q).1 ∨
          (ofLex s).1 = (ofLex q).1 ∧ (ofLex s).2 ≤ (ofLex q).2)
    let rank : ℤ := blockRank (p.blocks o) (o.place r) inside
    if d = .desc then p.total - 1 - rank else rank

end

variable {p : PageShape} {o : Ordering} {d : Direction} {key : Value} {anchor : ℤ}
  {low count offset : ℕ} {q : Place} {r : Row}

/-! ## What a right shape gives -/

theorem PageShape.nodup_places : (p.places o).Nodup := Browse.nodup_places p.state.keys

theorem PageShape.keys_rows : (p.rows.map Row.entity).Nodup :=
  p.state.keys.sublist (List.filter_sublist.map _)

theorem PageShape.length_places : (p.places o).length = p.rows.length := List.length_map _

theorem PageShape.length_plain : (p.plain o d).length = p.rows.length :=
  length_ordered.trans PageShape.length_places

theorem PageShape.Correct.counted_places (h : p.Correct) (hkeeps : o.keeps p.kind = true) :
    Counted 2048 (p.places o).toFinset (p.blocks o) := by
  have hset : placeSet o p.library p.kind p.state.rows = (p.places o).toFinset :=
    placeSet_of_keeps hkeeps
  rw [← hset]
  exact h.counted o

theorem PageShape.card_places : (p.places o).toFinset.card = p.rows.length :=
  (List.toFinset_card_of_nodup PageShape.nodup_places).trans PageShape.length_places

theorem PageShape.Correct.live_places (h : p.Correct) (hclassed : p.classed = true)
    (hq : q ∈ p.places o) : p.live (ofLex q).2 = true := by
  obtain ⟨r, hr, rfl⟩ := List.mem_map.mp hq
  exact h.live hclassed r hr

/-! ## Pages are slices -/

theorem classBoundedRows_eq (h : p.Correct) (hclassed : p.classed = true) {inclusive : Bool}
    {limit : ℕ} : classBoundedRows p o d inclusive key anchor limit offset =
      bounded d inclusive key anchor limit offset (p.places o) := by
  refine List.filter_eq_self.mpr fun q hq => h.live_places hclassed (o := o) ?_
  rw [bounded_eq] at hq
  exact List.mem_of_mem_filter (mem_ordered.mp (List.mem_of_mem_drop (List.mem_of_mem_take hq)))

/-- No row of the class is dropped, so that the first read has all there are. -/
theorem classPositionRows_eq (h : p.Correct) (hclassed : p.classed = true) :
    classPositionRows p o key anchor count offset =
      bounded .asc true key anchor count offset (p.places o) := by
  unfold classPositionRows
  simp only [classBoundedRows_eq h hclassed, bounded_eq]
  generalize (asc.ordered ((p.places o).filter fun q =>
    After .asc true (toLex (key, anchor)) q)).drop offset = rows
  have hkeep : ∀ n, count ≤ n → (rows.take n).take count = rows.take count := fun n hn => by
    rw [List.take_take, min_eq_left hn]
  have hread : ∀ (times : List ℕ) n, count ≤ n → (∀ t ∈ times, 1 ≤ t) →
      (times.foldl (fun acc t => if acc.length < count then rows.take (count * t) else acc)
        (rows.take n)).take count = rows.take count := by
    intro times
    induction times with
    | nil => exact fun n hn _ => hkeep n hn
    | cons t times ih =>
      intro n hn htimes
      rw [List.foldl_cons]
      have hrest : ∀ t ∈ times, 1 ≤ t := fun t ht => htimes t (List.mem_cons_of_mem _ ht)
      split_ifs
      · exact ih _ (Nat.le_mul_of_pos_right _ (htimes t List.mem_cons_self)) hrest
      · exact ih n hn hrest
  exact hread [2, 4, 8, 16] count le_rfl (by decide)

/-- **Walks.** From a block on, the rows at a position are the slice there. -/
theorem ascendingFrom_eq (h : p.Correct) (hkeeps : o.keeps p.kind = true) :
    ascendingFrom p o low count = ((p.plain o .asc).drop low).take count := by
  have hcounted := (h.counted_places hkeeps).toExact
  unfold ascendingFrom
  rcases Nat.lt_or_ge low (p.places o).toFinset.card with hlow | hlow
  · obtain ⟨b, -, hfound, hle⟩ := blockAt_spec hcounted hlow
    have hbefore : ((p.places o).toFinset.filter fun q => q < b.start).card =
        (p.places o).countP fun q => !decide (After .asc true b.start q) := by
      rw [List.countP_eq_length_filter, ← List.toFinset_card_of_nodup
        (PageShape.nodup_places.filter _), List.toFinset_filter]
      congr 1
      apply Finset.filter_congr
      intro q _
      simp only [Bool.not_eq_true', decide_eq_false_iff_not, After, not_or]
      constructor
      · exact fun hlt => ⟨lt_asymm hlt, fun heq => hlt.ne heq.2⟩
      · rintro ⟨hnot, hne⟩
        exact lt_of_le_of_ne (not_lt.mp hnot) fun heq => hne ⟨trivial, heq⟩
    have hslice : bounded .asc true (ofLex b.start).1 (ofLex b.start).2 count
        (low - ((p.places o).toFinset.filter fun q => q < b.start).card) (p.places o) =
          ((p.plain o .asc).drop low).take count := by
      rw [bounded_eq, Prod.mk.eta, toLex_ofLex, ordered_filter_after, ← hbefore, List.drop_drop,
        Nat.add_sub_cancel' hle]
      rfl
    rw [hfound]
    dsimp only
    split_ifs with hclassed
    · rw [classPositionRows_eq h hclassed]
      exact hslice
    · exact hslice
  · rw [blockAt_none hcounted hlow, List.drop_eq_nil_of_le, List.take_nil]
    rw [PageShape.length_plain, ← PageShape.card_places (o := o)]
    exact hlow

theorem reverse_plain : (p.plain o .asc).reverse = p.plain o .desc := rfl

/-- **Positions.** A page is the slice of the plain order at its start. -/
theorem positionPage_eq (h : p.Correct) (hkeeps : o.keeps p.kind = true) {start limit : ℤ}
    (hstart : 0 ≤ start) :
    positionPage p o d start limit = ((p.plain o d).drop start.toNat).take limit.toNat := by
  have hlength : ∀ d, (p.plain o d).length = p.rows.length := fun _ => PageShape.length_plain
  unfold positionPage
  rw [h.total]
  cases d with
  | asc =>
    simp only [reduceCtorEq, if_false]
    split_ifs with hempty
    · rcases hempty with hcount | hlow
      · rw [Int.toNat_of_nonpos hcount, List.take_zero]
      · rw [List.drop_eq_nil_of_le, List.take_nil]
        rw [hlength]
        omega
    · exact ascendingFrom_eq h hkeeps
  | desc =>
    simp only [if_true]
    have hmirror := reverse_slice (p.plain o .asc) start.toNat limit.toNat
    rw [hlength, reverse_plain] at hmirror
    rw [← hmirror]
    rcases lt_or_ge limit 0 with hlimit | hlimit
    · have hcount : p.rows.length - start.toNat - (p.rows.length - start.toNat - limit.toNat) = 0 := by
        omega
      rw [if_pos (by omega), hcount, List.take_zero, List.reverse_nil]
    split_ifs with hempty
    · have hcount : p.rows.length - start.toNat - (p.rows.length - start.toNat - limit.toNat) = 0 := by
        omega
      rw [hcount, List.take_zero, List.reverse_nil]
    · rw [ascendingFrom_eq h hkeeps]
      congr 3 <;> omega

/-! ## Ranks are positions -/

theorem lex_lt {a b : Place} : ((ofLex a).1 < (ofLex b).1 ∨
    (ofLex a).1 = (ofLex b).1 ∧ (ofLex a).2 < (ofLex b).2) ↔ a < b := Prod.Lex.lt_iff.symm

theorem lex_le {a b : Place} : ((ofLex a).1 < (ofLex b).1 ∨
    (ofLex a).1 = (ofLex b).1 ∧ (ofLex a).2 ≤ (ofLex b).2) ↔ a ≤ b := Prod.Lex.le_iff.symm

theorem row_rank (h : p.Correct) (hkeeps : o.keeps p.kind = true) :
    blockRank (p.blocks o) q (fun start => (p.places o).countP fun a =>
      decide ((ofLex a).1 < (ofLex q).1 ∨ (ofLex a).1 = (ofLex q).1 ∧ (ofLex a).2 < (ofLex q).2) &&
        start.all fun s => decide ((ofLex s).1 < (ofLex a).1 ∨
          (ofLex s).1 = (ofLex a).1 ∧ (ofLex s).2 ≤ (ofLex a).2)) =
      (p.places o).countP fun a => a < q := by
  rw [← blockRank_eq (h.counted_places hkeeps).toExact PageShape.nodup_places
    (q := q) (f := fun a => decide (a < q))]
  · simp only [lex_lt, lex_le]
  · exact fun b _ hle a _ hlt => decide_eq_true (hlt.trans_le hle)

/-- A position in descending order is the mirrored one in ascending order. -/
theorem countP_desc {l : List Place} (hl : l.Nodup) (hq : q ∈ l) :
    (l.countP fun a => Direction.desc.precedes a q) = l.length - 1 - l.countP fun a => a < q := by
  have hasc : (asc.ordered l)[l.countP fun a => a < q]? = some q := getElem?_of_mem hl hq
  obtain ⟨hlt, -⟩ := List.getElem?_eq_some_iff.mp hasc
  rw [length_ordered] at hlt
  refine countP_of_getElem? hl (?_ : (asc.ordered l).reverse[_]? = some q)
  rw [List.getElem?_reverse (by rw [length_ordered]; omega), length_ordered, ← hasc]
  congr 1
  omega

/-- **Ranks.** The rank of a row is its position in the plain order. -/
theorem getElem?_browseAnchorRankIn (h : p.Correct) (hkeeps : o.keeps p.kind = true) (hr : r ∈ p.rows) :
    ∃ k : ℕ, browseAnchorRankIn p o d r.entity = some (k : ℤ) ∧
      (p.plain o d)[k]? = some (o.place r) := by
  have hmem : o.place r ∈ p.places o := List.mem_map_of_mem hr
  refine ⟨(p.places o).countP fun a => d.precedes a (o.place r), ?_,
    getElem?_of_mem PageShape.nodup_places hmem⟩
  unfold browseAnchorRankIn
  rw [(rowOf_eq_some PageShape.keys_rows).mpr ⟨hr, rfl⟩, Option.map_some]
  have hrank := row_rank (q := o.place r) h hkeeps
  dsimp only
  rw [hrank]
  cases d with
  | asc => rfl
  | desc =>
    rw [if_pos rfl, countP_desc PageShape.nodup_places hmem, h.total, PageShape.length_places]
    have hlt : ((p.places o).countP fun a => decide (a < o.place r)) < p.rows.length := by
      rw [← PageShape.length_places (o := o)]
      apply List.countP_lt_length_iff.mpr
      exact ⟨_, hmem, by simp⟩
    congr 1
    omega

end Portico.Browse
