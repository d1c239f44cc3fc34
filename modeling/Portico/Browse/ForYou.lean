import Portico.Browse.PersonalOrder

/-!
# The recommendation order

The ranked rows come first, and the rest follows by title. With counted blocks, the place where the
rest goes on is searched among the titles: a position is taken forward by the ranked rows before it,
until it has as many unranked rows before it as were asked for.

## Main results

* `restPosition_spec`: the search ends at the position that is looked for
* `personalPage_eq`: a page is a slice of the order, with or without counted blocks
* `personal_orders`: all paths of the personal orders agree
-/

namespace Portico.Browse

open Runs Direction Pages

section

variable (p : PersonalShape) (ranked : List ℤ) (d : Direction)

/-- The ranked rows that meet the filter, in rank order, each by its place among the titles. -/
def recForYouValued : List Place :=
  ranked.filterMap fun entity => (rowOf Row.entity entity p.rows).map Ordering.title.place

/-- The rows that aren't ranked, by title. -/
def unranked : List Place :=
  asc.ordered ((p.rows.map Ordering.title.place).filter fun q =>
    (ofLex q).2 ∉ (recForYouValued p ranked).map fun v => (ofLex v).2)

/-- The ranked rows, then the rest by title; the other way round when the order ascends. -/
def forYouOrder : List Place :=
  match d with
  | .asc => unranked p ranked ++ recForYouValued p ranked
  | .desc => recForYouValued p ranked ++ unranked p ranked

/-! ## Pages -/

def takeValued (start n : ℕ) : List Place := ((recForYouValued p ranked).drop start).take n

/-- The search for the position with `r` unranked rows before it: no result when it runs out of
steps, and no position past the end. -/
def restPosition (keys : List Place) (r : ℕ) : ℕ → ℕ → Option (Option ℕ)
  | 0, _ => none
  | fuel + 1, t =>
    match (ascendingFrom p.page .title t 1).head? with
    | none => some none
    | some row =>
      let before := keys.findIdx fun key => ¬ key < row
      if r + before = t then some (some t) else restPosition keys r fuel (r + before)

/-- The unranked rows from a position on, read in runs. -/
def restRows (valued : List ℤ) : ℕ → ℕ → ℕ → List Place
  | 0, _, _ => []
  | fuel + 1, t, n =>
    if n = 0 then []
    else
      let want := n + min valued.length 256
      let rows := ascendingFrom p.page .title t want
      let out := (rows.filter fun q => (ofLex q).2 ∉ valued).take n
      if rows.length < want then out else out ++ restRows valued fuel (t + rows.length) (n - out.length)

/-- The rest's rows from its own index on: by position, or by an offset of the query. -/
def personalRest (r n : ℕ) : List Place :=
  let valued := recForYouValued p ranked
  let keys := asc.ordered valued
  if p.positional then
    match restPosition p keys r (keys.length + 1) r with
    | none => []
    | some none => []
    | some (some t) => restRows p (valued.map fun v => (ofLex v).2) (p.page.total.toNat + 1) t n
  else ((unranked p ranked).drop r).take n

/-- The number of rows of the rest, at most `limit` when they are counted. -/
def personalRestSize (limit : ℕ) : ℕ :=
  if p.positional then (p.page.total - (recForYouValued p ranked).length).toNat
  else ((unranked p ranked).take limit).length

def personalPage (start limit : ℕ) : List Place :=
  match d with
  | .desc =>
    let out := takeValued p ranked start limit
    if out.length = limit then out
    else out ++ personalRest p ranked (start - (recForYouValued p ranked).length) (limit - out.length)
  | .asc =>
    let out := personalRest p ranked start limit
    if out.length = limit then out
    else
      -- the valued rows start at the end of the rest
      let from' := if out.length = 0 then start - personalRestSize p ranked start else 0
      out ++ takeValued p ranked from' (limit - out.length)

end

variable {p : PersonalShape} {ranked : List ℤ} {d : Direction} {r t n fuel start limit : ℕ}
  {valued : List ℤ} {l : List Place} {row : Place}

/-! ## Searches in a sorted list -/

/-- The first key that isn't before a row comes after all those that are. -/
theorem findIdx_sorted (h : l.Pairwise (· ≤ ·)) :
    (l.findIdx fun key => ¬ key < row) = l.countP fun key => key < row := by
  induction l with
  | nil => rfl
  | cons a l ih =>
    rw [List.pairwise_cons] at h
    by_cases ha : a < row
    · have hcount : ((a :: l).countP fun key => key < row) = (l.countP fun key => key < row) + 1 :=
        List.countP_cons_of_pos (by simpa using ha)
      rw [List.findIdx_cons, hcount, ih h.2]
      simp [ha]
    · have hnone : ((a :: l).countP fun key => key < row) = 0 := by
        rw [List.countP_eq_zero]
        intro b hb hlt
        rcases List.mem_cons.mp hb with rfl | hb
        · exact ha (of_decide_eq_true hlt)
        · exact ha ((h.1 b hb).trans_lt (of_decide_eq_true hlt))
      rw [List.findIdx_cons, hnone]
      simp [ha]

/-- The rows before a position of an ordered list are those that come before its row. -/
theorem take_of_getElem? (hl : l.Nodup) (h : (asc.ordered l)[t]? = some row) :
    (asc.ordered l).filter (fun a => a < row) = (asc.ordered l).take t := by
  rw [filter_eq_take, perm_ordered.countP_eq]
  · congr 1
    exact countP_of_getElem? hl h
  · refine pairwise_ordered.imp fun hab hb => decide_eq_true ?_
    exact (not_lt.mp hab).trans_lt (of_decide_eq_true hb)

/-- The rows of a list that meet a condition, from the one on that has `r` of them before it. -/
theorem drop_filter {u : Place → Bool} (h : (l.take t).countP u = r) :
    (l.filter u).drop r = (l.drop t).filter u := by
  conv_lhs => rw [← List.take_append_drop t l, List.filter_append]
  rw [List.drop_append, List.drop_eq_nil_of_le, List.nil_append]
  · rw [← List.countP_eq_length_filter, h, Nat.sub_self, List.drop_zero]
  · rw [← List.countP_eq_length_filter, h]

/-! ## The ranked rows -/

theorem mem_recForYouValued {q : Place} : q ∈ recForYouValued p ranked ↔
    ∃ x ∈ p.rows, x.entity ∈ ranked ∧ q = Ordering.title.place x := by
  unfold recForYouValued
  simp only [List.mem_filterMap, Option.map_eq_some_iff, rowOf_eq_some keys_rows]
  constructor
  · rintro ⟨entity, hentity, x, ⟨hx, rfl⟩, rfl⟩
    exact ⟨x, hx, hentity, rfl⟩
  · rintro ⟨x, hx, hentity, rfl⟩
    exact ⟨x.entity, hentity, x, ⟨hx, rfl⟩, rfl⟩

theorem entities_recForYouValued : (recForYouValued p ranked).map (fun v => (ofLex v).2) =
    ranked.filter fun entity => (rowOf Row.entity entity p.rows).isSome := by
  unfold recForYouValued
  induction ranked with
  | nil => rfl
  | cons entity ranked ih =>
    cases hrow : rowOf Row.entity entity p.rows with
    | none =>
      rw [List.filterMap_cons_none (by rw [hrow]; rfl), List.filter_cons_of_neg (by rw [hrow]; simp)]
      exact ih
    | some x =>
      rw [List.filterMap_cons_some (by rw [hrow]; rfl), List.filter_cons_of_pos (by rw [hrow]; rfl),
        List.map_cons, ih]
      have hentity : x.entity = entity := key_of_rowOf hrow
      rw [← hentity]
      rfl

theorem nodup_recForYouValued (hranked : ranked.Nodup) : (recForYouValued p ranked).Nodup := by
  apply List.Nodup.of_map fun v : Place => (ofLex v).2
  rw [entities_recForYouValued]
  exact hranked.filter _

/-- The titles of all rows. -/
def titles (p : PersonalShape) : List Place := p.rows.map Ordering.title.place

theorem nodup_titles : (titles p).Nodup := by
  apply List.Nodup.of_map fun q : Place => (ofLex q).2
  unfold titles
  rw [List.map_map]
  exact keys_rows

/-- A row is ranked when its entity is that of a ranked row. -/
def isRanked (p : PersonalShape) (ranked : List ℤ) (q : Place) : Bool :=
  (ofLex q).2 ∈ (recForYouValued p ranked).map fun v => (ofLex v).2

theorem unranked_eq : unranked p ranked =
    (asc.ordered (titles p)).filter fun q => !isRanked p ranked q := by
  unfold unranked isRanked
  rw [ordered_filter]
  apply List.filter_congr
  intro q _
  exact decide_not

theorem perm_ranked (hranked : ranked.Nodup) :
    (recForYouValued p ranked).Perm ((asc.ordered (titles p)).filter (isRanked p ranked)) := by
  refine (List.perm_ext_iff_of_nodup (nodup_recForYouValued hranked)
    ((nodup_ordered.mpr nodup_titles).filter _)).mpr fun q => ?_
  rw [List.mem_filter, mem_ordered]
  unfold isRanked titles
  rw [decide_eq_true_eq]
  constructor
  · intro hq
    obtain ⟨x, hx, -, rfl⟩ := mem_recForYouValued.mp hq
    exact ⟨List.mem_map_of_mem hx, List.mem_map_of_mem hq⟩
  · rintro ⟨htitle, hmem⟩
    obtain ⟨x, hx, rfl⟩ := List.mem_map.mp htitle
    obtain ⟨v, hv, hentity⟩ := List.mem_map.mp hmem
    obtain ⟨y, hy, -, rfl⟩ := mem_recForYouValued.mp hv
    rw [← eq_of_key keys_rows hy hx hentity]
    exact hv

theorem length_unranked (hranked : ranked.Nodup) :
    (recForYouValued p ranked).length + (unranked p ranked).length = p.rows.length := by
  have hsplit := List.length_eq_length_filter_add (l := asc.ordered (titles p)) (isRanked p ranked)
  rw [length_ordered] at hsplit
  rw [(perm_ranked hranked).length_eq, unranked_eq, ← hsplit]
  exact List.length_map _

/-! ## The search for a position -/

theorem PersonalShape.Correct.ascendingFrom_titles (h : p.Correct)
    (hpositional : p.positional = true) {low count : ℕ} :
    ascendingFrom p.page .title low count = ((asc.ordered (titles p)).drop low).take count := by
  unfold titles
  rw [rows_of_positional h hpositional]
  exact ascendingFrom_eq h.page rfl

/-- The ranked rows before a position, counted by the keys that come before its row. -/
theorem countP_before (hranked : ranked.Nodup) (hrow : (asc.ordered (titles p))[t]? = some row) :
    ((asc.ordered (recForYouValued p ranked)).findIdx fun key => ¬ key < row) =
      ((asc.ordered (titles p)).take t).countP (isRanked p ranked) := by
  have hsorted : (asc.ordered (recForYouValued p ranked)).Pairwise (· ≤ ·) :=
    (pairwise_ordered (d := .asc)).imp fun hab => not_lt.mp hab
  rw [findIdx_sorted hsorted, perm_ordered.countP_eq, (perm_ranked hranked).countP_eq,
    List.countP_filter, ← take_of_getElem? nodup_titles hrow, List.countP_filter]
  simp only [Bool.and_comm]

theorem countP_take_le (hranked : ranked.Nodup) :
    ((asc.ordered (titles p)).take t).countP (isRanked p ranked) ≤
      (recForYouValued p ranked).length := by
  rw [(perm_ranked hranked).length_eq, ← List.countP_eq_length_filter]
  exact (List.take_sublist t _).countP_le

theorem countP_take_mono {t t' : ℕ} (h : t ≤ t') {u : Place → Bool} :
    (l.take t).countP u ≤ (l.take t').countP u := by
  have htake : l.take t = (l.take t').take t := by rw [List.take_take, min_eq_left h]
  rw [htake]
  exact (List.take_sublist t _).countP_le

/-- **Searches.** The search ends, at a position with `r` unranked rows before it; only when no more
than `r` rows are unranked, it may end past all rows. -/
theorem restPosition_spec (fuel : ℕ) (h : p.Correct) (hpositional : p.positional = true)
    (hranked : ranked.Nodup) (hstart : r ≤ t)
    (hbefore : t ≤ r + ((asc.ordered (titles p)).take t).countP (isRanked p ranked))
    (hfuel : (recForYouValued p ranked).length < fuel + (t - r)) :
    (∃ t', restPosition p (asc.ordered (recForYouValued p ranked)) r fuel t = some (some t') ∧
      ((asc.ordered (titles p)).take t').countP (fun q => !isRanked p ranked q) = r) ∨
    (restPosition p (asc.ordered (recForYouValued p ranked)) r fuel t = some none ∧
      (unranked p ranked).length ≤ r) := by
  have hsplit : ∀ t, ((asc.ordered (titles p)).take t).countP (isRanked p ranked) +
      ((asc.ordered (titles p)).take t).countP (fun q => !isRanked p ranked q) =
        min t (titles p).length := by
    intro t
    have hall := List.length_eq_countP_add_countP (isRanked p ranked)
      (l := (asc.ordered (titles p)).take t)
    rw [List.length_take, length_ordered] at hall
    rw [hall]
    congr 2
    ext q
    simp
  induction fuel generalizing t with
  | zero =>
    have hle := countP_take_le (t := t) hranked (p := p)
    omega
  | succ fuel ih =>
    unfold restPosition
    rw [h.ascendingFrom_titles hpositional, List.head?_take, if_neg one_ne_zero, List.head?_drop]
    cases hrow : (asc.ordered (titles p))[t]? with
    | none =>
      -- all rows are before the position, so no more than `r` of them are unranked
      refine Or.inr ⟨rfl, ?_⟩
      rw [List.getElem?_eq_none_iff] at hrow
      have hmin := hsplit t
      rw [List.take_of_length_le hrow] at hmin hbefore
      rw [length_ordered] at hrow
      rw [unranked_eq, ← List.countP_eq_length_filter]
      omega
    | some row =>
      dsimp only
      rw [countP_before hranked hrow]
      have hlt := (List.getElem?_eq_some_iff.mp hrow).1
      rw [length_ordered] at hlt
      have hmin := hsplit t
      split_ifs with hfixed
      · exact Or.inl ⟨t, rfl, by omega⟩
      · apply ih
        · omega
        · have hmono : _ ≤ ((asc.ordered (titles p)).take
              (r + ((asc.ordered (titles p)).take t).countP (isRanked p ranked))).countP
                (isRanked p ranked) := countP_take_mono hbefore
          omega
        · omega

theorem restRows_eq (h : p.Correct) (hpositional : p.positional = true)
    (hfuel : p.rows.length < fuel + t) :
    restRows p valued fuel t n =
      (((asc.ordered (titles p)).drop t).filter fun q => (ofLex q).2 ∉ valued).take n := by
  induction fuel generalizing t n with
  | zero =>
    rw [List.drop_eq_nil_of_le, List.filter_nil, List.take_nil]
    · rfl
    · rw [length_ordered]
      unfold titles
      rw [List.length_map]
      omega
  | succ fuel ih =>
    unfold restRows
    split_ifs with hn
    · rw [hn, List.take_zero]
    dsimp only
    rw [h.ascendingFrom_titles hpositional]
    generalize hwant : n + min valued.length 256 = want
    split_ifs with hshort
    · -- the run had all rows that are left
      rw [List.length_take] at hshort
      have hall : ((asc.ordered (titles p)).drop t).take want = (asc.ordered (titles p)).drop t :=
        List.take_of_length_le (by omega)
      rw [hall]
    · have hlength : (((asc.ordered (titles p)).drop t).take want).length = want := by
        rw [List.length_take] at hshort ⊢
        omega
      rw [hlength, ih (by omega)]
      conv_rhs => rw [← List.take_append_drop want ((asc.ordered (titles p)).drop t),
        List.filter_append, ← take_append_rest, List.drop_drop]

/-- **Rests.** A page of the rest is the slice of the unranked rows, by position or not. -/
theorem personalRest_eq (h : p.Correct) (hranked : ranked.Nodup) :
    personalRest p ranked r n = ((unranked p ranked).drop r).take n := by
  unfold personalRest
  dsimp only
  split_ifs with hpositional
  · have hlength : (asc.ordered (recForYouValued p ranked)).length =
        (recForYouValued p ranked).length := length_ordered
    rcases restPosition_spec ((asc.ordered (recForYouValued p ranked)).length + 1) h
      hpositional hranked le_rfl (Nat.le_add_right r _) (by omega) with
      ⟨t, hposition, hbefore⟩ | ⟨hposition, hnone⟩
    · rw [hposition]
      dsimp only
      rw [restRows_eq h hpositional, unranked_eq, drop_filter hbefore]
      · congr 1
        apply List.filter_congr
        intro q _
        exact decide_not
      · rw [h.page.total, rows_of_positional h hpositional, Int.toNat_natCast]
        omega
    · rw [hposition, List.drop_eq_nil_of_le hnone, List.take_nil]
  · rfl

theorem personalRestSize_eq (h : p.Correct) (hranked : ranked.Nodup)
    (hstart : (unranked p ranked).length ≤ start) :
    personalRestSize p ranked start = (unranked p ranked).length := by
  have hsum := length_unranked (p := p) hranked
  unfold personalRestSize
  split_ifs with hpositional
  · rw [h.page.total, ← rows_of_positional h hpositional]
    omega
  · rw [List.length_take, min_eq_right hstart]

/-- **Recommendations.** A page is the slice of the order at its start, with or without positions.
-/
theorem personalPage_eq (h : p.Correct) (hranked : ranked.Nodup) :
    personalPage p ranked d start limit = ((forYouOrder p ranked d).drop start).take limit := by
  unfold personalPage forYouOrder takeValued
  cases d with
  | desc =>
    dsimp only
    rw [personalRest_eq h hranked, Pages.slice_append]
    split_ifs with hfull
    · rw [hfull, Nat.sub_self, List.take_zero, List.append_nil]
    · rfl
  | asc =>
    dsimp only
    rw [personalRest_eq h hranked, Pages.slice_append]
    split_ifs with hfull hnone
    · rw [hfull, Nat.sub_self, List.take_zero, List.append_nil]
    · rw [personalRestSize_eq h hranked]
      rw [List.length_take, List.length_drop] at hnone hfull
      omega
    · have hstart : start - (unranked p ranked).length = 0 := by
        rw [List.length_take, List.length_drop] at hnone
        omega
      rw [hstart]

/-! ## All paths -/

/-- **Personal orders.** On every path a page is the slice of one order: by cursors, by a direct
start with positions or a walk, and in a filtered range; and the recommendation order's pages, with
positions or not, whose search ends at the position with as many unranked rows before it as were
asked for. -/
theorem personal_orders (p : PersonalShape) (h : p.Correct) :
    (∀ sort d,
      (personalOrder p sort d).Perm ((rangeRows p sort).map (RangeRow.shown sort)) ∧
      (∀ limit, 0 < limit → follow (fun cursor => indexedPersonalPage p sort d 0 limit cursor)
        p.rows.length p.rows.length 0 none = personalOrder p sort d) ∧
      (∀ before c after start limit, personalOrder p sort d = before ++ c :: after →
        indexedPersonalPage p sort d start limit (some c) = after.take limit) ∧
      ∀ start limit,
        indexedPersonalPage p sort d start limit none =
          ((personalOrder p sort d).drop start).take limit ∧
        filteredRangePage p sort d start limit =
          ((personalOrder p sort d).drop start).take limit ∧
        walkIndexedRange p sort d start limit =
          ((personalOrder p sort d).drop start).take limit) ∧
    ∀ ranked : List ℤ, ranked.Nodup →
      (∀ d start limit, personalPage p ranked d start limit =
        ((forYouOrder p ranked d).drop start).take limit) ∧
      (p.positional = true → ∀ r < (unranked p ranked).length, ∃ t,
        restPosition p (asc.ordered (recForYouValued p ranked)) r
          ((recForYouValued p ranked).length + 1) r = some (some t) ∧
        ((asc.ordered (titles p)).take t).countP (fun q => !isRanked p ranked q) = r) := by
  refine ⟨fun sort d => ⟨perm_personalOrder h, ?_, ?_, ?_⟩, fun ranked hranked => ⟨?_, ?_⟩⟩
  · intro limit hlimit
    have hpage : (fun cursor => indexedPersonalPage p sort d 0 limit cursor) =
        fun cursor => personalRows p sort d cursor limit :=
      funext fun cursor => if_neg fun hstart => lt_irrefl 0 hstart.1
    rw [hpage]
    exact follow_personal h hlimit
  · intro before c after start limit hsplit
    have hcursor : ¬ (0 < start ∧ some c = none) := fun hstart => nomatch hstart.2
    unfold indexedPersonalPage
    rw [if_neg hcursor]
    exact personalRows_after h hsplit
  · exact fun start limit =>
      ⟨indexedPersonalPage_eq h, filteredRangePage_eq h, walkIndexedRange_eq h⟩
  · exact fun d start limit => personalPage_eq h hranked
  · intro hpositional r hr
    rcases restPosition_spec ((recForYouValued p ranked).length + 1) h hpositional hranked le_rfl
      (Nat.le_add_right r _) (by omega) with hfound | ⟨-, hnone⟩
    · exact hfound
    · exact absurd hr (not_lt.mpr hnone)

/-- The movies, two of them rated. -/
def rated : PersonalShape where
  page := movies
  meets := fun r => decide (r.entity ≠ 5)
  positional := false
  values := fun
    | .personalRating => [(4, number 7), (5, number 9)]
    | _ => []

theorem rated_correct : rated.Correct := by
  refine ⟨movies_correct, nofun, fun sort => ?_, fun sort x hx => ?_⟩
  · cases sort <;> decide
  · cases sort with
    | personalRating =>
      rcases List.mem_cons.mp hx with rfl | hx
      · decide
      · obtain rfl := List.mem_singleton.mp hx
        decide
    | lastPlayed => cases hx
    | playCount => cases hx

theorem personal_orders_rated : filteredRangePage rated .personalRating .desc 0 5 =
    walkIndexedRange rated .personalRating .desc 0 5 := by
  obtain ⟨-, hrange, hwalk⟩ :=
    ((personal_orders rated rated_correct).1 .personalRating .desc).2.2.2 0 5
  exact hrange.trans hwalk.symm

end Portico.Browse
