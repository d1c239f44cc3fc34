import Portico.Browse.SeededOrder

/-!
# Personal orders

Orders by what a profile did: the rows with a value come in the order of their values, the others by
title. The two streams are read with cursors, or all rows are sorted for a filtered range, or a
direct start walks over the pages before it.

## Main definitions

* `PersonalShape`, `personalOrder`: what a profile's page is selected from, and the order
* `personalRows`, `indexedPersonalPage`: the pages of the two streams, and a direct start
* `filteredRangePage`: the page of a filtered range

## Main results

* `personalRows_none`, `personalRows_after`: the pages with cursors
* `filteredRangePage_eq`, `indexedPersonalPage_eq`: pages are slices of the one order
-/

namespace Portico.Browse

open Runs Direction Pages

inductive PersonalSort
  | personalRating
  | lastPlayed
  | playCount
deriving DecidableEq, Repr

/-- The value of a row without one. -/
def PersonalSort.zero : PersonalSort → Value
  | .lastPlayed => text ""
  | .personalRating | .playCount => number 0

/-- The stream that a row is in. -/
inductive Phase
  | valued
  | rest
deriving DecidableEq, Repr

/-- What a profile's page is selected from: the rows of a library and kind that meet a filter and
the restrictions, and the profile's values of entities of the library and kind. -/
structure PersonalShape where
  page : PageShape
  meets : Row → Bool
  positional : Bool
  values : PersonalSort → List (ℤ × Value)

namespace PersonalShape

def rows (p : PersonalShape) : List Row := p.page.rows.filter p.meets

/-- The shape is right when its positions are: they count the rows that meet the filter. An entity
has one value, and none is below that of a row without one. -/
structure Correct (p : PersonalShape) : Prop where
  page : p.page.Correct
  positional : p.positional = true → ∀ r ∈ p.page.rows, p.meets r = true
  once : ∀ sort, ((p.values sort).map Prod.fst).Nodup
  least : ∀ sort, ∀ x ∈ p.values sort, sort.zero ≤ x.2

end PersonalShape

section

variable (p : PersonalShape) (sort : PersonalSort) (d : Direction)

/-- The profile's values of the rows, by value and entity. -/
def visibleValues : List Place :=
  ((p.values sort).filter fun x => p.rows.any fun r => r.entity = x.1).map fun x => toLex (x.2, x.1)

def valuedPlaces : List Place := (visibleValues p sort).filter fun q => sort.zero < (ofLex q).1

/-- The rows without a value, by title. -/
def restPlaces : List Place :=
  (p.rows.filter fun r => ¬ ∃ x ∈ p.values sort, x.1 = r.entity ∧ sort.zero < x.2).map
    Ordering.title.place

/-- The order: valued rows in the direction, the others by title, after them when it descends and
before them when it ascends. -/
def personalOrder : List (Phase × Place) :=
  let valued := (d.ordered (valuedPlaces p sort)).map (Prod.mk Phase.valued)
  let rest := (asc.ordered (restPlaces p sort)).map (Prod.mk Phase.rest)
  match d with
  | .asc => rest ++ valued
  | .desc => valued ++ rest

/-! ## Pages with cursors -/

/-- The values after a cursor are read in two limited runs. An ascending later run is above the
bound of the valued rows already. -/
def valuedPage (cursor : Option Place) (limit : ℕ) : List Place :=
  match cursor with
  | none => (d.ordered (valuedPlaces p sort)).take limit
  | some q =>
    let later := if d = .asc ∧ sort.zero < (ofLex q).1 then visibleValues p sort
      else valuedPlaces p sort
    (d.ordered ((d.ordered (tieArm d false (ofLex q).1 (ofLex q).2 (valuedPlaces p sort))).take limit ++
      (d.ordered (laterArm d (ofLex q).1 later)).take limit)).take limit

def restPage (cursor : Option Place) (limit : ℕ) : List Place :=
  match cursor with
  | none => (asc.ordered (restPlaces p sort)).take limit
  | some q => bounded .asc false (ofLex q).1 (ofLex q).2 limit 0 (restPlaces p sort)

def phasePage (phase : Phase) (cursor : Option Place) (limit : ℕ) : List (Phase × Place) :=
  match phase with
  | .valued => (valuedPage p sort d cursor limit).map (Prod.mk Phase.valued)
  | .rest => (restPage p sort cursor limit).map (Prod.mk Phase.rest)

def phases : Phase × Phase :=
  match d with
  | .asc => (.rest, .valued)
  | .desc => (.valued, .rest)

/-- The page after a cursor, which says in which stream it is. -/
def personalRows (cursor : Option (Phase × Place)) (limit : ℕ) : List (Phase × Place) :=
  let seek := cursor.map Prod.snd
  if cursor.any fun c => c.1 = (phases d).2 then
    if 0 < limit then phasePage p sort d (phases d).2 seek limit else []
  else
    let out := if 0 < limit then phasePage p sort d (phases d).1 seek limit else []
    if out.length < limit then out ++ phasePage p sort d (phases d).2 none (limit - out.length) else out

/-- The most rows of a page. -/
def browseMaximumLimit : ℕ := 100

def walkIndexedRange (start limit : ℕ) : List (Phase × Place) :=
  walk (personalRows p sort d) browseMaximumLimit limit start start none

/-- A direct start takes the titles' positions when there are no values, and else walks. -/
def indexedPersonalPage (start limit : ℕ) (cursor : Option (Phase × Place)) : List (Phase × Place) :=
  if 0 < start ∧ cursor = none then
    if p.positional = true ∧ ¬ ∃ x ∈ p.values sort, sort.zero < x.2 then
      (positionPage p.page .title .asc start limit).map (Prod.mk Phase.rest)
    else walkIndexedRange p sort d start limit
  else personalRows p sort d cursor limit

/-! ## Filtered ranges -/

/-- A row as a range is sorted by it. -/
structure RangeRow where
  entity : ℤ
  title : Value
  key : Value

def rangeRows : List RangeRow :=
  p.rows.map fun r => ⟨r.entity, text (lower r.sortKey),
    (((rowOf Prod.fst r.entity (p.values sort)).map Prod.snd).getD sort.zero)⟩

/-- The terms that a range is sorted by: the stream, the value, the title of a row without one, and
the entity, which goes in the direction for a row with one. -/
def rangeKey (r : RangeRow) :
    ℕ ×ₗ Directed d Value ×ₗ WithBot Value ×ₗ Directed d (WithBot ℤ) ×ₗ WithBot ℤ :=
  let valued : Bool := sort.zero < r.key
  let phase := if valued = (d == .desc) then 0 else 1
  let title : WithBot Value := if valued then ⊥ else r.title
  let valuedId : WithBot ℤ := if valued then r.entity else ⊥
  let restId : WithBot ℤ := if valued then ⊥ else r.entity
  toLex (phase, toLex (directed d r.key, toLex (title, toLex (directed d valuedId, restId))))

def RangeRow.shown (r : RangeRow) : Phase × Place :=
  if r.key = sort.zero then (.rest, toLex (r.title, r.entity)) else (.valued, toLex (r.key, r.entity))

def filteredRangePage (start limit : ℕ) : List (Phase × Place) :=
  ((((rangeRows p sort).insertionSort fun a b => rangeKey sort d a ≤ rangeKey sort d b).drop
    start).take limit).map (RangeRow.shown sort)

end

variable {p : PersonalShape} {sort : PersonalSort} {d : Direction} {start limit : ℕ} {q : Place}
  {phase : Phase} {c : Phase × Place}

/-! ## The streams -/

/-- The rows of a stream, in its order. -/
def stream (p : PersonalShape) (sort : PersonalSort) (d : Direction) : Phase → List (Phase × Place)
  | .valued => (d.ordered (valuedPlaces p sort)).map (Prod.mk Phase.valued)
  | .rest => (asc.ordered (restPlaces p sort)).map (Prod.mk Phase.rest)

theorem personalOrder_eq : personalOrder p sort d =
    stream p sort d (phases d).1 ++ stream p sort d (phases d).2 := by
  cases d <;> rfl

theorem phase_of_mem_stream (h : c ∈ stream p sort d phase) : c.1 = phase := by
  cases phase <;>
    · obtain ⟨q, -, rfl⟩ := List.mem_map.mp h
      rfl

theorem phases_ne : (phases d).1 ≠ (phases d).2 := by
  cases d <;> decide

theorem keys_rows : (p.rows.map Row.entity).Nodup :=
  PageShape.keys_rows.sublist (List.filter_sublist.map _)

theorem PersonalShape.Correct.nodup_visible (h : p.Correct) : (visibleValues p sort).Nodup := by
  apply List.Nodup.of_map fun q : Place => (ofLex q).2
  unfold visibleValues
  rw [List.map_map]
  exact (h.once sort).sublist (List.filter_sublist.map _)

theorem PersonalShape.Correct.nodup_valued (h : p.Correct) : (valuedPlaces p sort).Nodup :=
  h.nodup_visible.filter _

theorem nodup_rest : (restPlaces p sort).Nodup := by
  apply List.Nodup.of_map fun q : Place => (ofLex q).2
  unfold restPlaces
  rw [List.map_map]
  exact keys_rows.sublist (List.filter_sublist.map _)

/-! ## Pages with cursors -/

theorem laterArm_visible (h : sort.zero < (ofLex q).1) :
    laterArm .asc (ofLex q).1 (visibleValues p sort) =
      laterArm .asc (ofLex q).1 (valuedPlaces p sort) := by
  unfold laterArm valuedPlaces
  rw [List.filter_filter]
  apply List.filter_congr
  intro a _
  rw [Bool.eq_iff_iff]
  simp only [Bool.and_eq_true, decide_eq_true_eq]
  exact ⟨fun hlt => ⟨hlt, lt_trans h hlt⟩, And.left⟩

theorem valuedPage_some : valuedPage p sort d (some q) limit =
    bounded d false (ofLex q).1 (ofLex q).2 limit 0 (valuedPlaces p sort) := by
  unfold valuedPage bounded
  dsimp only
  rw [Nat.add_zero, List.drop_zero]
  split_ifs with hlater
  · obtain ⟨rfl, hvalued⟩ := hlater
    rw [laterArm_visible hvalued]
  · rfl

theorem phasePage_none :
    phasePage p sort d phase none limit = (stream p sort d phase).take limit := by
  cases phase <;> exact List.map_take

theorem phasePage_after (h : p.Correct) {before after : List (Phase × Place)}
    (hsplit : stream p sort d phase = before ++ c :: after) :
    phasePage p sort d phase (some c.2) limit = after.take limit := by
  cases phase with
  | valued =>
    obtain ⟨before', rest, hlist, rfl, hrest⟩ := List.map_eq_append_iff.mp hsplit
    obtain ⟨q, after', rfl, rfl, rfl⟩ := List.map_eq_cons_iff.mp hrest
    unfold phasePage
    dsimp only
    rw [valuedPage_some, bounded_eq, List.drop_zero, Prod.mk.eta, toLex_ofLex,
      ordered_after h.nodup_valued hlist, List.map_take]
  | rest =>
    obtain ⟨before', rest, hlist, rfl, hrest⟩ := List.map_eq_append_iff.mp hsplit
    obtain ⟨q, after', rfl, rfl, rfl⟩ := List.map_eq_cons_iff.mp hrest
    unfold phasePage restPage
    dsimp only
    rw [bounded_eq, List.drop_zero, Prod.mk.eta, toLex_ofLex, ordered_after nodup_rest hlist,
      List.map_take]

theorem personalRows_none :
    personalRows p sort d none limit = (personalOrder p sort d).take limit := by
  unfold personalRows
  simp only [Option.any_none, Bool.false_eq_true, if_false, Option.map_none]
  rw [phasePage_none, phasePage_none, personalOrder_eq, ← take_append_rest]
  split_ifs with hlimit hmore hmore
  · rfl
  · have hfull : limit - ((stream p sort d (phases d).1).take limit).length = 0 := by omega
    rw [hfull, List.take_zero, List.append_nil]
  · exact absurd hmore hlimit
  · have hzero : limit = 0 := by omega
    subst hzero
    simp

/-- **Cursors.** The page after a row has the rows after it in the order. -/
theorem personalRows_after (h : p.Correct) {before after : List (Phase × Place)}
    (hsplit : personalOrder p sort d = before ++ c :: after) :
    personalRows p sort d (some c) limit = after.take limit := by
  have hzero : ¬ 0 < limit → limit = 0 := fun h => Nat.le_zero.mp (not_lt.mp h)
  rw [personalOrder_eq] at hsplit
  unfold personalRows
  simp only [Option.any_some, decide_eq_true_eq, Option.map_some]
  rcases split_append hsplit with ⟨mid, hfirst, rfl⟩ | ⟨mid, hsecond⟩
  · have hphase := phase_of_mem_stream (hfirst ▸ by simp : c ∈ stream p sort d (phases d).1)
    rw [if_neg fun heq => phases_ne (hphase.symm.trans heq), phasePage_after h hfirst,
      phasePage_none, ← take_append_rest]
    split_ifs with hlimit hmore hmore
    · rfl
    · have hfull : limit - (mid.take limit).length = 0 := by omega
      rw [hfull, List.take_zero, List.append_nil]
    · exact absurd hmore hlimit
    · rw [hzero hlimit]
      simp
  · have hphase := phase_of_mem_stream (hsecond ▸ by simp : c ∈ stream p sort d (phases d).2)
    rw [if_pos hphase, phasePage_after h hsecond]
    split_ifs with hlimit
    · rfl
    · rw [hzero hlimit, List.take_zero]

theorem walkIndexedRange_eq (h : p.Correct) : walkIndexedRange p sort d start limit =
    ((personalOrder p sort d).drop start).take limit :=
  walk_eq (by decide) (fun _ => personalRows_none) fun _ _ _ _ => personalRows_after h

/-! ## Direct starts -/

theorem rows_of_positional (h : p.Correct) (hpositional : p.positional = true) :
    p.rows = p.page.rows :=
  List.filter_eq_self.mpr fun r hr => h.positional hpositional r hr

theorem personalOrder_untouched (h : p.Correct) (hpositional : p.positional = true)
    (hnone : ¬ ∃ x ∈ p.values sort, sort.zero < x.2) :
    personalOrder p sort d = (p.page.plain .title .asc).map (Prod.mk Phase.rest) := by
  have hvalued : valuedPlaces p sort = [] := by
    unfold valuedPlaces visibleValues
    rw [List.filter_eq_nil_iff]
    intro q hq hlt
    obtain ⟨x, hx, rfl⟩ := List.mem_map.mp hq
    exact hnone ⟨x, List.mem_of_mem_filter hx, of_decide_eq_true hlt⟩
  have hrest : restPlaces p sort = p.page.places .title := by
    unfold restPlaces
    rw [rows_of_positional h hpositional, List.filter_eq_self.mpr]
    · rfl
    · exact fun r _ => decide_eq_true fun hx => hnone (hx.imp fun x hx => ⟨hx.1, hx.2.2⟩)
  have hnil : d.ordered ([] : List Place) = [] := by cases d <;> rfl
  unfold personalOrder PageShape.plain
  dsimp only
  rw [hvalued, hrest, hnil]
  cases d
  · exact List.append_nil _
  · rfl

/-- **Direct starts.** A page is the slice of the order at its start. -/
theorem indexedPersonalPage_eq (h : p.Correct) : indexedPersonalPage p sort d start limit none =
    ((personalOrder p sort d).drop start).take limit := by
  unfold indexedPersonalPage
  split_ifs with hstart huntouched
  · rw [personalOrder_untouched h huntouched.1 huntouched.2,
      positionPage_eq h.page rfl (Int.natCast_nonneg start), List.map_take, List.map_drop]
    rfl
  · exact walkIndexedRange_eq h
  · have hzero : start = 0 := by
      by_contra hne
      exact hstart ⟨Nat.pos_of_ne_zero hne, rfl⟩
    rw [hzero, List.drop_zero]
    exact personalRows_none

/-! ## Filtered ranges -/

/-- A row is shown before another one: in the first stream, or earlier in the same. -/
def ComesBefore (d : Direction) (a b : Phase × Place) : Prop :=
  (a.1 = (phases d).1 ∧ b.1 = (phases d).2) ∨
    (a.1 = b.1 ∧ match a.1 with
      | .valued => d.precedes a.2 b.2
      | .rest => a.2 < b.2)

theorem ComesBefore.asymm {a b : Phase × Place} (h : ComesBefore d a b) : ¬ ComesBefore d b a := by
  obtain ⟨ph, q⟩ := a
  obtain ⟨ph', q'⟩ := b
  rintro (⟨hb, ha⟩ | ⟨heq, hlater⟩)
  · rcases h with ⟨ha', -⟩ | ⟨hsame, -⟩
    · exact phases_ne (ha'.symm.trans ha)
    · exact phases_ne (hb.symm.trans (hsame.symm.trans ha))
  · obtain rfl : ph' = ph := heq
    rcases h with ⟨ha, hb⟩ | ⟨-, hearlier⟩
    · exact phases_ne (ha.symm.trans hb)
    · cases ph' with
      | valued => exact precedes_asymm hearlier hlater
      | rest => exact lt_asymm hearlier hlater

theorem pairwise_stream (h : p.Correct) : (stream p sort d phase).Pairwise (ComesBefore d) := by
  have hordered : ∀ {d : Direction} {l : List Place}, l.Nodup →
      (d.ordered l).Pairwise fun a b => d.precedes a b := by
    intro d l hl
    refine ((pairwise_ordered (l := l)).and (nodup_ordered.mpr hl)).imp fun hab => ?_
    exact (precedes_or _ _).resolve_right (not_or_intro hab.2 hab.1)
  cases phase with
  | valued =>
    exact List.pairwise_map.mpr ((hordered h.nodup_valued).imp fun hab => Or.inr ⟨rfl, hab⟩)
  | rest =>
    exact List.pairwise_map.mpr ((hordered nodup_rest).imp fun hab => Or.inr ⟨rfl, hab⟩)

theorem pairwise_personalOrder (h : p.Correct) :
    (personalOrder p sort d).Pairwise (ComesBefore d) := by
  rw [personalOrder_eq, List.pairwise_append]
  exact ⟨pairwise_stream h, pairwise_stream h, fun a ha b hb =>
    Or.inl ⟨phase_of_mem_stream ha, phase_of_mem_stream hb⟩⟩

theorem nodup_personalOrder (h : p.Correct) : (personalOrder p sort d).Nodup :=
  (pairwise_personalOrder h).imp fun hab heq => by
    subst heq
    exact hab.asymm hab

theorem shown_rest {r : RangeRow} (h : sort.zero = r.key) :
    r.shown sort = (.rest, toLex (r.title, r.entity)) := if_pos h.symm

theorem shown_valued {r : RangeRow} (h : sort.zero < r.key) :
    r.shown sort = (.valued, toLex (r.key, r.entity)) := if_neg h.ne'

theorem precedes_coe {a b : ℤ} (h : d.precedes (a : WithBot ℤ) b) : d.precedes a b := by
  cases d <;> exact WithBot.coe_lt_coe.mp h

/-- The terms of the sort put a row before another one just as they are shown. -/
theorem comesBefore_of_rangeKey {a b : RangeRow} (hle : rangeKey sort d a ≤ rangeKey sort d b)
    (hne : a.entity ≠ b.entity) (ha : sort.zero ≤ a.key) (hb : sort.zero ≤ b.key) :
    ComesBefore d (a.shown sort) (b.shown sort) := by
  unfold rangeKey at hle
  simp only [Prod.Lex.toLex_le_toLex, directed_lt, directed_injective.eq_iff] at hle
  rcases ha.eq_or_lt with ha | ha <;> rcases hb.eq_or_lt with hb | hb
  · -- both without a value, by title
    rw [shown_rest ha, shown_rest hb]
    simp only [← ha, ← hb, lt_irrefl, decide_false, Bool.false_eq_true, if_false, true_and,
      WithBot.coe_lt_coe, WithBot.coe_inj, WithBot.coe_le_coe, false_or] at hle
    refine Or.inr ⟨rfl, Prod.Lex.toLex_lt_toLex.mpr ?_⟩
    rcases hle with hkey | hlt | ⟨heq, hid | hid⟩
    · exact absurd hkey (precedes_irrefl _)
    · exact Or.inl hlt
    · exact absurd hid (precedes_irrefl _)
    · exact Or.inr ⟨heq, lt_of_le_of_ne hid hne⟩
  · -- the first one has no value, so it comes before when the order ascends
    rw [shown_rest ha, shown_valued hb]
    cases d with
    | asc => exact Or.inl ⟨rfl, rfl⟩
    | desc => simp [← ha, hb] at hle
  · rw [shown_valued ha, shown_rest hb]
    cases d with
    | asc => simp [← hb, ha] at hle
    | desc => exact Or.inl ⟨rfl, rfl⟩
  · -- both with one, by value
    rw [shown_valued ha, shown_valued hb]
    simp only [ha, hb, decide_true, if_true, true_and, lt_irrefl, false_or, le_refl, and_true,
      WithBot.coe_inj] at hle
    refine Or.inr ⟨rfl, precedes_lex.mpr ?_⟩
    rcases hle with hkey | ⟨heq, hid | hid⟩
    · exact Or.inl hkey
    · exact Or.inr ⟨heq, precedes_coe hid⟩
    · exact absurd hid hne

theorem mem_rangeRows {r : RangeRow} (hr : r ∈ rangeRows p sort) : ∃ x ∈ p.rows,
    r = ⟨x.entity, text (lower x.sortKey),
      ((rowOf Prod.fst x.entity (p.values sort)).map Prod.snd).getD sort.zero⟩ :=
  (List.mem_map.mp hr).imp fun _ h => ⟨h.1, h.2.symm⟩

theorem key_least (h : p.Correct) {r : RangeRow} (hr : r ∈ rangeRows p sort) :
    sort.zero ≤ r.key := by
  obtain ⟨x, -, rfl⟩ := mem_rangeRows hr
  cases hrow : rowOf Prod.fst x.entity (p.values sort) with
  | none => exact le_rfl
  | some y => exact h.least sort y (mem_of_rowOf hrow)

theorem entities_rangeRows : (rangeRows p sort).map RangeRow.entity = p.rows.map Row.entity := by
  unfold rangeRows
  rw [List.map_map]
  rfl

theorem mem_personalOrder : c ∈ personalOrder p sort d ↔
    (c.1 = .valued ∧ c.2 ∈ valuedPlaces p sort) ∨ (c.1 = .rest ∧ c.2 ∈ restPlaces p sort) := by
  have hvalued : c ∈ stream p sort d .valued ↔ c.1 = .valued ∧ c.2 ∈ valuedPlaces p sort := by
    unfold stream
    rw [List.mem_map]
    exact ⟨fun ⟨q, hq, h⟩ => h ▸ ⟨rfl, mem_ordered.mp hq⟩,
      fun ⟨hphase, hq⟩ => ⟨c.2, mem_ordered.mpr hq, Prod.ext hphase.symm rfl⟩⟩
  have hrest : c ∈ stream p sort d .rest ↔ c.1 = .rest ∧ c.2 ∈ restPlaces p sort := by
    unfold stream
    rw [List.mem_map]
    exact ⟨fun ⟨q, hq, h⟩ => h ▸ ⟨rfl, mem_ordered.mp hq⟩,
      fun ⟨hphase, hq⟩ => ⟨c.2, mem_ordered.mpr hq, Prod.ext hphase.symm rfl⟩⟩
  rw [personalOrder_eq, List.mem_append, ← hvalued, ← hrest]
  cases d
  · exact or_comm
  · exact Iff.rfl

theorem mem_valuedPlaces (h : p.Correct) : q ∈ valuedPlaces p sort ↔ sort.zero < (ofLex q).1 ∧
    ∃ r ∈ p.rows, rowOf Prod.fst r.entity (p.values sort) = some (r.entity, (ofLex q).1) ∧
      q = toLex ((ofLex q).1, r.entity) := by
  unfold valuedPlaces visibleValues
  simp only [List.mem_filter, List.mem_map, List.any_eq_true, decide_eq_true_eq]
  constructor
  · rintro ⟨⟨x, ⟨hx, r, hr, hentity⟩, rfl⟩, hlt⟩
    refine ⟨hlt, r, hr, (rowOf_eq_some (h.once sort)).mpr ⟨?_, rfl⟩, ?_⟩
    · rw [hentity]
      exact hx
    · rw [hentity]
      rfl
  · rintro ⟨hlt, r, hr, hrow, hq⟩
    exact ⟨⟨_, ⟨mem_of_rowOf hrow, r, hr, rfl⟩, hq.symm⟩, hlt⟩

/-- A row has no value above zero when that which is looked up for it is zero. -/
theorem no_value_iff (h : p.Correct) {r : Row} :
    (¬ ∃ x ∈ p.values sort, x.1 = r.entity ∧ sort.zero < x.2) ↔
      ((rowOf Prod.fst r.entity (p.values sort)).map Prod.snd).getD sort.zero = sort.zero := by
  cases hrow : rowOf Prod.fst r.entity (p.values sort) with
  | none =>
    refine iff_of_true ?_ rfl
    rintro ⟨x, hx, hentity, -⟩
    exact absurd hentity (by simpa using List.find?_eq_none.mp hrow x hx)
  | some y =>
    obtain ⟨hy, hentity⟩ := (rowOf_eq_some (h.once sort)).mp hrow
    constructor
    · intro hnone
      exact (eq_of_le_of_not_lt (h.least sort y hy) fun hlt => hnone ⟨y, hy, hentity, hlt⟩).symm
    · rintro hzero ⟨x, hx, hentity', hlt⟩
      obtain rfl := eq_of_key (h.once sort) hx hy (hentity'.trans hentity.symm)
      exact hlt.ne' hzero

/-- A row is shown with its value when that is above zero, or else by its title. -/
theorem mem_shown (h : p.Correct) :
    c ∈ (rangeRows p sort).map (RangeRow.shown sort) ↔ c ∈ personalOrder p sort d := by
  rw [mem_personalOrder, mem_valuedPlaces h]
  unfold rangeRows restPlaces
  simp only [List.mem_map, List.mem_filter, decide_eq_true_eq, exists_exists_and_eq_and]
  constructor
  · rintro ⟨r, hr, rfl⟩
    by_cases hzero : ((rowOf Prod.fst r.entity (p.values sort)).map Prod.snd).getD sort.zero = sort.zero
    · rw [shown_rest hzero.symm]
      exact Or.inr ⟨rfl, r, ⟨hr, (no_value_iff h).mpr hzero⟩, rfl⟩
    · cases hrow : rowOf Prod.fst r.entity (p.values sort) with
      | none =>
        rw [hrow] at hzero
        exact absurd rfl hzero
      | some y =>
        obtain ⟨hy, hentity⟩ := (rowOf_eq_some (h.once sort)).mp hrow
        rw [hrow] at hzero
        have hlt : sort.zero < y.2 := lt_of_le_of_ne (h.least sort y hy) (Ne.symm hzero)
        refine Or.inl ?_
        rw [Option.map_some, Option.getD_some, shown_valued hlt]
        exact ⟨rfl, hlt, r, hr, by rw [hrow, ← hentity]; rfl, rfl⟩
  · rintro (⟨hphase, hlt, r, hr, hrow, hq⟩ | ⟨hphase, r, ⟨hr, hnone⟩, hq⟩)
    · refine ⟨r, hr, ?_⟩
      rw [hrow, Option.map_some, Option.getD_some, shown_valued hlt]
      exact Prod.ext hphase.symm hq.symm
    · refine ⟨r, hr, ?_⟩
      rw [shown_rest ((no_value_iff h).mp hnone).symm]
      exact Prod.ext hphase.symm hq

/-- **Filtered ranges.** A page is the slice of the order at its start. -/
theorem filteredRangePage_eq (h : p.Correct) : filteredRangePage p sort d start limit =
    ((personalOrder p sort d).drop start).take limit := by
  have hperm := List.perm_insertionSort (fun a b => rangeKey sort d a ≤ rangeKey sort d b)
    (rangeRows p sort)
  have hentities : ((rangeRows p sort).map RangeRow.entity).Nodup := entities_rangeRows ▸ keys_rows
  have hsorted := List.pairwise_insertionSort
    (fun a b => rangeKey sort d a ≤ rangeKey sort d b) (rangeRows p sort)
  unfold filteredRangePage
  generalize (rangeRows p sort).insertionSort
    (fun a b => rangeKey sort d a ≤ rangeKey sort d b) = rows at hperm hsorted
  have hdistinct : rows.Pairwise fun a b => a.entity ≠ b.entity :=
    List.pairwise_map.mp ((hperm.map _).nodup_iff.mpr hentities)
  -- the rows are shown in order, and they are those of the order
  have hshown : (rows.map (RangeRow.shown sort)).Pairwise (ComesBefore d) := by
    refine List.pairwise_map.mpr (((hsorted.and hdistinct).imp_of_mem) fun ha hb hab => ?_)
    exact comesBefore_of_rangeKey hab.1 hab.2 (key_least h (hperm.mem_iff.mp ha))
      (key_least h (hperm.mem_iff.mp hb))
  have hnodup : (rows.map (RangeRow.shown sort)).Nodup := hshown.imp fun hab heq => by
    rw [heq] at hab
    exact hab.asymm hab
  have hsame : (rows.map (RangeRow.shown sort)).Perm (personalOrder p sort d) := by
    refine (List.perm_ext_iff_of_nodup hnodup (nodup_personalOrder h)).mpr fun c => ?_
    rw [(hperm.map _).mem_iff]
    exact mem_shown h
  have heq : rows.map (RangeRow.shown sort) = personalOrder p sort d :=
    hsame.eq_of_pairwise (fun a b _ _ hab hba => absurd hba hab.asymm) hshown
      (pairwise_personalOrder h)
  rw [List.map_take, List.map_drop, heq]

theorem nodup_shown : ((rangeRows p sort).map (RangeRow.shown sort)).Nodup := by
  have hentity : (fun c : Phase × Place => (ofLex c.2).2) ∘ RangeRow.shown sort =
      RangeRow.entity := by
    funext r
    unfold RangeRow.shown
    rw [Function.comp_apply]
    split_ifs <;> rfl
  apply List.Nodup.of_map fun c : Phase × Place => (ofLex c.2).2
  rw [List.map_map, hentity, entities_rangeRows]
  exact keys_rows

theorem perm_personalOrder (h : p.Correct) :
    (personalOrder p sort d).Perm ((rangeRows p sort).map (RangeRow.shown sort)) :=
  (List.perm_ext_iff_of_nodup (nodup_personalOrder h) nodup_shown).mpr fun _ => (mem_shown h).symm

theorem length_personalOrder (sort : PersonalSort) (d : Direction) (h : p.Correct) :
    (personalOrder p sort d).length = p.rows.length := by
  rw [(perm_personalOrder h).length_eq, List.length_map]
  exact List.length_map _

theorem follow_personal (h : p.Correct) (hlimit : 0 < limit) :
    follow (fun cursor => personalRows p sort d cursor limit) p.rows.length p.rows.length 0 none =
      personalOrder p sort d := by
  rw [← length_personalOrder sort d h]
  exact follow_eq hlimit personalRows_none fun _ _ _ => personalRows_after h

end Portico.Browse
