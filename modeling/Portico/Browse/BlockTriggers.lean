import Portico.Browse.Rows

/-!
# The triggers that keep the counted blocks

Each order has three triggers on the browse rows: a row that is inserted joins the blocks of its
library and kind, a deleted one leaves them, and an updated one that moved does both, when the row
already is what it became. A statement that a trigger fails leaves everything as it was.

## Main results

* `counted_triggerJoin`, `exact_triggerLeave`: what the bodies do to the blocks of a library and
  kind
-/

namespace Portico.Browse

open CountedBlocks Runs Direction

/-! ## Lookups -/

/-- The place that is 1024 rows after the start of a block. -/
def seekSplit (rows : List Place) (start : Place) : Option Place :=
  (bounded .asc true (ofLex start).1 (ofLex start).2 1 1024 rows).head?

/-- The place after one. -/
def seekNext (rows : List Place) (p : Place) : Option Place :=
  (bounded .asc false (ofLex p).1 (ofLex p).2 1 0 rows).head?

variable {rows : List Place} {p q start : Place}

theorem seekSplit_eq : seekSplit rows start =
    (asc.ordered (rows.filter fun q => start ≤ q))[1024]? := by
  unfold seekSplit
  rw [bounded_eq, List.head?_take, if_neg one_ne_zero, List.head?_drop]
  congr 2
  apply List.filter_congr
  intro q _
  refine decide_eq_decide.mpr ?_
  exact (or_congr Iff.rfl ((and_iff_right rfl).trans eq_comm)).trans le_iff_lt_or_eq.symm

theorem seekNext_eq : seekNext rows p = (asc.ordered (rows.filter fun q => p < q)).head? := by
  unfold seekNext
  rw [bounded_eq, List.head?_take, if_neg one_ne_zero, List.drop_zero]
  congr 2
  apply List.filter_congr
  intro q _
  refine decide_eq_decide.mpr ?_
  exact or_iff_left fun h => Bool.false_ne_true h.1

theorem seekSplit_spec (hrows : rows.Nodup)
    (hmany : 1024 < (rows.toFinset.filter fun r => start ≤ r).card) :
    ∃ q ∈ rows.toFinset, seekSplit rows start = some q ∧
      (rows.toFinset.filter fun r => start ≤ r ∧ r < q).card = 1024 := by
  have hnodup : (rows.filter fun r => start ≤ r).Nodup := hrows.filter _
  have hlength : (rows.toFinset.filter fun r => start ≤ r).card =
      (rows.filter fun r => start ≤ r).length := by
    rw [← List.toFinset_card_of_nodup hnodup, List.toFinset_filter]
    simp only [decide_eq_true_eq]
  have hget : 1024 < (asc.ordered (rows.filter fun r => start ≤ r)).length := by
    rw [length_ordered]
    omega
  have hplace := List.getElem?_eq_getElem hget
  have hmem := mem_ordered.mp (List.getElem_mem hget)
  generalize (asc.ordered (rows.filter fun r => start ≤ r))[1024] = q at hplace hmem
  refine ⟨q, List.mem_toFinset.mpr (List.mem_of_mem_filter hmem), seekSplit_eq.trans hplace, ?_⟩
  · have hcount := countP_of_getElem? hnodup hplace
    rw [List.countP_eq_length_filter, List.filter_filter] at hcount
    rw [← hcount, ← List.toFinset_card_of_nodup (hrows.filter _), List.toFinset_filter]
    congr 1
    apply Finset.filter_congr
    intro r _
    simp only [Bool.and_eq_true, decide_eq_true_eq]
    exact and_comm

theorem seekNext_mem (h : seekNext rows p = some q) : q ∈ rows ∧ p < q := by
  rw [seekNext_eq] at h
  have hmem := mem_ordered.mp (List.mem_of_head? h)
  exact ⟨List.mem_of_mem_filter hmem, of_decide_eq_true (List.mem_filter.mp hmem).2⟩

theorem seekNext_least (hq : q ∈ rows) (hlt : p < q) : ∃ n, seekNext rows p = some n ∧ n ≤ q := by
  rw [seekNext_eq]
  have hmem : q ∈ asc.ordered (rows.filter fun q => p < q) :=
    mem_ordered.mpr (List.mem_filter.mpr ⟨hq, decide_eq_true hlt⟩)
  have hpairwise := pairwise_ordered (d := asc) (l := rows.filter fun q => p < q)
  cases hordered : asc.ordered (rows.filter fun q => p < q) with
  | nil =>
    rw [hordered] at hmem
    cases hmem
  | cons n l =>
    rw [hordered] at hmem hpairwise
    refine ⟨n, rfl, ?_⟩
    rcases List.mem_cons.mp hmem with rfl | hmem
    · exact le_rfl
    · exact not_lt.mp ((List.pairwise_cons.mp hpairwise).1 q hmem)

/-! ## Bodies -/

/-- A row that joins is counted, and a block with more than 2048 rows is split. -/
def join (rows : List Place) (p : Place) (bs : List (Block Place)) : Option (List (Block Place)) :=
  split 1024 (seekSplit rows) (count bs p)

/-- A row that leaves is counted no more, and the block that it started starts at the next row. -/
def leave (rows : List Place) (p : Place) (bs : List (Block Place)) : List (Block Place) :=
  restart (uncount bs p) p (seekNext rows p)

variable {bs : List (Block Place)} {before : Finset Place}

theorem counted_join_places (h : Exact before bs) (hrows : rows.Nodup)
    (hsmall : ∀ b ∈ bs, b.total ≤ 2048) (hstarts : ∀ b ∈ bs, b.start ∈ rows)
    (hp : p ∉ before) (hinsert : rows.toFinset = insert p before) :
    ∃ bs', join rows p bs = some bs' ∧ Counted 2048 rows.toFinset bs' := by
  rw [hinsert]
  refine counted_join h (hsmall : ∀ b ∈ bs, b.total ≤ 2 * 1024) ?_ hp (by decide) ?_
  · intro b hb
    rw [← hinsert]
    exact List.mem_toFinset.mpr (hstarts b hb)
  · intro s hmany
    rw [← hinsert] at hmany ⊢
    exact seekSplit_spec hrows hmany

theorem exact_leave_places (h : Counted 2048 before bs) (hp : p ∈ before)
    (hafter : before.erase p ⊆ rows.toFinset) : Exact (before.erase p) (leave rows p bs) ∧
      ∀ b ∈ leave rows p bs, b.start ∈ rows ∧ b.total ≤ 2048 := by
  have hmem : ∀ n, seekNext rows p = some n → n ∈ rows.toFinset ∧ p < n := fun n hn =>
    (seekNext_mem hn).imp List.mem_toFinset.mpr id
  obtain ⟨hexact, hleft⟩ := exact_leave h hp hafter hmem
    fun q hq hlt => seekNext_least (List.mem_toFinset.mp hq) hlt
  exact ⟨hexact, fun b hb => (hleft b hb).imp List.mem_toFinset.mp id⟩

/-! ## Tables -/

/-- A block of an order, for a library and kind. -/
structure BlockRow where
  ordering : Ordering
  library : ℤ
  kind : ℤ
  block : Block Place
deriving DecidableEq

/-- The blocks of an order for a library and kind. -/
def slice (o : Ordering) (library kind : ℤ) (t : List BlockRow) : List (Block Place) :=
  (t.filter fun b => b.ordering = o ∧ b.library = library ∧ b.kind = kind).map BlockRow.block

/-- What statements about the blocks of an order, library and kind make of all blocks. -/
def within (o : Ordering) (library kind : ℤ)
    (f : List (Block Place) → Option (List (Block Place))) (t : List BlockRow) :
    Option (List BlockRow) :=
  (f (slice o library kind t)).map fun bs =>
    (t.filter fun b => ¬ (b.ordering = o ∧ b.library = library ∧ b.kind = kind)) ++
      bs.map fun b => ⟨o, library, kind, b⟩

variable {o o' : Ordering} {library library' kind kind' : ℤ} {t t' : List BlockRow}
  {f : List (Block Place) → Option (List (Block Place))}

theorem slice_append : slice o library kind (t ++ t') =
    slice o library kind t ++ slice o library kind t' := by
  unfold slice
  rw [List.filter_append, List.map_append]

theorem slice_map_same : slice o library kind (bs.map fun b => ⟨o, library, kind, b⟩) = bs := by
  unfold slice
  rw [List.filter_eq_self.mpr (by simp), List.map_map]
  exact List.map_id _

theorem slice_map_other (h : ¬ (o' = o ∧ library' = library ∧ kind' = kind)) :
    slice o library kind (bs.map fun b => ⟨o', library', kind', b⟩) = [] := by
  unfold slice
  rw [List.filter_eq_nil_iff.mpr, List.map_nil]
  intro x hx
  obtain ⟨b, -, rfl⟩ := List.mem_map.mp hx
  simpa using h

theorem slice_filter_same : slice o library kind
    (t.filter fun b => ¬ (b.ordering = o ∧ b.library = library ∧ b.kind = kind)) = [] := by
  unfold slice
  rw [List.filter_filter, List.filter_eq_nil_iff.mpr, List.map_nil]
  intro x _
  simp

theorem slice_filter_other (h : ¬ (o' = o ∧ library' = library ∧ kind' = kind)) :
    slice o library kind
      (t.filter fun b => ¬ (b.ordering = o' ∧ b.library = library' ∧ b.kind = kind')) =
    slice o library kind t := by
  unfold slice
  rw [List.filter_filter]
  congr 1
  apply List.filter_congr
  intro x _
  rw [Bool.eq_iff_iff]
  simp only [Bool.and_eq_true, decide_eq_true_eq]
  refine ⟨And.left, fun hx => ⟨hx, fun hx' => h ?_⟩⟩
  exact ⟨hx'.1.symm.trans hx.1, hx'.2.1.symm.trans hx.2.1, hx'.2.2.symm.trans hx.2.2⟩

theorem slice_within (h : within o library kind f t = some t') :
    f (slice o library kind t) = some (slice o library kind t') := by
  obtain ⟨bs, hbs, rfl⟩ := Option.map_eq_some_iff.mp h
  rw [slice_append, slice_filter_same, List.nil_append, slice_map_same]
  exact hbs

theorem slice_within_other (h : within o' library' kind' f t = some t')
    (hne : ¬ (o' = o ∧ library' = library ∧ kind' = kind)) :
    slice o library kind t' = slice o library kind t := by
  obtain ⟨bs, hbs, rfl⟩ := Option.map_eq_some_iff.mp h
  rw [slice_append, slice_filter_other hne, slice_map_other hne, List.append_nil]

theorem within_isSome (h : f (slice o library kind t) = some bs) :
    ∃ t', within o library kind f t = some t' ∧ slice o library kind t' = bs := by
  have hsome : ∃ t', within o library kind f t = some t' := by
    unfold within
    rw [h]
    exact ⟨_, rfl⟩
  obtain ⟨t', ht'⟩ := hsome
  refine ⟨t', ht', ?_⟩
  have hslice := slice_within ht'
  rw [h] at hslice
  exact (Option.some.inj hslice).symm

/-! ## Triggers -/

section

variable (rows : List Row) (old new : Row) (o : Ordering)

/-- The blocks of the row's library and kind count it. -/
def triggerJoin (t : List BlockRow) : Option (List BlockRow) :=
  within o new.library new.kind (join (places o new.library new.kind rows) (o.place new)) t

/-- The blocks of the row's library and kind count it no more. -/
def triggerLeave (t : List BlockRow) : Option (List BlockRow) :=
  within o old.library old.kind
    (fun bs => some (leave (places o old.library old.kind rows) (o.place old) bs)) t

def afterInsert (t : List BlockRow) : Option (List BlockRow) :=
  if o.keeps new.kind then triggerJoin rows new o t else some t

def afterDelete (t : List BlockRow) : Option (List BlockRow) :=
  if o.keeps old.kind then triggerLeave rows old o t else some t

/-- An update is a move only between kinds that the order is kept for. -/
def afterUpdate (t : List BlockRow) : Option (List BlockRow) :=
  if o.keeps old.kind ∧ o.keeps new.kind ∧ (old.library ≠ new.library ∨ old.kind ≠ new.kind ∨
      o.column old ≠ o.column new) then
    (triggerLeave rows old o t).bind (triggerJoin rows new o)
  else some t

end

/-! ## Statements -/

/-- The rows, by their entities, and their blocks. -/
structure State where
  rows : List Row := []
  blocks : List BlockRow := []
  keys : (rows.map Row.entity).Nodup := by simp

/-- A statement about one row; one about several rows is several of them. -/
inductive Event
  | insert (r : Row)
  | delete (entity : ℤ)
  | update (r : Row)

/-- The triggers of all orders. -/
def fire (trigger : Ordering → List BlockRow → Option (List BlockRow)) (t : List BlockRow) :
    Option (List BlockRow) :=
  Ordering.all.foldlM (fun t o => trigger o t) t

def statement (s : State) : Event → Option State
  | .insert r =>
    if h : ∃ x ∈ s.rows, x.entity = r.entity then none
    else (fire (afterInsert (s.rows ++ [r]) r) s.blocks).map fun blocks =>
      ⟨s.rows ++ [r], blocks, nodup_append_row s.keys fun x hx heq => h ⟨x, hx, heq⟩⟩
  | .delete entity =>
    match rowOf Row.entity entity s.rows with
    | none => some s
    | some old =>
      (fire (afterDelete (s.rows.filter fun x => x.entity ≠ entity) old) s.blocks).map fun blocks =>
        ⟨s.rows.filter fun x => x.entity ≠ entity, blocks,
          s.keys.sublist (List.filter_sublist.map _)⟩
  | .update r =>
    match rowOf Row.entity r.entity s.rows with
    | none => some s
    | some old =>
      let rows := s.rows.map fun x => if x.entity = r.entity then r else x
      (fire (afterUpdate rows old r) s.blocks).map fun blocks =>
        ⟨rows, blocks, by
          have hmap : rows.map Row.entity = s.rows.map Row.entity := by
            rw [List.map_map]
            apply List.map_congr_left
            intro x _
            rw [Function.comp_apply]
            split_ifs with hx
            · exact hx.symm
            · rfl
          rw [hmap]
          exact s.keys⟩

/-- A statement that fails leaves everything as it was. -/
def step (s : State) (e : Event) : Option State := some ((statement s e).getD s)

/-- The blocks of an order are right for the rows: of each library and kind, each block starts at a
row and counts the rows up to the next start, each row lies in a block, and no block has more than
2048. -/
def Tallied (rows : List Row) (t : List BlockRow) (o : Ordering) : Prop :=
  ∀ library kind, Counted 2048 (placeSet o library kind rows) (slice o library kind t)

/-! ## Sets of places -/

variable {rs rs' : List Row} {old new r : Row}

theorem placeSet_insert (hkeeps : o.keeps new.kind = true) :
    placeSet o new.library new.kind (rs ++ [new]) =
      insert (o.place new) (placeSet o new.library new.kind rs) := by
  ext p
  rw [Finset.mem_insert, mem_placeSet, mem_placeSet]
  constructor
  · rintro ⟨-, r, hr, hlibrary, hkind, rfl⟩
    rcases List.mem_append.mp hr with hr | hr
    · exact Or.inr ⟨hkeeps, r, hr, hlibrary, hkind, rfl⟩
    · exact Or.inl (by rw [List.mem_singleton.mp hr])
  · rintro (rfl | ⟨-, r, hr, h⟩)
    · exact ⟨hkeeps, new, by simp, rfl, rfl, rfl⟩
    · exact ⟨hkeeps, r, List.mem_append_left _ hr, h⟩

theorem placeSet_insert_other (h : ¬ (o.keeps new.kind = true ∧ new.library = library ∧
    new.kind = kind)) : placeSet o library kind (rs ++ [new]) = placeSet o library kind rs := by
  ext p
  rw [mem_placeSet, mem_placeSet]
  refine and_congr_right fun hkeeps => ⟨?_, ?_⟩
  · rintro ⟨r, hr, hlibrary, hkind, rfl⟩
    rcases List.mem_append.mp hr with hr | hr
    · exact ⟨r, hr, hlibrary, hkind, rfl⟩
    · obtain rfl := List.mem_singleton.mp hr
      exact absurd ⟨hkind ▸ hkeeps, hlibrary, hkind⟩ h
  · rintro ⟨r, hr, h⟩
    exact ⟨r, List.mem_append_left _ hr, h⟩

theorem placeSet_erase (hkeys : (rs.map Row.entity).Nodup) (hold : old ∈ rs) :
    placeSet o library kind (rs.filter fun x => x.entity ≠ old.entity) =
      (placeSet o library kind rs).erase (o.place old) := by
  ext p
  rw [Finset.mem_erase, mem_placeSet, mem_placeSet]
  constructor
  · rintro ⟨hkeeps, r, hr, hlibrary, hkind, rfl⟩
    obtain ⟨hr, hne⟩ := List.mem_filter.mp hr
    refine ⟨fun heq => of_decide_eq_true hne ?_, hkeeps, r, hr, hlibrary, hkind, rfl⟩
    exact congrArg (fun p : Place => (ofLex p).2) heq
  · rintro ⟨hne, hkeeps, r, hr, hlibrary, hkind, rfl⟩
    refine ⟨hkeeps, r, List.mem_filter.mpr ⟨hr, ?_⟩, hlibrary, hkind, rfl⟩
    apply decide_eq_true
    exact fun heq => hne (by rw [eq_of_key hkeys hr hold heq])

theorem place_mem (hold : old ∈ rs) (hkeeps : o.keeps old.kind = true) :
    o.place old ∈ placeSet o old.library old.kind rs :=
  mem_placeSet.mpr ⟨hkeeps, old, hold, rfl, rfl, rfl⟩

theorem place_not_mem (h : ∀ x ∈ rs, x.entity ≠ new.entity) :
    o.place new ∉ placeSet o library kind rs := by
  rw [mem_placeSet]
  rintro ⟨-, r, hr, -, -, heq⟩
  exact h r hr (congrArg (fun p : Place => (ofLex p).2) heq)

theorem placeSet_of_keeps (hkeeps : o.keeps kind = true) :
    placeSet o library kind rs = (places o library kind rs).toFinset := if_pos hkeeps

/-! ## What the triggers do -/

/-- A row that joins is counted. Before that the blocks are right for the rows without it, apart
from a start that already may be its place. -/
theorem counted_triggerJoin (hkeys : (rs'.map Row.entity).Nodup) (hkeeps : o.keeps new.kind = true)
    (hnew : ∀ x ∈ rs, x.entity ≠ new.entity)
    (hplaces : placeSet o new.library new.kind rs' =
      insert (o.place new) (placeSet o new.library new.kind rs))
    (hexact : Exact (placeSet o new.library new.kind rs) (slice o new.library new.kind t))
    (hstarts : ∀ b ∈ slice o new.library new.kind t,
      b.start ∈ placeSet o new.library new.kind rs' ∧ b.total ≤ 2048) :
    ∃ t', triggerJoin rs' new o t = some t' ∧
      Counted 2048 (placeSet o new.library new.kind rs') (slice o new.library new.kind t') := by
  have hset : placeSet o new.library new.kind rs' = _ := placeSet_of_keeps hkeeps
  have hstarts' : ∀ b ∈ slice o new.library new.kind t,
      b.start ∈ places o new.library new.kind rs' := by
    intro b hb
    have hmem := (hstarts b hb).1
    rw [hset] at hmem
    exact List.mem_toFinset.mp hmem
  obtain ⟨bs, hbs, hcounted⟩ := counted_join_places hexact (nodup_places hkeys)
    (fun b hb => (hstarts b hb).2) hstarts' (place_not_mem hnew) (hset.symm.trans hplaces)
  obtain ⟨t', ht', hslice⟩ := within_isSome hbs
  refine ⟨t', ht', ?_⟩
  rw [hslice, hset]
  exact hcounted

/-- A row that leaves is counted no more. A start may be the place of a row that is there by now. -/
theorem exact_triggerLeave (hkeeps : o.keeps old.kind = true) (hold : old ∈ rs)
    (h : Counted 2048 (placeSet o old.library old.kind rs) (slice o old.library old.kind t))
    (hafter : (placeSet o old.library old.kind rs).erase (o.place old) ⊆
      placeSet o old.library old.kind rs') :
    ∃ t', triggerLeave rs' old o t = some t' ∧
      Exact ((placeSet o old.library old.kind rs).erase (o.place old))
        (slice o old.library old.kind t') ∧
      ∀ b ∈ slice o old.library old.kind t',
        b.start ∈ placeSet o old.library old.kind rs' ∧ b.total ≤ 2048 := by
  have hset : placeSet o old.library old.kind rs' = _ := placeSet_of_keeps hkeeps
  rw [hset] at hafter ⊢
  obtain ⟨hexact, hstarts⟩ := exact_leave_places h (place_mem hold hkeeps) hafter
  obtain ⟨t', ht', hslice⟩ : ∃ t', triggerLeave rs' old o t = some t' ∧
      slice o old.library old.kind t' = leave (places o old.library old.kind rs') (o.place old)
        (slice o old.library old.kind t) := within_isSome rfl
  refine ⟨t', ht', ?_⟩
  rw [hslice]
  exact ⟨hexact, fun b hb => (hstarts b hb).imp List.mem_toFinset.mpr id⟩

end Portico.Browse
