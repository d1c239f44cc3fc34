import Portico.Lib.Machine
import Portico.Browse.BlockTriggers

/-!
# The counted blocks stay right

Each statement leaves the blocks of each order right when no row changes its kind between one that
the order is kept for and one that it isn't; no trigger fires for such a change, and the blocks are
wrong from then on.

## Main results

* `tallied_afterInsert`, `tallied_afterDelete`, `tallied_afterUpdate`: what the triggers of an
  order do
* `step_left`: what a statement does to all orders
* `not_tallied_of_crosses`: a row that changes its kind across those of an order leaves wrong blocks
-/

namespace Portico.Browse

open CountedBlocks Machine

variable {rs rs' : List Row} {t t' : List BlockRow} {o o' : Ordering} {library kind : ℤ}
  {old new : Row} {s s' : State} {e : Event}

/-- The blocks of another order, library or kind stay what they are. -/
def Apart (o : Ordering) (t t' : List BlockRow) : Prop :=
  ∀ o' library kind, o' ≠ o → slice o' library kind t' = slice o' library kind t

theorem Apart.refl : Apart o t t := fun _ _ _ _ => rfl

theorem apart_within {f : List (Block Place) → Option (List (Block Place))}
    (h : within o library kind f t = some t') : Apart o t t' := fun _ _ _ hne =>
  slice_within_other h fun heq => hne heq.1.symm

theorem Apart.trans {t'' : List BlockRow} (h : Apart o t t') (h' : Apart o t' t'') :
    Apart o t t'' := fun o' library kind hne =>
  (h' o' library kind hne).trans (h o' library kind hne)

/-! ## Triggers of an order -/

theorem tallied_afterInsert (hkeys : ((rs ++ [new]).map Row.entity).Nodup)
    (hnew : ∀ x ∈ rs, x.entity ≠ new.entity) (h : Tallied rs t o) :
    ∃ t', afterInsert (rs ++ [new]) new o t = some t' ∧ Tallied (rs ++ [new]) t' o ∧
      Apart o t t' := by
  unfold afterInsert
  split_ifs with hkeeps
  · have hplaces : placeSet o new.library new.kind (rs ++ [new]) =
        insert (o.place new) (placeSet o new.library new.kind rs) := placeSet_insert hkeeps
    obtain ⟨t', ht', hcounted⟩ := counted_triggerJoin (t := t) hkeys hkeeps hnew hplaces
      (h new.library new.kind).toExact fun b hb => by
        rw [hplaces]
        exact ⟨Finset.mem_insert_of_mem ((h _ _).starts b hb), (h _ _).small b hb⟩
    refine ⟨t', ht', fun library kind => ?_, apart_within ht'⟩
    by_cases hscope : new.library = library ∧ new.kind = kind
    · obtain ⟨rfl, rfl⟩ := hscope
      exact hcounted
    · rw [placeSet_insert_other fun h => hscope h.2,
        slice_within_other ht' fun h => hscope h.2]
      exact h library kind
  · refine ⟨t, rfl, fun library kind => ?_, Apart.refl⟩
    rw [placeSet_insert_other fun h => hkeeps h.1]
    exact h library kind

theorem erase_other (h : ¬ (o.keeps old.kind = true ∧ old.library = library ∧ old.kind = kind))
    (hold : old ∈ rs) (hkeys : (rs.map Row.entity).Nodup) :
    (placeSet o library kind rs).erase (o.place old) = placeSet o library kind rs := by
  apply Finset.erase_eq_of_notMem
  rw [mem_placeSet]
  rintro ⟨hkeeps, r, hr, hlibrary, hkind, heq⟩
  -- the place is that of the row alone
  obtain rfl := eq_of_key hkeys hr hold (congrArg (fun p : Place => (ofLex p).2) heq)
  exact h ⟨hkind ▸ hkeeps, hlibrary, hkind⟩

theorem tallied_afterDelete (hkeys : (rs.map Row.entity).Nodup) (hold : old ∈ rs)
    (h : Tallied rs t o) :
    ∃ t', afterDelete (rs.filter fun x => x.entity ≠ old.entity) old o t = some t' ∧
      Tallied (rs.filter fun x => x.entity ≠ old.entity) t' o ∧ Apart o t t' := by
  have herase : ∀ library kind, placeSet o library kind (rs.filter fun x => x.entity ≠ old.entity) =
      (placeSet o library kind rs).erase (o.place old) := fun _ _ => placeSet_erase hkeys hold
  unfold afterDelete
  split_ifs with hkeeps
  · obtain ⟨t', ht', hexact, hstarts⟩ := exact_triggerLeave hkeeps hold (h old.library old.kind)
      (herase old.library old.kind).ge
    refine ⟨t', ht', fun library kind => ?_, apart_within ht'⟩
    by_cases hscope : old.library = library ∧ old.kind = kind
    · obtain ⟨rfl, rfl⟩ := hscope
      exact ⟨herase old.library old.kind ▸ hexact, fun b hb => (hstarts b hb).1,
        fun b hb => (hstarts b hb).2⟩
    · rw [herase, erase_other (fun h => hscope h.2) hold hkeys,
        slice_within_other ht' fun h => hscope h.2]
      exact h library kind
  · refine ⟨t, rfl, fun library kind => ?_, Apart.refl⟩
    rw [herase, erase_other (fun h => hkeeps h.1) hold hkeys]
    exact h library kind

/-! ### Updates -/

/-- The rows after an update are those without the row, and what it became. -/
def replaced (rs : List Row) (new : Row) : List Row :=
  rs.map fun x => if x.entity = new.entity then new else x

theorem keys_replaced : (replaced rs new).map Row.entity = rs.map Row.entity := by
  unfold replaced
  rw [List.map_map]
  apply List.map_congr_left
  intro x _
  rw [Function.comp_apply]
  split_ifs with hx
  · exact hx.symm
  · rfl

theorem mem_replaced (hold : old ∈ rs) (hentity : old.entity = new.entity) {x : Row} :
    x ∈ replaced rs new ↔ x ∈ (rs.filter fun y => y.entity ≠ old.entity) ++ [new] := by
  unfold replaced
  simp only [List.mem_map, List.mem_append, List.mem_filter, List.mem_singleton, ne_eq,
    decide_not, Bool.not_eq_true', decide_eq_false_iff_not]
  constructor
  · rintro ⟨y, hy, rfl⟩
    split_ifs with hentity'
    · exact Or.inr rfl
    · exact Or.inl ⟨hy, fun h => hentity' (h.trans hentity)⟩
  · rintro (⟨hx, hne⟩ | rfl)
    · exact ⟨x, hx, if_neg fun h => hne (h.trans hentity.symm)⟩
    · exact ⟨old, hold, if_pos hentity⟩

theorem placeSet_congr (h : ∀ x, x ∈ rs ↔ x ∈ rs') :
    placeSet o library kind rs = placeSet o library kind rs' := by
  ext p
  rw [mem_placeSet, mem_placeSet]
  simp only [h]

theorem placeSet_replaced (hold : old ∈ rs) (hentity : old.entity = new.entity) :
    placeSet o library kind (replaced rs new) =
      placeSet o library kind ((rs.filter fun y => y.entity ≠ old.entity) ++ [new]) :=
  placeSet_congr fun _ => mem_replaced hold hentity

/-- An order is kept for one of the kinds that a row changes between. -/
def Crossing (o : Ordering) (old new : Row) : Prop := o.keeps old.kind ≠ o.keeps new.kind

theorem placeSet_rest_subset : placeSet o library kind rs ⊆ placeSet o library kind (rs ++ [new]) := by
  intro p hp
  obtain ⟨hkeeps, r, hr, h⟩ := mem_placeSet.mp hp
  exact mem_placeSet.mpr ⟨hkeeps, r, List.mem_append_left _ hr, h⟩

/-- A row that leaves and joins again, when the rows already are what they became. -/
theorem tallied_move (hkeys : (rs.map Row.entity).Nodup) (hold : old ∈ rs)
    (hentity : old.entity = new.entity) (hkeepsOld : o.keeps old.kind = true)
    (hkeepsNew : o.keeps new.kind = true) (h : Tallied rs t o) :
    ∃ t', (triggerLeave (replaced rs new) old o t).bind (triggerJoin (replaced rs new) new o) =
        some t' ∧ Tallied (replaced rs new) t' o ∧ Apart o t t' := by
  have hnew : ∀ x ∈ rs.filter fun y => y.entity ≠ old.entity, x.entity ≠ new.entity := by
    intro x hx
    rw [← hentity]
    exact of_decide_eq_true (List.mem_filter.mp hx).2
  have hrest : ∀ library kind, placeSet o library kind (rs.filter fun y => y.entity ≠ old.entity) =
      (placeSet o library kind rs).erase (o.place old) := fun _ _ => placeSet_erase hkeys hold
  have hsub : ∀ library kind, placeSet o library kind (rs.filter fun y => y.entity ≠ old.entity) ⊆
      placeSet o library kind (replaced rs new) := by
    intro library kind
    rw [placeSet_replaced hold hentity]
    exact placeSet_rest_subset
  obtain ⟨t₁, ht₁, hexact, hstarts⟩ : ∃ t₁, triggerLeave (replaced rs new) old o t = some t₁ ∧ _ :=
    exact_triggerLeave hkeepsOld hold (h old.library old.kind)
      (hrest old.library old.kind ▸ hsub old.library old.kind)
  -- the blocks of the row's new place are right for the other rows
  have hnewScope : Exact (placeSet o new.library new.kind
        (rs.filter fun y => y.entity ≠ old.entity)) (slice o new.library new.kind t₁) ∧
      ∀ b ∈ slice o new.library new.kind t₁,
        b.start ∈ placeSet o new.library new.kind (replaced rs new) ∧ b.total ≤ 2048 := by
    by_cases hscope : old.library = new.library ∧ old.kind = new.kind
    · rw [← hscope.1, ← hscope.2, hrest]
      exact ⟨hexact, hstarts⟩
    · have hcounted := h new.library new.kind
      have hsame := erase_other (o := o) (fun h => hscope h.2) hold hkeys
      rw [slice_within_other ht₁ fun h => hscope h.2]
      refine ⟨?_, fun b hb => ⟨hsub _ _ ?_, hcounted.small b hb⟩⟩
      · rw [hrest, hsame]
        exact hcounted.toExact
      · rw [hrest, hsame]
        exact hcounted.starts b hb
  obtain ⟨t₂, ht₂, hcounted⟩ := counted_triggerJoin (keys_replaced.symm ▸ hkeys) hkeepsNew hnew
    ((placeSet_replaced hold hentity).trans (placeSet_insert hkeepsNew)) hnewScope.1 hnewScope.2
  refine ⟨t₂, by rw [ht₁, Option.bind_some, ht₂], fun library kind => ?_,
    (apart_within ht₁).trans (apart_within ht₂)⟩
  by_cases hscope : new.library = library ∧ new.kind = kind
  · obtain ⟨rfl, rfl⟩ := hscope
    exact hcounted
  · rw [slice_within_other ht₂ fun h => hscope h.2]
    have hset : placeSet o library kind (replaced rs new) =
        (placeSet o library kind rs).erase (o.place old) := by
      rw [placeSet_replaced hold hentity, placeSet_insert_other fun h => hscope h.2, hrest]
    by_cases hscope' : old.library = library ∧ old.kind = kind
    · obtain ⟨rfl, rfl⟩ := hscope'
      exact ⟨hset ▸ hexact, fun b hb => (hstarts b hb).1, fun b hb => (hstarts b hb).2⟩
    · rw [hset, erase_other (fun h => hscope' h.2) hold hkeys,
        slice_within_other ht₁ fun h => hscope' h.2]
      exact h library kind

/-- A row that the order isn't kept for, or whose place stays, changes no places. -/
theorem placeSet_replaced_same (hkeys : (rs.map Row.entity).Nodup) (hold : old ∈ rs)
    (hentity : old.entity = new.entity) (hcrossing : ¬ Crossing o old new)
    (hsame : o.keeps old.kind = true →
      old.library = new.library ∧ old.kind = new.kind ∧ o.column old = o.column new) :
    placeSet o library kind (replaced rs new) = placeSet o library kind rs := by
  have hkeeps : o.keeps old.kind = o.keeps new.kind := not_not.mp hcrossing
  rw [placeSet_replaced hold hentity]
  by_cases hscope : o.keeps new.kind = true ∧ new.library = library ∧ new.kind = kind
  · obtain ⟨hkept, rfl, rfl⟩ := hscope
    obtain ⟨hlibrary, hkind, hcolumn⟩ := hsame (hkeeps.trans hkept)
    have hplace : o.place new = o.place old := by
      unfold Ordering.place
      rw [Ordering.key_congr hcolumn, hentity]
    rw [placeSet_insert hkept, placeSet_erase hkeys hold, hplace, ← hlibrary, ← hkind]
    exact Finset.insert_erase (place_mem hold (hkeeps.trans hkept))
  · rw [placeSet_insert_other hscope, placeSet_erase hkeys hold]
    apply erase_other ?_ hold hkeys
    rintro ⟨hkept, rfl, rfl⟩
    obtain ⟨hlibrary, hkind, -⟩ := hsame hkept
    exact hscope ⟨hkeeps ▸ hkept, hlibrary.symm, hkind.symm⟩

theorem tallied_afterUpdate (hkeys : (rs.map Row.entity).Nodup) (hold : old ∈ rs)
    (hentity : old.entity = new.entity) (h : Tallied rs t o) :
    ∃ t', afterUpdate (replaced rs new) old new o t = some t' ∧ Apart o t t' ∧
      (¬ Crossing o old new → Tallied (replaced rs new) t' o) ∧ (Crossing o old new → t' = t) := by
  unfold afterUpdate
  split_ifs with hmoved
  · obtain ⟨hkeepsOld, hkeepsNew, -⟩ := hmoved
    obtain ⟨t', ht', htallied, hapart⟩ := tallied_move hkeys hold hentity hkeepsOld hkeepsNew h
    refine ⟨t', ht', hapart, fun _ => htallied, fun hcrossing => ?_⟩
    exact absurd (hkeepsOld.trans hkeepsNew.symm) hcrossing
  · refine ⟨t, rfl, Apart.refl, fun hcrossing library kind => ?_, fun _ => rfl⟩
    rw [placeSet_replaced_same hkeys hold hentity hcrossing]
    · exact h library kind
    · intro hkept
      by_contra hnot
      refine hmoved ⟨hkept, not_not.mp hcrossing ▸ hkept, ?_⟩
      tauto

/-! ## All orders -/

/-- What each trigger does to the blocks of its own order, all of them do. -/
theorem fire_spec (trigger : Ordering → List BlockRow → Option (List BlockRow))
    {P Q : Ordering → List BlockRow → Prop} (os : List Ordering) (hos : os.Nodup)
    (hP : ∀ o t t', (∀ library kind, slice o library kind t' = slice o library kind t) →
      P o t → P o t')
    (hQ : ∀ o t t', (∀ library kind, slice o library kind t' = slice o library kind t) →
      Q o t → Q o t')
    (hstep : ∀ o t, P o t → ∃ t', trigger o t = some t' ∧ Apart o t t' ∧ Q o t')
    (t : List BlockRow) (h : ∀ o ∈ os, P o t) :
    ∃ t', os.foldlM (fun t o => trigger o t) t = some t' ∧ (∀ o ∈ os, Q o t') ∧
      ∀ o ∉ os, ∀ library kind, slice o library kind t' = slice o library kind t := by
  induction os generalizing t with
  | nil => exact ⟨t, rfl, by simp, fun _ _ _ _ => rfl⟩
  | cons o os ih =>
    rw [List.nodup_cons] at hos
    obtain ⟨t₁, ht₁, hapart, hQ₁⟩ := hstep o t (h o List.mem_cons_self)
    have hother : ∀ o' ∈ os, o' ≠ o := fun o' ho' heq => hos.1 (heq ▸ ho')
    obtain ⟨t', ht', hQ', hrest⟩ := ih hos.2 t₁ fun o' ho' =>
      hP o' t t₁ (fun library kind => hapart o' library kind (hother o' ho'))
        (h o' (List.mem_cons_of_mem _ ho'))
    refine ⟨t', ?_, ?_, ?_⟩
    · rw [List.foldlM_cons, ht₁]
      exact ht'
    · intro o' ho'
      rcases List.mem_cons.mp ho' with rfl | ho'
      · exact hQ o' t₁ t' (hrest o' hos.1) hQ₁
      · exact hQ' o' ho'
    · intro o' ho' library kind
      rw [List.mem_cons, not_or] at ho'
      exact (hrest o' ho'.2 library kind).trans (hapart o' library kind ho'.1)

theorem Tallied.congr (hslice : ∀ library kind, slice o library kind t' = slice o library kind t)
    (h : Tallied rs t o) : Tallied rs t' o := fun library kind => by
  rw [hslice]
  exact h library kind

/-- An update that changes a row's kind between one that the order is kept for, and one that it
isn't. -/
def Crosses (s : State) (e : Event) (o : Ordering) : Prop :=
  match e with
  | .update r => ∃ old ∈ s.rows, old.entity = r.entity ∧ Crossing o old r
  | _ => False

/-- What a statement leaves: the blocks of an order are right, or no trigger did anything to them.
-/
def Left (s : State) (e : Event) (s' : State) (o : Ordering) : Prop :=
  (¬ Crosses s e o → Tallied s'.rows s'.blocks o) ∧
    (Crosses s e o → ∀ library kind, slice o library kind s'.blocks = slice o library kind s.blocks)

theorem fire_all (trigger : Ordering → List BlockRow → Option (List BlockRow))
    {Q : Ordering → List BlockRow → Prop}
    (hQ : ∀ o t t', (∀ library kind, slice o library kind t' = slice o library kind t) →
      Q o t → Q o t')
    (hstep : ∀ o t₁, (∀ library kind, slice o library kind t₁ = slice o library kind t) →
      ∃ t', trigger o t₁ = some t' ∧ Apart o t₁ t' ∧ Q o t') :
    ∃ t', fire trigger t = some t' ∧ ∀ o, Q o t' := by
  obtain ⟨t', ht', hafter, -⟩ := fire_spec trigger (Q := Q)
    (P := fun o t₁ => ∀ library kind, slice o library kind t₁ = slice o library kind t)
    Ordering.all (by decide)
    (fun o t₁ t₂ hsame hP library kind => (hsame library kind).trans (hP library kind)) hQ
    hstep t fun _ _ _ _ => rfl
  exact ⟨t', ht', fun o => hafter o (Ordering.mem_all o)⟩

theorem left_self (h : ∀ o, Tallied s.rows s.blocks o) (o : Ordering) : Left s e s o :=
  ⟨fun _ => h o, fun _ _ _ => rfl⟩

theorem insert_left {r : Row} (h : ∀ o, Tallied s.rows s.blocks o) :
    ∃ s', step s (.insert r) = some s' ∧ ∀ o, Left s (.insert r) s' o := by
  unfold step statement
  dsimp only
  split_ifs with hold
  · exact ⟨s, rfl, left_self h⟩
  · have hnew : ∀ x ∈ s.rows, x.entity ≠ r.entity := fun x hx heq => hold ⟨x, hx, heq⟩
    obtain ⟨t', ht', hafter⟩ := fire_all (afterInsert (s.rows ++ [r]) r)
      (Q := fun o t => Tallied (s.rows ++ [r]) t o) (t := s.blocks) (fun _ _ _ => Tallied.congr)
      fun o t₁ hsame => by
        obtain ⟨t', ht', htallied, hapart⟩ :=
          tallied_afterInsert (nodup_append_row s.keys hnew) hnew ((h o).congr hsame)
        exact ⟨t', ht', hapart, htallied⟩
    rw [ht']
    exact ⟨_, rfl, fun o => ⟨fun _ => hafter o, fun hcrosses => hcrosses.elim⟩⟩

theorem delete_left {entity : ℤ} (h : ∀ o, Tallied s.rows s.blocks o) :
    ∃ s', step s (.delete entity) = some s' ∧ ∀ o, Left s (.delete entity) s' o := by
  unfold step statement
  dsimp only
  cases hold : rowOf Row.entity entity s.rows with
  | none => exact ⟨s, rfl, left_self h⟩
  | some old =>
    obtain ⟨hmem, rfl⟩ := (rowOf_eq_some s.keys).mp hold
    obtain ⟨t', ht', hafter⟩ := fire_all
      (afterDelete (s.rows.filter fun x => x.entity ≠ old.entity) old)
      (Q := fun o t => Tallied (s.rows.filter fun x => x.entity ≠ old.entity) t o) (t := s.blocks)
      (fun _ _ _ => Tallied.congr) fun o t₁ hsame => by
        obtain ⟨t', ht', htallied, hapart⟩ := tallied_afterDelete s.keys hmem ((h o).congr hsame)
        exact ⟨t', ht', hapart, htallied⟩
    simp only [ht']
    exact ⟨_, rfl, fun o => ⟨fun _ => hafter o, fun hcrosses => hcrosses.elim⟩⟩

theorem update_left {r : Row} (h : ∀ o, Tallied s.rows s.blocks o) :
    ∃ s', step s (.update r) = some s' ∧ (∀ o, Left s (.update r) s' o) ∧
      ∀ old ∈ s.rows, old.entity = r.entity → s'.rows = replaced s.rows r := by
  unfold step statement
  dsimp only
  cases hold : rowOf Row.entity r.entity s.rows with
  | none =>
    refine ⟨s, rfl, left_self h, fun old hmem hentity => ?_⟩
    rw [(rowOf_eq_some s.keys).mpr ⟨hmem, hentity⟩] at hold
    cases hold
  | some old =>
    obtain ⟨hmem, hentity⟩ := (rowOf_eq_some s.keys).mp hold
    obtain ⟨t', ht', hafter⟩ := fire_all (afterUpdate (replaced s.rows r) old r)
      (Q := fun o t' => (¬ Crossing o old r → Tallied (replaced s.rows r) t' o) ∧
        (Crossing o old r → ∀ library kind, slice o library kind t' = slice o library kind s.blocks))
      (t := s.blocks)
      (fun o t₁ t₂ hsame hQ => ⟨fun hcrossing => (hQ.1 hcrossing).congr hsame,
        fun hcrossing library kind => (hsame library kind).trans (hQ.2 hcrossing library kind)⟩)
      fun o t₁ hsame => by
        obtain ⟨t', ht', hapart, htallied, hstays⟩ :=
          tallied_afterUpdate s.keys hmem hentity ((h o).congr hsame)
        refine ⟨t', ht', hapart, htallied, fun hcrossing library kind => ?_⟩
        rw [hstays hcrossing]
        exact hsame library kind
    unfold replaced at ht' hafter
    simp only [ht']
    refine ⟨_, rfl, fun o => ?_, fun _ _ _ => rfl⟩
    -- the row that was there is the only one of its entity
    have hcrosses : Crosses s (.update r) o ↔ Crossing o old r := by
      constructor
      · rintro ⟨old', hmem', hentity', hcrossing⟩
        rwa [eq_of_key s.keys hmem hmem' (hentity.trans hentity'.symm)]
      · exact fun hcrossing => ⟨old, hmem, hentity, hcrossing⟩
    unfold Left
    rw [hcrosses]
    exact hafter o

/-- **Statements.** With the blocks of all orders right, a statement leaves those of an order right
when its row doesn't change its kind across those of the order, and else leaves them as they are. -/
theorem step_left (h : ∀ o, Tallied s.rows s.blocks o) :
    ∃ s', step s e = some s' ∧ ∀ o, Left s e s' o := by
  cases e with
  | insert r => exact insert_left h
  | delete entity => exact delete_left h
  | update r =>
    obtain ⟨s', hs', hleft, -⟩ := update_left h
    exact ⟨s', hs', hleft⟩

/-- Right blocks that stay as they are while the rows get more or fewer aren't right anymore. -/
theorem not_tallied (h : Tallied rs t o) (hsame : slice o library kind t' = slice o library kind t)
    (hcard : (placeSet o library kind rs').card ≠ (placeSet o library kind rs).card) :
    ¬ Tallied rs' t' o := fun h' => by
  have hsum' := (h' library kind).sum_total
  rw [hsame, (h library kind).sum_total] at hsum'
  exact hcard hsum'.symm

theorem card_replaced_of_leaves (hkeys : (rs.map Row.entity).Nodup) (hold : old ∈ rs)
    (hentity : old.entity = new.entity) (hkeepsOld : o.keeps old.kind = true)
    (hkeepsNew : ¬ o.keeps new.kind = true) :
    (placeSet o old.library old.kind (replaced rs new)).card ≠
      (placeSet o old.library old.kind rs).card := by
  have hmem := place_mem hold hkeepsOld
  have hpos := Finset.card_pos.mpr ⟨_, hmem⟩
  rw [placeSet_replaced hold hentity, placeSet_insert_other fun h => hkeepsNew h.1,
    placeSet_erase hkeys hold, Finset.card_erase_of_mem hmem]
  omega

theorem card_replaced_of_joins (hkeys : (rs.map Row.entity).Nodup) (hold : old ∈ rs)
    (hentity : old.entity = new.entity) (hkeepsOld : ¬ o.keeps old.kind = true)
    (hkeepsNew : o.keeps new.kind = true) :
    (placeSet o new.library new.kind (replaced rs new)).card ≠
      (placeSet o new.library new.kind rs).card := by
  have hrest : ∀ x ∈ rs.filter fun y => y.entity ≠ old.entity, x.entity ≠ new.entity := by
    intro x hx
    rw [← hentity]
    exact of_decide_eq_true (List.mem_filter.mp hx).2
  have hsame : placeSet o new.library new.kind (rs.filter fun y => y.entity ≠ old.entity) =
      placeSet o new.library new.kind rs := by
    rw [placeSet_erase hkeys hold]
    exact erase_other (fun h => hkeepsOld h.1) hold hkeys
  rw [placeSet_replaced hold hentity, placeSet_insert hkeepsNew,
    Finset.card_insert_of_notMem (place_not_mem hrest), hsame]
  omega

/-- A row that changes its kind across those of an order leaves wrong blocks. -/
theorem not_tallied_of_crosses (h : ∀ o, Tallied s.rows s.blocks o) (hs : step s e = some s')
    (hcrosses : Crosses s e o) : ¬ Tallied s'.rows s'.blocks o := by
  cases e with
  | insert r => exact hcrosses.elim
  | delete entity => exact hcrosses.elim
  | update r =>
    obtain ⟨t', ht', hleft, hrows⟩ := update_left (r := r) h
    obtain rfl := Option.some.inj (hs.symm.trans ht')
    have hsame := (hleft o).2 hcrosses
    obtain ⟨old, hold, hentity, hcrossing⟩ := hcrosses
    rw [hrows old hold hentity]
    by_cases hkeeps : o.keeps old.kind = true
    · apply not_tallied (h o) (hsame old.library old.kind)
      exact card_replaced_of_leaves s.keys hold hentity hkeeps
        fun hnew => hcrossing (hkeeps.trans hnew.symm)
    · apply not_tallied (h o) (hsame r.library r.kind)
      refine card_replaced_of_joins s.keys hold hentity hkeeps ?_
      by_contra hnew
      apply hcrossing
      rw [Bool.not_eq_true] at hkeeps hnew
      exact hkeeps.trans hnew.symm

theorem tallied_empty (o : Ordering) : Tallied [] [] o := by
  intro library kind
  have hplaces : placeSet o library kind [] = ∅ := by
    unfold placeSet places
    simp
  rw [hplaces]
  refine ⟨⟨List.nodup_nil, ?_, ?_⟩, ?_, ?_⟩ <;> simp [slice]

end Portico.Browse
