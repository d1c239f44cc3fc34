import Portico.Lib.ScopedBlocks
import Portico.Browse.BlockRuns

/-!
# The check of the counted blocks

For tests and diagnostics, the blocks of each order are compared with its rows: they are walked in
the order of their libraries, kinds and places, and counted from each start on.

## Main results

* `checkBlocks_ok`: the check finds no difference when the blocks are exact
* `blocks_right_iff`: the exact condition for all blocks to be right all along a run
-/

namespace Portico.Browse

open CountedBlocks Machine Runs Direction

/-! ## Checks -/

section

variable {κ α : Type} [LinearOrder κ] [LinearOrder α]

/-- What the blocks and the rows differ in. -/
inductive Difference (κ α : Type)
  | counts (block : κ ×ₗ α) (want holds : ℕ)
  | precedes (row : κ ×ₗ α)
  | startsAtNoRow (block : κ ×ₗ α)
deriving DecidableEq

/-- The blocks that aren't met yet, the one that the rows are counted for, and their number. -/
structure Walk (κ α : Type) where
  blocks : List (Block (κ ×ₗ α))
  current : Option (Block (κ ×ₗ α)) := none
  counted : ℕ := 0

def Walk.finish (w : Walk κ α) : Except (Difference κ α) Unit :=
  match w.current with
  | none => .ok ()
  | some b => if w.counted = b.total then .ok () else .error (.counts b.start b.total w.counted)

def Walk.next (w : Walk κ α) (row : κ ×ₗ α) : Except (Difference κ α) (Walk κ α) :=
  match rowOf Block.start row w.blocks with
  | some b => do
    w.finish
    return ⟨w.blocks.filter fun c => c.start ≠ row, some b, 1⟩
  | none =>
    match w.current with
    | none => .error (.precedes row)
    | some b =>
      if scopeOf b.start = scopeOf row then .ok { w with counted := w.counted + 1 }
      else .error (.precedes row)

def checkBlocks (blocks : List (Block (κ ×ₗ α))) (rows : List (κ ×ₗ α)) :
    Except (Difference κ α) Unit := do
  let w ← rows.foldlM Walk.next { blocks := blocks }
  w.finish
  match w.blocks with
  | [] => return
  | b :: _ => throw (.startsAtNoRow b.start)

variable {bs : List (Block (κ ×ₗ α))} {rows met rest : List (κ ×ₗ α)} {w : Walk κ α} {k : κ ×ₗ α}

/-- What the check has met after some rows. -/
structure Met (bs : List (Block (κ ×ₗ α))) (met : List (κ ×ₗ α)) (w : Walk κ α) : Prop where
  blocks : w.blocks = bs.filter fun b => b.start ∉ met
  unstarted : w.current = none → met = []
  started : ∀ b, w.current = some b → b ∈ bs ∧ b.start ∈ met ∧
    (∀ c ∈ bs, c.start ∈ met → c.start ≤ b.start) ∧
    w.counted = met.countP fun p => Within (bs.map Block.start) b.start p

theorem met_nil : Met bs [] { blocks := bs } :=
  ⟨by simp, fun _ => rfl, fun _ h => (nomatch h)⟩

/-- The rows of a block are those that are met before the next start. -/
theorem Met.finish_ok (h : Met bs met w) (hexact : Exact rows.toFinset bs) (hnodup : rows.Nodup)
    (hrows : rows = met ++ rest)
    (hrest : ∀ b, w.current = some b → ∀ p ∈ rest, ¬ Within (bs.map Block.start) b.start p) :
    w.finish = .ok () := by
  unfold Walk.finish
  cases hcurrent : w.current with
  | none => rfl
  | some b =>
    obtain ⟨hb, -, -, hcounted⟩ := h.started b hcurrent
    have htotal := hexact.total b hb
    have hwidth : width rows.toFinset (bs.map Block.start) b.start =
        rows.countP fun p => Within (bs.map Block.start) b.start p := by
      unfold width
      rw [List.countP_eq_length_filter, ← List.toFinset_card_of_nodup (hnodup.filter _),
        List.toFinset_filter]
      simp only [decide_eq_true_eq]
    have hnone : (rest.countP fun p => Within (bs.map Block.start) b.start p) = 0 := by
      rw [List.countP_eq_zero]
      intro p hp
      simpa using hrest b hcurrent p hp
    rw [hwidth, hrows, List.countP_append, hnone, Nat.add_zero] at htotal
    exact if_pos (hcounted.trans htotal.symm)

theorem filter_start (hblocks : w.blocks = bs.filter fun b => b.start ∉ met) :
    (w.blocks.filter fun c => c.start ≠ k) = bs.filter fun b => b.start ∉ met ++ [k] := by
  rw [hblocks, List.filter_filter]
  apply List.filter_congr
  intro b _
  simp only [List.mem_append, List.mem_singleton, not_or, Bool.decide_and, ne_eq, decide_not]
  exact Bool.and_comm _ _

/-- **Rows.** The check takes a row as the start of a block, or counts it for the one it is in. -/
theorem Met.next_ok (h : Met bs met w) (hexact : Exact rows.toFinset bs)
    (hsorted : rows.Pairwise (· < ·)) (hrows : rows = met ++ k :: rest)
    (hstarts : ∀ b ∈ bs, b.start ∈ rows)
    (hscope : ∀ b ∈ bs, ∀ p ∈ rows, Within (bs.map Block.start) b.start p →
      scopeOf b.start = scopeOf p) :
    ∃ w', w.next k = .ok w' ∧ Met bs (met ++ [k]) w' := by
  have hnodup : rows.Nodup := hsorted.imp ne_of_lt
  have hsorted' := hsorted
  rw [hrows, List.pairwise_append, List.pairwise_cons] at hsorted'
  obtain ⟨-, ⟨hafter, -⟩, hbefore⟩ := hsorted'
  have hmet : ∀ p ∈ met, p < k := fun p hp => hbefore p hp k List.mem_cons_self
  have hk : k ∉ met := fun hk => lt_irrefl k (hmet k hk)
  unfold Walk.next
  cases hfound : rowOf Block.start k w.blocks with
  | some b =>
    obtain rfl := key_of_rowOf hfound
    have hb : b ∈ bs := by
      have hmem := mem_of_rowOf hfound
      rw [h.blocks] at hmem
      exact List.mem_of_mem_filter hmem
    -- no row from this start on lies in the block before
    have hfinish := h.finish_ok hexact hnodup hrows fun c hc p hp hwithin => by
      have hlt := hwithin.2 b.start (List.mem_map_of_mem hb) (hmet _ (h.started c hc).2.1)
      rcases List.mem_cons.mp hp with rfl | hp
      · exact lt_irrefl _ hlt
      · exact lt_asymm hlt (hafter p hp)
    simp only [hfinish]
    refine ⟨_, rfl, ⟨filter_start h.blocks, fun hnone => (nomatch hnone), fun c hc => ?_⟩⟩
    obtain rfl := Option.some.inj hc
    refine ⟨hb, List.mem_append_right _ (List.mem_singleton_self _), fun d _ hd => ?_, ?_⟩
    · rcases List.mem_append.mp hd with hd | hd
      · exact (hmet _ hd).le
      · exact (List.mem_singleton.mp hd).le
    · have hnone : (met.countP fun p => Within (bs.map Block.start) b.start p) = 0 := by
        rw [List.countP_eq_zero]
        intro p hp hwithin
        exact absurd (of_decide_eq_true hwithin).1 (not_le.mpr (hmet p hp))
      rw [List.countP_append, hnone, List.countP_singleton, if_pos]
      exact decide_eq_true ⟨le_rfl, fun _ _ hlt => hlt⟩
  | none =>
    obtain ⟨c, hc, hwithin⟩ := hexact.within (p := k) (by simp [hrows])
    -- the row starts no block, so that the one it is in was met
    have hcmet : c.start ∈ met := by
      have hmem := hstarts c hc
      rw [hrows] at hmem
      rcases List.mem_append.mp hmem with hmem | hmem
      · exact hmem
      rcases List.mem_cons.mp hmem with heq | hmem
      · have hnone := List.find?_eq_none.mp hfound c (by
          rw [h.blocks]
          exact List.mem_filter.mpr ⟨hc, decide_eq_true (heq ▸ hk)⟩)
        simp [heq] at hnone
      · exact absurd hwithin.1 (not_le.mpr (hafter _ hmem))
    cases hcurrent : w.current with
    | none =>
      rw [h.unstarted hcurrent] at hcmet
      cases hcmet
    | some b =>
      obtain ⟨hb, hbmet, hlast, hcounted⟩ := h.started b hcurrent
      have hsame : c.start = b.start := by
        by_contra hne
        have hlt := lt_of_le_of_ne (hlast c hc hcmet) hne
        exact lt_asymm (hwithin.2 _ (List.mem_map_of_mem hb) hlt) (hmet _ hbmet)
      rw [hsame] at hwithin
      have hscope' := hscope b hb k (by simp [hrows]) hwithin
      simp only
      rw [if_pos hscope']
      have hnew : ∀ d ∈ bs, d.start ≠ k := by
        intro d hd heq
        have hle := (not_lt.mp fun hlt => lt_irrefl k (hwithin.2 k
          (heq ▸ List.mem_map_of_mem hd) hlt))
        exact absurd (hmet _ hbmet) (not_lt.mpr hle)
      refine ⟨_, rfl, ⟨?_, fun hnone => ?_, fun d hd => ?_⟩⟩
      · rw [← filter_start h.blocks]
        refine (List.filter_eq_self.mpr fun d hd => ?_).symm
        rw [h.blocks] at hd
        exact decide_eq_true (hnew d (List.mem_of_mem_filter hd))
      · exact nomatch hnone
      · obtain rfl := Option.some.inj hd
        refine ⟨hb, List.mem_append_left _ hbmet, fun d hd hdmet => ?_, ?_⟩
        · rcases List.mem_append.mp hdmet with hdmet | hdmet
          · exact hlast d hd hdmet
          · exact absurd (List.mem_singleton.mp hdmet) (hnew d hd)
        · rw [List.countP_append, List.countP_singleton, if_pos (decide_eq_true hwithin)]
          exact congrArg (· + 1) hcounted

theorem walk_ok (hexact : Exact rows.toFinset bs) (hsorted : rows.Pairwise (· < ·))
    (hstarts : ∀ b ∈ bs, b.start ∈ rows)
    (hscope : ∀ b ∈ bs, ∀ p ∈ rows, Within (bs.map Block.start) b.start p →
      scopeOf b.start = scopeOf p) (h : Met bs met w) (hrows : rows = met ++ rest) :
    ∃ w', rest.foldlM Walk.next w = .ok w' ∧ Met bs rows w' := by
  induction rest generalizing met w with
  | nil =>
    rw [List.append_nil] at hrows
    exact ⟨w, rfl, hrows ▸ h⟩
  | cons k rest ih =>
    obtain ⟨w₁, hnext, hmet⟩ := h.next_ok hexact hsorted hrows hstarts hscope
    obtain ⟨w', hfold, hmet'⟩ := ih hmet (by rw [hrows, List.append_assoc, List.singleton_append])
    refine ⟨w', ?_, hmet'⟩
    rw [List.foldlM_cons, hnext]
    exact hfold

/-- **Checks.** The check finds no difference when the blocks are exact, and each starts at a row
and stays in its scope. -/
theorem checkBlocks_ok (hexact : Exact rows.toFinset bs) (hsorted : rows.Pairwise (· < ·))
    (hstarts : ∀ b ∈ bs, b.start ∈ rows)
    (hscope : ∀ b ∈ bs, ∀ p ∈ rows, Within (bs.map Block.start) b.start p →
      scopeOf b.start = scopeOf p) : checkBlocks bs rows = .ok () := by
  obtain ⟨w, hwalk, hmet⟩ := walk_ok hexact hsorted hstarts hscope met_nil rfl
  have hfinish := hmet.finish_ok hexact (hsorted.imp ne_of_lt) (List.append_nil rows).symm
    fun _ _ p hp => by cases hp
  have hblocks : w.blocks = [] := by
    rw [hmet.blocks, List.filter_eq_nil_iff]
    intro b hb
    simpa using hstarts b hb
  unfold checkBlocks
  rw [hwalk]
  change (w.finish >>= fun _ => _) = _
  rw [hfinish, hblocks]
  rfl

end

/-! ## All orders -/

/-- A library and kind. -/
abbrev Scope := ℤ ×ₗ ℤ

instance : DecidableEq Scope := LinearOrder.toDecidableEq

def scope (library kind : ℤ) : Scope := toLex (library, kind)

/-- The places of all libraries and kinds, in order. -/
def spotsOf (o : Ordering) (rows : List Row) : List (Scope ×ₗ Place) :=
  asc.ordered ((rows.filter fun r => o.keeps r.kind).map fun r =>
    spot (scope r.library r.kind) (o.place r))

/-- The blocks of all libraries and kinds. -/
def spotBlocks (o : Ordering) (t : List BlockRow) : List (Block (Scope ×ₗ Place)) :=
  (t.filter fun b => b.ordering = o).map fun b =>
    ⟨spot (scope b.library b.kind) b.block.start, b.block.total⟩

def checkBrowseBlocks (s : State) : Except (Difference Scope Place) Unit :=
  Ordering.all.forM fun o => checkBlocks (spotBlocks o s.blocks) (spotsOf o s.rows)

variable {rs : List Row} {t : List BlockRow} {o : Ordering} {library kind : ℤ} {s s' : State}
  {e : Event} {es : List Event} {q : Scope ×ₗ Place}

theorem mem_spotsOf : q ∈ spotsOf o rs ↔
    placeOf q ∈ placeSet o (ofLex (scopeOf q)).1 (ofLex (scopeOf q)).2 rs := by
  unfold spotsOf
  simp only [mem_ordered, List.mem_map, List.mem_filter, mem_placeSet]
  constructor
  · rintro ⟨r, ⟨hr, hkeeps⟩, rfl⟩
    exact ⟨hkeeps, r, hr, rfl, rfl, rfl⟩
  · rintro ⟨hkeeps, r, hr, hlibrary, hkind, hplace⟩
    refine ⟨r, ⟨hr, hkind ▸ hkeeps⟩, ?_⟩
    rw [hlibrary, hkind, hplace]
    rfl

theorem sorted_spotsOf (hkeys : (rs.map Row.entity).Nodup) :
    (spotsOf o rs).Pairwise (· < ·) := by
  have hnodup : (spotsOf o rs).Nodup := by
    refine nodup_ordered.mpr (List.Nodup.of_map (fun q => (ofLex (placeOf q)).2) ?_)
    rw [List.map_map]
    exact hkeys.sublist (List.filter_sublist.map _)
  refine (pairwise_ordered.and hnodup).imp fun h => ?_
  exact lt_of_le_of_ne (not_lt.mp h.1) h.2

theorem blocksAt_spotBlocks (k : Scope) :
    blocksAt k (spotBlocks o t) = slice o (ofLex k).1 (ofLex k).2 t := by
  unfold blocksAt spotBlocks slice
  rw [List.filter_map, List.map_map, List.filter_filter]
  congr 1
  apply List.filter_congr
  intro b _
  rw [Bool.eq_iff_iff]
  have hscope : scope b.library b.kind = k ↔ b.library = (ofLex k).1 ∧ b.kind = (ofLex k).2 :=
    Prod.ext_iff
  simp only [Function.comp_apply, Bool.and_eq_true, decide_eq_true_eq]
  exact (and_congr hscope Iff.rfl).trans and_comm

theorem check_ok (hkeys : (rs.map Row.entity).Nodup) (h : Tallied rs t o) :
    checkBlocks (spotBlocks o t) (spotsOf o rs) = .ok () := by
  have hcounted : ∀ k : Scope, Counted 2048 (placeSet o (ofLex k).1 (ofLex k).2 rs)
      (blocksAt k (spotBlocks o t)) := by
    intro k
    rw [blocksAt_spotBlocks]
    exact h _ _
  have hexact : ∀ k : Scope, Exact (placeSet o (ofLex k).1 (ofLex k).2 rs)
      (blocksAt k (spotBlocks o t)) := fun k => (hcounted k).toExact
  apply checkBlocks_ok
  · exact exact_of_scopes hexact fun q => List.mem_toFinset.trans mem_spotsOf
  · exact sorted_spotsOf hkeys
  · intro b hb
    exact mem_spotsOf.mpr ((hcounted _).starts _ (mem_blocksAt hb))
  · intro b _ p hp hwithin
    exact ((within_spot hexact (mem_spotsOf.mp hp)).mp hwithin).1

theorem checkBrowseBlocks_ok (h : ∀ o, Tallied s.rows s.blocks o) :
    checkBrowseBlocks s = .ok () := by
  have hall : ∀ os : List Ordering,
      (os.forM fun o => checkBlocks (spotBlocks o s.blocks) (spotsOf o s.rows)) = .ok () := by
    intro os
    induction os with
    | nil => rfl
    | cons o os ih =>
      change (checkBlocks (spotBlocks o s.blocks) (spotsOf o s.rows) >>= fun _ => _) = _
      rw [check_ok s.keys (h o)]
      exact ih
  exact hall Ordering.all

/-- What the blocks of an order, library and kind are to be: each starts at a row, once, and has the
number of rows from there up to the next start; the first row starts one; together they have as many
as there are; and each has some and at most 2048. -/
structure RightlyCounted (s : State) (o : Ordering) (library kind : ℤ) : Prop extends
    Counted 2048 (placeSet o library kind s.rows) (slice o library kind s.blocks) where
  first : ∀ p ∈ placeSet o library kind s.rows, (∀ q ∈ placeSet o library kind s.rows, p ≤ q) →
    p ∈ (slice o library kind s.blocks).map Block.start
  sum : ((slice o library kind s.blocks).map Block.total).sum = (placeSet o library kind s.rows).card
  some : ∀ b ∈ slice o library kind s.blocks, 0 < b.total

theorem rightlyCounted (h : Tallied s.rows s.blocks o) : RightlyCounted s o library kind := by
  have hcounted := h library kind
  refine ⟨hcounted, fun p hp hfirst => ?_, hcounted.sum_total, fun b hb => hcounted.pos hb⟩
  obtain ⟨b, hb, hle⟩ := hcounted.covered p hp
  have heq := le_antisymm hle (hfirst _ (hcounted.starts b hb))
  exact heq ▸ List.mem_map_of_mem hb

/-- The blocks of all orders, libraries and kinds are right, and the check finds no difference. -/
def BlocksRight (s : State) : Prop :=
  (∀ o library kind, RightlyCounted s o library kind) ∧ checkBrowseBlocks s = .ok ()

theorem blocksRight (h : ∀ o, Tallied s.rows s.blocks o) : BlocksRight s :=
  ⟨fun o _ _ => rightlyCounted (h o), checkBrowseBlocks_ok h⟩

theorem BlocksRight.tallied (h : BlocksRight s) (o : Ordering) : Tallied s.rows s.blocks o :=
  fun library kind => (h.1 o library kind).toCounted

/-- Statements about rows always come to an end: a run of any statements has a last state. -/
theorem run_total (s : State) (es : List Event) : ∃ s', run step s es = some s' := by
  induction es generalizing s with
  | nil => exact ⟨s, rfl⟩
  | cons e es ih => exact ih ((statement s e).getD s)

theorem mem_rows_insert {r x : Row} (hs : step s (.insert r) = some s') (hx : x ∈ s'.rows) :
    x ∈ s.rows ∨ x = r := by
  obtain rfl := Option.some.inj hs
  unfold statement at hx
  dsimp only at hx
  split_ifs at hx with hold
  · exact Or.inl hx
  cases hfire : fire (afterInsert (s.rows ++ [r]) r) s.blocks with
  | none =>
    rw [hfire] at hx
    exact Or.inl hx
  | some blocks =>
    rw [hfire] at hx
    exact (List.mem_append.mp hx).imp id List.mem_singleton.mp

theorem blocksRight_empty : BlocksRight {} := blocksRight tallied_empty

/-- **Blocks.** From right blocks on, those of all orders are right after each statement of a run
just when no update changes a row's kind between one that some order is kept for and one that it
isn't. -/
theorem blocks_right_iff (h0 : BlocksRight s) (hrun : run step s es = some s') :
    Along step BlocksRight s es ↔ Each step (fun s e => ∀ o, ¬ Crosses s e o) s es := by
  refine along_iff_each (I := fun s => ∀ o, Tallied s.rows s.blocks o)
    (fun s h => blocksRight h) ?_ ?_ h0.tallied hrun
  · intro s e t h hcrosses hs o
    obtain ⟨t', ht', hleft⟩ := step_left (e := e) h
    obtain rfl := Option.some.inj (ht'.symm.trans hs)
    exact (hleft o).1 (hcrosses o)
  · intro s e t h hcrosses hs hright
    obtain ⟨o, hcrosses⟩ := not_forall.mp hcrosses
    exact not_tallied_of_crosses h hs (not_not.mp hcrosses) (hright.tallied o)

/-- A movie. -/
def movie : Row := { entity := 7, library := 1, kind := 1, sortKey := "Alien", releaseKey := "1979" }

/-- A title that changes with every order's kinds as they are. -/
theorem blocks_right_renamed : Along step BlocksRight {} [.insert movie,
    .update { movie with sortKey := "Aliens", year := 1986 }, .delete 7] := by
  refine (blocks_right_iff blocksRight_empty (run_total _ _).choose_spec).mpr ⟨fun _ h => h, ?_⟩
  intro s hs
  refine ⟨?_, fun _ _ => ⟨fun _ h => h, fun _ _ => trivial⟩⟩
  rintro o ⟨old, hold, -, hcrossing⟩
  rcases mem_rows_insert hs hold with hnone | rfl
  · cases hnone
  · exact hcrossing rfl

/-- A movie that becomes another kind leaves its block in the release order, where no row is. -/
theorem check_after_kind_change :
    (run step {} [.insert movie, .update { movie with kind := 5 }]).map checkBrowseBlocks =
      some (.error (.startsAtNoRow (spot (scope 1 1) (toLex (text "1979", 7))))) := by
  decide +kernel

theorem kind_change_breaks : ¬ Along step BlocksRight {} [.insert movie,
    .update { movie with kind := 5 }] := by
  intro h
  have hcheck := check_after_kind_change
  obtain ⟨s₂, hrun⟩ := run_total {} [.insert movie, .update { movie with kind := 5 }]
  obtain ⟨s₁, hs₁, hrest⟩ := run_cons.mp hrun
  obtain ⟨t, hs₂, hlast⟩ := run_cons.mp hrest
  obtain rfl := Option.some.inj hlast
  rw [along_cons hs₁, along_cons hs₂] at h
  obtain ⟨-, -, hright⟩ := h
  rw [hrun, Option.map_some, hright.2] at hcheck
  cases hcheck

end Portico.Browse
