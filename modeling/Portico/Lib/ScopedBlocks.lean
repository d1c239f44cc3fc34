import Portico.Lib.CountedBlocks

/-!
# Counted blocks of several scopes

Each scope has places and blocks of its own. In the order of the scopes, and of the places in each
of them, the blocks of all scopes are counted when those of each scope are: a block ends where the
first one of the next scope starts, as the first place of a scope starts one.

## Main results

* `within_spot`: a spot lies in a block when it does in its scope
* `exact_of_scopes`: the blocks are exact when those of each scope are counted
-/

namespace Portico.CountedBlocks

variable {κ α : Type*}

/-- A place of a scope. -/
def spot (k : κ) (p : α) : κ ×ₗ α := toLex (k, p)

def scopeOf (q : κ ×ₗ α) : κ := (ofLex q).1

def placeOf (q : κ ×ₗ α) : α := (ofLex q).2

/-- The blocks of a scope. -/
def blocksAt [DecidableEq κ] (k : κ) (bs : List (Block (κ ×ₗ α))) : List (Block α) :=
  (bs.filter fun b => scopeOf b.start = k).map fun b => ⟨placeOf b.start, b.total⟩

variable {k k' : κ} {p p' s : α} {q : κ ×ₗ α} {bs : List (Block (κ ×ₗ α))} {b : Block (κ ×ₗ α)}

@[simp] theorem scopeOf_spot : scopeOf (spot k p) = k := rfl

@[simp] theorem placeOf_spot : placeOf (spot k p) = p := rfl

theorem spot_eta : spot (scopeOf q) (placeOf q) = q := rfl

theorem spot_injective : Function.Injective (spot k : α → κ ×ₗ α) := fun _ _ h => congrArg placeOf h

theorem mem_blocksAt [DecidableEq κ] (hb : b ∈ bs) :
    (⟨placeOf b.start, b.total⟩ : Block α) ∈ blocksAt (scopeOf b.start) bs :=
  List.mem_map.mpr ⟨b, List.mem_filter.mpr ⟨hb, decide_eq_true rfl⟩, rfl⟩

variable [LinearOrder κ]

theorem mem_starts_at : s ∈ (blocksAt k bs).map Block.start ↔ spot k s ∈ bs.map Block.start := by
  unfold blocksAt
  simp only [List.mem_map, List.mem_filter, decide_eq_true_eq]
  constructor
  · rintro ⟨_, ⟨b, ⟨hb, rfl⟩, rfl⟩, rfl⟩
    exact ⟨b, hb, rfl⟩
  · rintro ⟨b, hb, hstart⟩
    refine ⟨_, ⟨b, ⟨hb, ?_⟩, rfl⟩, ?_⟩
    · rw [hstart, scopeOf_spot]
    · rw [hstart, placeOf_spot]

variable [LinearOrder α] {places : κ → Finset α} {rows : Finset (κ ×ₗ α)}

theorem spot_le : spot k p ≤ spot k' p' ↔ k < k' ∨ k = k' ∧ p ≤ p' := Prod.Lex.le_iff

theorem spot_lt : spot k p < spot k' p' ↔ k < k' ∨ k = k' ∧ p < p' := Prod.Lex.lt_iff

/-- A spot lies in a block when it is of the same scope and lies in the block there. -/
theorem within_spot (hcounted : ∀ k, Exact (places k) (blocksAt k bs)) (hp : p' ∈ places k') :
    Within (bs.map Block.start) (spot k s) (spot k' p') ↔
      k = k' ∧ Within ((blocksAt k bs).map Block.start) s p' := by
  constructor
  · rintro ⟨hle, hnext⟩
    have hscope : k = k' := by
      rcases spot_le.mp hle with hlt | ⟨heq, -⟩
      · -- the first place of the later scope starts a block
        obtain ⟨c, hc, hcle⟩ := (hcounted k').covered p' hp
        have hstart := mem_starts_at.mp (List.mem_map_of_mem (f := Block.start) hc)
        have hbefore := hnext _ hstart (spot_lt.mpr (Or.inl hlt))
        rcases spot_lt.mp hbefore with hlt | ⟨-, hlt⟩
        · exact absurd hlt (lt_irrefl _)
        · exact absurd hcle (not_le.mpr hlt)
      · exact heq
    subst hscope
    refine ⟨rfl, ?_, fun c hc hlt => ?_⟩
    · rcases spot_le.mp hle with hlt | ⟨-, hle⟩
      · exact absurd hlt (lt_irrefl _)
      · exact hle
    · have hbefore := hnext _ (mem_starts_at.mp hc) (spot_lt.mpr (Or.inr ⟨rfl, hlt⟩))
      rcases spot_lt.mp hbefore with hlt | ⟨-, hlt⟩
      · exact absurd hlt (lt_irrefl _)
      · exact hlt
  · rintro ⟨rfl, hle, hnext⟩
    refine ⟨spot_le.mpr (Or.inr ⟨rfl, hle⟩), fun c hc hlt => ?_⟩
    rw [← spot_eta (q := c)] at hc hlt ⊢
    rcases spot_lt.mp hlt with hlt | ⟨heq, hlt⟩
    · exact spot_lt.mpr (Or.inl hlt)
    · rw [← heq] at hc ⊢
      exact spot_lt.mpr (Or.inr ⟨rfl, hnext _ (mem_starts_at.mpr hc) hlt⟩)

omit [LinearOrder α] in
/-- Starts of different scopes are different, so it is enough that those of each scope are. -/
theorem nodup_starts (h : ∀ k, ((blocksAt k bs).map Block.start).Nodup) :
    (bs.map Block.start).Nodup := by
  induction bs with
  | nil => exact List.nodup_nil
  | cons b bs ih =>
    have hrest : ∀ k, ((blocksAt k bs).map Block.start).Sublist
        ((blocksAt k (b :: bs)).map Block.start) := fun k =>
      (((List.sublist_cons_self b bs).filter _).map _).map _
    rw [List.map_cons, List.nodup_cons]
    refine ⟨fun hmem => ?_, ih fun k => (h k).sublist (hrest k)⟩
    have hcons : blocksAt (scopeOf b.start) (b :: bs) =
        ⟨placeOf b.start, b.total⟩ :: blocksAt (scopeOf b.start) bs := by
      unfold blocksAt
      rw [List.filter_cons_of_pos (by simp), List.map_cons]
    have hnodup := h (scopeOf b.start)
    rw [hcons, List.map_cons, List.nodup_cons] at hnodup
    exact hnodup.1 (mem_starts_at.mpr hmem)

/-- **Scopes.** The blocks of all scopes are exact when those of each scope are. -/
theorem exact_of_scopes (hcounted : ∀ k, Exact (places k) (blocksAt k bs))
    (hrows : ∀ q, q ∈ rows ↔ placeOf q ∈ places (scopeOf q)) : Exact rows bs := by
  refine ⟨nodup_starts fun k => (hcounted k).keys, fun q hq => ?_, fun b hb => ?_⟩
  · obtain ⟨c, hc, hle⟩ := (hcounted (scopeOf q)).covered _ ((hrows q).mp hq)
    obtain ⟨b, hb, hstart⟩ := List.mem_map.mp
      (mem_starts_at.mp (List.mem_map_of_mem (f := Block.start) hc))
    refine ⟨b, hb, ?_⟩
    rw [hstart]
    exact spot_le.mpr (Or.inr ⟨rfl, hle⟩)
  · have htotal := (hcounted (scopeOf b.start)).total _ (mem_blocksAt hb)
    -- the spots of a block are the places of it in its scope
    have himage : rows.filter (Within (bs.map Block.start) b.start) =
        ((places (scopeOf b.start)).filter (Within ((blocksAt (scopeOf b.start) bs).map Block.start)
          (placeOf b.start))).image (spot (scopeOf b.start)) := by
      ext q
      simp only [Finset.mem_filter, Finset.mem_image]
      constructor
      · rintro ⟨hq, hwithin⟩
        obtain ⟨hscope, hwithin⟩ : scopeOf b.start = scopeOf q ∧
            Within ((blocksAt (scopeOf b.start) bs).map Block.start) (placeOf b.start) (placeOf q) :=
          (within_spot hcounted ((hrows q).mp hq)).mp hwithin
        refine ⟨placeOf q, ⟨?_, hwithin⟩, by rw [hscope, spot_eta]⟩
        rw [hscope]
        exact (hrows q).mp hq
      · rintro ⟨p, ⟨hp, hwithin⟩, rfl⟩
        exact ⟨(hrows _).mpr hp, (within_spot hcounted hp).mpr ⟨rfl, hwithin⟩⟩
    unfold width at htotal ⊢
    rw [himage, Finset.card_image_of_injective _ spot_injective]
    exact htotal

end Portico.CountedBlocks
