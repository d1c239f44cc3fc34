import Portico.Lib.Search

/-!
# The guide: the cells of a row

The programmes of a row are sorted, and where they overlap the later one is trimmed. The row is then
laid out in cells, one for each programme in view and one for each hole between them.

## Main definitions

* `normalizePrograms`: programmes in order, apart, each once
* `layoutRow`: the cells of a row
* `drawnAt`: what cells draw at an instant

## Main results

* `drawnAt_layoutRow`: a row draws the programme of each instant, and gaps inside its range
* `laidOut_layoutRow`: its cells are in order and apart
* `find_normalizePrograms`: which programme is left at an instant
-/

namespace Portico.Guide

variable {ι : Type*}

structure Program (ι : Type*) where
  id : ι
  start : ℤ
  stop : ℤ
deriving DecidableEq, Repr

def Program.Covers (p : Program ι) (t : ℤ) : Prop := p.start ≤ t ∧ t < p.stop

instance (p : Program ι) (t : ℤ) : Decidable (p.Covers t) := inferInstanceAs (Decidable (_ ∧ _))

/-- How programmes are sorted. -/
def Program.key [LinearOrder ι] (p : Program ι) : ℤ ×ₗ ℤ ×ₗ ι :=
  toLex (p.start, toLex (p.stop, p.id))

/-- Programmes without those seen and those that are over before the last one ends; the rest start no
earlier than that. -/
def trimFrom [DecidableEq ι] : List ι → Option ℤ → List (Program ι) → List (Program ι)
  | _, _, [] => []
  | seen, cursor, p :: ps =>
    if p.id ∈ seen ∨ ¬ p.start < p.stop then trimFrom seen cursor ps
    else
      let start := cursor.elim p.start (max p.start)
      if p.stop ≤ start then trimFrom (p.id :: seen) cursor ps
      else { p with start := start } :: trimFrom (p.id :: seen) (some p.stop) ps

/-- Programmes sorted by start with overlaps trimmed and duplicates removed. -/
def normalizePrograms [LinearOrder ι] (ps : List (Program ι)) : List (Program ι) :=
  trimFrom [] none (ps.insertionSort fun p q => p.key ≤ q.key)

/-- The first programme that ends after an instant. -/
def firstEndingAfter (ps : List (Program ι)) (t : ℤ) : ℕ :=
  search ps.length fun i => (ps[i]?).any fun p => t < p.stop

inductive CellKind
  | program
  | gap
deriving DecidableEq, Repr

inductive TextTier
  | full
  | title2
  | title
  | sliver
deriving DecidableEq, Repr

inductive CellState
  | past
  | now
  | future
deriving DecidableEq, Repr

structure TierThresholds where
  full : ℚ
  title2 : ℚ
  title : ℚ

def TierThresholds.standard : TierThresholds := ⟨200, 96, 32⟩

structure RowLayoutOptions where
  viewStart : ℤ
  viewEnd : ℤ
  pxPerMs : ℚ
  now : ℤ
  gapPx : Option ℚ := none
  tiers : Option TierThresholds := none
  rangeStart : Option ℤ := none
  rangeEnd : Option ℤ := none

structure Cell (ι : Type*) where
  kind : CellKind
  start : ℤ
  stop : ℤ
  x : ℚ
  width : ℚ
  clippedStart : Bool
  clippedEnd : Bool
  tier : TextTier
  state : CellState
  program : Option (Program ι)

def Cell.Covers (c : Cell ι) (t : ℤ) : Prop := c.start ≤ t ∧ t < c.stop

instance (c : Cell ι) (t : ℤ) : Decidable (c.Covers t) := inferInstanceAs (Decidable (_ ∧ _))

def tierFor (width : ℚ) (t : TierThresholds) : TextTier :=
  if t.full ≤ width then .full
  else if t.title2 ≤ width then .title2
  else if t.title ≤ width then .title
  else .sliver

namespace RowLayoutOptions

variable (o : RowLayoutOptions)

/-- Where the guide has data, inside the view. -/
def rangeFrom : ℤ := max o.viewStart (o.rangeStart.getD o.viewStart)

def rangeTo : ℤ := min o.viewEnd (o.rangeEnd.getD o.viewEnd)

def stateOf (start stop : ℤ) : CellState :=
  if stop ≤ o.now then .past else if start ≤ o.now then .now else .future

def cell (kind : CellKind) (start stop : ℤ) (program : Option (Program ι)) : Cell ι :=
  let from_ := max start o.viewStart
  let to_ := min stop o.viewEnd
  let width := max 0 ((to_ - from_) * o.pxPerMs - o.gapPx.getD 2)
  { kind := kind
    start := start
    stop := stop
    x := (from_ - o.viewStart) * o.pxPerMs
    width := width
    clippedStart := decide (start < o.viewStart)
    clippedEnd := decide (o.viewEnd < stop)
    tier := tierFor width (o.tiers.getD .standard)
    state := o.stateOf start stop
    program := program }

/-- A cell, if any of it is in view. -/
def push (kind : CellKind) (start stop : ℤ) (program : Option (Program ι)) : List (Cell ι) :=
  if min stop o.viewEnd ≤ max start o.viewStart then [] else [o.cell kind start stop program]

/-- The gap between the cursor and a programme, as far as the range goes. -/
def gapBefore (cursor start : ℤ) : List (Cell ι) :=
  if cursor < start ∧ cursor < o.rangeTo then o.push .gap cursor (min start o.rangeTo) none else []

/-- The gap between the cursor and the end of the range. -/
def lastGap (cursor : ℤ) : List (Cell ι) :=
  if cursor < o.rangeTo then o.push .gap cursor o.rangeTo none else []

/-- The cells from a programme on, when the row is filled up to the cursor. -/
def cellsFrom (cursor : ℤ) : List (Program ι) → List (Cell ι)
  | [] => o.lastGap cursor
  | p :: ps =>
    if o.viewEnd ≤ p.start then o.lastGap cursor
    else
      o.gapBefore cursor p.start ++ o.push .program p.start p.stop (some p) ++
        cellsFrom (max cursor p.stop) ps

end RowLayoutOptions

/-- Cells for one row across the visible span. -/
def layoutRow (ps : List (Program ι)) (o : RowLayoutOptions) : List (Cell ι) :=
  o.cellsFrom o.rangeFrom (ps.drop (firstEndingAfter ps o.viewStart))

/-- What is drawn at an instant: nothing, a gap or a programme. -/
def drawnAt (cells : List (Cell ι)) (t : ℤ) : Option (Option ι) :=
  (cells.find? fun c => c.Covers t).map fun c => c.program.map Program.id

/-! ## Programmes in order -/

/-- Programmes that follow each other. -/
structure Tidy (ps : List (Program ι)) : Prop where
  proper : ∀ p ∈ ps, p.start < p.stop
  apart : ps.Pairwise fun p q => p.stop ≤ q.start

variable {p q : Program ι} {ps qs : List (Program ι)} {seen : List ι} {cursor : Option ℤ} {t : ℤ}
  {o : RowLayoutOptions}

theorem Tidy.tail (h : Tidy (p :: ps)) : Tidy ps :=
  ⟨fun q hq => h.proper q (List.mem_cons_of_mem _ hq), h.apart.of_cons⟩

theorem Tidy.after (h : Tidy (p :: ps)) (hq : q ∈ ps) : p.stop ≤ q.start :=
  List.rel_of_pairwise_cons h.apart hq

theorem Tidy.drop (h : Tidy ps) (n : ℕ) : Tidy (ps.drop n) :=
  ⟨fun p hp => h.proper p (List.mem_of_mem_drop hp), h.apart.drop⟩

theorem find_cons_of_covers (h : p.Covers t) :
    ((p :: ps).find? fun p => p.Covers t) = some p :=
  List.find?_cons_of_pos (decide_eq_true h)

theorem find_cons_of_not (h : ¬ p.Covers t) :
    ((p :: ps).find? fun p => p.Covers t) = ps.find? fun p => p.Covers t :=
  List.find?_cons_of_neg fun hcovers => h (of_decide_eq_true hcovers)

theorem covers_of_find (h : (ps.find? fun p => p.Covers t) = some p) : p.Covers t := by
  have hcovers := List.find?_some h
  exact of_decide_eq_true hcovers

theorem find_eq_none_of_after (h : ∀ p ∈ ps, t < p.start) :
    (ps.find? fun p => p.Covers t) = none := by
  rw [List.find?_eq_none]
  intro p hp hcovers
  have := h p hp
  have := (of_decide_eq_true hcovers).1
  omega

section Trim

variable [DecidableEq ι]

theorem tidy_trimFrom (seen : List ι) (cursor : Option ℤ) (ps : List (Program ι)) :
    Tidy (trimFrom seen cursor ps) ∧
      ∀ p ∈ trimFrom seen cursor ps, ∀ c ∈ cursor, c ≤ p.start := by
  induction ps generalizing seen cursor with
  | nil => exact ⟨⟨fun _ => (nomatch ·), List.Pairwise.nil⟩, fun _ => (nomatch ·)⟩
  | cons p ps ih =>
    rw [trimFrom]
    dsimp only
    split_ifs with hskip hover
    · exact ih seen cursor
    · exact ih _ cursor
    · obtain ⟨htidy, hafter⟩ := ih (p.id :: seen) (some p.stop)
      have hstart {c : ℤ} (hc : c ∈ cursor) : c ≤ cursor.elim p.start (max p.start) := by
        rw [show cursor = some c from hc]
        exact le_max_right _ _
      refine ⟨⟨fun q hq => ?_, List.pairwise_cons.mpr ⟨fun q hq => ?_, htidy.apart⟩⟩,
        fun q hq c hc => ?_⟩
      · rcases List.mem_cons.mp hq with rfl | hq
        · exact not_le.mp hover
        · exact htidy.proper q hq
      · exact hafter q hq _ rfl
      · rcases List.mem_cons.mp hq with rfl | hq
        · exact hstart hc
        · have := hafter q hq _ rfl
          have := hstart hc
          omega

/-- **Trimming** leaves the first programme of an instant, when what was seen before is not its. -/
theorem find_trimFrom (hsorted : ps.Pairwise fun p q => p.start ≤ q.start)
    (hcursor : ∀ c ∈ cursor, c ≤ t) (hseen : ∀ p ∈ ps, p.id ∈ seen → ¬ p.Covers t)
    (hone : ∀ p ∈ ps, ∀ q ∈ ps, p.start < p.stop → q.start < q.stop → p.id = q.id →
      p.start = q.start ∧ p.stop = q.stop) :
    ((trimFrom seen cursor ps).find? fun p => p.Covers t).map Program.id =
      (ps.find? fun p => p.Covers t).map Program.id := by
  induction ps generalizing seen cursor with
  | nil => rfl
  | cons p ps ih =>
    have hrest : ∀ q ∈ ps, ∀ x ∈ ps, q.start < q.stop → x.start < x.stop → q.id = x.id →
        q.start = x.start ∧ q.stop = x.stop := fun q hq x hx =>
      hone q (List.mem_cons_of_mem _ hq) x (List.mem_cons_of_mem _ hx)
    have hlater := hsorted.of_cons
    -- a later programme with the name of one that is not at the instant is not at it either
    have hnext (hproper : p.start < p.stop) (hnot : ¬ p.Covers t) :
        ∀ q ∈ ps, q.id ∈ p.id :: seen → ¬ q.Covers t := by
      intro q hq hid hcovers
      rcases List.mem_cons.mp hid with hid | hid
      · have := hone p List.mem_cons_self q (List.mem_cons_of_mem _ hq) hproper
          (hcovers.1.trans_lt hcovers.2) hid.symm
        exact hnot ⟨this.1 ▸ hcovers.1, this.2 ▸ hcovers.2⟩
      · exact hseen q (List.mem_cons_of_mem _ hq) hid hcovers
    rw [trimFrom]
    dsimp only
    split_ifs with hgone hover
    · rw [find_cons_of_not, ih hlater hcursor (fun q hq => hseen q (List.mem_cons_of_mem _ hq)) hrest]
      rcases hgone with hid | hempty
      · exact hseen p List.mem_cons_self hid
      · exact fun hcovers => hempty (hcovers.1.trans_lt hcovers.2)
    · obtain ⟨-, hproper⟩ := not_or.mp hgone
      have hnot : ¬ p.Covers t := by
        rintro ⟨hle, hlt⟩
        cases hc : cursor with
        | none =>
          rw [hc] at hover
          exact hproper (not_lt.mpr hover)
        | some c =>
          rw [hc] at hover
          have := hcursor c hc
          have hover : p.stop ≤ max p.start c := hover
          omega
      rw [find_cons_of_not hnot, ih hlater hcursor (hnext (not_not.mp hproper) hnot) hrest]
    · obtain ⟨-, hproper⟩ := not_or.mp hgone
      have hle : cursor.elim p.start (max p.start) ≤ t ↔ p.start ≤ t := by
        cases hc : cursor with
        | none => exact Iff.rfl
        | some c => exact max_le_iff.trans (and_iff_left (hcursor c hc))
      by_cases hcovers : p.Covers t
      · have hhead : Program.Covers { p with start := cursor.elim p.start (max p.start) } t :=
          ⟨hle.mpr hcovers.1, hcovers.2⟩
        rw [find_cons_of_covers hhead, find_cons_of_covers hcovers]
        rfl
      · rw [find_cons_of_not hcovers, find_cons_of_not]
        · by_cases hbefore : t < p.start
          · -- everything else starts later still
            obtain ⟨-, hafter⟩ := tidy_trimFrom (p.id :: seen) (some p.stop) ps
            rw [find_eq_none_of_after fun q hq => ?_, find_eq_none_of_after fun q hq => ?_]
            · have := List.rel_of_pairwise_cons hsorted hq
              omega
            · have := hafter q hq _ rfl
              have := not_not.mp hproper
              omega
          · refine ih hlater (fun c hc => ?_) (hnext (not_not.mp hproper) hcovers) hrest
            obtain rfl := Option.some.inj hc
            by_contra hlt
            exact hcovers ⟨not_lt.mp hbefore, not_le.mp hlt⟩
        · exact fun hhead => hcovers ⟨hle.mp hhead.1, hhead.2⟩

end Trim

section Normalize

variable [LinearOrder ι]

theorem tidy_normalizePrograms (ps : List (Program ι)) : Tidy (normalizePrograms ps) :=
  (tidy_trimFrom _ _ _).1

theorem Program.key_injective : Function.Injective (Program.key (ι := ι)) := by
  intro p q h
  obtain ⟨hstart, h⟩ := Prod.mk.inj (toLex.injective h)
  obtain ⟨hstop, hid⟩ := Prod.mk.inj (toLex.injective h)
  cases p
  cases q
  simp_all

/-- The first programme of an instant depends only on the programmes that cover it. -/
theorem find_sort_congr (h : ∀ p : Program ι, p.Covers t → (p ∈ ps ↔ p ∈ qs)) :
    ((ps.insertionSort fun p q => p.key ≤ q.key).find? fun p => p.Covers t) =
      (qs.insertionSort fun p q => p.key ≤ q.key).find? fun p => p.Covers t := by
  have hnone {l l' : List (Program ι)} (hl : ∀ p : Program ι, p.Covers t → p ∈ l' → p ∈ l)
      (hfind : (l.find? fun p => p.Covers t) = none) : (l'.find? fun p => p.Covers t) = none := by
    rw [List.find?_eq_none] at hfind ⊢
    exact fun p hp hcovers => hfind p (hl p (of_decide_eq_true hcovers) hp) hcovers
  have hle {l : List (Program ι)} {p q : Program ι} (hsorted : l.Pairwise fun p q => p.key ≤ q.key)
      (hp : (l.find? fun p => p.Covers t) = some p) (hq : q ∈ l) (hcovers : q.Covers t) :
      p.key ≤ q.key := by
    obtain ⟨-, pre, post, rfl, hpre⟩ := List.find?_eq_some_iff_append.mp hp
    rcases List.mem_append.mp hq with hq | hq
    · exact absurd (hpre q hq) (by simpa using hcovers)
    · rcases List.mem_cons.mp hq with rfl | hq
      · exact le_rfl
      · exact List.rel_of_pairwise_cons (List.pairwise_append.mp hsorted).2.1 hq
  have hps := List.pairwise_insertionSort (fun p q : Program ι => p.key ≤ q.key) ps
  have hqs := List.pairwise_insertionSort (fun p q : Program ι => p.key ≤ q.key) qs
  have hiff (p : Program ι) (hcovers : p.Covers t) :
      p ∈ ps.insertionSort (fun p q => p.key ≤ q.key) ↔
        p ∈ qs.insertionSort fun p q => p.key ≤ q.key := by
    rw [List.mem_insertionSort, List.mem_insertionSort]
    exact h p hcovers
  cases hp : (ps.insertionSort fun p q => p.key ≤ q.key).find? fun p => p.Covers t with
  | none => exact (hnone (fun p hcovers => (hiff p hcovers).mpr) hp).symm
  | some p =>
    cases hq : (qs.insertionSort fun p q => p.key ≤ q.key).find? fun p => p.Covers t with
    | none =>
      rw [hnone (fun p hcovers => (hiff p hcovers).mp) hq] at hp
      cases hp
    | some q =>
      have hpt := covers_of_find hp
      have hqt := covers_of_find hq
      have hpq := hle hps hp ((hiff q hqt).mpr (List.mem_of_find?_eq_some hq)) hqt
      have hqp := hle hqs hq ((hiff p hpt).mp (List.mem_of_find?_eq_some hp)) hpt
      rw [Program.key_injective (le_antisymm hpq hqp)]

/-- **Normalized programmes** of an instant: the first of those that cover it. -/
theorem find_normalizePrograms
    (hone : ∀ p ∈ ps, ∀ q ∈ ps, p.start < p.stop → q.start < q.stop → p.id = q.id →
      p.start = q.start ∧ p.stop = q.stop) :
    ((normalizePrograms ps).find? fun p => p.Covers t).map Program.id =
      ((ps.insertionSort fun p q => p.key ≤ q.key).find? fun p => p.Covers t).map Program.id := by
  refine find_trimFrom ?_ (fun _ => (nomatch ·)) (fun _ _ => (nomatch ·)) fun p hp q hq => ?_
  · refine (List.pairwise_insertionSort _ ps).imp fun {p q} hle => ?_
    rcases (Prod.Lex.le_iff (α := ℤ)).mp hle with hlt | heq
    · exact hlt.le
    · exact heq.1.le
  · exact hone p ((List.mem_insertionSort _).mp hp) q ((List.mem_insertionSort _).mp hq)

end Normalize

/-! ## Cells -/

/-- Cells that follow each other, each with something in view, and the gaps inside the range. -/
structure LaidOut (o : RowLayoutOptions) (cells : List (Cell ι)) : Prop where
  apart : cells.Pairwise fun c d => c.stop ≤ d.start
  seen : ∀ c ∈ cells, max c.start o.viewStart < min c.stop o.viewEnd
  gaps : ∀ c ∈ cells, c.kind = .gap → o.rangeFrom ≤ c.start ∧ c.stop ≤ o.rangeTo

namespace RowLayoutOptions

variable {kind : CellKind} {start stop at_ lo : ℤ} {program : Option (Program ι)} {c : Cell ι}

theorem mem_push (h : c ∈ o.push kind start stop program) :
    c = o.cell kind start stop program ∧ max start o.viewStart < min stop o.viewEnd := by
  unfold push at h
  split_ifs at h with hout
  · cases h
  · exact ⟨List.mem_singleton.mp h, not_le.mp hout⟩

theorem lastGap_eq (at_ : ℤ) : (o.lastGap at_ : List (Cell ι)) = o.gapBefore at_ o.rangeTo := by
  unfold lastGap gapBefore
  simp only [and_self, min_self]

theorem mem_gapBefore (h : c ∈ o.gapBefore at_ stop) :
    c = o.cell .gap at_ (min stop o.rangeTo) none ∧
      max at_ o.viewStart < min (min stop o.rangeTo) o.viewEnd := by
  unfold gapBefore at h
  split_ifs at h
  · exact mem_push h
  · cases h

theorem drawnAt_singleton (c : Cell ι) :
    drawnAt [c] t = if c.Covers t then some (c.program.map Program.id) else none := by
  by_cases h : c.Covers t <;> simp [drawnAt, h]

theorem drawnAt_push (ht : o.viewStart ≤ t ∧ t < o.viewEnd) :
    drawnAt (o.push kind start stop program) t =
      if start ≤ t ∧ t < stop then some (program.map Program.id) else none := by
  have hcell : (o.cell kind start stop program).Covers t ↔ start ≤ t ∧ t < stop := Iff.rfl
  unfold push
  split_ifs with hout hcovers hcovers
  · omega
  · rfl
  · rw [drawnAt_singleton, if_pos (hcell.mpr hcovers)]
    rfl
  · rw [drawnAt_singleton, if_neg (hcell.not.mpr hcovers)]

theorem drawnAt_append (cells cells' : List (Cell ι)) :
    drawnAt (cells ++ cells') t = (drawnAt cells t).or (drawnAt cells' t) := by
  unfold drawnAt
  rw [List.find?_append]
  cases cells.find? fun c => c.Covers t <;> rfl

theorem drawnAt_gapBefore (ht : o.viewStart ≤ t ∧ t < o.viewEnd) :
    drawnAt (o.gapBefore at_ stop : List (Cell ι)) t =
      if at_ ≤ t ∧ t < stop ∧ t < o.rangeTo then some none else none := by
  unfold gapBefore
  by_cases hgap : at_ < stop ∧ at_ < o.rangeTo
  · rw [if_pos hgap, drawnAt_push ht]
    refine if_congr ?_ rfl rfl
    omega
  · rw [if_neg hgap, if_neg (by omega)]
    rfl

theorem drawnAt_lastGap (ht : o.viewStart ≤ t ∧ t < o.viewEnd) :
    drawnAt (o.lastGap at_ : List (Cell ι)) t =
      if at_ ≤ t ∧ t < o.rangeTo then some none else none := by
  rw [lastGap_eq, drawnAt_gapBefore ht]
  refine if_congr ?_ rfl rfl
  omega

/-- **The cells from the cursor on** draw the programme of an instant, or a gap. -/
theorem drawnAt_cellsFrom (htidy : Tidy ps) (ht : o.viewStart ≤ t ∧ t < o.viewEnd) (at_ : ℤ) :
    drawnAt (o.cellsFrom at_ ps) t =
      match ps.find? fun p => p.Covers t with
      | some p => some (some p.id)
      | none => if at_ ≤ t ∧ t < o.rangeTo then some none else none := by
  induction ps generalizing at_ with
  | nil => exact drawnAt_lastGap ht
  | cons p ps ih =>
    have hproper := htidy.proper p List.mem_cons_self
    rw [cellsFrom]
    by_cases hend : o.viewEnd ≤ p.start
    · -- this one and all others start after the view
      rw [if_pos hend, drawnAt_lastGap ht, find_eq_none_of_after fun q hq => ?_]
      rcases List.mem_cons.mp hq with rfl | hq
      · omega
      · have := htidy.after hq
        omega
    · rw [if_neg hend, drawnAt_append, drawnAt_append, drawnAt_gapBefore ht, drawnAt_push ht,
        ih htidy.tail]
      by_cases hcovers : p.Covers t
      · have hstart := hcovers.1
        rw [find_cons_of_covers hcovers, if_pos (show p.start ≤ t ∧ t < p.stop from hcovers),
          if_neg (by omega)]
        rfl
      · have hside : t < p.start ∨ p.stop ≤ t := by
          by_contra hboth
          obtain ⟨hstart, hstop⟩ := not_or.mp hboth
          exact hcovers ⟨not_lt.mp hstart, not_le.mp hstop⟩
        rw [find_cons_of_not hcovers, if_neg (show ¬ (p.start ≤ t ∧ t < p.stop) from hcovers),
          Option.or_none]
        rcases hside with hbefore | hafter
        · -- the programmes after it start later still
          rw [find_eq_none_of_after fun q hq => by have := htidy.after hq; omega]
          dsimp only
          rw [if_neg (show ¬ (max at_ p.stop ≤ t ∧ t < o.rangeTo) by omega), Option.or_none]
          refine if_congr ?_ rfl rfl
          omega
        · rw [if_neg (by omega), Option.none_or]
          split
          · rfl
          · refine if_congr ?_ rfl rfl
            omega

theorem laidOut_gapBefore (hfrom : o.rangeFrom ≤ at_) :
    LaidOut o (o.gapBefore at_ stop : List (Cell ι)) := by
  refine ⟨?_, fun c hc => ?_, fun c hc _ => ?_⟩
  · unfold gapBefore push
    split_ifs
    · exact List.Pairwise.nil
    · exact List.pairwise_singleton _ _
    · exact List.Pairwise.nil
  · obtain ⟨rfl, hseen⟩ := mem_gapBefore hc
    exact hseen
  · obtain ⟨rfl, -⟩ := mem_gapBefore hc
    exact ⟨hfrom, min_le_right _ _⟩

theorem laidOut_lastGap (hfrom : o.rangeFrom ≤ at_) (hlo : lo ≤ at_) :
    LaidOut o (o.lastGap at_ : List (Cell ι)) ∧
      ∀ c ∈ (o.lastGap at_ : List (Cell ι)), lo ≤ c.start := by
  rw [lastGap_eq]
  refine ⟨laidOut_gapBefore hfrom, fun c hc => ?_⟩
  obtain ⟨rfl, -⟩ := mem_gapBefore hc
  exact hlo

/-- **The cells from the cursor on** start no earlier than it and the programmes do. -/
theorem laidOut_cellsFrom (htidy : Tidy ps) (hfrom : o.rangeFrom ≤ at_) (hlo : lo ≤ at_)
    (hps : ∀ p ∈ ps, lo ≤ p.start) :
    LaidOut o (o.cellsFrom at_ ps) ∧ ∀ c ∈ o.cellsFrom at_ ps, lo ≤ c.start := by
  induction ps generalizing at_ lo with
  | nil => exact laidOut_lastGap hfrom hlo
  | cons p ps ih =>
    have hproper := htidy.proper p List.mem_cons_self
    have hstart := hps p List.mem_cons_self
    rw [cellsFrom]
    split_ifs
    · exact laidOut_lastGap hfrom hlo
    · obtain ⟨hrest, hafter⟩ := ih (htidy.tail) (hfrom.trans (le_max_left at_ p.stop))
        (le_max_right at_ p.stop) fun q hq => htidy.after hq
      have hgap := @laidOut_gapBefore ι _ p.start _ hfrom
      -- each cell is the gap, the programme or one of the rest
      have hcases {c : Cell ι} (hc : c ∈ o.gapBefore at_ p.start ++
          o.push .program p.start p.stop (some p) ++ o.cellsFrom (max at_ p.stop) ps) :
          c ∈ o.gapBefore at_ p.start ∨ c ∈ o.push .program p.start p.stop (some p) ∨
            c ∈ o.cellsFrom (max at_ p.stop) ps := by
        rwa [List.append_assoc, List.mem_append, List.mem_append] at hc
      refine ⟨⟨List.pairwise_append.mpr ⟨List.pairwise_append.mpr ⟨hgap.apart, ?_, ?_⟩,
        hrest.apart, ?_⟩, fun c hc => ?_, fun c hc hkind => ?_⟩, fun c hc => ?_⟩
      · unfold push
        split_ifs
        · exact List.Pairwise.nil
        · exact List.pairwise_singleton _ _
      · intro c hc d hd
        obtain ⟨rfl, -⟩ := mem_gapBefore hc
        obtain ⟨rfl, -⟩ := mem_push hd
        exact min_le_left _ _
      · intro c hc d hd
        have hd := hafter d hd
        rcases List.mem_append.mp hc with hc | hc
        · obtain ⟨rfl, -⟩ := mem_gapBefore hc
          exact (min_le_left _ _).trans (hproper.le.trans hd)
        · obtain ⟨rfl, -⟩ := mem_push hc
          exact hd
      · rcases hcases hc with hc | hc | hc
        · exact hgap.seen c hc
        · obtain ⟨rfl, hseen⟩ := mem_push hc
          exact hseen
        · exact hrest.seen c hc
      · rcases hcases hc with hc | hc | hc
        · exact hgap.gaps c hc hkind
        · obtain ⟨rfl, -⟩ := mem_push hc
          cases hkind
        · exact hrest.gaps c hc hkind
      · rcases hcases hc with hc | hc | hc
        · obtain ⟨rfl, -⟩ := mem_gapBefore hc
          exact hlo
        · obtain ⟨rfl, -⟩ := mem_push hc
          exact hstart
        · exact hstart.trans (hproper.le.trans (hafter c hc))

end RowLayoutOptions

/-! ## Rows -/

theorem over_of_firstEndingAfter (htidy : Tidy ps) (n : ℕ)
    (hn : n < firstEndingAfter ps t) (hp : ps[n]? = some p) : p.stop ≤ t := by
  have hmono : ∀ a b, a ≤ b → b < ps.length → (ps[a]?).any (fun p => t < p.stop) = true →
      (ps[b]?).any (fun p => t < p.stop) = true := by
    intro a b hab hb ha
    rw [List.getElem?_eq_getElem hb, Option.any_some, decide_eq_true_eq]
    rw [List.getElem?_eq_getElem (hab.trans_lt hb), Option.any_some, decide_eq_true_eq] at ha
    rcases hab.eq_or_lt with rfl | hlt
    · exact ha
    · have := List.pairwise_iff_getElem.mp htidy.apart a b (hab.trans_lt hb) hb hlt
      have := htidy.proper _ (List.getElem_mem hb)
      omega
  have hlow := ((search_eq_iff hmono).mp rfl).2.1 n hn
  rw [hp, Option.any_some, decide_eq_false_iff_not] at hlow
  exact not_lt.mp hlow

/-- **A row** draws the programme of each instant, and gaps inside its range. -/
theorem drawnAt_layoutRow (htidy : Tidy ps) (ht : o.viewStart ≤ t ∧ t < o.viewEnd) :
    drawnAt (layoutRow ps o) t =
      match (ps.find? fun p => p.Covers t).map Program.id with
      | some id => some (some id)
      | none => if o.rangeFrom ≤ t ∧ t < o.rangeTo then some none else none := by
  have hfind : ((ps.drop (firstEndingAfter ps o.viewStart)).find? fun p => p.Covers t) =
      ps.find? fun p => p.Covers t := by
    conv_rhs => rw [← List.take_append_drop (firstEndingAfter ps o.viewStart) ps]
    rw [List.find?_append]
    have hnone : ((ps.take (firstEndingAfter ps o.viewStart)).find? fun p => p.Covers t) = none := by
      rw [List.find?_eq_none]
      intro p hp hcovers
      obtain ⟨n, hn⟩ := List.mem_iff_getElem?.mp hp
      rw [List.getElem?_take] at hn
      split_ifs at hn with hlt
      have := over_of_firstEndingAfter htidy n hlt hn
      have := (of_decide_eq_true hcovers).2
      omega
    rw [hnone, Option.none_or]
  unfold layoutRow
  rw [RowLayoutOptions.drawnAt_cellsFrom (htidy.drop _) ht, hfind]
  cases ps.find? fun p => p.Covers t <;> rfl

/-- **The cells of a row** are in order and apart, each in view, and the gaps inside the range. -/
theorem laidOut_layoutRow (htidy : Tidy ps) (o : RowLayoutOptions) : LaidOut o (layoutRow ps o) := by
  unfold layoutRow
  have hrest := htidy.drop (firstEndingAfter ps o.viewStart)
  cases h : ps.drop (firstEndingAfter ps o.viewStart) with
  | nil => exact (RowLayoutOptions.laidOut_lastGap le_rfl le_rfl).1
  | cons p qs =>
    rw [h] at hrest
    refine (RowLayoutOptions.laidOut_cellsFrom hrest le_rfl (min_le_left _ p.start)
      fun q hq => (min_le_right _ _).trans ?_).1
    rcases List.mem_cons.mp hq with rfl | hq
    · exact le_rfl
    · exact (hrest.proper p List.mem_cons_self).le.trans (hrest.after hq)

end Portico.Guide
