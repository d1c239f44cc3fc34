import Portico.Guide.Events
import Portico.Guide.Layout

/-!
# The guide: the rows on the screen

What a row draws is merged from the tiles of its view. Two views draw the same at an instant when the
tiles agree: each lists the programmes that reach into its block, and a programme has one time.

## Main results

* `guide_rows`: rows are laid out without overlaps, and views draw the same where the tiles agree
-/

namespace Portico.Guide.Store

variable {κ ι : Type*} [LinearOrder ι] (s : Store κ (κ → List (Program ι)))

def channelAt (row : ℤ) : Option κ :=
  if s.pageOf row < 0 then none
  else
    (s.pages.get (s.pageOf row).toNat).bind fun page =>
      if page.status = .ready then page.items[(row - s.pageOf row * s.o.channelPageSize).toNat]?
      else none

/-- What a tile of a row's page holds, of whatever generation. -/
def dataAt (row : ℤ) (b : ℤ) : Option (κ → List (Program ι)) :=
  (s.tiles.get ((s.pageOf row).toNat, b)).bind Tile.data

structure RowPrograms (ι : Type*) where
  programs : List (Program ι)
  complete : Bool
  failed : Bool

/-- The programmes of some tiles that overlap a span. -/
def merged (row : ℤ) (channel : κ) (start stop : ℤ) : List (Program ι) :=
  (blocksCovering start stop s.o.blockMs).flatMap fun b =>
    ((s.dataAt row b).elim [] fun data => data channel).filter fun p => start < p.stop ∧ p.start < stop

/-- The programmes of a row in a span, merged from its tiles. -/
def programsFor (row start stop : ℤ) : RowPrograms ι :=
  match s.channelAt row with
  | none => ⟨[], false, false⟩
  | some channel =>
    { programs := normalizePrograms (s.merged row channel start stop)
      complete := (blocksCovering start stop s.o.blockMs).all fun b => (s.dataAt row b).isSome
      failed := (blocksCovering start stop s.o.blockMs).any fun b =>
        (s.dataAt row b).isNone &&
          (s.tiles.get ((s.pageOf row).toNat, b)).any fun tile => tile.status = .error }

/-- The cells of a row on the screen. -/
def row (row : ℤ) (o : RowLayoutOptions) : List (Cell ι) :=
  layoutRow (s.programsFor row o.viewStart o.viewEnd).programs o

/-- **Tiles that agree**: a programme of one is listed by every other into whose block it reaches, and
programmes of one name have the same times. -/
def Agree (row : ℤ) : Prop :=
  ∀ channel, s.channelAt row = some channel → ∀ b c d e, s.dataAt row b = some d →
    s.dataAt row c = some e → ∀ p ∈ d channel, p.start < p.stop →
      (p.start < c + s.o.blockMs → c < p.stop → p ∈ e channel) ∧
      ∀ q ∈ e channel, q.start < q.stop → p.id = q.id → p.start = q.start ∧ p.stop = q.stop

variable {s} {r t : ℤ} {channel : κ} {start stop : ℤ} {p q : Program ι} {o o' : RowLayoutOptions}

omit [LinearOrder ι] in
theorem mem_merged : p ∈ s.merged r channel start stop ↔
    ∃ b ∈ blocksCovering start stop s.o.blockMs, ∃ d, s.dataAt r b = some d ∧ p ∈ d channel ∧
      start < p.stop ∧ p.start < stop := by
  unfold merged
  rw [List.mem_flatMap]
  refine exists_congr fun b => and_congr_right fun _ => ?_
  rw [List.mem_filter, decide_eq_true_eq]
  cases s.dataAt r b with
  | none => simp
  | some d => simp

theorem mem_blocksFrom_of_lt {blockMs : ℤ} (hpos : 0 < blockMs) {fuel i : ℕ} {b : ℤ}
    (hlt : b + i * blockMs < stop) (hi : i < fuel) : b + i * blockMs ∈ blocksFrom stop blockMs fuel b := by
  induction fuel generalizing i b with
  | zero => cases hi
  | succ fuel ih =>
    have hnonneg : 0 ≤ (i : ℤ) * blockMs := by positivity
    rw [blocksFrom, if_pos (by omega)]
    cases i with
    | zero => exact List.mem_cons.mpr (.inl (by simp))
    | succ i =>
      have heq : b + ((i + 1 : ℕ) : ℤ) * blockMs = (b + blockMs) + i * blockMs := by
        push_cast
        ring
      rw [heq] at hlt ⊢
      exact List.mem_cons_of_mem _ (ih hlt (Nat.lt_of_succ_lt_succ hi))

/-- The block of an instant is one of those that cover a span around it. -/
theorem floor_mem_blocksCovering {blockMs : ℤ} (hpos : 0 < blockMs) (ht : start ≤ t ∧ t < stop) :
    floorTo t blockMs ∈ blocksCovering start stop blockMs := by
  have hle : start / blockMs ≤ t / blockMs := Int.ediv_le_ediv hpos ht.1
  have hfloor : floorTo t blockMs ≤ t := Int.ediv_mul_le t hpos.ne'
  obtain ⟨i, hi⟩ := Int.le.dest hle
  have heq : floorTo t blockMs = floorTo start blockMs + i * blockMs := by
    unfold floorTo
    rw [← hi]
    ring
  unfold blocksCovering
  rw [if_pos ⟨by omega, hpos.ne'⟩, heq]
  have hlt : floorTo start blockMs + i * blockMs < stop := by omega
  refine mem_blocksFrom_of_lt hpos hlt ?_
  have : (i : ℤ) * 1 ≤ i * blockMs := mul_le_mul_of_nonneg_left hpos (Int.natCast_nonneg i)
  omega

theorem tidy_programsFor (row start stop : ℤ) : Tidy (s.programsFor row start stop).programs := by
  unfold programsFor
  split
  · exact ⟨fun _ => (nomatch ·), List.Pairwise.nil⟩
  · exact tidy_normalizePrograms _

omit [LinearOrder ι] in
theorem mem_merged_iff (hpos : 0 < s.o.blockMs) (hagree : s.Agree r)
    (hchannel : s.channelAt r = some channel) (ht : start ≤ t ∧ t < stop) (hcovers : p.Covers t)
    {e : κ → List (Program ι)} (he : s.dataAt r (floorTo t s.o.blockMs) = some e) :
    p ∈ s.merged r channel start stop ↔ p ∈ e channel := by
  have hfloor : floorTo t s.o.blockMs ≤ t := Int.ediv_mul_le t hpos.ne'
  have hnext : t < floorTo t s.o.blockMs + s.o.blockMs := by
    have := Int.lt_ediv_add_one_mul_self t hpos
    unfold floorTo
    linarith
  obtain ⟨hstart, hstop⟩ := hcovers
  rw [mem_merged]
  constructor
  · rintro ⟨b, -, d, hd, hp, -⟩
    exact (hagree channel hchannel b _ d e hd he p hp (by omega)).1 (by omega) (by omega)
  · intro hp
    exact ⟨_, floor_mem_blocksCovering hpos ht, e, he, hp, by omega, by omega⟩

theorem isSome_of_complete (h : (s.programsFor r start stop).complete = true) {b : ℤ}
    (hb : b ∈ blocksCovering start stop s.o.blockMs) : ∃ d, s.dataAt r b = some d := by
  unfold programsFor at h
  split at h
  · cases h
  · exact Option.isSome_iff_exists.mp (List.all_eq_true.mp h b hb)

theorem find_programsFor (hagree : s.Agree r) (hchannel : s.channelAt r = some channel) :
    ((s.programsFor r start stop).programs.find? fun p => p.Covers t).map Program.id =
      (((s.merged r channel start stop).insertionSort fun p q => p.key ≤ q.key).find? fun p =>
        p.Covers t).map Program.id := by
  unfold programsFor
  rw [hchannel]
  refine find_normalizePrograms fun p hp q hq hproper hproper' hid => ?_
  obtain ⟨b, -, d, hd, hp, -⟩ := mem_merged.mp hp
  obtain ⟨c, -, e, he, hq, -⟩ := mem_merged.mp hq
  exact (hagree channel hchannel b c d e hd he p hp hproper).2 q hq hproper' hid

/-- Two views that are loaded have the same programme at an instant. -/
theorem find_congr {start' stop' : ℤ} (hpos : 0 ≤ s.o.blockMs) (hagree : s.Agree r)
    (ht : start ≤ t ∧ t < stop) (ht' : start' ≤ t ∧ t < stop')
    (hcomplete : (s.programsFor r start stop).complete = true) :
    ((s.programsFor r start stop).programs.find? fun p => p.Covers t).map Program.id =
      ((s.programsFor r start' stop').programs.find? fun p => p.Covers t).map Program.id := by
  cases hchannel : s.channelAt r with
  | none =>
    unfold programsFor
    rw [hchannel]
  | some channel =>
    rw [find_programsFor hagree hchannel, find_programsFor hagree hchannel]
    congr 1
    apply find_sort_congr
    intro p hcovers
    rcases hpos.eq_or_lt with hzero | hpos
    · -- no block has length zero
      have hempty (start stop : ℤ) : s.merged r channel start stop = [] := by
        unfold merged blocksCovering
        rw [if_neg fun h => h.2 hzero.symm]
        rfl
      rw [hempty, hempty]
    · obtain ⟨e, he⟩ := isSome_of_complete hcomplete (floor_mem_blocksCovering hpos ht)
      rw [mem_merged_iff hpos hagree hchannel ht hcovers he,
        mem_merged_iff hpos hagree hchannel ht' hcovers he]

/-- **The rows of the guide.** Its cells are in order and apart, and fill the range in view; and when
the tiles agree, what a loaded view draws at an instant every view does. -/
theorem guide_rows (s : Store κ (κ → List (Program ι))) (r : ℤ) :
    (∀ o, LaidOut o (s.row r o) ∧ ∀ t, o.viewStart ≤ t → t < o.viewEnd → o.rangeFrom ≤ t →
      t < o.rangeTo → ∃ c ∈ s.row r o, c.Covers t) ∧
    (0 ≤ s.o.blockMs → s.Agree r → ∀ o o' t, o.viewStart ≤ t → t < o.viewEnd → o'.viewStart ≤ t →
      t < o'.viewEnd → o.rangeStart = o'.rangeStart → o.rangeEnd = o'.rangeEnd →
      (s.programsFor r o.viewStart o.viewEnd).complete = true →
      drawnAt (s.row r o) t = drawnAt (s.row r o') t) := by
  refine ⟨fun o => ⟨laidOut_layoutRow (tidy_programsFor _ _ _) o, ?_⟩, ?_⟩
  · intro t hstart hstop hfrom hto
    have hdrawn := drawnAt_layoutRow (o := o) (t := t)
      (tidy_programsFor (s := s) r o.viewStart o.viewEnd) ⟨hstart, hstop⟩
    have hsome : ((s.row r o).find? fun c => c.Covers t) ≠ none := by
      intro hnone
      change ((s.row r o).find? fun c => c.Covers t).map (fun c => c.program.map Program.id) = _
        at hdrawn
      rw [hnone] at hdrawn
      split at hdrawn
      · cases hdrawn
      · rw [if_pos ⟨hfrom, hto⟩] at hdrawn
        cases hdrawn
    obtain ⟨c, hc⟩ := Option.ne_none_iff_exists'.mp hsome
    have hcovers := List.find?_some hc
    exact ⟨c, List.mem_of_find?_eq_some hc, of_decide_eq_true hcovers⟩
  · intro hpos hagree o o' t h1 h2 h3 h4 hrs hre hcomplete
    unfold row
    rw [drawnAt_layoutRow (tidy_programsFor _ _ _) ⟨h1, h2⟩,
      drawnAt_layoutRow (tidy_programsFor _ _ _) ⟨h3, h4⟩,
      find_congr hpos hagree ⟨h1, h2⟩ ⟨h3, h4⟩ hcomplete]
    split
    · rfl
    · refine if_congr ?_ rfl rfl
      unfold RowLayoutOptions.rangeFrom RowLayoutOptions.rangeTo
      rw [hrs, hre]
      cases o'.rangeStart <;> cases o'.rangeEnd <;> simp <;> omega

/-- A guide with one channel and some tiles. -/
def tiled (tiles : List (ℤ × List (Program ℕ))) : Store ℕ (ℕ → List (Program ℕ)) :=
  { o := guideOptions
    pages := OrderedMap.set {} 0 ⟨0, .ready, [7], 0, none⟩
    tiles := tiles.foldl (fun m e => m.set (0, e.1)
      ⟨1, .ready, false, some fun _ => e.2, 0, none, 0⟩) {}
    rateLimitPages := ⟨[], List.nodup_nil⟩ }

def viewOf (start stop : ℤ) : RowLayoutOptions :=
  { viewStart := start, viewEnd := stop, pxPerMs := 1 / 7500, now := 0 }

/-- A programme in the first block. -/
abbrev evening : Store ℕ (ℕ → List (Program ℕ)) := tiled [(0, [⟨1, 3600000, 9000000⟩])]

theorem agree_evening : evening.Agree 0 := by
  have hdata {b : ℤ} {d : ℕ → List (Program ℕ)} (hd : evening.dataAt 0 b = some d) :
      d = fun _ => [⟨1, 3600000, 9000000⟩] := by
    obtain ⟨tile, htile, hdata⟩ := Option.bind_eq_some_iff.mp hd
    have hset := OrderedMap.get_set_eq_some.mp htile
    split_ifs at hset
    · rw [hset] at hdata
      exact (Option.some.inj hdata).symm
    · cases hset
  intro channel _ b c d e hd he p hp _
  obtain rfl := hdata hd
  obtain rfl := hdata he
  refine ⟨fun _ _ => hp, fun q hq _ _ => ?_⟩
  rw [List.mem_singleton.mp hp, List.mem_singleton.mp hq]
  exact ⟨rfl, rfl⟩

theorem guide_rows_evening :
    drawnAt (evening.row 0 (viewOf 0 7200000)) 5400000 =
      drawnAt (evening.row 0 (viewOf 5400000 10800000)) 5400000 :=
  (guide_rows evening 0).2 (by decide) agree_evening _ _ _ (by decide) (by decide) (by decide)
    (by decide) rfl rfl (by decide +kernel)

/-- A programme was moved from the first block to the second, and the first tile is old. -/
abbrev moved : Store ℕ (ℕ → List (Program ℕ)) :=
  tiled [(0, [⟨1, 7200000, 12600000⟩]), (10800000, [⟨1, 14400000, 18000000⟩])]

/-- Only a view that starts after its old time shows a moved programme at its new one. -/
theorem moved_programme : ¬ ∀ o o' t, o.viewStart ≤ t → t < o.viewEnd → o'.viewStart ≤ t →
    t < o'.viewEnd → o.rangeStart = o'.rangeStart → o.rangeEnd = o'.rangeEnd →
    (moved.programsFor 0 o.viewStart o.viewEnd).complete = true →
    (moved.programsFor 0 o'.viewStart o'.viewEnd).complete = true →
    drawnAt (moved.row 0 o) t = drawnAt (moved.row 0 o') t := by
  intro h
  have hsame := h (viewOf 7200000 21600000) (viewOf 13500000 21600000) 16200000 (by decide)
    (by decide) (by decide) (by decide) rfl rfl (by decide +kernel) (by decide +kernel)
  revert hsame
  decide +kernel

end Portico.Guide.Store
