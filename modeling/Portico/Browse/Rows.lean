import Portico.Lib.CountedBlocks
import Portico.Lib.Runs

/-!
# Browse rows and their orders

The rows that the catalogue is browsed by, and the fifteen orders that they are shown in. Each order
has a key, and a row's place in it is the key with the row's entity. An order is kept for some
kinds.
-/

namespace Portico.Browse

/-- A value of a column; numbers come before texts. -/
abbrev Value := ℚ ⊕ₗ String

def number (n : ℚ) : Value := toLex (Sum.inl n)

def text (s : String) : Value := toLex (Sum.inr s)

/-- A row's place in an order: its key, then its entity. -/
abbrev Place := Value ×ₗ ℤ

instance : DecidableEq Place := LinearOrder.toDecidableEq

structure Row where
  entity : ℤ
  library : ℤ
  kind : ℤ
  sortKey : String := ""
  year : ℤ := 0
  addedText : Option String := none
  durationMax : Option ℚ := none
  ratingMax : Option ℚ := none
  releaseKey : String := ""
  latestAiredKey : String := ""
  criticKey : ℚ := 0
  episodeCount : ℤ := 0
  albumKey : String := ""
  artistKey : String := ""
  trackKey : ℤ := 0
  fileSize : ℤ := 0
  resolutionKey : ℤ := 0
  randomKey : ℤ := 0
deriving DecidableEq

inductive Ordering
  | title
  | added
  | year
  | duration
  | rating
  | random
  | release
  | latestAired
  | critic
  | episodeCount
  | album
  | artist
  | track
  | fileSize
  | resolution
deriving DecidableEq, Repr

/-- ASCII letters are folded, and no others. -/
def lower (s : String) : String :=
  s.map fun c => if 'A' ≤ c ∧ c ≤ 'Z' then Char.ofNat (c.toNat + 32) else c

namespace Ordering

def all : List Ordering :=
  [.title, .added, .year, .duration, .rating, .random, .release, .latestAired, .critic, .episodeCount,
    .album, .artist, .track, .fileSize, .resolution]

theorem mem_all (o : Ordering) : o ∈ all := by
  cases o <;> decide

/-- The column that an order is made of. -/
def column (o : Ordering) (r : Row) : Option Value :=
  match o with
  | .title => some (text r.sortKey)
  | .added => r.addedText.map text
  | .year => some (number r.year)
  | .duration => r.durationMax.map number
  | .rating => r.ratingMax.map number
  | .random => some (number r.randomKey)
  | .release => some (text r.releaseKey)
  | .latestAired => some (text r.latestAiredKey)
  | .critic => some (number r.criticKey)
  | .episodeCount => some (number r.episodeCount)
  | .album => some (text r.albumKey)
  | .artist => some (text r.artistKey)
  | .track => some (number r.trackKey)
  | .fileSize => some (number r.fileSize)
  | .resolution => some (number r.resolutionKey)

/-- The key of an order. -/
def key (o : Ordering) (r : Row) : Value :=
  match o with
  | .title => text (lower r.sortKey)
  | .added => text (r.addedText.getD "")
  | .year => number r.year
  | .duration => number (r.durationMax.getD 0)
  | .rating => number (r.ratingMax.getD 0)
  | .random => number r.randomKey
  | .release => text r.releaseKey
  | .latestAired => text r.latestAiredKey
  | .critic => number r.criticKey
  | .episodeCount => number r.episodeCount
  | .album => text r.albumKey
  | .artist => text r.artistKey
  | .track => number r.trackKey
  | .fileSize => number r.fileSize
  | .resolution => number r.resolutionKey

/-- The kinds that an order is kept for, when it isn't kept for all. -/
def kinds : Ordering → Option (List ℤ)
  | .release => some [1, 2, 3, 4, 6, 8]
  | .latestAired => some [2]
  | .critic | .resolution => some [1, 2, 3, 4, 10]
  | .episodeCount => some [2, 3]
  | .album | .track => some [7]
  | .artist => some [6, 7]
  | .fileSize => some [1, 2, 3, 4, 5, 6, 7, 8, 9, 10]
  | _ => none

def keeps (o : Ordering) (kind : ℤ) : Bool :=
  match o.kinds with
  | none => true
  | some kinds => kind ∈ kinds

def place (o : Ordering) (r : Row) : Place := toLex (o.key r, r.entity)

theorem key_congr {o : Ordering} {r r' : Row} (h : o.column r = o.column r') : o.key r = o.key r' := by
  have hnumber : ∀ {m n : ℚ}, number m = number n → m = n := fun h => Sum.inl.inj (toLex.injective h)
  have htext : ∀ {s t : String}, text s = text t → s = t := fun h => Sum.inr.inj (toLex.injective h)
  cases o with
  | title => exact congrArg (fun s => text (lower s)) (htext (Option.some.inj h))
  | added =>
    have hcolumn := Option.map_injective (fun _ _ => htext) h
    exact congrArg (fun s : Option String => text (s.getD "")) hcolumn
  | duration =>
    have hcolumn := Option.map_injective (fun _ _ => hnumber) h
    exact congrArg (fun n : Option ℚ => number (n.getD 0)) hcolumn
  | rating =>
    have hcolumn := Option.map_injective (fun _ _ => hnumber) h
    exact congrArg (fun n : Option ℚ => number (n.getD 0)) hcolumn
  | year | random | release | latestAired | critic | episodeCount | album | artist | track | fileSize
  | resolution => exact Option.some.inj h

end Ordering

/-- The places of the rows of a library and kind. -/
def places (o : Ordering) (library kind : ℤ) (rows : List Row) : List Place :=
  (rows.filter fun r => r.library = library ∧ r.kind = kind).map o.place

/-- The places that an order is kept for. -/
def placeSet (o : Ordering) (library kind : ℤ) (rows : List Row) : Finset Place :=
  if o.keeps kind then (places o library kind rows).toFinset else ∅

variable {o : Ordering} {library kind : ℤ} {rows rows' : List Row} {r : Row} {p : Place}

theorem mem_places : p ∈ places o library kind rows ↔
    ∃ r ∈ rows, r.library = library ∧ r.kind = kind ∧ o.place r = p := by
  unfold places
  rw [List.mem_map]
  constructor
  · rintro ⟨r, hr, rfl⟩
    obtain ⟨hr, hscope⟩ := List.mem_filter.mp hr
    have hscope := of_decide_eq_true hscope
    exact ⟨r, hr, hscope.1, hscope.2, rfl⟩
  · rintro ⟨r, hr, hlibrary, hkind, rfl⟩
    exact ⟨r, List.mem_filter.mpr ⟨hr, decide_eq_true ⟨hlibrary, hkind⟩⟩, rfl⟩

theorem mem_placeSet : p ∈ placeSet o library kind rows ↔
    o.keeps kind = true ∧ ∃ r ∈ rows, r.library = library ∧ r.kind = kind ∧ o.place r = p := by
  unfold placeSet
  split_ifs with hkeeps
  · rw [List.mem_toFinset, mem_places]
    exact (and_iff_right hkeeps).symm
  · simp [hkeeps]

theorem nodup_places (hkeys : (rows.map Row.entity).Nodup) : (places o library kind rows).Nodup := by
  apply List.Nodup.of_map fun p : Place => (ofLex p).2
  unfold places
  rw [List.map_map]
  exact hkeys.sublist (List.filter_sublist.map _)

end Portico.Browse
