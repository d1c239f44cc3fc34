import Mathlib

/-!
# Tilings of a range

Half-open intervals, one after the other, that cover a range with no gap and no overlap.

## Main results

* `tiles_append`: a tiling of two ranges side by side
* `Tiles.sorted`: the intervals are one after the other
* `Tiles.filter_later`, `Tiles.filter_earlier`: the intervals in a window of a tiling are a tiling
-/

namespace Portico

variable {α : Type*} {start stop : α → ℤ} {lo mid hi t : ℤ} {l l' : List α} {a b : α}

/-- The intervals of a list cover a range, each one from where the one before it ends. -/
def Tiles (start stop : α → ℤ) : ℤ → List α → ℤ → Prop
  | lo, [], hi => lo = hi
  | lo, a :: l, hi => start a = lo ∧ start a < stop a ∧ Tiles start stop (stop a) l hi

theorem tiles_nil : Tiles start stop lo [] hi ↔ lo = hi := Iff.rfl

theorem tiles_cons :
    Tiles start stop lo (a :: l) hi ↔
      start a = lo ∧ start a < stop a ∧ Tiles start stop (stop a) l hi := Iff.rfl

theorem Tiles.le (h : Tiles start stop lo l hi) : lo ≤ hi := by
  induction l generalizing lo with
  | nil => exact le_of_eq h
  | cons a l ih =>
    obtain ⟨hstart, hlen, hrest⟩ := h
    have := ih hrest
    omega

theorem tiles_append :
    Tiles start stop lo (l ++ l') hi ↔
      ∃ mid, Tiles start stop lo l mid ∧ Tiles start stop mid l' hi := by
  induction l generalizing lo with
  | nil => simp [tiles_nil]
  | cons a l ih =>
    rw [List.cons_append, tiles_cons, ih]
    constructor
    · rintro ⟨hstart, hlen, mid, hl, hl'⟩
      exact ⟨mid, ⟨hstart, hlen, hl⟩, hl'⟩
    · rintro ⟨mid, ⟨hstart, hlen, hl⟩, hl'⟩
      exact ⟨hstart, hlen, mid, hl, hl'⟩

theorem Tiles.concat (h : Tiles start stop lo l hi) (hstart : start a = hi)
    (hlen : start a < stop a) : Tiles start stop lo (l ++ [a]) (stop a) :=
  tiles_append.mpr ⟨hi, h, hstart, hlen, rfl⟩

theorem Tiles.mem (h : Tiles start stop lo l hi) (ha : a ∈ l) :
    lo ≤ start a ∧ start a < stop a ∧ stop a ≤ hi := by
  induction l generalizing lo with
  | nil => cases ha
  | cons b l ih =>
    obtain ⟨hstart, hlen, hrest⟩ := h
    have hle := hrest.le
    rcases List.mem_cons.mp ha with rfl | ha
    · omega
    · have := ih hrest ha
      omega

theorem Tiles.sorted (h : Tiles start stop lo l hi) :
    l.Pairwise fun a b => stop a ≤ start b := by
  induction l generalizing lo with
  | nil => exact List.Pairwise.nil
  | cons a l ih =>
    obtain ⟨-, -, hrest⟩ := h
    exact List.pairwise_cons.mpr ⟨fun b hb => (hrest.mem hb).1, ih hrest⟩

/-- Where the first interval of a tiling starts, or the end of an empty one. -/
def first (start : α → ℤ) (hi : ℤ) : List α → ℤ
  | [] => hi
  | a :: _ => start a

theorem Tiles.first (h : Tiles start stop lo l hi) : Portico.first start hi l = lo := by
  cases l with
  | nil => exact h.symm
  | cons a l => exact h.1

/-- The intervals of a tiling that a condition holds of, which holds of all later ones then, tile the
range from where the first of them starts. -/
theorem Tiles.filter_later {p : α → Bool} (h : Tiles start stop lo l hi)
    (hp : ∀ a b, stop a ≤ start b → p a = true → p b = true) :
    ∃ lo', Tiles start stop lo' (l.filter p) hi := by
  induction l generalizing lo with
  | nil => exact ⟨lo, h⟩
  | cons a l ih =>
    have hall := h.sorted
    obtain ⟨-, hlen, hrest⟩ := h
    cases ha : p a with
    | false =>
      rw [List.filter_cons_of_neg (by simp [ha])]
      exact ih hrest
    | true =>
      -- all that follow are kept
      have hself : (a :: l).filter p = a :: l := by
        rw [List.filter_eq_self]
        intro b hb
        rcases List.mem_cons.mp hb with rfl | hb
        · exact ha
        · exact hp a b ((List.pairwise_cons.mp hall).1 b hb) ha
      rw [hself]
      exact ⟨start a, rfl, hlen, hrest⟩

/-- The intervals of a tiling that a condition holds of, which held of all earlier ones then, tile
the range up to where the last of them ends. -/
theorem Tiles.filter_earlier {p : α → Bool} (h : Tiles start stop lo l hi)
    (hp : ∀ a b, stop a ≤ start b → p b = true → p a = true) :
    ∃ hi', Tiles start stop lo (l.filter p) hi' := by
  induction l generalizing lo with
  | nil => exact ⟨hi, h⟩
  | cons a l ih =>
    have hall := h.sorted
    obtain ⟨hstart, hlen, hrest⟩ := h
    cases ha : p a with
    | true =>
      rw [List.filter_cons_of_pos ha]
      obtain ⟨hi', h'⟩ := ih hrest
      exact ⟨hi', hstart, hlen, h'⟩
    | false =>
      -- none that follow are kept
      have hnil : (a :: l).filter p = [] := by
        rw [List.filter_eq_nil_iff]
        intro b hb hpb
        rcases List.mem_cons.mp hb with rfl | hb
        · rw [ha] at hpb
          cases hpb
        · have hpa := hp a b ((List.pairwise_cons.mp hall).1 b hb) hpb
          rw [ha] at hpa
          cases hpa
      rw [hnil]
      exact ⟨lo, rfl⟩

theorem Tiles.max_stop (h : Tiles start stop lo l hi) (hl : l ≠ []) :
    (l.map stop).max? = some hi := by
  rw [List.max?_eq_some_iff]
  obtain ⟨front, a, rfl⟩ := (List.eq_nil_or_concat' l).resolve_left hl
  obtain ⟨mid, -, -, -, hstop⟩ := tiles_append.mp h
  constructor
  · rw [← tiles_nil.mp hstop]
    simp
  · intro b hb
    obtain ⟨c, hc, rfl⟩ := List.mem_map.mp hb
    exact (h.mem hc).2.2

theorem Tiles.min_start (h : Tiles start stop lo l hi) (hl : l ≠ []) :
    (l.map start).min? = some lo := by
  rw [List.min?_eq_some_iff]
  obtain ⟨a, rest, rfl⟩ := List.exists_cons_of_ne_nil hl
  constructor
  · rw [← h.1]
    simp
  · intro b hb
    obtain ⟨c, hc, rfl⟩ := List.mem_map.mp hb
    exact (h.mem hc).1

end Portico
