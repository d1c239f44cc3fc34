import Mathlib

/-!
# Pages of a list

A page is a slice of a list. It is read in one run, backwards from the other end, across the border
of two lists, or around the end of a list that begins somewhere inside; and a reader that goes on
from the last row of each page gets all of them.

## Main results

* `reverse_slice`: a slice of the reversed list, read forwards
* `slice_append`: a slice across the border of two lists
* `slice_rotate`: a slice of a rotated list
* `follow_eq`: pages that go on from the last row of the one before are the list
-/

namespace Portico.Pages

variable {α : Type*} {l l' : List α} {start limit : ℕ}

/-! ## Slices -/

/-- A slice of the reversed list is that at the mirrored position, backwards. -/
theorem reverse_slice (l : List α) (start limit : ℕ) : ((l.drop (l.length - start - limit)).take
      (l.length - start - (l.length - start - limit))).reverse = (l.reverse.drop start).take limit := by
  rcases Nat.lt_or_ge l.length start with hstart | hstart
  · have hcount : l.length - start - (l.length - start - limit) = 0 := by omega
    rw [hcount, List.take_zero, List.reverse_nil, List.drop_eq_nil_of_le, List.take_nil]
    rw [List.length_reverse]
    exact hstart.le
  · rw [List.reverse_take, List.reverse_drop, List.length_drop, List.drop_take]
    have hdrop : l.length - (l.length - start - limit) -
        (l.length - start - (l.length - start - limit)) = start := by omega
    rw [hdrop]
    rcases Nat.le_total limit (l.length - start) with hlimit | hlimit
    · congr 1
      omega
    · -- the page holds all rows up to the end
      rw [List.take_of_length_le, List.take_of_length_le] <;>
        rw [List.length_drop, List.length_reverse] <;> omega

theorem slice_append : ((l ++ l').drop start).take limit =
    (l.drop start).take limit ++
      (l'.drop (start - l.length)).take (limit - ((l.drop start).take limit).length) := by
  rw [List.drop_append, List.take_append, List.length_take]
  congr 2
  omega

/-- What is left of a page after the first list is read from the second one. -/
theorem take_append_rest {n : ℕ} :
    l.take n ++ l'.take (n - (l.take n).length) = (l ++ l').take n := by
  rw [List.take_append, List.length_take]
  congr 2
  omega

/-- What is at some place of two lists is in the first one, or in the second. -/
theorem split_append {a : α} {before after : List α} (h : l ++ l' = before ++ a :: after) :
    (∃ mid, l = before ++ a :: mid ∧ after = mid ++ l') ∨ ∃ mid, l' = mid ++ a :: after := by
  rcases List.append_eq_append_iff.mp h with ⟨mid, -, hl'⟩ | ⟨mid, hl, hmid⟩
  · exact Or.inr ⟨mid, hl'⟩
  · cases mid with
    | nil => exact Or.inr ⟨[], hmid.symm⟩
    | cons b mid =>
      obtain ⟨rfl, rfl⟩ := List.cons.inj hmid
      exact Or.inl ⟨mid, hl, rfl⟩

theorem slice_rotate {r : ℕ} (hstart : start < l.length) :
    ((l.rotate r).drop start).take limit =
      (l.drop ((r + start) % l.length)).take
          (min (min limit (l.length - start)) (l.length - (r + start) % l.length)) ++
        l.take (min limit (l.length - start) -
          min (min limit (l.length - start)) (l.length - (r + start) % l.length)) := by
  have hmod : (r + start) % l.length < l.length := Nat.mod_lt _ (by omega)
  have hcut : ((l.rotate r).drop start).take limit =
      ((l.rotate r).rotate start).take (min limit (l.length - start)) := by
    have hlength : (l.rotate r).length = l.length := List.length_rotate ..
    generalize l.rotate r = k at hlength ⊢
    rw [List.rotate_eq_drop_append_take (hlength ▸ hstart.le), List.take_append,
      List.length_drop, hlength]
    have hrest : min limit (l.length - start) - (l.length - start) = 0 := by omega
    rw [hrest, List.take_zero, List.append_nil, List.take_eq_take_iff, List.length_drop, hlength]
    omega
  rw [hcut, List.rotate_rotate, ← List.rotate_mod, List.rotate_eq_drop_append_take hmod.le,
    List.take_append, List.length_drop]
  generalize (r + start) % l.length = k at hmod ⊢
  congr 1
  · rw [List.take_eq_take_iff, List.length_drop]
    omega
  · rw [List.take_take]
    congr 1
    omega

/-! ## Cursors -/

/-- What a reader gets that goes on from the last row of each page, as long as there are more. -/
def follow (page : Option α → List α) (total : ℕ) : ℕ → ℕ → Option α → List α
  | 0, _, _ => []
  | fuel + 1, start, cursor =>
    page cursor ++
      if start + (page cursor).length < total then
        match (page cursor).getLast? with
        | none => []
        | some last => follow page total fuel (start + (page cursor).length) (some last)
      else []

theorem follow_from {page : Option α → List α} (hlimit : 0 < limit) {fuel : ℕ}
    (hnext : ∀ before q after, l = before ++ q :: after → page (some q) = after.take limit)
    {before after : List α} {cursor : Option α} (hl : l = before ++ after)
    (hpage : page cursor = after.take limit) (hfuel : after.length ≤ fuel) :
    follow page l.length fuel before.length cursor = after := by
  induction fuel generalizing before after cursor with
  | zero => exact (List.length_eq_zero_iff.mp (Nat.le_zero.mp hfuel)).symm
  | succ fuel ih =>
    unfold follow
    rw [hpage]
    have hlength : l.length = before.length + after.length := by rw [hl, List.length_append]
    split_ifs with hmore
    · have hlong : limit < after.length := by
        rw [hlength, List.length_take] at hmore
        omega
      -- the next page begins after the last row of this one
      obtain ⟨row, rest, htake⟩ : ∃ row rest, after.take limit = rest ++ [row] := by
        rcases List.eq_nil_or_concat (after.take limit) with hnil | ⟨rest, row, heq⟩
        · have hzero := congrArg List.length hnil
          rw [List.length_take, List.length_nil] at hzero
          omega
        · exact ⟨row, rest, by rw [heq, List.concat_eq_append]⟩
      have hsplit : l = (before ++ rest) ++ row :: after.drop limit := by
        rw [hl]
        conv_lhs => rw [← List.take_append_drop limit after, htake]
        simp
      rw [htake, List.getLast?_concat]
      simp only
      rw [← htake]
      have hrest := ih (by rw [hl, List.append_assoc, List.take_append_drop] :
          l = (before ++ after.take limit) ++ after.drop limit)
        (hnext _ _ _ hsplit) (by rw [List.length_drop]; omega)
      rw [List.length_append] at hrest
      rw [hrest, List.take_append_drop]
    · have hshort : after.length ≤ limit := by
        rw [hlength, List.length_take] at hmore
        omega
      rw [List.append_nil, List.take_of_length_le hshort]

/-- **Cursors.** A reader that goes on from the last row of each page gets the list. -/
theorem follow_eq {page : Option α → List α} (hlimit : 0 < limit) (hfirst : page none = l.take limit)
    (hnext : ∀ before q after, l = before ++ q :: after → page (some q) = after.take limit) :
    follow page l.length l.length 0 none = l :=
  follow_from hlimit hnext (List.nil_append l).symm hfirst le_rfl

/-! ## Walks -/

/-- A direct start reads pages of a chunk, one after the other, for what it skips. -/
def walk (page : Option α → ℕ → List α) (chunk limit : ℕ) : ℕ → ℕ → Option α → List α
  | _, 0, cursor => page cursor limit
  | 0, _ + 1, _ => []
  | fuel + 1, skip + 1, cursor =>
    match (page cursor (min (skip + 1) chunk)).getLast? with
    | none => []
    | some last => walk page chunk limit fuel
        (skip + 1 - (page cursor (min (skip + 1) chunk)).length) (some last)

theorem walk_from {page : Option α → ℕ → List α} {chunk fuel skip : ℕ} (hchunk : 0 < chunk)
    (hnext : ∀ n before q after, l = before ++ q :: after → page (some q) n = after.take n)
    {before after : List α} {cursor : Option α} (hl : l = before ++ after)
    (hpage : ∀ n, page cursor n = after.take n) (hfuel : skip ≤ fuel) :
    walk page chunk limit fuel skip cursor = (after.drop skip).take limit := by
  induction fuel generalizing skip before after cursor with
  | zero =>
    obtain rfl := Nat.le_zero.mp hfuel
    exact hpage limit
  | succ fuel ih =>
    cases skip with
    | zero => exact hpage limit
    | succ skip =>
      unfold walk
      rw [hpage]
      have hread : 0 < min (skip + 1) chunk ∧ min (skip + 1) chunk ≤ skip + 1 := by omega
      generalize min (skip + 1) chunk = n at hread
      rcases List.eq_nil_or_concat (after.take n) with hnil | ⟨rest, row, heq⟩
      · -- nothing is left
        have hempty : after = [] := by
          rcases List.take_eq_nil_iff.mp hnil with hzero | hnil
          · omega
          · exact hnil
        rw [hnil, hempty, List.drop_nil, List.take_nil]
        rfl
      · rw [List.concat_eq_append] at heq
        have hsplit : l = (before ++ rest) ++ row :: after.drop n := by
          rw [hl]
          conv_lhs => rw [← List.take_append_drop n after, heq]
          simp
        have hsome : (after.take n).length ≠ 0 := by
          rw [heq, List.length_append, List.length_singleton]
          omega
        rw [heq, List.getLast?_concat]
        simp only
        rw [← heq, ih (by rw [hl, List.append_assoc, List.take_append_drop] :
          l = (before ++ after.take n) ++ after.drop n) (hnext · _ _ _ hsplit) (by omega),
          List.drop_drop]
        congr 1
        rw [List.length_take]
        rcases Nat.le_total n after.length with hle | hle
        · rw [min_eq_left hle, Nat.add_sub_cancel' hread.2]
        · -- the page had all that was left
          rw [List.drop_eq_nil_of_le (by omega), List.drop_eq_nil_of_le (by omega)]

/-- **Walks.** A direct start comes to the slice at its position. -/
theorem walk_eq {page : Option α → ℕ → List α} {chunk : ℕ} (hchunk : 0 < chunk)
    (hfirst : ∀ n, page none n = l.take n)
    (hnext : ∀ n before q after, l = before ++ q :: after → page (some q) n = after.take n) :
    walk page chunk limit start start none = (l.drop start).take limit :=
  walk_from hchunk hnext (List.nil_append l).symm hfirst le_rfl

end Portico.Pages
