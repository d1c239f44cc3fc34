import Portico.Queue.SpanEdit

/-!
# What placement spans stand for

A span list stands for a list of values, one for each position, once it is known what a span's
addresses read. The edits of the span list are the list edits of that list.

## Main results

* `expand_insertSpans`: an insertion, and one past the end
* `expand_removeSpans`: a deletion
* `expand_mergeSpans`: merging changes nothing
-/

namespace Portico

variable {α : Type*} {f : Bool → ℕ → α}

/-- The values of one span. -/
def OrderSpan.expand (f : Bool → ℕ → α) (s : OrderSpan) : List α :=
  (List.range' s.start s.count).map (f s.source)

/-- The values of a span list, in play order. -/
def expand (f : Bool → ℕ → α) (spans : List OrderSpan) : List α := spans.flatMap (·.expand f)

@[simp] theorem OrderSpan.length_expand (s : OrderSpan) : (s.expand f).length = s.count := by
  simp [OrderSpan.expand]

@[simp] theorem expand_nil : expand f [] = [] := rfl

@[simp] theorem expand_cons (s : OrderSpan) (spans : List OrderSpan) :
    expand f (s :: spans) = s.expand f ++ expand f spans := rfl

@[simp] theorem expand_append (spans spans' : List OrderSpan) :
    expand f (spans ++ spans') = expand f spans ++ expand f spans' := List.flatMap_append

theorem OrderSpan.expand_eq_nil {s : OrderSpan} (h : s.count = 0) : s.expand f = [] := by
  simp [OrderSpan.expand, h]

theorem OrderSpan.expand_cut (s : OrderSpan) {k : ℕ} (hk : k ≤ s.count) :
    OrderSpan.expand f ⟨s.source, s.start, k⟩ ++
      OrderSpan.expand f ⟨s.source, s.start + k, s.count - k⟩ = s.expand f := by
  simp only [OrderSpan.expand]
  rw [← List.map_append, List.range'_append_1, Nat.add_sub_cancel' hk]

theorem OrderSpan.take_expand (s : OrderSpan) {k : ℕ} (hk : k ≤ s.count) :
    (s.expand f).take k = OrderSpan.expand f ⟨s.source, s.start, k⟩ := by
  rw [← s.expand_cut hk, List.take_left' (by simp)]

theorem OrderSpan.drop_expand (s : OrderSpan) {k : ℕ} (hk : k ≤ s.count) :
    (s.expand f).drop k = OrderSpan.expand f ⟨s.source, s.start + k, s.count - k⟩ := by
  rw [← s.expand_cut hk, List.drop_left' (by simp)]

/-! ## Insertion -/

theorem expand_ite {p : Prop} [Decidable p] {s : OrderSpan} (h : ¬ p → s.count = 0) :
    expand f (if p then [s] else []) = s.expand f := by
  split_ifs with hp
  · simp
  · rw [OrderSpan.expand_eq_nil (h hp)]
    rfl

/-- **An insertion** places its span at the position. -/
theorem expand_insertSpans (v : OrderSpan) (spans : List OrderSpan) {pos : ℕ}
    (h : pos ≤ (expand f spans).length) :
    expand f (insertSpans v pos spans) =
      (expand f spans).take pos ++ v.expand f ++ (expand f spans).drop pos := by
  induction spans generalizing pos with
  | nil =>
    obtain rfl : pos = 0 := by simpa using h
    simp [insertSpans]
  | cons s ss ih =>
    rw [insertSpans]
    by_cases hpos : pos ≤ s.count
    · have hhead : ¬ 0 < (pos : ℤ) → pos = 0 := by omega
      have htail : ¬ (pos : ℤ) < s.count → s.count - pos = 0 := by omega
      rw [if_pos ⟨by omega, by omega⟩, Int.toNat_natCast, expand_append, expand_append,
        expand_ite hhead, expand_cons, expand_ite htail,
        expand_cons, List.take_append_of_le_length (by simpa using hpos),
        List.drop_append_of_le_length (by simpa using hpos), s.take_expand hpos,
        s.drop_expand hpos]
      simp
    · have hle : pos - s.count ≤ (expand f ss).length := by
        simp at h
        omega
      rw [if_neg (by omega), if_pos (by omega), expand_cons,
        show (pos : ℤ) - s.count = (pos - s.count : ℕ) by omega, ih hle, expand_cons,
        List.take_append, List.drop_append, s.length_expand]
      have htake : (s.expand f).take pos = s.expand f := List.take_of_length_le (by simp; omega)
      have hdrop : (s.expand f).drop pos = [] := List.drop_eq_nil_of_le (by simp; omega)
      rw [htake, hdrop]
      simp

/-! ## Deletion -/

/-- **A deletion** drops its position. -/
theorem expand_removeSpans (spans : List OrderSpan) (pos : ℕ) :
    expand f (removeSpans pos spans) = (expand f spans).eraseIdx pos := by
  induction spans generalizing pos with
  | nil => rfl
  | cons s ss ih =>
    rw [removeSpans]
    by_cases hpos : pos < s.count
    · have hhead : ¬ 0 < (pos : ℤ) → pos = 0 := by omega
      have htail : ¬ (pos : ℤ) + 1 < s.count → s.count - pos - 1 = 0 := by omega
      rw [if_pos ⟨by omega, by omega⟩, Int.toNat_natCast, expand_append, expand_append,
        expand_ite hhead, expand_ite htail, expand_cons,
        List.eraseIdx_append_of_lt_length (by simpa using hpos),
        List.eraseIdx_eq_take_drop_succ, s.take_expand (by omega), s.drop_expand (by omega)]
      simp only [Nat.add_assoc, Nat.sub_sub]
    · rw [if_neg (by omega), if_pos (by omega), expand_cons,
        show (pos : ℤ) - s.count = (pos - s.count : ℕ) by omega, ih, expand_cons,
        List.eraseIdx_append_of_length_le (by simpa using hpos), s.length_expand]

/-! ## Merging -/

theorem expand_mergeSpansInto (last : OrderSpan) (spans : List OrderSpan) :
    expand f (mergeSpansInto last spans) = last.expand f ++ expand f spans := by
  induction spans generalizing last with
  | nil => simp [mergeSpansInto]
  | cons s ss ih =>
    rw [mergeSpansInto]
    split_ifs with hzero hjoin
    · rw [ih, expand_cons, OrderSpan.expand_eq_nil hzero, List.nil_append]
    · have hadd : OrderSpan.expand f { last with count := last.count + s.count } =
          last.expand f ++ s.expand f := by
        simp only [OrderSpan.expand, ← List.range'_append_1, List.map_append, hjoin.1, hjoin.2]
      rw [ih, hadd, expand_cons, List.append_assoc]
    · rw [expand_cons, ih, expand_cons]

/-- **Merging** changes nothing. -/
theorem expand_mergeSpans (spans : List OrderSpan) :
    expand f (mergeSpans spans) = expand f spans := by
  induction spans with
  | nil => rfl
  | cons s ss ih =>
    rw [mergeSpans]
    split_ifs with hzero
    · rw [ih, expand_cons, OrderSpan.expand_eq_nil hzero, List.nil_append]
    · exact expand_mergeSpansInto s ss

end Portico
