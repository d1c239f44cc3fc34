import Portico.Queue.ListEdits
import Portico.Queue.PlayOrder

/-!
# Saved orders

An edit with shuffle on ends with saving its placement spans, merged. Spans inside an order stay
inside of it, and stand for the same.

## Main results

* `Layout.saveOrder_ok`: what is saved
-/

namespace Portico

namespace Layout

variable {l l' : Layout}

/-! ## Spans within the domain -/

/-- The base spans stay within `n`. -/
def Inside (n : ℕ) (spans : List OrderSpan) : Prop :=
  ∀ s ∈ spans, s.source = false → s.start + s.count ≤ n

theorem inside_cons {n : ℕ} {s : OrderSpan} {spans : List OrderSpan} :
    Inside n (s :: spans) ↔ (s.source = false → s.start + s.count ≤ n) ∧ Inside n spans :=
  List.forall_mem_cons

theorem Inside.mergeSpansInto {n : ℕ} {last : OrderSpan} {spans : List OrderSpan}
    (hlast : last.source = false → last.start + last.count ≤ n) (h : Inside n spans) :
    Inside n (mergeSpansInto last spans) := by
  induction spans generalizing last with
  | nil => exact inside_cons.mpr ⟨hlast, h⟩
  | cons s ss ih =>
    rw [inside_cons] at h
    rw [Portico.mergeSpansInto]
    split_ifs with hzero hjoin
    · exact ih hlast h.2
    · refine ih (fun hs => ?_) h.2
      have := h.1 (hjoin.1 ▸ hs)
      simp only
      omega
    · exact inside_cons.mpr ⟨hlast, ih h.1 h.2⟩

theorem Inside.mergeSpans {n : ℕ} {spans : List OrderSpan} (h : Inside n spans) :
    Inside n (mergeSpans spans) := by
  induction spans with
  | nil => exact h
  | cons s ss ih =>
    rw [inside_cons] at h
    rw [Portico.mergeSpans]
    split_ifs
    · exact ih h.2
    · exact Inside.mergeSpansInto h.1 h.2

/-- **Saving** leaves spans that stand for the same. -/
theorem saveOrder_ok (h : l.saveOrder = .ok l') : ∃ spans, l' = { l with spans } ∧ spans ≠ [] ∧
    (∀ f : Bool → ℕ → ℤ, expand f spans = expand f l.spans) ∧
    ∀ n, Inside n l.spans → Inside n spans := by
  rw [saveOrder] at h
  split_ifs at h with hempty hlong hlong
  · refine ⟨_, (Except.ok.inj h).symm, by simp, fun f => ?_, fun n _ => ?_⟩
    · rw [← expand_mergeSpans l.spans, hempty]
      rfl
    · exact inside_cons.mpr ⟨fun hs => (by cases hs), fun s hs => absurd hs List.not_mem_nil⟩
  · exact ⟨_, (Except.ok.inj h).symm, hempty, fun f => expand_mergeSpans l.spans,
      fun n hn => hn.mergeSpans⟩

theorem saveOrder_error {err : QueueError} (h : l.saveOrder = .error err) : err = .tooLarge := by
  rw [saveOrder] at h
  split_ifs at h <;> exact (Except.error.inj h).symm

end Layout

end Portico
