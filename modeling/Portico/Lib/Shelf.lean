import Mathlib

/-!
# Files that outlive their use

A shelf lends files to readers. A file that expires is removed at once when nobody reads it, and by
its last reader otherwise; nobody may take an expired file. The last reader decides under a lock and
removes the file after it let go of the lock, so a removal may be pending.

## Main results

* `Sound.take`, `Sound.give`, `Sound.retire`, `Sound.remove`: the operations keep a shelf sound
* `Sound.removals_le_one`, `Sound.of_removed`, `Sound.removed`, `Sound.present`: a file is removed
  once, and only after its last reader gave it back
-/

namespace Portico

/-- The readers of each file, whether it expired, and how often it was removed. -/
@[ext] structure Shelf (κ : Type*) where
  readers : κ → ℤ
  expired : κ → Bool
  removals : κ → ℕ

namespace Shelf

variable {κ : Type*}

/-- Nothing is read and nothing expired. -/
def fresh : Shelf κ where
  readers := fun _ => 0
  expired := fun _ => false
  removals := fun _ => 0

variable [DecidableEq κ]

/-- A reader takes a file. -/
def take (k : κ) (s : Shelf κ) : Shelf κ :=
  { s with readers := Function.update s.readers k (s.readers k + 1) }

/-- A file is removed. -/
def remove (k : κ) (s : Shelf κ) : Shelf κ :=
  { s with removals := Function.update s.removals k (s.removals k + 1) }

/-- A reader gives a file back. -/
def give (k : κ) (s : Shelf κ) : Shelf κ :=
  { s with readers := Function.update s.readers k (s.readers k - 1) }

/-- Whether a file that was just given back has to be removed. -/
def done (k : κ) (s : Shelf κ) : Bool := s.expired k && s.readers k = 0

/-- A file expires. -/
def retire (k : κ) (s : Shelf κ) : Shelf κ :=
  if s.readers k = 0 then ({ s with expired := Function.update s.expired k true } : Shelf κ).remove k
  else { s with expired := Function.update s.expired k true }

/-- The readers are those a file was lent to, and one removal was made, or is due, for each expired
file without a reader, and for no other. -/
structure Sound (lent due : κ → ℕ) (s : Shelf κ) : Prop where
  readers : ∀ k, s.readers k = lent k
  removals : ∀ k, s.removals k + due k = if s.expired k = true ∧ lent k = 0 then 1 else 0

variable {s : Shelf κ} {lent lent' due due' : κ → ℕ} {k x : κ}

omit [DecidableEq κ] in
theorem sound_fresh : Sound (fun _ => 0) (fun _ => 0) (fresh : Shelf κ) where
  readers := by simp [fresh]
  removals := by simp [fresh]

@[simp] theorem expired_take : (s.take k).expired = s.expired := rfl

@[simp] theorem expired_give : (s.give k).expired = s.expired := rfl

@[simp] theorem expired_remove : (s.remove k).expired = s.expired := rfl

@[simp] theorem removals_take : (s.take k).removals = s.removals := rfl

@[simp] theorem removals_give : (s.give k).removals = s.removals := rfl

theorem expired_retire : (s.retire k).expired x = true ↔ x = k ∨ s.expired x = true := by
  unfold retire
  by_cases hx : x = k
  · subst hx
    split_ifs <;> simp
  · split_ifs <;> simp [hx]

@[simp] theorem readers_retire : (s.retire k).readers = s.readers := by
  unfold retire
  split_ifs <;> rfl

theorem Sound.take (h : Sound lent due s) (hk : s.expired k = false)
    (hlent : ∀ x, lent' x = if x = k then lent x + 1 else lent x) : Sound lent' due (s.take k) where
  readers x := by
    rw [hlent]
    by_cases hx : x = k
    · subst hx
      simp [Shelf.take, h.readers]
    · simp [Shelf.take, hx, h.readers]
  removals x := by
    rw [removals_take, expired_take, h.removals, hlent]
    by_cases hx : x = k
    · subst hx
      simp [hk]
    · simp [hx]

/-- A reader gives a file back, and its removal is due if it was the last of an expired one. -/
theorem Sound.give (h : Sound lent due s) (hk : 0 < lent k)
    (hlent : ∀ x, lent' x = if x = k then lent x - 1 else lent x)
    (hdue : ∀ x, due' x = due x + if x = k ∧ (s.give k).done k = true then 1 else 0) :
    Sound lent' due' (s.give k) := by
  have hreaders : ∀ x, (s.give k).readers x = lent' x := by
    intro x
    rw [hlent]
    by_cases hx : x = k
    · subst hx
      simp only [Shelf.give, Function.update_self, h.readers, if_true]
      omega
    · simp [Shelf.give, hx, h.readers]
  refine ⟨hreaders, fun x => ?_⟩
  have hdone : (s.give k).done k = true ↔ s.expired k = true ∧ lent' k = 0 := by
    unfold done
    rw [Bool.and_eq_true, expired_give, decide_eq_true_eq, hreaders]
    exact and_congr_right fun _ => Int.natCast_eq_zero
  have hold := h.removals x
  rw [removals_give, expired_give, hdue]
  by_cases hx : x = k
  · subst hx
    -- the file was still read, so no removal was due before
    rw [if_neg (fun hne => hk.ne' hne.2)] at hold
    simp only [true_and, hdone]
    omega
  · rw [if_neg (fun hc => hx hc.1), hlent, if_neg hx]
    exact hold

theorem Sound.remove (h : Sound lent due s) (hk : 0 < due k)
    (hdue : ∀ x, due' x = if x = k then due x - 1 else due x) : Sound lent due' (s.remove k) where
  readers := h.readers
  removals x := by
    rw [expired_remove, ← h.removals, hdue]
    by_cases hx : x = k
    · subst hx
      simp only [Shelf.remove, Function.update_self, if_true]
      omega
    · simp [Shelf.remove, hx]

theorem Sound.retire (h : Sound lent due s) (hk : s.expired k = false) :
    Sound lent due (s.retire k) := by
  refine ⟨fun x => by rw [readers_retire, h.readers], fun x => ?_⟩
  have hold := h.removals x
  by_cases hx : x = k
  · subst hx
    rw [hk, if_neg (by simp)] at hold
    have hlent : s.readers x = 0 ↔ lent x = 0 := by
      rw [h.readers]
      exact Int.natCast_eq_zero
    unfold Shelf.retire
    split_ifs with hr hc hc
    · simp only [Shelf.remove, Function.update_self]
      omega
    · exact absurd ⟨by simp [Shelf.remove], hlent.mp hr⟩ hc
    · exact absurd (hlent.mpr hc.2) hr
    · exact hold
  · have hexpired : (s.retire k).expired x = true ↔ s.expired x = true := by
      rw [expired_retire]
      exact or_iff_right hx
    have hremovals : (s.retire k).removals x = s.removals x := by
      unfold Shelf.retire
      split_ifs
      · simp [Shelf.remove, hx]
      · rfl
    rw [hremovals, hold]
    exact if_congr (and_congr_left fun _ => hexpired.symm) rfl rfl

theorem expired_foldl_retire {l : List κ} :
    (l.foldl (fun s k => s.retire k) s).expired x = true ↔ x ∈ l ∨ s.expired x = true := by
  induction l generalizing s with
  | nil => simp
  | cons k l ih =>
    rw [List.foldl_cons, ih, expired_retire, List.mem_cons]
    tauto

theorem Sound.foldl_retire (h : Sound lent due s) {l : List κ} (hl : l.Nodup)
    (halive : ∀ k ∈ l, s.expired k = false) :
    Sound lent due (l.foldl (fun s k => s.retire k) s) := by
  induction l generalizing s with
  | nil => exact h
  | cons k l ih =>
    obtain ⟨hk, hl⟩ := List.nodup_cons.mp hl
    refine ih (h.retire (halive k List.mem_cons_self)) hl fun x hx => ?_
    rw [← Bool.not_eq_true, expired_retire]
    rintro (rfl | hexp)
    · exact hk hx
    · rw [halive x (List.mem_cons_of_mem _ hx)] at hexp
      cases hexp

/-! ## Once, and after the last reader -/

omit [DecidableEq κ] in
theorem Sound.removals_le_one (h : Sound lent due s) (k : κ) : s.removals k ≤ 1 := by
  have := h.removals k
  split_ifs at this <;> omega

omit [DecidableEq κ] in
theorem Sound.of_removed (h : Sound lent due s) (hk : s.removals k ≠ 0) :
    s.expired k = true ∧ lent k = 0 := by
  by_contra hc
  have := h.removals k
  rw [if_neg hc] at this
  omega

omit [DecidableEq κ] in
theorem Sound.removed (h : Sound lent due s) (hk : s.expired k = true) (hlent : lent k = 0)
    (hdue : due k = 0) : s.removals k = 1 := by
  have := h.removals k
  rw [if_pos ⟨hk, hlent⟩, hdue] at this
  omega

omit [DecidableEq κ] in
theorem Sound.present (h : Sound lent due s) (hk : s.expired k = false) : s.removals k = 0 := by
  by_contra hne
  have := (h.of_removed hne).1
  rw [hk] at this
  cases this

end Shelf

end Portico
