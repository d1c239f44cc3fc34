import Mathlib

/-!
# Runs of an order

A list of places in order, in either direction, and the runs of it that a bounded query reads. A
query reads the places after a given one in two arms: those with the same key and a later identity,
and those with a later key; each arm is limited, and the merged arms are the run.

## Main results

* `filter_eq_drop`: the places of a list from where a condition starts to hold
* `bounded_eq`: the merged arms are a run of the places after the given one
-/

namespace Portico.Runs

variable {α : Type*} {l l₁ l₂ : List α}

/-! ## Slices of a list -/

/-- A condition that every later place meets too holds from some place on. -/
theorem filter_eq_drop {f : α → Bool} (h : l.Pairwise fun a b => f a = true → f b = true) :
    l.filter f = l.drop (l.countP fun a => !f a) := by
  induction l with
  | nil => rfl
  | cons a l ih =>
    rw [List.pairwise_cons] at h
    cases ha : f a with
    | false =>
      rw [List.filter_cons_of_neg (by simp [ha]), List.countP_cons_of_pos (by simp [ha]), List.drop_succ_cons]
      exact ih h.2
    | true =>
      -- the first place meets the condition, so all of them do
      have hall : ∀ b ∈ l, f b = true := fun b hb => h.1 b hb ha
      have hnone : (a :: l).countP (fun a => !f a) = 0 := by
        rw [List.countP_eq_zero]
        intro b hb
        rcases List.mem_cons.mp hb with rfl | hb
        · simp [ha]
        · simp [hall b hb]
      rw [hnone, List.drop_zero, List.filter_eq_self]
      intro b hb
      rcases List.mem_cons.mp hb with rfl | hb
      · exact ha
      · exact hall b hb

/-- The other way round, a condition that every earlier place meets too holds up to some place. -/
theorem filter_eq_take {f : α → Bool} (h : l.Pairwise fun a b => f b = true → f a = true) :
    l.filter f = l.take (l.countP f) := by
  induction l with
  | nil => rfl
  | cons a l ih =>
    rw [List.pairwise_cons] at h
    cases ha : f a with
    | true =>
      rw [List.filter_cons_of_pos ha, List.countP_cons_of_pos ha, List.take_succ_cons, ih h.2]
    | false =>
      have hnone : ∀ b ∈ l, f b = false := by
        intro b hb
        cases hfb : f b with
        | false => rfl
        | true => exact absurd (h.1 b hb hfb) (by simp [ha])
      rw [List.filter_cons_of_neg (by simp [ha]), List.countP_cons_of_neg (by simp [ha]),
        List.filter_eq_nil_iff.mpr (by simpa using hnone), List.countP_eq_zero.mpr (by simpa using hnone),
        List.take_zero]

theorem take_append_take {n : ℕ} : (l₁.take n ++ l₂.take n).take n = (l₁ ++ l₂).take n := by
  rw [List.take_append, List.take_append, List.take_take, List.take_take, List.length_take]
  congr 1
  · congr 1
    omega
  · congr 1
    omega

/-! ## Orders -/

variable [LinearOrder α] {p q : α}

inductive Direction
  | asc
  | desc
deriving DecidableEq, Repr

namespace Direction

/-- A place comes before another one. -/
def precedes : Direction → α → α → Prop
  | .asc, a, b => a < b
  | .desc, a, b => b < a

instance : (d : Direction) → (a b : α) → Decidable (d.precedes a b)
  | .asc, a, b => inferInstanceAs (Decidable (a < b))
  | .desc, a, b => inferInstanceAs (Decidable (b < a))

/-- The places of a list, in order. -/
def ordered (d : Direction) (l : List α) : List α :=
  match d with
  | .asc => l.insertionSort (· ≤ ·)
  | .desc => (l.insertionSort (· ≤ ·)).reverse

variable {d : Direction}

theorem precedes_irrefl (a : α) : ¬ d.precedes a a := by
  cases d <;> exact lt_irrefl a

theorem precedes_trans {a b c : α} (h : d.precedes a b) (h' : d.precedes b c) : d.precedes a c := by
  cases d with
  | asc => exact lt_trans h h'
  | desc => exact lt_trans h' h

theorem precedes_or (a b : α) : d.precedes a b ∨ a = b ∨ d.precedes b a := by
  cases d with
  | asc => exact lt_trichotomy a b
  | desc => exact (lt_trichotomy b a).imp id (Or.imp Eq.symm id)

theorem precedes_asymm {a b : α} (h : d.precedes a b) : ¬ d.precedes b a := fun h' =>
  precedes_irrefl a (precedes_trans h h')

theorem perm_ordered : (d.ordered l).Perm l := by
  cases d with
  | asc => exact List.perm_insertionSort _ _
  | desc => exact (List.reverse_perm _).trans (List.perm_insertionSort _ _)

@[simp] theorem mem_ordered : p ∈ d.ordered l ↔ p ∈ l := perm_ordered.mem_iff

@[simp] theorem length_ordered : (d.ordered l).length = l.length := perm_ordered.length_eq

theorem nodup_ordered : (d.ordered l).Nodup ↔ l.Nodup := perm_ordered.nodup_iff

theorem pairwise_ordered : (d.ordered l).Pairwise fun a b => ¬ d.precedes b a := by
  cases d with
  | asc => exact (List.pairwise_insertionSort (· ≤ ·) l).imp fun h => not_lt.mpr h
  | desc =>
    unfold ordered
    rw [List.pairwise_reverse]
    exact (List.pairwise_insertionSort (· ≤ ·) l).imp fun h => not_lt.mpr h

theorem ordered_eq (hperm : l₁.Perm l₂) (h : l₁.Pairwise fun a b => ¬ d.precedes b a) :
    d.ordered l₂ = l₁ := by
  apply (perm_ordered.trans hperm.symm).eq_of_pairwise ?_ pairwise_ordered h
  intro a b _ _ hab hba
  rcases precedes_or (d := d) a b with hlt | heq | hlt
  · exact absurd hlt hba
  · exact heq
  · exact absurd hlt hab

theorem ordered_of_perm (h : l₁.Perm l₂) : d.ordered l₁ = d.ordered l₂ :=
  (ordered_eq (perm_ordered.trans h) pairwise_ordered).symm

theorem ordered_filter {f : α → Bool} : d.ordered (l.filter f) = (d.ordered l).filter f :=
  ordered_eq (perm_ordered.filter f) (pairwise_ordered.sublist List.filter_sublist)

theorem ordered_append (h : ∀ a ∈ l₁, ∀ b ∈ l₂, d.precedes a b) :
    d.ordered (l₁ ++ l₂) = d.ordered l₁ ++ d.ordered l₂ := by
  apply ordered_eq (perm_ordered.append perm_ordered)
  rw [List.pairwise_append]
  refine ⟨pairwise_ordered, pairwise_ordered, fun a ha b hb => ?_⟩
  exact precedes_asymm (h a (mem_ordered.mp ha) b (mem_ordered.mp hb))

end Direction

open Direction

variable {d : Direction}

/-- An order that goes in a direction. -/
def Directed (d : Direction) (β : Type*) : Type _ :=
  match d with
  | .asc => β
  | .desc => βᵒᵈ

instance {β : Type*} [LinearOrder β] : (d : Direction) → LinearOrder (Directed d β)
  | .asc => inferInstanceAs (LinearOrder β)
  | .desc => inferInstanceAs (LinearOrder βᵒᵈ)

def directed {β : Type*} (d : Direction) (b : β) : Directed d β :=
  match d with
  | .asc => b
  | .desc => OrderDual.toDual b

theorem directed_lt {β : Type*} [LinearOrder β] {a b : β} :
    directed d a < directed d b ↔ d.precedes a b := by
  cases d <;> rfl

theorem directed_injective {β : Type*} : Function.Injective (directed d : β → Directed d β) := by
  cases d <;> exact fun _ _ h => h

/-! ## Runs -/

/-- `p` comes after `q`, or is `q` when that is included. -/
def After (d : Direction) (inclusive : Bool) (q p : α) : Prop :=
  d.precedes q p ∨ (inclusive = true ∧ p = q)

instance (inclusive : Bool) : Decidable (After d inclusive q p) := by
  unfold After
  infer_instance

variable {inclusive : Bool}

theorem After.upward {a b : α} (hab : ¬ d.precedes b a) (ha : After d inclusive q a) :
    After d inclusive q b := by
  rcases precedes_or (d := d) a b with hlt | rfl | hlt
  · rcases ha with ha | ⟨-, rfl⟩
    · exact Or.inl (precedes_trans ha hlt)
    · exact Or.inl hlt
  · exact ha
  · exact absurd hlt hab

theorem ordered_filter_after : d.ordered (l.filter fun p => After d inclusive q p) =
    (d.ordered l).drop (l.countP fun p => !decide (After d inclusive q p)) := by
  rw [ordered_filter, filter_eq_drop, perm_ordered.countP_eq]
  exact pairwise_ordered.imp fun hab ha => by simpa using After.upward hab (by simpa using ha)

/-- The places that come before a place of an ordered list are as many as its position says. -/
theorem countP_of_getElem? {k : ℕ} (hl : l.Nodup) (h : (d.ordered l)[k]? = some q) :
    l.countP (fun p => d.precedes p q) = k := by
  have hnodup : (d.ordered l).Nodup := nodup_ordered.mpr hl
  have hpairwise := (pairwise_ordered (d := d) (l := l)).and hnodup
  rw [← (perm_ordered (d := d) (l := l)).countP_eq]
  generalize d.ordered l = r at h hpairwise
  obtain ⟨hk, hq⟩ := List.getElem?_eq_some_iff.mp h
  have hsplit : r = r.take k ++ q :: r.drop (k + 1) := by
    rw [← hq, List.cons_getElem_drop_succ, List.take_append_drop]
  rw [hsplit, List.pairwise_append, List.pairwise_cons] at hpairwise
  obtain ⟨-, ⟨hafter, -⟩, hbefore⟩ := hpairwise
  have hlt : ∀ a ∈ r.take k, d.precedes a q := by
    intro a ha
    obtain ⟨hnot, hne⟩ := hbefore a ha q List.mem_cons_self
    exact (precedes_or a q).resolve_right (not_or_intro hne hnot)
  have hge : ∀ a ∈ q :: r.drop (k + 1), ¬ d.precedes a q := by
    intro a ha
    rcases List.mem_cons.mp ha with rfl | ha
    · exact precedes_irrefl _
    · exact (hafter a ha).1
  rw [hsplit, List.countP_append, List.countP_eq_length.mpr (by simpa using hlt),
    List.countP_eq_zero.mpr (by simpa using hge), List.length_take]
  omega

/-- The position of a place is the number of places that come before it. -/
theorem getElem?_of_mem (hl : l.Nodup) (hq : q ∈ l) :
    (d.ordered l)[l.countP fun p => d.precedes p q]? = some q := by
  obtain ⟨k, hk⟩ := List.mem_iff_getElem?.mp (mem_ordered.mpr hq : q ∈ d.ordered l)
  rw [countP_of_getElem? hl hk]
  exact hk

/-- The places after one of an ordered list are the rest of the list. -/
theorem ordered_after {before after : List α} (hl : l.Nodup)
    (h : d.ordered l = before ++ q :: after) :
    d.ordered (l.filter fun p => After d false q p) = after := by
  have hpairwise := (pairwise_ordered (d := d) (l := l)).and (nodup_ordered.mpr hl)
  rw [ordered_filter, h]
  rw [h, List.pairwise_append, List.pairwise_cons] at hpairwise
  obtain ⟨-, ⟨hafter, -⟩, hbefore⟩ := hpairwise
  rw [List.filter_append, List.filter_eq_nil_iff.mpr, List.nil_append, List.filter_cons_of_neg,
    List.filter_eq_self.mpr]
  · intro a ha
    obtain ⟨hnot, hne⟩ := hafter a ha
    refine decide_eq_true (Or.inl ?_)
    exact (precedes_or q a).resolve_right (not_or_intro hne hnot)
  · simpa [After] using precedes_irrefl q
  · intro a ha
    simpa [After] using (hbefore a ha q List.mem_cons_self).1

/-! ## Bounded queries -/

variable {V I : Type*} [LinearOrder V] [LinearOrder I] {rows : List (V ×ₗ I)} {key : V} {anchor : I}

/-- The places with the same key and a later identity. -/
def tieArm (d : Direction) (inclusive : Bool) (key : V) (anchor : I) (rows : List (V ×ₗ I)) :
    List (V ×ₗ I) :=
  rows.filter fun p => (ofLex p).1 = key ∧ After d inclusive anchor (ofLex p).2

/-- The places with a later key. -/
def laterArm (d : Direction) (key : V) (rows : List (V ×ₗ I)) : List (V ×ₗ I) :=
  rows.filter fun p => d.precedes key (ofLex p).1

/-- The places from `offset` on of those after one, at most `limit` of them. Each arm is in order
and limited, and so are the merged arms. -/
def bounded (d : Direction) (inclusive : Bool) (key : V) (anchor : I) (limit offset : ℕ)
    (rows : List (V ×ₗ I)) : List (V ×ₗ I) :=
  ((d.ordered ((d.ordered (tieArm d inclusive key anchor rows)).take (limit + offset) ++
    (d.ordered (laterArm d key rows)).take (limit + offset))).drop offset).take limit

theorem precedes_lex {a b : V ×ₗ I} : d.precedes a b ↔ d.precedes (ofLex a).1 (ofLex b).1 ∨
    ((ofLex a).1 = (ofLex b).1 ∧ d.precedes (ofLex a).2 (ofLex b).2) := by
  cases d with
  | asc => exact Prod.Lex.lt_iff
  | desc => exact Prod.Lex.lt_iff.trans (or_congr Iff.rfl (and_congr eq_comm Iff.rfl))

theorem after_lex {p : V ×ₗ I} : After d inclusive (toLex (key, anchor)) p ↔
    ((ofLex p).1 = key ∧ After d inclusive anchor (ofLex p).2) ∨ d.precedes key (ofLex p).1 := by
  have hself : p = toLex (key, anchor) ↔ (ofLex p).1 = key ∧ (ofLex p).2 = anchor := Prod.ext_iff
  unfold After
  rw [precedes_lex, hself]
  simp only [ofLex_toLex]
  constructor
  · rintro ((h | ⟨h, h'⟩) | ⟨hi, h, h'⟩)
    · exact Or.inr h
    · exact Or.inl ⟨h.symm, Or.inl h'⟩
    · exact Or.inl ⟨h, Or.inr ⟨hi, h'⟩⟩
  · rintro (⟨h, h' | ⟨hi, h'⟩⟩ | h)
    · exact Or.inl (Or.inr ⟨h.symm, h'⟩)
    · exact Or.inr ⟨hi, h, h'⟩
    · exact Or.inl (Or.inl h)

theorem tieArm_precedes {a b : V ×ₗ I} (ha : a ∈ tieArm d inclusive key anchor rows)
    (hb : b ∈ laterArm d key rows) : d.precedes a b := by
  have hkey := of_decide_eq_true (List.mem_filter.mp ha).2
  have hlater := of_decide_eq_true (List.mem_filter.mp hb).2
  exact precedes_lex.mpr (Or.inl (hkey.1 ▸ hlater))

theorem ordered_arms : d.ordered (tieArm d inclusive key anchor rows) ++
    d.ordered (laterArm d key rows) =
      d.ordered (rows.filter fun p => After d inclusive (toLex (key, anchor)) p) := by
  rw [← ordered_append fun a ha b hb => tieArm_precedes ha hb]
  apply ordered_of_perm
  unfold tieArm laterArm
  induction rows with
  | nil => rfl
  | cons a rows ih =>
    simp only [List.filter_cons, decide_eq_true_eq, after_lex (p := a)]
    by_cases hlater : d.precedes key (ofLex a).1
    · -- a later key isn't the same one
      have htie : ¬ ((ofLex a).1 = key ∧ After d inclusive anchor (ofLex a).2) := fun h =>
        precedes_irrefl key (h.1 ▸ hlater)
      rw [if_neg htie, if_pos hlater, if_pos (Or.inr hlater)]
      exact List.perm_middle.trans (ih.cons a)
    · rw [if_neg hlater]
      by_cases htie : (ofLex a).1 = key ∧ After d inclusive anchor (ofLex a).2
      · rw [if_pos htie, if_pos (Or.inl htie)]
        exact ih.cons a
      · rw [if_neg htie, if_neg (not_or_intro htie hlater)]
        exact ih

/-- **Bounded queries.** The merged arms are a run of the places after the given one, in order. -/
theorem bounded_eq {limit offset : ℕ} : bounded d inclusive key anchor limit offset rows =
    ((d.ordered (rows.filter fun p => After d inclusive (toLex (key, anchor)) p)).drop offset).take
      limit := by
  unfold bounded
  rw [ordered_append, ordered_eq (List.Perm.refl _) (pairwise_ordered.sublist (List.take_sublist ..)),
    ordered_eq (List.Perm.refl _) (pairwise_ordered.sublist (List.take_sublist ..)), ← ordered_arms,
    List.take_drop, List.take_drop, Nat.add_comm offset, take_append_take]
  intro a ha b hb
  exact tieArm_precedes (mem_ordered.mp (List.mem_of_mem_take ha))
    (mem_ordered.mp (List.mem_of_mem_take hb))

end Portico.Runs
