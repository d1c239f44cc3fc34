import Mathlib

/-!
# Rotating queues

A rotating queue keeps one line per owner, first in first out, and a rotation of the owners that
have a line. The front owner supplies the next item and moves to the back once served; an owner
whose line is empty leaves the rotation.

## Main results

* `Sound.push`, `Sound.remove`, `Sound.requeue`: the operations keep a rotor sound
* `Lined.count_items`: an item is as often in the queue as in its owner's line
* `Sound.front_eq_some`: the front is the head of the first owner's line
* `keeps_push`, `keeps_remove`: no owner gets ahead of an item that stays, but by that item's
  owner being served
-/

namespace Portico

/-- A rotation of owners, a line of items for each, and the number of items. -/
structure Rotor (ω τ : Type*) where
  rotation : List ω
  byOwner : ω → Option (List τ)
  count : ℤ

namespace Rotor

variable {ω τ : Type*} {owner : τ → ω} {q q' : Rotor ω τ} {t x : τ} {o : ω} {served : Bool}

/-- The queue without items. -/
def empty : Rotor ω τ where
  rotation := []
  byOwner := fun _ => none
  count := 0

/-- The items of one owner, oldest first. -/
def line (q : Rotor ω τ) (o : ω) : List τ := (q.byOwner o).getD []

/-- The items in the order a visit meets them: owner by owner in rotation order. -/
def items (q : Rotor ω τ) : List τ := q.rotation.flatMap q.line

/-- The item served next. -/
def front (q : Rotor ω τ) : Option τ :=
  if q.count = 0 then none else q.rotation.head?.bind fun o => (q.line o).head?

/-- The rotation holds each owner with a line once, and lines hold their owner's items. -/
structure Lined (owner : τ → ω) (q : Rotor ω τ) : Prop where
  nodup : q.rotation.Nodup
  mem_rotation : ∀ o, o ∈ q.rotation ↔ q.line o ≠ []
  nonempty : ∀ o, q.byOwner o ≠ some []
  owned : ∀ o, ∀ t ∈ q.line o, owner t = o

/-- A lined queue whose counter counts its items. -/
structure Sound (owner : τ → ω) (q : Rotor ω τ) : Prop extends Lined owner q where
  counted : q.count = q.items.length

theorem sound_empty : Sound owner empty where
  nodup := List.nodup_nil
  mem_rotation := by simp [empty, line]
  nonempty := by simp [empty]
  owned := by simp [empty, line]
  counted := rfl

theorem Lined.line_eq_nil (hq : Lined owner q) : q.line o = [] ↔ q.byOwner o = none := by
  unfold line
  cases h : q.byOwner o with
  | none => simp
  | some ts =>
    simp only [Option.getD_some, reduceCtorEq, iff_false]
    rintro rfl
    exact hq.nonempty o h

theorem Lined.mem_items (hq : Lined owner q) : x ∈ q.items ↔ x ∈ q.line (owner x) := by
  simp only [items, List.mem_flatMap]
  constructor
  · rintro ⟨o, -, hx⟩
    rwa [hq.owned o x hx]
  · intro hx
    exact ⟨owner x, (hq.mem_rotation _).mpr (List.ne_nil_of_mem hx), hx⟩

theorem Lined.mem_items_of_line (hq : Lined owner q) (hx : x ∈ q.line o) : x ∈ q.items :=
  hq.mem_items.mpr (by rwa [hq.owned o x hx])

/-! ## The front -/

theorem Lined.items_eq_nil (hq : Lined owner q) : q.items = [] ↔ q.rotation = [] := by
  constructor
  · intro h
    rcases hr : q.rotation with _ | ⟨o, os⟩
    · rfl
    · have ho : q.line o ≠ [] := (hq.mem_rotation o).mp (by simp [hr])
      rw [items, hr, List.flatMap_cons, List.append_eq_nil_iff] at h
      exact absurd h.1 ho
  · intro h
    simp [items, h]

theorem Sound.count_eq_zero (hq : Sound owner q) : q.count = 0 ↔ q.items = [] := by
  rw [hq.counted]
  simp

/-- **The front** is the head of the first owner's line. -/
theorem Sound.front_eq_some (hq : Sound owner q) :
    q.front = some t ↔ q.rotation.head? = some (owner t) ∧ (q.line (owner t)).head? = some t := by
  unfold front
  constructor
  · intro h
    split_ifs at h with h0
    obtain ⟨o, ho, ht⟩ := Option.bind_eq_some_iff.mp h
    have : owner t = o := hq.owned o t (List.mem_of_mem_head? ht)
    exact this ▸ ⟨ho, ht⟩
  · rintro ⟨ho, ht⟩
    rw [if_neg, ho]
    · exact ht
    · rw [hq.count_eq_zero, hq.items_eq_nil]
      rintro h
      simp [h] at ho

theorem Sound.mem_of_front (hq : Sound owner q) (h : q.front = some t) : t ∈ q.items :=
  hq.mem_items.mpr (List.mem_of_mem_head? (hq.front_eq_some.mp h).2)

variable [DecidableEq ω] [DecidableEq τ]

/-- An arrival joins its owner's line; an owner without a line joins the rotation's back. -/
def push (owner : τ → ω) (q : Rotor ω τ) (t : τ) : Rotor ω τ :=
  match q.byOwner (owner t) with
  | none =>
    { rotation := q.rotation ++ [owner t]
      byOwner := Function.update q.byOwner (owner t) (some [t])
      count := q.count + 1 }
  | some ts =>
    { q with
      byOwner := Function.update q.byOwner (owner t) (some (ts ++ [t]))
      count := q.count + 1 }

/-- A departure, `none` when the item isn't queued. A served owner moves to the rotation's back,
an owner with nothing left leaves it. -/
def remove (owner : τ → ω) (q : Rotor ω τ) (t : τ) (served : Bool) : Option (Rotor ω τ) :=
  match q.byOwner (owner t) with
  | none => none
  | some ts =>
    if t ∈ ts then
      let rest := ts.erase t
      some
        { rotation :=
            if rest = [] then q.rotation.erase (owner t)
            else if served then q.rotation.erase (owner t) ++ [owner t]
            else q.rotation
          byOwner := Function.update q.byOwner (owner t) (if rest = [] then none else some rest)
          count := q.count - 1 }
    else none

/-- The item moves from the back of its owner's line to the front. -/
def requeue (owner : τ → ω) (q : Rotor ω τ) (t : τ) : Rotor ω τ :=
  { q with
    byOwner := Function.update q.byOwner (owner t) (some (t :: (q.line (owner t)).dropLast)) }

/-! ## Counting -/

omit [DecidableEq τ] in
/-- A sum over a list without duplicates whose terms vanish but for one. -/
theorem sum_map_of_ne {f : ω → ℕ} {l : List ω} (hl : l.Nodup) (hf : ∀ o' ∈ l, o' ≠ o → f o' = 0) :
    (l.map f).sum = if o ∈ l then f o else 0 := by
  induction l with
  | nil => rfl
  | cons a l ih =>
    obtain ⟨ha, hl⟩ := List.nodup_cons.mp hl
    rw [List.map_cons, List.sum_cons, ih hl fun o' h' => hf o' (List.mem_cons_of_mem _ h')]
    by_cases hao : a = o
    · subst hao
      simp [ha]
    · rw [hf a List.mem_cons_self hao]
      simp [Ne.symm hao]

/-- **Counting.** An item is as often in the queue as in its owner's line. -/
theorem Lined.count_items (hq : Lined owner q) (x : τ) :
    q.items.count x = (q.line (owner x)).count x := by
  rw [items, List.count_flatMap,
    sum_map_of_ne (o := owner x) (f := List.count x ∘ q.line) hq.nodup]
  · split_ifs with h
    · rfl
    · rw [List.count_eq_zero.mpr]
      intro hx
      exact h ((hq.mem_rotation _).mpr (List.ne_nil_of_mem hx))
  · intro o' _ ho
    refine List.count_eq_zero.mpr fun hx => ho ?_
    exact (hq.owned o' x hx).symm

omit [DecidableEq τ] in
theorem Lined.count_rotation (hq : Lined owner q) (o : ω) :
    q.rotation.count o = if ∃ t ∈ q.items, owner t = o then 1 else 0 := by
  have hiff : (∃ t ∈ q.items, owner t = o) ↔ o ∈ q.rotation := by
    rw [hq.mem_rotation]
    constructor
    · rintro ⟨t, ht, rfl⟩
      exact List.ne_nil_of_mem (hq.mem_items.mp ht)
    · intro h
      obtain ⟨t, ht⟩ := List.exists_mem_of_ne_nil _ h
      exact ⟨t, hq.mem_items_of_line ht, hq.owned o t ht⟩
  rw [hq.nodup.count]
  exact if_congr hiff.symm rfl rfl

omit [DecidableEq τ] in
theorem Lined.countP_items (hq : Lined owner q) (o : ω) :
    (q.items.countP fun t => owner t = o) = (q.line o).length := by
  rw [items, List.countP_flatMap,
    sum_map_of_ne (o := o) (f := (List.countP fun t => decide (owner t = o)) ∘ q.line) hq.nodup]
  · have hall : ((List.countP fun t => decide (owner t = o)) ∘ q.line) o = (q.line o).length :=
      List.countP_eq_length.mpr fun t ht => decide_eq_true (hq.owned o t ht)
    rw [hall]
    split_ifs with h
    · rfl
    · rw [hq.mem_rotation, not_not] at h
      rw [h]
      rfl
  · intro o' _ ho
    refine List.countP_eq_zero.mpr fun t ht => ?_
    simpa [hq.owned o' t ht] using ho

omit [DecidableEq ω] [DecidableEq τ] in
/-- A lined queue whose items and counter changed alike from a sound one is sound. -/
theorem Lined.sound_of_perm (hq' : Lined owner q') (hq : Sound owner q) (ts ts' : List τ)
    (hperm : (ts' ++ q'.items).Perm (ts ++ q.items))
    (hcount : q'.count + ts'.length = q.count + ts.length) : Sound owner q' := by
  refine ⟨hq', ?_⟩
  have := hperm.length_eq
  simp only [List.length_append] at this
  have := hq.counted
  omega

/-! ## An arrival -/

omit [DecidableEq τ] in
theorem line_push :
    (q.push owner t).line o = if o = owner t then q.line o ++ [t] else q.line o := by
  unfold push
  split_ifs with ho
  · subst ho
    split <;> simp_all [line]
  · split <;> simp [line, Function.update_of_ne ho]

omit [DecidableEq τ] in
theorem Lined.rotation_push (hq : Lined owner q) :
    (q.push owner t).rotation =
      if q.line (owner t) = [] then q.rotation ++ [owner t] else q.rotation := by
  unfold push
  split
  next h => rw [if_pos (hq.line_eq_nil.mpr h)]
  next ts h => rw [if_neg fun h' => by rw [hq.line_eq_nil, h] at h'; cases h']

omit [DecidableEq τ] in
@[simp] theorem count_push : (q.push owner t).count = q.count + 1 := by
  unfold push
  split <;> rfl

omit [DecidableEq τ] in
theorem Lined.push (hq : Lined owner q) (t : τ) : Lined owner (q.push owner t) where
  nodup := by
    rw [hq.rotation_push]
    split_ifs with h
    · refine hq.nodup.append (List.nodup_singleton _) (List.disjoint_singleton.mpr ?_)
      rw [hq.mem_rotation]
      exact not_not_intro h
    · exact hq.nodup
  mem_rotation o := by
    rw [hq.rotation_push, line_push]
    by_cases ho : o = owner t
    · subst ho
      by_cases h : q.line (owner t) = []
      · simp [h]
      · simpa [h] using (hq.mem_rotation _).mpr h
    · rw [if_neg ho, ← hq.mem_rotation]
      split_ifs
      · simp [ho]
      · rfl
  nonempty o := by
    unfold Rotor.push
    by_cases ho : o = owner t
    · subst ho
      split <;> simp
    · split <;> simpa [Function.update_of_ne ho] using hq.nonempty o
  owned o x hx := by
    rw [line_push] at hx
    split_ifs at hx with ho
    · rcases List.mem_append.mp hx with hx | hx
      · exact hq.owned o x hx
      · rw [List.mem_singleton.mp hx, ho]
    · exact hq.owned o x hx

theorem Lined.items_push (hq : Lined owner q) : (q.push owner t).items.Perm (t :: q.items) := by
  rw [List.perm_iff_count]
  intro x
  rw [(hq.push t).count_items, List.count_cons, hq.count_items, line_push]
  by_cases hx : owner x = owner t
  · rw [if_pos hx, List.count_append, List.count_singleton]
  · rw [if_neg hx, if_neg, Nat.add_zero]
    rintro h
    exact hx (by rw [beq_iff_eq.mp h])

theorem Sound.push (hq : Sound owner q) (t : τ) : Sound owner (q.push owner t) :=
  (hq.toLined.push t).sound_of_perm hq [t] [] hq.items_push (by simp)

/-! ## A departure -/

theorem remove_eq_some :
    q.remove owner t served = some q' →
      t ∈ q.line (owner t) ∧
      q'.rotation =
        (if (q.line (owner t)).erase t = [] then q.rotation.erase (owner t)
        else if served then q.rotation.erase (owner t) ++ [owner t] else q.rotation) ∧
      q'.byOwner = Function.update q.byOwner (owner t)
        (if (q.line (owner t)).erase t = [] then none else some ((q.line (owner t)).erase t)) ∧
      q'.count = q.count - 1 := by
  unfold remove line
  split
  next h => exact fun h' => by cases h'
  next ts h =>
    rw [h, Option.getD_some]
    by_cases ht : t ∈ ts
    · rw [if_pos ht]
      intro h'
      obtain rfl := Option.some.inj h'
      exact ⟨ht, rfl, rfl, rfl⟩
    · rw [if_neg ht]
      exact fun h' => by cases h'

theorem exists_remove (ht : t ∈ q.line (owner t)) (served : Bool) :
    ∃ q', q.remove owner t served = some q' := by
  unfold remove line at *
  split
  next h => simp [h] at ht
  next ts h =>
    rw [h, Option.getD_some] at ht
    exact ⟨_, if_pos ht⟩

theorem remove_eq_none : q.remove owner t served = none ↔ t ∉ q.line (owner t) := by
  constructor
  · intro h ht
    obtain ⟨q', hq'⟩ := exists_remove ht served
    rw [hq'] at h
    cases h
  · intro h
    cases hq' : q.remove owner t served with
    | none => rfl
    | some q' => exact absurd (remove_eq_some hq').1 h

theorem line_remove (h : q.remove owner t served = some q') :
    q'.line o = if o = owner t then (q.line o).erase t else q.line o := by
  obtain ⟨-, -, hby, -⟩ := remove_eq_some h
  rw [line, hby]
  by_cases ho : o = owner t
  · subst ho
    rw [if_pos rfl, Function.update_self]
    split_ifs with hr
    · exact hr.symm
    · rfl
  · rw [if_neg ho, Function.update_of_ne ho]
    rfl

theorem Lined.remove (hq : Lined owner q) (h : q.remove owner t served = some q') :
    Lined owner q' := by
  obtain ⟨ht, hrot, hby, -⟩ := remove_eq_some h
  have hmem : owner t ∈ q.rotation := (hq.mem_rotation _).mpr (List.ne_nil_of_mem ht)
  refine ⟨?_, fun o => ?_, fun o => ?_, fun o x hx => ?_⟩
  · rw [hrot]
    split_ifs
    · exact hq.nodup.erase _
    · refine (hq.nodup.erase _).append (List.nodup_singleton _) (List.disjoint_singleton.mpr ?_)
      exact hq.nodup.not_mem_erase
    · exact hq.nodup
  · rw [hrot, line_remove h]
    by_cases ho : o = owner t
    · subst ho
      rw [if_pos rfl]
      split_ifs with hr hs
      · simpa [hr] using hq.nodup.not_mem_erase
      · simpa using hr
      · simpa [hr] using hmem
    · rw [if_neg ho, ← hq.mem_rotation]
      split_ifs
      · exact List.mem_erase_of_ne ho
      · rw [List.mem_append, List.mem_erase_of_ne ho, List.mem_singleton]
        simp [ho]
      · rfl
  · rw [hby]
    by_cases ho : o = owner t
    · subst ho
      rw [Function.update_self]
      split_ifs with hr
      · simp
      · simpa using hr
    · rw [Function.update_of_ne ho]
      exact hq.nonempty o
  · rw [line_remove h] at hx
    split_ifs at hx with ho
    · exact hq.owned o x (List.mem_of_mem_erase hx)
    · exact hq.owned o x hx

theorem Lined.items_remove (hq : Lined owner q) (h : q.remove owner t served = some q') :
    (t :: q'.items).Perm q.items := by
  rw [List.perm_iff_count]
  intro x
  obtain ⟨ht, -⟩ := remove_eq_some h
  rw [List.count_cons, (hq.remove h).count_items, hq.count_items, line_remove h]
  by_cases hx : owner x = owner t
  · rw [if_pos hx, hx, List.count_erase]
    by_cases htx : t = x
    · subst htx
      have := List.count_pos_iff.mpr ht
      simp only [beq_self_eq_true, if_true]
      omega
    · simp [htx]
  · rw [if_neg hx, if_neg, Nat.add_zero]
    rintro h
    exact hx (by rw [beq_iff_eq.mp h])

theorem Sound.remove (hq : Sound owner q) (h : q.remove owner t served = some q') :
    Sound owner q' := by
  have hcount := (remove_eq_some h).2.2.2
  refine (hq.toLined.remove h).sound_of_perm hq [] [t] (hq.items_remove h) ?_
  simp [hcount]

/-! ## A return to the front -/

omit [DecidableEq τ] in
theorem line_requeue :
    (q.requeue owner t).line o = if o = owner t then t :: (q.line o).dropLast else q.line o := by
  unfold requeue
  split_ifs with ho
  · subst ho
    simp [line]
  · simp [line, Function.update_of_ne ho]

omit [DecidableEq τ] in
theorem Lined.requeue (hq : Lined owner q) (ht : (q.line (owner t)).getLast? = some t) :
    Lined owner (q.requeue owner t) where
  nodup := hq.nodup
  mem_rotation o := by
    have : (q.requeue owner t).rotation = q.rotation := rfl
    rw [this, line_requeue, hq.mem_rotation]
    split_ifs with ho
    · subst ho
      simp only [ne_eq, reduceCtorEq, not_false_eq_true, iff_true]
      rintro h
      simp [h] at ht
    · rfl
  nonempty o := by
    unfold Rotor.requeue
    by_cases ho : o = owner t
    · subst ho
      simp
    · simpa [Function.update_of_ne ho] using hq.nonempty o
  owned o x hx := by
    rw [line_requeue] at hx
    split_ifs at hx with ho
    · rcases List.mem_cons.mp hx with rfl | hx
      · exact ho.symm
      · exact hq.owned o x (List.mem_of_mem_dropLast hx)
    · exact hq.owned o x hx

theorem Lined.items_requeue (hq : Lined owner q) (ht : (q.line (owner t)).getLast? = some t) :
    (q.requeue owner t).items.Perm q.items := by
  rw [List.perm_iff_count]
  intro x
  rw [(hq.requeue ht).count_items, hq.count_items, line_requeue]
  split_ifs with hx
  · have := List.dropLast_append_getLast? t ht
    rw [hx] at *
    conv_rhs => rw [← this]
    rw [List.count_append, List.count_cons, List.count_singleton]
  · rfl

theorem Sound.requeue (hq : Sound owner q) (ht : (q.line (owner t)).getLast? = some t) :
    Sound owner (q.requeue owner t) :=
  (hq.toLined.requeue ht).sound_of_perm hq [] [] (hq.items_requeue ht) rfl

/-! ## Turns -/

/-- The owners served before one in the rotation. -/
def ahead (o : ω) (q : Rotor ω τ) : List ω := q.rotation.takeWhile (· ≠ o)

/-- No owner gets ahead of an item that stays. -/
def Keeps (owner : τ → ω) (q q' : Rotor ω τ) : Prop :=
  ∀ x ∈ q.items, x ∈ q'.items → q'.ahead (owner x) ⊆ q.ahead (owner x)

omit [DecidableEq τ] in
theorem Keeps.refl (q : Rotor ω τ) : Keeps owner q q := fun _ _ _ => List.Subset.refl _

omit [DecidableEq τ] in
theorem keeps_of_prefix (hq : Lined owner q) (h : q.rotation <+: q'.rotation) :
    Keeps owner q q' := by
  intro x hx _ o ho
  obtain ⟨os, hos⟩ := h
  have hmem : owner x ∈ q.rotation :=
    (hq.mem_rotation _).mpr (List.ne_nil_of_mem (hq.mem_items.mp hx))
  unfold ahead at ho ⊢
  rwa [← hos, List.takeWhile_append, if_neg] at ho
  intro hall
  have := List.takeWhile_eq_self_iff.mp (List.takeWhile_prefix _ |>.eq_of_length hall) _ hmem
  simp at this

omit [DecidableEq τ] in
theorem keeps_push (hq : Lined owner q) (t : τ) : Keeps owner q (q.push owner t) := by
  refine keeps_of_prefix hq ?_
  rw [hq.rotation_push]
  split_ifs
  · exact List.prefix_append _ _
  · exact List.prefix_rfl

omit [DecidableEq τ] in
theorem takeWhile_erase_subset {l : List ω} {o o' : ω} (h : o ≠ o') :
    (l.erase o').takeWhile (· ≠ o) ⊆ l.takeWhile (· ≠ o) := by
  induction l with
  | nil => simp
  | cons a l ih =>
    rw [List.erase_cons]
    split_ifs with ha
    · rw [beq_iff_eq] at ha
      rw [List.takeWhile_cons_of_pos (by simpa [ha] using h.symm)]
      exact List.subset_cons_self _ _
    · by_cases hao : a = o
      · simp [hao]
      · rw [List.takeWhile_cons_of_pos (by simpa using hao),
          List.takeWhile_cons_of_pos (by simpa using hao)]
        exact List.cons_subset_cons _ ih

/-- **Turns.** A departure lets no owner get ahead of an item that stays, unless that item's owner
was served. -/
theorem ahead_remove (hq : Lined owner q) (h : q.remove owner t served = some q')
    (hx : x ∈ q.items) (hx' : x ∈ q'.items) (hserved : served = true → owner x ≠ owner t) :
    q'.ahead (owner x) ⊆ q.ahead (owner x) := by
  obtain ⟨-, hrot, -, -⟩ := remove_eq_some h
  have hline : x ∈ q'.line (owner x) := (hq.remove h).mem_items.mp hx'
  have hmem : owner x ∈ q.rotation :=
    (hq.mem_rotation _).mpr (List.ne_nil_of_mem (hq.mem_items.mp hx))
  unfold ahead
  rw [hrot]
  split_ifs with hnil hs
  · refine takeWhile_erase_subset ?_
    intro ho
    rw [line_remove h, if_pos ho, ho, hnil] at hline
    exact absurd hline List.not_mem_nil
  · have ho := hserved hs
    have hmem' : owner x ∈ q.rotation.erase (owner t) := (List.mem_erase_of_ne ho).mpr hmem
    rw [List.takeWhile_append, if_neg]
    · exact takeWhile_erase_subset ho
    · intro hall
      have := List.takeWhile_eq_self_iff.mp (List.takeWhile_prefix _ |>.eq_of_length hall) _ hmem'
      simp at this
  · exact List.Subset.refl _

theorem keeps_remove (hq : Lined owner q) (h : q.remove owner t false = some q') :
    Keeps owner q q' := fun _ hx hx' => ahead_remove hq h hx hx' fun hs => by cases hs

theorem served_ahead (hq : Lined owner q)
    (h : q.remove owner t true = some q') (ho : o ∈ q'.rotation) (hne : o ≠ owner t) :
    owner t ∉ q'.ahead o := by
  obtain ⟨-, hrot, -, -⟩ := remove_eq_some h
  have hlast : owner t ∉ q.rotation.erase (owner t) := hq.nodup.not_mem_erase
  unfold ahead
  rw [if_pos rfl] at hrot
  rw [hrot] at ho ⊢
  split_ifs at ho ⊢ with hnil
  · exact fun hmem => hlast (List.takeWhile_subset _ hmem)
  · have hmem' : o ∈ q.rotation.erase (owner t) := by
      rcases List.mem_append.mp ho with ho | ho
      · exact ho
      · exact absurd (List.mem_singleton.mp ho) hne
    rw [List.takeWhile_append, if_neg]
    · exact fun hmem => hlast (List.takeWhile_subset _ hmem)
    · intro hall
      have := List.takeWhile_eq_self_iff.mp (List.takeWhile_prefix _ |>.eq_of_length hall) _ hmem'
      simp at this

omit [DecidableEq τ] in
theorem Sound.owner_front_mem_ahead (hq : Sound owner q) (hfront : q.front = some t)
    (ho : o ≠ owner t) : owner t ∈ q.ahead o := by
  obtain ⟨os, hos⟩ := List.head?_eq_some_iff.mp (hq.front_eq_some.mp hfront).1
  unfold ahead
  rw [hos, List.takeWhile_cons_of_pos (by simpa using ho.symm)]
  exact List.mem_cons_self

end Rotor

end Portico
