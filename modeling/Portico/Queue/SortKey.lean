import Mathlib

/-!
# Fractional sort keys

`sortKeyBetween` of `playbackv1/queues.go`: a key strictly between two others, so that inserting a
segment between its neighbours writes one row. A key is the list of its digits, each given by its
index in `sortDigits`; keys compare as their texts do.

## Main results

* `exists_sortKeyBetween`: below a valid key the loop ends, with a valid key strictly between
* `lt_sortKeyBetween_nil`: with an open end the key lies above
* `sortKeys_between`: the texts too; and segments stay in the order in which they were put in
-/

namespace Portico

/-- A sort key: its base-36 digits. -/
abbrev SortKey := List ℕ

/-- Generated keys are not empty and never end in the digit 0, which keeps a gap below each. -/
structure SortKey.Valid (k : SortKey) : Prop where
  digits : ∀ d ∈ k, d < 36
  ne_nil : k ≠ []
  last_ne_zero : k.getLast? ≠ some 0

/-- The loop for an open end: step the first digit that can still grow. -/
def sortKeyAppend : SortKey → SortKey
  | [] => [1]
  | d :: a => if d < 35 then [d + 1] else d :: sortKeyAppend a

/-- The last loop: room above the rest of `a`. -/
def sortKeyAbove : SortKey → SortKey
  | [] => [18]
  | d :: a => if d < 35 then [(d + 36) / 2] else d :: sortKeyAbove a

/-- The loop between two keys past the end of `b`, where its digits are 0: past the end of both it
does not end. -/
def sortKeyPast : SortKey → Option SortKey
  | [] => none
  | lo :: a => if lo = 0 then (sortKeyPast a).map (lo :: ·) else some (lo :: sortKeyAbove a)

/-- The loop between two keys, or `none` where it does not end. A digit past a key's end is 0. -/
def sortKeyLoop (a : SortKey) : SortKey → Option SortKey
  | [] => sortKeyPast a
  | hi :: b =>
    if hi = a.headD 0 then (sortKeyLoop a.tail b).map (a.headD 0 :: ·)
    else if a.headD 0 + 1 < hi then some [(a.headD 0 + hi) / 2]
    else some (a.headD 0 :: sortKeyAbove a.tail)

/-- A key strictly between `a` and `b`, where an empty `b` is the open end. -/
def sortKeyBetween (a b : SortKey) : Option SortKey :=
  if b = [] then some (sortKeyAppend a) else sortKeyLoop a b

namespace SortKey

theorem valid_singleton {d : ℕ} (hpos : 0 < d) (hlt : d < 36) : Valid [d] where
  digits := by simpa using hlt
  ne_nil := by simp
  last_ne_zero := by simp; omega

theorem Valid.cons {d : ℕ} {k : SortKey} (hlt : d < 36) (hk : k.Valid) : Valid (d :: k) where
  digits := by simpa using ⟨hlt, hk.digits⟩
  ne_nil := by simp
  last_ne_zero := by
    obtain ⟨e, k, rfl⟩ := List.exists_cons_of_ne_nil hk.ne_nil
    simpa [List.getLast?_cons_cons] using hk.last_ne_zero

theorem Valid.tail {d : ℕ} {k : SortKey} (h : Valid (d :: k)) (hk : k ≠ []) : k.Valid where
  digits e he := h.digits e (List.mem_cons_of_mem _ he)
  ne_nil := hk
  last_ne_zero := by
    obtain ⟨e, k, rfl⟩ := List.exists_cons_of_ne_nil hk
    simpa [List.getLast?_cons_cons] using h.last_ne_zero

end SortKey

open SortKey

theorem valid_sortKeyAppend {a : SortKey} (ha : ∀ d ∈ a, d < 36) : (sortKeyAppend a).Valid := by
  induction a with
  | nil => exact valid_singleton (by norm_num) (by norm_num)
  | cons d a ih =>
    rw [List.forall_mem_cons] at ha
    rw [sortKeyAppend]
    split_ifs with hd
    · exact valid_singleton (by omega) (by omega)
    · exact (ih ha.2).cons ha.1

theorem lt_sortKeyAppend (a : SortKey) : a < sortKeyAppend a := by
  induction a with
  | nil => exact List.nil_lt_cons _ _
  | cons d a ih =>
    rw [sortKeyAppend]
    split_ifs
    · exact List.cons_lt_cons_iff.mpr (Or.inl (by omega))
    · exact List.cons_lt_cons_iff.mpr (Or.inr ⟨rfl, ih⟩)

theorem valid_sortKeyAbove {a : SortKey} (ha : ∀ d ∈ a, d < 36) : (sortKeyAbove a).Valid := by
  induction a with
  | nil => exact valid_singleton (by norm_num) (by norm_num)
  | cons d a ih =>
    rw [List.forall_mem_cons] at ha
    rw [sortKeyAbove]
    split_ifs with hd
    · exact valid_singleton (by omega) (by omega)
    · exact (ih ha.2).cons ha.1

theorem lt_sortKeyAbove (a : SortKey) : a < sortKeyAbove a := by
  induction a with
  | nil => exact List.nil_lt_cons _ _
  | cons d a ih =>
    rw [sortKeyAbove]
    split_ifs
    · exact List.cons_lt_cons_iff.mpr (Or.inl (by omega))
    · exact List.cons_lt_cons_iff.mpr (Or.inr ⟨rfl, ih⟩)

theorem lt_sortKeyBetween_nil {a : SortKey} (ha : ∀ d ∈ a, d < 36) :
    ∃ k, sortKeyBetween a [] = some k ∧ k.Valid ∧ a < k :=
  ⟨_, rfl, valid_sortKeyAppend ha, lt_sortKeyAppend a⟩

theorem sortKeyLoop_nil_cons (hi : ℕ) (b : SortKey) :
    sortKeyLoop [] (hi :: b) =
      if hi = 0 then (sortKeyLoop [] b).map (0 :: ·)
      else if 1 < hi then some [hi / 2] else some (0 :: sortKeyAbove []) := by
  simp [sortKeyLoop]

theorem sortKeyLoop_cons_cons (lo hi : ℕ) (a b : SortKey) :
    sortKeyLoop (lo :: a) (hi :: b) =
      if hi = lo then (sortKeyLoop a b).map (lo :: ·)
      else if lo + 1 < hi then some [(lo + hi) / 2] else some (lo :: sortKeyAbove a) :=
  rfl

private theorem exists_sortKeyLoop {a b : SortKey} (ha : ∀ d ∈ a, d < 36) (hb : b.Valid)
    (hab : a < b) : ∃ k, sortKeyLoop a b = some k ∧ k.Valid ∧ a < k ∧ k < b := by
  induction b generalizing a with
  | nil => exact absurd rfl hb.ne_nil
  | cons hi b ih =>
    have hhi : hi < 36 := hb.digits hi (List.mem_cons_self ..)
    cases a with
    | nil =>
      rw [sortKeyLoop_nil_cons]
      split_ifs with h0 h1
      · -- `b` goes on: a valid key does not end in this 0
        have hne : b ≠ [] := by
          rintro rfl
          exact hb.last_ne_zero (by simpa using h0)
        obtain ⟨c, b', rfl⟩ := List.exists_cons_of_ne_nil hne
        obtain ⟨k, hk, hv, -, hlt⟩ := ih (by simp) (hb.tail hne) (List.nil_lt_cons _ _)
        refine ⟨0 :: k, by rw [hk]; rfl, hv.cons (by norm_num), List.nil_lt_cons _ _, ?_⟩
        exact List.cons_lt_cons_iff.mpr (Or.inr ⟨h0.symm, hlt⟩)
      · exact ⟨_, rfl, valid_singleton (by omega) (by omega), List.nil_lt_cons _ _,
          List.cons_lt_cons_iff.mpr (Or.inl (by omega))⟩
      · exact ⟨_, rfl, (valid_sortKeyAbove (by simp)).cons (by norm_num), List.nil_lt_cons _ _,
          List.cons_lt_cons_iff.mpr (Or.inl (by omega))⟩
    | cons lo a =>
      rw [List.forall_mem_cons] at ha
      rw [sortKeyLoop_cons_cons]
      rcases List.cons_lt_cons_iff.mp hab with hlt | ⟨rfl, hlt⟩
      · rw [if_neg (by omega)]
        split_ifs with h1
        · exact ⟨_, rfl, valid_singleton (by omega) (by omega),
            List.cons_lt_cons_iff.mpr (Or.inl (by omega)),
            List.cons_lt_cons_iff.mpr (Or.inl (by omega))⟩
        · exact ⟨_, rfl, (valid_sortKeyAbove ha.2).cons ha.1,
            List.cons_lt_cons_iff.mpr (Or.inr ⟨rfl, lt_sortKeyAbove a⟩),
            List.cons_lt_cons_iff.mpr (Or.inl hlt)⟩
      · have hne : b ≠ [] := by
          rintro rfl
          exact List.not_lt_nil _ hlt
        obtain ⟨k, hk, hv, hak, hkb⟩ := ih ha.2 (hb.tail hne) hlt
        refine ⟨lo :: k, by rw [if_pos rfl, hk]; rfl, hv.cons ha.1, ?_, ?_⟩
        · exact List.cons_lt_cons_iff.mpr (Or.inr ⟨rfl, hak⟩)
        · exact List.cons_lt_cons_iff.mpr (Or.inr ⟨rfl, hkb⟩)

/-- **The key between.** Below a valid key the loop ends, with a valid key strictly between. -/
theorem exists_sortKeyBetween {a b : SortKey} (ha : ∀ d ∈ a, d < 36) (hb : b.Valid)
    (hab : a < b) : ∃ k, sortKeyBetween a b = some k ∧ k.Valid ∧ a < k ∧ k < b := by
  rw [sortKeyBetween, if_neg hb.ne_nil]
  exact exists_sortKeyLoop ha hb hab

/-! ## Texts -/

def sortDigits : String := "0123456789abcdefghijklmnopqrstuvwxyz"

def sortDigit (d : ℕ) : Char := sortDigits.toList.getD d '0'

/-- A key as it is written. -/
def SortKey.text (k : SortKey) : String := String.ofList (k.map sortDigit)

theorem sortDigit_lt : ∀ d < 36, ∀ e < 36, d < e → sortDigit d < sortDigit e := by decide

theorem text_lt_text {a b : SortKey} (ha : ∀ d ∈ a, d < 36) (hb : ∀ d ∈ b, d < 36) (hab : a < b) :
    a.text < b.text := by
  rw [String.lt_iff_toList_lt, SortKey.text, SortKey.text, String.toList_ofList, String.toList_ofList]
  induction b generalizing a with
  | nil => exact absurd hab (List.not_lt_nil a)
  | cons e b ih =>
    cases a with
    | nil => exact List.nil_lt_cons _ _
    | cons d a =>
      rw [List.forall_mem_cons] at ha hb
      rw [List.map_cons, List.map_cons, List.cons_lt_cons_iff]
      rcases List.cons_lt_cons_iff.mp hab with hlt | ⟨rfl, hlt⟩
      · exact .inl (sortDigit_lt d ha.1 e hb.1 hlt)
      · exact .inr ⟨rfl, ih ha.2 hb.2 hlt⟩

theorem text_lt_text_iff {a b : SortKey} (ha : ∀ d ∈ a, d < 36) (hb : ∀ d ∈ b, d < 36) :
    a.text < b.text ↔ a < b := by
  refine ⟨fun h => ?_, text_lt_text ha hb⟩
  rcases lt_trichotomy a b with hlt | rfl | hgt
  · exact hlt
  · exact absurd h (lt_irrefl _)
  · exact absurd h (text_lt_text hb ha hgt).asymm

/-! ## Insertions -/

section Insertions

variable {α : Type*} {segments segments' : List (α × SortKey)} {a b : SortKey}

/-- A key that was generated, or none. -/
def SortKey.Bound (k : SortKey) : Prop := k = [] ∨ k.Valid

theorem SortKey.Bound.digits {k : SortKey} (h : k.Bound) : ∀ d ∈ k, d < 36 := by
  rcases h with rfl | h
  · exact nofun
  · exact h.digits

/-- Between two bounds, either of which may be open, there is a key. -/
theorem exists_between (ha : a.Bound) (hb : b.Bound) (hab : b ≠ [] → a < b) :
    ∃ k, sortKeyBetween a b = some k ∧ k.Valid ∧ a < k ∧ (b ≠ [] → k < b) := by
  rcases hb with rfl | hb
  · obtain ⟨k, hk, hvalid, hlt⟩ := lt_sortKeyBetween_nil ha.digits
    exact ⟨k, hk, hvalid, hlt, fun h => absurd rfl h⟩
  · obtain ⟨k, hk, hvalid, hak, hkb⟩ := exists_sortKeyBetween ha.digits hb (hab hb.ne_nil)
    exact ⟨k, hk, hvalid, hak, fun _ => hkb⟩

/-- The keys beside a place, where an empty one is an end. -/
def keyBefore (segments : List (α × SortKey)) (place : ℕ) : SortKey :=
  ((segments.take place).getLast?.map Prod.snd).getD []

def keyAfter (segments : List (α × SortKey)) (place : ℕ) : SortKey :=
  ((segments.drop place).head?.map Prod.snd).getD []

/-- A segment is put in at a place, with the key between its neighbours'. -/
def putSegment (segments : List (α × SortKey)) (place : ℕ) (id : α) : Option (List (α × SortKey)) :=
  (sortKeyBetween (keyBefore segments place) (keyAfter segments place)).map fun k =>
    segments.take place ++ (id, k) :: segments.drop place

def putSegments (segments : List (α × SortKey)) (places : List (ℕ × α)) :
    Option (List (α × SortKey)) :=
  places.foldlM (fun segments p => putSegment segments p.1 p.2) segments

/-- Segments in the order of their keys, which were all generated. -/
structure InKeyOrder (segments : List (α × SortKey)) : Prop where
  valid : ∀ x ∈ segments, x.2.Valid
  increasing : segments.Pairwise fun x y => x.2 < y.2

theorem InKeyOrder.keyBefore (h : InKeyOrder segments) (place : ℕ) :
    (keyBefore segments place).Bound ∧
      (Portico.keyBefore segments place ≠ [] →
        ∃ x ∈ segments.take place, x.2 = Portico.keyBefore segments place) ∧
      ∀ x ∈ segments.take place, x.2 ≤ Portico.keyBefore segments place := by
  unfold Portico.keyBefore
  cases hlast : (segments.take place).getLast? with
  | none =>
    rw [List.getLast?_eq_none_iff] at hlast
    rw [hlast]
    exact ⟨.inl rfl, fun h => absurd rfl h, nofun⟩
  | some x =>
    have hx := List.mem_of_getLast? hlast
    refine ⟨.inr (h.valid x (List.mem_of_mem_take hx)), fun _ => ⟨x, hx, rfl⟩, fun y hy => ?_⟩
    obtain ⟨l, hl⟩ := List.getLast?_eq_some_iff.mp hlast
    have hsorted := h.increasing.sublist (List.take_sublist place segments)
    rw [hl] at hy hsorted
    rcases List.mem_append.mp hy with hy | hy
    · exact ((List.pairwise_append.mp hsorted).2.2 y hy x (List.mem_singleton.mpr rfl)).le
    · rw [List.mem_singleton.mp hy]
      exact le_rfl

theorem InKeyOrder.keyAfter (h : InKeyOrder segments) (place : ℕ) :
    (keyAfter segments place).Bound ∧
      (Portico.keyAfter segments place = [] → segments.drop place = []) ∧
      (Portico.keyAfter segments place ≠ [] →
        ∃ x ∈ segments.drop place, x.2 = Portico.keyAfter segments place) ∧
      ∀ x ∈ segments.drop place, Portico.keyAfter segments place ≤ x.2 := by
  unfold Portico.keyAfter
  cases hdrop : segments.drop place with
  | nil => exact ⟨.inl rfl, fun _ => rfl, fun h => absurd rfl h, nofun⟩
  | cons x l =>
    have hx : x ∈ segments := by
      refine List.mem_of_mem_drop (i := place) ?_
      rw [hdrop]
      exact List.mem_cons_self
    have hvalid := h.valid x hx
    have hsorted := h.increasing.sublist (List.drop_sublist place segments)
    rw [hdrop, List.pairwise_cons] at hsorted
    refine ⟨.inr hvalid, fun hnil => absurd hnil hvalid.ne_nil, fun _ => ⟨x, List.mem_cons_self, rfl⟩, ?_⟩
    intro y hy
    rcases List.mem_cons.mp hy with rfl | hy
    · exact le_rfl
    · exact (hsorted.1 y hy).le

/-- **A segment that is put in** is where it was put. -/
theorem InKeyOrder.putSegment (h : InKeyOrder segments) (place : ℕ) (id : α) :
    ∃ k, putSegment segments place id = some (segments.take place ++ (id, k) :: segments.drop place) ∧
      InKeyOrder (segments.take place ++ (id, k) :: segments.drop place) := by
  obtain ⟨hbefore, hfrom, hle⟩ := h.keyBefore place
  obtain ⟨hafter, hnil, hto, hge⟩ := h.keyAfter place
  have hsplit := h.increasing
  rw [← List.take_append_drop place segments, List.pairwise_append] at hsplit
  have hab : Portico.keyAfter segments place ≠ [] →
      Portico.keyBefore segments place < Portico.keyAfter segments place := by
    intro hne
    obtain ⟨y, hy, hkey⟩ := hto hne
    by_cases hopen : Portico.keyBefore segments place = []
    · rw [hopen]
      obtain ⟨e, l, hcons⟩ := List.exists_cons_of_ne_nil hne
      rw [hcons]
      exact List.nil_lt_cons _ _
    · obtain ⟨x, hx, hkey'⟩ := hfrom hopen
      rw [← hkey, ← hkey']
      exact hsplit.2.2 x hx y hy
  obtain ⟨k, hk, hvalid, hlt, hgt⟩ := exists_between hbefore hafter hab
  refine ⟨k, by unfold Portico.putSegment; rw [hk]; rfl, ?_, ?_⟩
  · intro x hx
    rcases List.mem_append.mp hx with hx | hx
    · exact h.valid x (List.mem_of_mem_take hx)
    · rcases List.mem_cons.mp hx with rfl | hx
      · exact hvalid
      · exact h.valid x (List.mem_of_mem_drop hx)
  · have habove : ∀ y ∈ segments.drop place, k < y.2 := by
      intro y hy
      have hne : Portico.keyAfter segments place ≠ [] := by
        intro hempty
        rw [hnil hempty] at hy
        cases hy
      exact (hgt hne).trans_le (hge y hy)
    have hbelow : ∀ x ∈ segments.take place, x.2 < k := fun x hx => (hle x hx).trans_lt hlt
    refine List.pairwise_append.mpr ⟨hsplit.1, List.pairwise_cons.mpr ⟨habove, hsplit.2.1⟩, ?_⟩
    intro x hx y hy
    rcases List.mem_cons.mp hy with rfl | hy
    · exact hbelow x hx
    · exact (hbelow x hx).trans (habove y hy)

/-- Whatever is put in and where, the segments are in the order they were put in. -/
theorem InKeyOrder.putSegments (h : InKeyOrder segments) (places : List (ℕ × α)) :
    ∃ segments', putSegments segments places = some segments' ∧ InKeyOrder segments' ∧
      segments'.map Prod.fst =
        places.foldl (fun ids p => ids.take p.1 ++ p.2 :: ids.drop p.1) (segments.map Prod.fst) := by
  induction places generalizing segments with
  | nil => exact ⟨segments, rfl, h, rfl⟩
  | cons p places ih =>
    obtain ⟨k, hinsert, horder⟩ := h.putSegment p.1 p.2
    obtain ⟨segments', hrun, horder', hids⟩ := ih horder
    refine ⟨segments', ?_, horder', ?_⟩
    · unfold Portico.putSegments at hrun ⊢
      rw [List.foldlM_cons, hinsert]
      exact hrun
    · rw [hids, List.foldl_cons, List.map_append, List.map_cons, List.map_take, List.map_drop]

end Insertions

/-- **Keys between keys.** Between two keys that don't end in the digit 0, either of which may be absent,
there is one, and it doesn't end in 0 either. So segments that are put in at arbitrary places have distinct
keys, whose texts are in the order that the segments were put in. -/
theorem sortKeys_between :
    (∀ a b : SortKey, a.Bound → b.Bound → (b ≠ [] → a.text < b.text) →
      ∃ k, sortKeyBetween a b = some k ∧ k.Valid ∧ a.text < k.text ∧ (b ≠ [] → k.text < b.text)) ∧
    ∀ places : List (ℕ × ℕ), ∃ segments, putSegments [] places = some segments ∧
      segments.map Prod.fst = places.foldl (fun ids p => ids.take p.1 ++ p.2 :: ids.drop p.1) [] ∧
      (segments.map fun x => x.2.text).Pairwise (· < ·) ∧
      (segments.map fun x => x.2.text).Nodup := by
  constructor
  · intro a b ha hb hab
    obtain ⟨k, hk, hvalid, hlt, hgt⟩ := exists_between ha hb fun hne =>
      (text_lt_text_iff ha.digits hb.digits).mp (hab hne)
    exact ⟨k, hk, hvalid, text_lt_text ha.digits hvalid.digits hlt,
      fun hne => text_lt_text hvalid.digits hb.digits (hgt hne)⟩
  · intro places
    have hempty : InKeyOrder ([] : List (ℕ × SortKey)) := ⟨nofun, .nil⟩
    obtain ⟨segments, hrun, horder, hids⟩ := hempty.putSegments places
    have htexts : (segments.map fun x => x.2.text).Pairwise (· < ·) := by
      rw [List.pairwise_map]
      refine horder.increasing.imp_of_mem fun hx hy hxy => ?_
      exact text_lt_text (horder.valid _ hx).digits (horder.valid _ hy).digits hxy
    exact ⟨segments, hrun, hids, htexts, htexts.imp ne_of_lt⟩

end Portico
