import Portico.Lib.Base64
import Portico.Lib.Machine
import Portico.Lib.Table

/-!
# Public ids of titles that merge

An entity of the catalogue has a public id of sixteen bytes, and clients see its text
(`entityid`). Two titles that turn out to be one are merged: the title that stays takes over the
public id of the one that is deleted, and those that one had taken over before (`absorbTx`,
`settleEmptiedInto`). A deleted title takes its ids with it.

## Main results

* `decode_eq_some_iff`: a text is read as a public id exactly when it is the id's own text
* `titles_followed`: an id names its title, and whichever title that one becomes part of
* `survivingTitleID_spec`: the id to use is the public id of the title that is named
-/

namespace Portico.EntityIds

open Machine

/-! ## Texts -/

def Size : ℕ := 16

def Length : ℕ := 22

def Encode (raw : List UInt8) : List Char :=
  if raw.length ≠ Size then [] else Base64.encode raw

def Decode (text : List Char) : Option (List UInt8) :=
  if text.length ≠ Length then none
  else
    match Base64.decode text with
    | none => none
    | some raw => if raw.length ≠ Size ∨ Base64.encode raw ≠ text then none else some raw

theorem length_encode (bs : List UInt8) : (Base64.encode bs).length = (4 * bs.length + 2) / 3 := by
  rw [Base64.encode, List.length_map]
  fun_induction Base64.digits bs with
  | case1 x y z rest ih =>
    simp only [List.length_cons, ih]
    omega
  | case2 x y => simp
  | case3 x => simp
  | case4 => rfl

theorem decode_encode {raw : List UInt8} (h : raw.length = Size) : Decode (Encode raw) = some raw := by
  rw [Encode, if_neg (not_not.mpr h), Decode, if_neg, Base64.decode_encode]
  · exact if_neg (by simp [h])
  · rw [not_not, length_encode, h]
    rfl

/-- **Public ids.** A text is read as a public id exactly when it is the text that is written for
it, so an id has one text, and a text that is altered names another id or none. -/
theorem decode_eq_some_iff {text : List Char} {raw : List UInt8} :
    Decode text = some raw ↔ raw.length = Size ∧ text = Encode raw := by
  constructor
  · intro h
    rw [Decode] at h
    split_ifs at h
    cases hread : Base64.decode text with
    | none =>
      rw [hread] at h
      cases h
    | some b =>
      rw [hread] at h
      dsimp only at h
      split_ifs at h with hbad
      obtain rfl := Option.some.inj h
      rw [not_or, not_not, not_not] at hbad
      exact ⟨hbad.1, by rw [Encode, if_neg (not_not.mpr hbad.1), hbad.2]⟩
  · rintro ⟨hsize, rfl⟩
    exact decode_encode hsize

/-! ## Entities and merged ids -/

structure Entity where
  id : ℕ
  publicID : List UInt8
deriving DecidableEq

/-- A public id that leads to another title. -/
structure MergedID where
  publicID : List UInt8
  entityID : ℕ
deriving DecidableEq

structure Titles where
  entities : List Entity := []
  merged : List MergedID := []
deriving DecidableEq

inductive Event where
  | create (id : ℕ) (raw : List UInt8)
  | absorb (source into : ℕ)
  | delete (id : ℕ)

namespace Titles

variable (s : Titles)

/-- The entity that a public id is of. -/
def entityOf (raw : List UInt8) : Option ℕ :=
  (rowOf Entity.publicID raw s.entities).map Entity.id

/-- The title that a merged id leads to. -/
def leadsTo (raw : List UInt8) : Option ℕ :=
  (rowOf MergedID.publicID raw s.merged).map MergedID.entityID

def Resolve (text : List Char) : Option ℕ :=
  (Decode text).bind fun raw => (s.entityOf raw).or (s.leadsTo raw)

def Public (id : ℕ) : Option (List Char) :=
  (rowOf Entity.id id s.entities).map fun e => Encode e.publicID

def Survivor (text : List Char) : Option (List Char) :=
  (Decode text).bind fun raw =>
    if (s.entityOf raw).isSome then none else (s.leadsTo raw).bind s.Public

def SurvivingTitleID (text : List Char) : List Char := (s.Survivor text).getD text

/-- A deleted entity takes the ids that lead to it with it. -/
def deleteEntity (id : ℕ) : Titles where
  entities := without Entity.id id s.entities
  merged := s.merged.filter fun m => m.entityID ≠ id

/-- Ids that lead to a title lead on, and then its own. -/
def lead (raw : List UInt8) (source into : ℕ) : Titles where
  entities := s.entities
  merged := put MergedID.publicID ⟨raw, into⟩
    (updateWhere (fun m => m.entityID = source) (fun m => { m with entityID := into }) s.merged)

/-- One change. A public id is of one entity, and a title isn't merged with itself. -/
def step : Event → Option Titles
  | .create id raw =>
    if raw.length = Size ∧ rowOf Entity.id id s.entities = none ∧ s.entityOf raw = none then
      some { s with entities := ⟨id, raw⟩ :: s.entities }
    else none
  | .absorb source into =>
    match rowOf Entity.id source s.entities, rowOf Entity.id into s.entities with
    | some e, some _ =>
      if source = into then none else some ((s.lead e.publicID source into).deleteEntity source)
    | _, _ => none
  | .delete id => some (s.deleteEntity id)

end Titles

/-! ## What the tables keep -/

/-- Entities have ids and public ids of their own, a merged id leads to one title, and that title is
there. -/
structure Sound (s : Titles) : Prop where
  ids : (s.entities.map Entity.id).Nodup
  publics : (s.entities.map Entity.publicID).Nodup
  sized : ∀ e ∈ s.entities, e.publicID.length = Size
  rows : (s.merged.map MergedID.publicID).Nodup
  there : ∀ m ∈ s.merged, ∃ e ∈ s.entities, e.id = m.entityID

variable {s t : Titles} {id source into e : ℕ} {raw : List UInt8} {text : List Char} {x : Entity}

theorem Sound.entityOf_eq_some (h : Sound s) :
    s.entityOf raw = some id ↔ ⟨id, raw⟩ ∈ s.entities := by
  rw [Titles.entityOf, Option.map_eq_some_iff]
  constructor
  · rintro ⟨x, hx, rfl⟩
    obtain ⟨hmem, rfl⟩ := (rowOf_eq_some h.publics).mp hx
    exact hmem
  · exact fun hmem => ⟨_, (rowOf_eq_some h.publics).mpr ⟨hmem, rfl⟩, rfl⟩

theorem Sound.delete (h : Sound s) : Sound (s.deleteEntity id) where
  ids := nodup_without h.ids
  publics := h.publics.sublist (List.filter_sublist.map _)
  sized x hx := h.sized x (mem_without.mp hx).1
  rows := h.rows.sublist (List.filter_sublist.map _)
  there m hm := by
    obtain ⟨hm, hne⟩ := List.mem_filter.mp hm
    obtain ⟨x, hx, hid⟩ := h.there m hm
    exact ⟨x, mem_without.mpr ⟨hx, by simpa [hid] using hne⟩, hid⟩

theorem Sound.lead (h : Sound s) (hinto : ∃ e ∈ s.entities, e.id = into) :
    Sound (s.lead raw source into) where
  ids := h.ids
  publics := h.publics
  sized := h.sized
  rows := by
    refine nodup_put ?_
    rw [map_updateWhere (f := fun m : MergedID => { m with entityID := into }) fun _ => rfl]
    exact h.rows
  there m hm := by
    rcases List.mem_cons.mp hm with rfl | hm
    · exact hinto
    · obtain ⟨m', hm', rfl⟩ := mem_updateWhere.mp (mem_without.mp hm).1
      split_ifs
      · exact hinto
      · exact h.there m' hm'

theorem Sound.step {ev : Event} (h : Sound s) (ht : s.step ev = some t) : Sound t := by
  cases ev with
  | create id raw =>
    rw [Titles.step] at ht
    split_ifs at ht with hnew
    obtain rfl := Option.some.inj ht
    obtain ⟨hsize, hid, hraw⟩ := hnew
    refine ⟨?_, ?_, ?_, h.rows, ?_⟩
    · rw [List.map_cons, List.nodup_cons]
      refine ⟨fun hmem => ?_, h.ids⟩
      obtain ⟨x, hx, hxid⟩ := List.mem_map.mp hmem
      exact rowOf_eq_none.mp hid x hx hxid
    · rw [List.map_cons, List.nodup_cons]
      refine ⟨fun hmem => ?_, h.publics⟩
      obtain ⟨x, hx, hxraw⟩ := List.mem_map.mp hmem
      exact rowOf_eq_none.mp (Option.map_eq_none_iff.mp hraw) x hx hxraw
    · intro x hx
      rcases List.mem_cons.mp hx with rfl | hx
      · exact hsize
      · exact h.sized x hx
    · intro m hm
      obtain ⟨x, hx, hid⟩ := h.there m hm
      exact ⟨x, List.mem_cons_of_mem _ hx, hid⟩
  | absorb source into =>
    rw [Titles.step] at ht
    split at ht
    · rename_i a b ha hb
      split_ifs at ht
      obtain rfl := Option.some.inj ht
      exact (h.lead ⟨b, mem_of_rowOf hb, key_of_rowOf hb⟩).delete
    · cases ht
  | delete id =>
    obtain rfl := Option.some.inj ht
    exact h.delete

theorem sound_of_reaches (h : Reaches Titles.step {} s) : Sound s :=
  h.invariant ⟨List.nodup_nil, List.nodup_nil, nofun, List.nodup_nil, nofun⟩ fun _ _ _ h => h.step

/-! ## What an id names -/

theorem entityOf_delete (h : Sound s) :
    (s.deleteEntity id).entityOf raw = if s.entityOf raw = some id then none else s.entityOf raw := by
  apply Option.ext
  intro j
  rw [h.delete.entityOf_eq_some]
  have hmem : (⟨j, raw⟩ : Entity) ∈ (s.deleteEntity id).entities ↔ ⟨j, raw⟩ ∈ s.entities ∧ j ≠ id :=
    mem_without
  rw [hmem, ← h.entityOf_eq_some]
  split_ifs with hid
  · simp only [hid, Option.some.injEq, iff_false, not_and, not_not]
    exact fun hj => hj.symm
  · refine and_iff_left_of_imp fun hj hji => hid ?_
    rw [hj, hji]

theorem resolve_delete (h : Sound s) (hp : s.Resolve text = some e) (hne : e ≠ id) :
    (s.deleteEntity id).Resolve text = some e := by
  rw [Titles.Resolve, Option.bind_eq_some_iff] at hp ⊢
  obtain ⟨raw, hraw, hp⟩ := hp
  refine ⟨raw, hraw, ?_⟩
  rw [entityOf_delete h]
  cases hown : s.entityOf raw with
  | some j =>
    obtain rfl : j = e := by simpa [hown] using hp
    rw [if_neg (by simpa using hne)]
    rfl
  | none =>
    rw [hown, Option.none_or, Titles.leadsTo, Option.map_eq_some_iff] at hp
    obtain ⟨m, hm, rfl⟩ := hp
    obtain ⟨hmem, rfl⟩ := (rowOf_eq_some h.rows).mp hm
    rw [if_neg (by simp), Option.none_or, Titles.leadsTo, Option.map_eq_some_iff]
    refine ⟨m, (rowOf_eq_some h.delete.rows).mpr ⟨?_, rfl⟩, rfl⟩
    exact List.mem_filter.mpr ⟨hmem, decide_eq_true hne⟩

theorem leadsTo_lead {r : List UInt8} :
    (s.lead raw source into).leadsTo r = if r = raw then some into
      else (s.leadsTo r).map fun e => if e = source then into else e := by
  unfold Titles.leadsTo Titles.lead
  split_ifs with hr
  · subst hr
    exact congrArg (Option.map MergedID.entityID) (@rowOf_put _ _ MergedID.publicID _ ⟨r, into⟩ _)
  · rw [@rowOf_put_of_ne _ _ MergedID.publicID r _ ⟨raw, into⟩ _ hr,
      rowOf_updateWhere (f := fun m : MergedID => { m with entityID := into }) fun _ => rfl,
      Option.map_map, Option.map_map]
    congr 1
    funext m
    simp only [Function.comp_apply, decide_eq_true_eq]
    split_ifs <;> rfl

/-- **A merge.** The ids of the title that is absorbed name the one that stays, and all others what
they named. -/
theorem resolve_absorb (h : Sound s) (ht : s.step (.absorb source into) = some t) :
    t.Resolve text = (s.Resolve text).map fun e => if e = source then into else e := by
  rw [Titles.step] at ht
  split at ht
  · rename_i a b ha hb
    split_ifs at ht with hne
    obtain rfl := Option.some.inj ht
    obtain ⟨hmem, hid⟩ := (rowOf_eq_some h.ids).mp ha
    have hlead : Sound (s.lead a.publicID source into) :=
      h.lead ⟨b, mem_of_rowOf hb, key_of_rowOf hb⟩
    have hown : s.entityOf a.publicID = some source := h.entityOf_eq_some.mpr (hid ▸ hmem)
    -- No id leads to the title that is deleted any more.
    have hkept : ((s.lead a.publicID source into).deleteEntity source).merged =
        (s.lead a.publicID source into).merged := by
      refine List.filter_eq_self.mpr fun m hm => decide_eq_true ?_
      rcases List.mem_cons.mp hm with rfl | hm
      · exact Ne.symm hne
      · obtain ⟨m', -, rfl⟩ := mem_updateWhere.mp (mem_without.mp hm).1
        split_ifs with hm'
        · exact Ne.symm hne
        · simpa using hm'
    rw [Titles.Resolve, Titles.Resolve, Option.map_bind]
    congr 1
    funext raw
    rw [entityOf_delete hlead, Function.comp_apply]
    change (if s.entityOf raw = some source then none else s.entityOf raw).or _ = _
    rw [show ((s.lead a.publicID source into).deleteEntity source).leadsTo raw =
      (s.lead a.publicID source into).leadsTo raw by unfold Titles.leadsTo; rw [hkept], leadsTo_lead]
    by_cases hraw : raw = a.publicID
    · subst hraw
      rw [if_pos hown, if_pos rfl, hown, Option.none_or]
      simp
    · have hother : s.entityOf raw ≠ some source := by
        intro hraw'
        refine hraw (congrArg Entity.publicID (eq_of_key h.ids (h.entityOf_eq_some.mp hraw') hmem ?_))
        exact hid.symm
      rw [if_neg hother, if_neg hraw]
      cases hj : s.entityOf raw with
      | some j =>
        have hj' : j ≠ source := fun heq => hother (by rw [hj, heq])
        simp [hj']
      | none => rw [Option.none_or, Option.none_or]
  · cases ht

/-- The title that a title is after a change. -/
def moved (e : ℕ) : Event → ℕ
  | .absorb source into => if e = source then into else e
  | _ => e

/-- A change that doesn't delete the title an id names, nor makes a new entity of the id. -/
def Spares (text : List Char) (s : Titles) : Event → Prop
  | .create _ raw => text ≠ Encode raw
  | .absorb _ _ => True
  | .delete id => s.Resolve text ≠ some id

instance (text : List Char) (s : Titles) : ∀ ev, Decidable (Spares text s ev)
  | .create _ _ => inferInstanceAs (Decidable (_ ≠ _))
  | .absorb _ _ => .isTrue trivial
  | .delete _ => inferInstanceAs (Decidable (_ ≠ _))

theorem resolve_step {ev : Event} (h : Sound s) (hp : s.Resolve text = some e)
    (hspares : Spares text s ev) (ht : s.step ev = some t) : t.Resolve text = some (moved e ev) := by
  cases ev with
  | create id raw =>
    rw [Titles.step] at ht
    split_ifs at ht with hnew
    obtain rfl := Option.some.inj ht
    rw [Titles.Resolve, Option.bind_eq_some_iff] at hp ⊢
    obtain ⟨raw', hraw', hp⟩ := hp
    refine ⟨raw', hraw', ?_⟩
    have hne : raw ≠ raw' := fun heq => hspares (heq ▸ (decode_eq_some_iff.mp hraw').2)
    change _ = some e
    rw [← hp]
    unfold Titles.entityOf rowOf
    rw [List.find?_cons_of_neg (by simpa using hne)]
    rfl
  | absorb source into =>
    rw [resolve_absorb h ht, hp]
    rfl
  | delete id =>
    obtain rfl := Option.some.inj ht
    exact resolve_delete h hp fun heq => hspares (hp.trans (congrArg some heq))

/-- **Ids are kept.** Whatever is created, merged and deleted, an id names the title it named, or
the one that title has become part of, as long as that title isn't deleted and no entity is made
anew with the id. -/
theorem titles_followed {es : List Event} (hs : Reaches Titles.step {} s)
    (hp : s.Resolve text = some e) (hrun : run Titles.step s es = some t)
    (hspares : Each Titles.step (Spares text) s es) : t.Resolve text = some (es.foldl moved e) := by
  have h := sound_of_reaches hs
  clear hs
  induction es generalizing s e with
  | nil => exact Option.some.inj hrun ▸ hp
  | cons ev es ih =>
    obtain ⟨u, hu, hrun⟩ := run_cons.mp hrun
    obtain ⟨hev, hes⟩ := (each_cons hu).mp hspares
    exact ih (resolve_step h hp hev hu) hrun hes (h.step hu)

theorem titles_followed_twice :
    (Titles.mk [⟨3, List.replicate 16 3⟩]
      [⟨List.replicate 16 2, 3⟩, ⟨List.replicate 16 1, 3⟩]).Resolve (Encode (List.replicate 16 1)) =
        some 3 :=
  titles_followed (s := ⟨[⟨3, List.replicate 16 3⟩, ⟨2, List.replicate 16 2⟩,
      ⟨1, List.replicate 16 1⟩], []⟩) (e := 1)
    ⟨[.create 1 (List.replicate 16 1), .create 2 (List.replicate 16 2),
      .create 3 (List.replicate 16 3)], rfl⟩ (by decide +kernel)
    (show run Titles.step _ [.absorb 1 2, .delete 7, .absorb 2 3] = _ from rfl) (by decide +kernel)

/-! ## The id to use -/

theorem public_of_mem (h : Sound s) (hx : x ∈ s.entities) :
    s.Public x.id = some (Encode x.publicID) := by
  rw [Titles.Public, (rowOf_eq_some h.ids).mpr ⟨hx, rfl⟩]
  rfl

/-- **The id to use** for an id that names a title is that title's own public id, and it names the
same title. One that names none is left as it is. -/
theorem survivingTitleID_spec (hs : Reaches Titles.step {} s) :
    (∀ e, s.Resolve text = some e → s.Public e = some (s.SurvivingTitleID text) ∧
        s.Resolve (s.SurvivingTitleID text) = some e) ∧
      (s.Resolve text = none → s.SurvivingTitleID text = text) := by
  have h := sound_of_reaches hs
  have hnamed {x : Entity} (hx : x ∈ s.entities) :
      s.Resolve (Encode x.publicID) = some x.id := by
    rw [Titles.Resolve, decode_encode (h.sized x hx), Option.bind_some, h.entityOf_eq_some.mpr hx]
    rfl
  unfold Titles.SurvivingTitleID Titles.Survivor
  cases hraw : Decode text with
  | none =>
    refine ⟨fun e he => ?_, fun _ => rfl⟩
    rw [Titles.Resolve, hraw] at he
    cases he
  | some raw =>
    rw [Titles.Resolve, hraw, Option.bind_some, Option.bind_some]
    obtain ⟨-, rfl⟩ := decode_eq_some_iff.mp hraw
    cases hown : s.entityOf raw with
    | some j =>
      refine ⟨fun e he => ?_, nofun⟩
      obtain rfl : j = e := by simpa using he
      have hx := h.entityOf_eq_some.mp hown
      exact ⟨public_of_mem h hx, hnamed hx⟩
    | none =>
      cases hto : s.leadsTo raw with
      | none => exact ⟨nofun, fun _ => rfl⟩
      | some j =>
        refine ⟨fun e he => ?_, nofun⟩
        obtain rfl : j = e := by simpa using he
        obtain ⟨m, hm, rfl⟩ := Option.map_eq_some_iff.mp hto
        obtain ⟨x, hx, hid⟩ := h.there m (mem_of_rowOf hm)
        have hpublic := public_of_mem h hx
        rw [hid] at hpublic
        simp only [Option.isSome_none, Bool.false_eq_true, if_false, Option.bind_some, hpublic,
          Option.getD_some, true_and]
        rw [hnamed hx, hid]

theorem survivingTitleID_spec_merged :
    (Titles.mk [⟨2, List.replicate 16 2⟩] [⟨List.replicate 16 1, 2⟩]).SurvivingTitleID
      (Encode (List.replicate 16 1)) = Encode (List.replicate 16 2) := by
  have hnamed : (Titles.mk [⟨2, List.replicate 16 2⟩] [⟨List.replicate 16 1, 2⟩]).Resolve
      (Encode (List.replicate 16 1)) = some 2 := by decide +kernel
  have hs : Reaches Titles.step {} ⟨[⟨2, List.replicate 16 2⟩], [⟨List.replicate 16 1, 2⟩]⟩ :=
    ⟨[.create 2 (List.replicate 16 2), .create 1 (List.replicate 16 1), .absorb 1 2], rfl⟩
  exact (Option.some.inj ((survivingTitleID_spec hs).1 2 hnamed).1).symm

end Portico.EntityIds
