import Portico.UserMutation.Store

/-!
# Effects are committed at most once

A receipt that is gone is fenced: its key was issued before the global cutoff, or before the cutoff of
its account, or its account was erased. Cutoffs only rise and account numbers aren't used again, so a
fence stays. A check refuses keys before the cutoffs that hold for its account, whatever its clock says.

## Main results

* `Sound.aged`, `Sound.reserve`, `Sound.finalise`: the invariant is kept
* `effects_atMostOnce`: a key that was committed isn't reserved again by its account
-/

namespace Portico.UserMutation

variable {s t : Store} {effects : List Row} {b : Binding} {e : Envelope} {l : Lifetime} {r h h' : Row}
  {now issued : ℤ} {id : ℕ}

/-! ## Fences -/

/-- The account of a receipt is erased, or its owner retired it past the receipt. -/
def Store.Fenced (s : Store) (r : Row) : Prop :=
  ∀ a ∈ s.accounts, a.id = r.scope → a.owner.isSome → r.issued < a.retiredBefore

/-- Account numbers are unique and below the next one, and an account with a name has its owner. -/
structure Store.Tidy (s : Store) : Prop where
  ids : (s.accounts.map Account.id).Nodup
  fresh : ∀ a ∈ s.accounts, a.id < s.nextID
  owned : ∀ a ∈ s.accounts, a.account.isSome → a.owner.isSome

/-- **The invariant.** Each effect has its receipt or a fence, and two effects of one key are those of
two accounts, the first one fenced. -/
structure Sound (s : Store) (effects : List Row) : Prop where
  tidy : s.Tidy
  keys : (s.receipts.map Row.key).Nodup
  rows : ∀ r ∈ s.receipts, r ∈ effects
  issued : ∀ h ∈ effects, parseKey h.key = .ok h.issued
  scopes : ∀ h ∈ effects, h.scope < s.nextID
  covered : ∀ h ∈ effects, h ∈ s.receipts ∨ h.issued < s.retiredBefore ∨ s.Fenced h
  distinct : effects.Pairwise fun h h' => h.key = h'.key → h.scope ≠ h'.scope ∧ s.Fenced h

theorem Sound.empty : Sound {} [] where
  tidy := ⟨List.nodup_nil, by simp, by simp⟩
  keys := List.nodup_nil
  rows := by simp
  issued := by simp
  scopes := by simp
  covered := by simp
  distinct := List.Pairwise.nil

theorem Sound.eq_of_scope (hs : Sound s effects) (hh : h ∈ effects) (hh' : h' ∈ effects)
    (hkey : h.key = h'.key) (hscope : h.scope = h'.scope) : h = h' := by
  by_contra hne
  have hpair := hs.distinct.imp (S := fun h h' => h.key = h'.key → h.scope ≠ h'.scope)
    fun hd hk => (hd hk).1
  have hsymm : Std.Symm fun h h' : Row => h.key = h'.key → h.scope ≠ h'.scope :=
    ⟨fun _ _ hd hk => (hd hk.symm).symm⟩
  exact hpair.forall hh hh' hne hkey hscope

theorem read_eq_some (hs : Sound s effects) {key : String} :
    s.read key = some r ↔ r ∈ s.receipts ∧ r.key = key :=
  rowOf_eq_some hs.keys

/-! ## Cleanups and lifetimes -/

/-- What cleanups and the rotation of lifetimes do: cutoffs rise, accounts are added, erased or dropped,
and receipts with a fence go. -/
structure Aged (s t : Store) : Prop where
  tidy : t.Tidy
  retired : s.retiredBefore ≤ t.retiredBefore
  next : s.nextID ≤ t.nextID
  rows : t.receipts.Sublist s.receipts
  accounts : ∀ a' ∈ t.accounts, s.nextID ≤ a'.id ∨ ∃ a ∈ s.accounts, a.id = a'.id ∧
    a.retiredBefore ≤ a'.retiredBefore ∧ (a'.owner.isSome → a.owner.isSome)
  gone : ∀ r ∈ s.receipts, r ∈ t.receipts ∨ r.issued < t.retiredBefore ∨ t.Fenced r

theorem Aged.fenced (ha : Aged s t) (hf : s.Fenced r) (hscope : r.scope < s.nextID) :
    t.Fenced r := by
  intro a' ha' hid howner
  rcases ha.accounts a' ha' with hnew | ⟨a, hmem, hsame, hle, hlive⟩
  · omega
  · exact (hf a hmem (hsame.trans hid) (hlive howner)).trans_le hle

theorem Sound.aged (hs : Sound s effects) (ha : Aged s t) : Sound t effects where
  tidy := ha.tidy
  keys := hs.keys.sublist (ha.rows.map _)
  rows r hr := hs.rows r (ha.rows.subset hr)
  issued := hs.issued
  scopes h hh := (hs.scopes h hh).trans_le ha.next
  covered h hh := by
    rcases hs.covered h hh with hrow | hcut | hf
    · exact ha.gone h hrow
    · exact Or.inr (Or.inl (hcut.trans_le ha.retired))
    · exact Or.inr (Or.inr (ha.fenced hf (hs.scopes h hh)))
  distinct := by
    refine hs.distinct.imp_of_mem ?_
    intro h h' hh _ hd hkey
    exact ⟨(hd hkey).1, ha.fenced (hd hkey).2 (hs.scopes h hh)⟩

/-- A store after cleanups: the invariant holds, and no receipts are new. -/
structure Cleaned (s t : Store) (effects : List Row) : Prop where
  sound : Sound t effects
  rows : t.receipts.Sublist s.receipts

theorem Sound.cleaned (hs : Sound s effects) : Cleaned s s effects := ⟨hs, List.Sublist.refl _⟩

theorem Cleaned.aged {u : Store} (hc : Cleaned s t effects) (ha : Aged t u) : Cleaned s u effects :=
  ⟨hc.sound.aged ha, ha.rows.trans hc.rows⟩

theorem Aged.same (hs : s.Tidy) (hretired : s.retiredBefore ≤ t.retiredBefore)
    (haccounts : t.accounts = s.accounts) (hrows : t.receipts = s.receipts)
    (hnext : t.nextID = s.nextID) : Aged s t where
  tidy := ⟨haccounts ▸ hs.ids, haccounts ▸ hnext ▸ hs.fresh, haccounts ▸ hs.owned⟩
  retired := hretired
  next := hnext.ge
  rows := hrows ▸ List.Sublist.refl _
  accounts a ha := Or.inr ⟨a, haccounts ▸ ha, rfl, le_rfl, fun h => h⟩
  gone _ hr := Or.inl (hrows ▸ hr)

theorem aged_advance (hs : s.Tidy) : Aged s (s.advance now) :=
  Aged.same hs (le_max_left _ _) rfl rfl rfl

theorem aged_insertAccount (hs : s.Tidy) {authority : Authority} {account : String} {stop : Bool}
    {cut : ℤ} (h : s.insertAccount authority account stop cut = .ok (t, id)) : Aged s t := by
  obtain ⟨owner, rfl, rfl⟩ := insertAccount_eq_ok h
  have hmem : ∀ a ∈ s.accounts ++ [newAccount s authority account owner stop cut],
      a ∈ s.accounts ∨ a = newAccount s authority account owner stop cut := by
    simp
  refine ⟨⟨?_, ?_, ?_⟩, le_rfl, Nat.le_succ _, List.Sublist.refl _, ?_, fun r hr => Or.inl hr⟩
  · apply nodup_append_row hs.ids
    intro a ha
    exact (hs.fresh a ha).ne
  · intro a ha
    rcases hmem a ha with ha | rfl
    · exact (hs.fresh a ha).trans (Nat.lt_succ_self _)
    · exact Nat.lt_succ_self _
  · intro a ha
    rcases hmem a ha with ha | rfl
    · exact hs.owned a ha
    · exact fun _ => rfl
  · intro a ha
    rcases hmem a ha with ha | rfl
    · exact Or.inr ⟨a, ha, rfl, le_rfl, fun h => h⟩
    · exact Or.inl le_rfl

theorem aged_deleteOldest (hs : s.Tidy) {p : Row → Bool}
    (hp : ∀ r ∈ s.receipts, p r = true → r.issued < s.retiredBefore ∨ s.Fenced r) :
    Aged s (s.deleteOldest p) where
  tidy := ⟨hs.ids, hs.fresh, hs.owned⟩
  retired := le_rfl
  next := le_rfl
  rows := List.filter_sublist
  accounts a ha := Or.inr ⟨a, ha, rfl, le_rfl, fun h => h⟩
  gone r hr := by
    cases hpr : p r with
    | true => exact Or.inr (hp r hr hpr)
    | false =>
      apply Or.inl
      unfold Store.deleteOldest
      simp [hr, hpr]

/-- Account rows that keep their number, lose their name with their owner, and have a cutoff that only
rises. -/
theorem aged_accounts (hs : s.Tidy) {p : Account → Bool} {f : Account → Account} {d : Identity}
    (hid : ∀ a, (f a).id = a.id) (hcut : ∀ a, a.retiredBefore ≤ (f a).retiredBefore)
    (howner : ∀ a, (f a).owner.isSome → a.owner.isSome)
    (hname : ∀ a, (a.account.isSome → a.owner.isSome) → (f a).account.isSome → (f a).owner.isSome) :
    Aged s { s with accounts := updateWhere p f s.accounts, identity := d } where
  tidy := by
    refine ⟨?_, ?_, ?_⟩
    · rw [map_updateWhere hid]
      exact hs.ids
    · exact forall_updateWhere (fun a ha _ => (hid a).symm ▸ hs.fresh a ha) fun a ha _ => hs.fresh a ha
    · exact forall_updateWhere (fun a ha _ => hname a (hs.owned a ha)) fun a ha _ => hs.owned a ha
  retired := le_rfl
  next := le_rfl
  rows := List.Sublist.refl _
  accounts := by
    refine forall_updateWhere (fun a ha _ => ?_) fun a ha _ => ?_
    · exact Or.inr ⟨a, ha, (hid a).symm, hcut a, howner a⟩
    · exact Or.inr ⟨a, ha, rfl, le_rfl, fun h => h⟩
  gone r hr := Or.inl hr

theorem aged_dropAccount (hs : s.Tidy) {before : Store} : Aged s (s.dropAccount before id) := by
  unfold Store.dropAccount
  split_ifs
  · refine ⟨⟨?_, ?_, ?_⟩, le_rfl, le_rfl, List.Sublist.refl _, ?_, fun r hr => Or.inl hr⟩
    · exact hs.ids.sublist (List.filter_sublist.map _)
    · exact fun a ha => hs.fresh a (List.mem_of_mem_filter ha)
    · exact fun a ha => hs.owned a (List.mem_of_mem_filter ha)
    · exact fun a ha => Or.inr ⟨a, List.mem_of_mem_filter ha, rfl, le_rfl, fun h => h⟩
  · exact Aged.same hs le_rfl rfl rfl rfl

/-- The receipts that an account's pruning takes are before the cutoff of the account. -/
theorem fenced_of_retired (hs : s.Tidy) (h : s.retired id r = true) : s.Fenced r := by
  intro a ha hid _
  unfold Store.retired at h
  simp only [Bool.and_eq_true, decide_eq_true_eq] at h
  obtain ⟨hscope, hany⟩ := h
  rw [(rowOf_eq_some hs.ids).mpr ⟨ha, hid.trans hscope⟩] at hany
  simpa using hany

theorem Cleaned.pruneAccount (hc : Cleaned s t effects) : Cleaned s (t.pruneAccount id) effects := by
  have hdeleted := hc.aged (aged_deleteOldest hc.sound.tidy (p := t.retired id)
    fun r _ h => Or.inr (fenced_of_retired hc.sound.tidy h))
  exact hdeleted.aged (aged_accounts hdeleted.sound.tidy (fun _ => rfl) (fun _ => le_rfl)
    (fun _ h => h) fun _ h => h)

theorem Sound.retireAccount (hs : Sound s effects) {authority : Authority} {account : String}
    {cut : ℤ} (h : s.retireAccount authority account cut = .ok t) : Cleaned s t effects := by
  obtain ⟨-, h⟩ := guard_eq_ok.mp h
  obtain ⟨⟨u, id⟩, hscope, h⟩ := bind_eq_ok.mp h
  obtain rfl := Except.ok.inj h
  have hu : Cleaned s u effects := by
    split at hscope
    · obtain ⟨rfl, -⟩ := Prod.mk.inj (Except.ok.inj hscope)
      exact hs.cleaned
    · exact hs.cleaned.aged (aged_insertAccount hs.tidy hscope)
  apply Cleaned.pruneAccount
  exact hu.aged (aged_accounts hu.sound.tidy (fun _ => rfl) (fun a => le_max_left _ _)
    (fun _ h => h) fun _ h => h)

theorem Sound.retireFamily (hs : Sound s effects) (h : s.retireFamily b = .ok t) :
    Cleaned s t effects := by
  obtain ⟨-, h⟩ := guard_eq_ok.mp h
  obtain rfl := Except.ok.inj h
  refine hs.cleaned.aged (aged_deleteOldest hs.tidy ?_)
  intro r _ hr
  cases haccount : s.account b with
  | none => simp [haccount] at hr
  | some a =>
    simp only [haccount, Option.any_some, Bool.and_eq_true, decide_eq_true_eq, lt_max_iff] at hr
    obtain ⟨⟨hscope, -⟩, hcut | hcut⟩ := hr
    · refine Or.inr fun a' ha' hid _ => ?_
      have ha : a ∈ s.accounts := List.mem_of_find?_eq_some haccount
      rw [eq_of_key hs.tidy.ids ha' ha (hid.trans hscope)]
      exact hcut
    · exact Or.inl hcut

theorem mem_of_oneOf {p : Account → Bool} {choice : ℕ} {a : Account}
    (h : s.oneOf p choice = some a) : a ∈ s.accounts ∧ p a = true := by
  unfold Store.oneOf at h
  rw [Option.or_eq_some_iff] at h
  rcases h with h | ⟨-, h⟩
  · exact List.mem_filter.mp (List.mem_of_getElem? h)
  · exact List.mem_filter.mp (List.mem_of_head? h)

theorem Sound.prune (hs : Sound s effects) {orphan pending : ℕ}
    (h : s.prune now orphan pending = .ok t) : Cleaned s t effects := by
  obtain ⟨-, h⟩ := guard_eq_ok.mp h
  have hadvance : Cleaned s (s.advance now) effects := hs.cleaned.aged (aged_advance hs.tidy)
  have htidy := hadvance.sound.tidy
  dsimp only at h
  split at h
  · rename_i a hone
    obtain rfl := Except.ok.inj h
    obtain ⟨ha, horphan⟩ := mem_of_oneOf hone
    have hdrained := hadvance.aged (aged_deleteOldest htidy (p := fun r => r.scope = a.id) (by
      intro r _ hr
      refine Or.inr fun a' ha' hid howner => ?_
      -- the account has no owner, so no account with one has its number
      have hsame := eq_of_key htidy.ids ha' ha (hid.trans (of_decide_eq_true hr))
      rw [hsame] at howner
      simp [Option.isNone_iff_eq_none.mp horphan] at howner))
    exact hdrained.aged (aged_dropAccount hdrained.sound.tidy)
  · split at h
    · obtain rfl := Except.ok.inj h
      exact hadvance.pruneAccount
    · obtain rfl := Except.ok.inj h
      refine hadvance.aged (aged_deleteOldest htidy ?_)
      exact fun r _ hr => Or.inl (of_decide_eq_true hr)

theorem Sound.change (hs : Sound s effects) (c : Change) : Cleaned s (s.change c) effects := by
  cases c with
  | join account => exact hs.cleaned.aged (Aged.same hs.tidy le_rfl rfl rfl rfl)
  | rotate => exact hs.cleaned.aged (Aged.same hs.tidy le_rfl rfl rfl rfl)
  | erase account =>
    refine hs.cleaned.aged (aged_accounts hs.tidy (fun _ => rfl) (fun _ => le_rfl) ?_ ?_)
    · exact fun a h => absurd h (by simp)
    · exact fun a _ h => absurd h (by simp)

/-! ## Reservations and results -/

theorem cutoff_le_of_account {a : Account} (hs : s.Tidy) (hid : s.scopeID b = some a.id)
    (ha : a ∈ s.accounts) : a.retiredBefore ≤ s.cutoff b now := by
  unfold Store.scopeID at hid
  obtain ⟨a', ha', hsame⟩ := Option.map_eq_some_iff.mp hid
  obtain rfl := eq_of_key hs.ids (List.mem_of_find?_eq_some ha') ha hsame
  unfold Store.cutoff
  rw [ha']
  simp

theorem retiredBefore_le_cutoff : s.retiredBefore ≤ s.cutoff b now := by
  unfold Store.cutoff
  simp

theorem receipts_scopeFor {u : Store} {stop : Bool} (h : s.scopeFor b stop = .ok (u, id)) :
    u.receipts = s.receipts := by
  rcases scopeFor_eq_ok h with ⟨-, rfl⟩ | ⟨-, hinsert⟩
  · rfl
  · obtain ⟨owner, -, rfl⟩ := insertAccount_eq_ok hinsert
    rfl

theorem Sound.scopeFor (hs : Sound s effects) {u : Store} {stop : Bool}
    (h : s.scopeFor b stop = .ok (u, id)) : Sound u effects := by
  rcases scopeFor_eq_ok h with ⟨-, rfl⟩ | ⟨-, hinsert⟩
  · exact hs
  · exact hs.aged (aged_insertAccount hs.tidy hinsert)

/-- An effect of the key of a reservation is that of another account, and fenced. -/
theorem Sound.fenced_of_reserve (hs : Sound s effects) (hread : s.read e.key = none)
    (hparse : parseKey e.key = .ok issued) (hcut : s.cutoff b now ≤ issued) {u : Store}
    (hscope : s.scopeFor b e.stop = .ok (u, id)) (howner : ∃ a ∈ u.accounts, a.id = id ∧ a.owner.isSome)
    (hh : h ∈ effects) (hkey : h.key = e.key) : h.scope ≠ id ∧ u.Fenced h := by
  have hissued : h.issued = issued := by
    have := hs.issued h hh
    rw [hkey, hparse] at this
    exact (Except.ok.inj this).symm
  have hfenced : s.Fenced h := by
    rcases hs.covered h hh with hrow | hglobal | hf
    · exact absurd hkey (rowOf_eq_none.mp hread h hrow)
    · have hle : s.retiredBefore ≤ s.cutoff b now := retiredBefore_le_cutoff
      omega
    · exact hf
  have hlt := hs.scopes h hh
  rcases scopeFor_eq_ok hscope with ⟨hid, rfl⟩ | ⟨-, hinsert⟩
  · refine ⟨?_, hfenced⟩
    rintro rfl
    obtain ⟨a, ha, hsame, hlive⟩ := howner
    have hbefore := hfenced a ha hsame hlive
    have hle := (cutoff_le_of_account hs.tidy (hid.trans (congrArg some hsame.symm)) ha).trans hcut
    omega
  · refine ⟨?_, (aged_insertAccount hs.tidy hinsert).fenced hfenced hlt⟩
    obtain ⟨owner, rfl, -⟩ := insertAccount_eq_ok hinsert
    exact hlt.ne

theorem Sound.reserve (hs : Sound s effects) (hread : s.read e.key = none)
    (hparse : parseKey e.key = .ok issued) (hcut : s.cutoff b now ≤ issued)
    (h : s.reserve b e l issued = .ok t) :
    ∃ r, t.read e.key = some r ∧ r.result = none ∧ t.receipts = s.receipts ++ [r] ∧
      Sound t (effects ++ [r]) := by
  obtain ⟨u, id, hscope, howner, rfl⟩ := reserve_eq_ok h
  have hu := hs.scopeFor hscope
  have hrows := receipts_scopeFor hscope
  have hnew : ∀ x ∈ u.receipts, x.key ≠ (Store.reservation b e l id issued).key := by
    rw [hrows]
    exact rowOf_eq_none.mp hread
  have hmem : ∀ x ∈ effects ++ [Store.reservation b e l id issued],
      x ∈ effects ∨ x = Store.reservation b e l id issued := by
    simp
  have hsound : Sound { u with receipts := u.receipts ++ [Store.reservation b e l id issued] }
      (effects ++ [Store.reservation b e l id issued]) := by
    refine ⟨⟨hu.tidy.ids, hu.tidy.fresh, hu.tidy.owned⟩, nodup_append_row hu.keys hnew, ?_, ?_, ?_, ?_,
      ?_⟩
    · intro x hx
      rcases List.mem_append.mp hx with hx | hx
      · exact List.mem_append_left _ (hu.rows x hx)
      · exact List.mem_append_right _ hx
    · intro x hx
      rcases hmem x hx with hx | rfl
      · exact hu.issued x hx
      · exact hparse
    · intro x hx
      rcases hmem x hx with hx | rfl
      · exact hu.scopes x hx
      · obtain ⟨a, ha, rfl, -⟩ := howner
        exact hu.tidy.fresh a ha
    · intro x hx
      rcases hmem x hx with hx | rfl
      · exact (hu.covered x hx).imp_left (List.mem_append_left _)
      · exact Or.inl (List.mem_append_right _ (List.mem_singleton_self _))
    · refine List.pairwise_append.mpr ⟨hu.distinct, List.pairwise_singleton _ _, ?_⟩
      intro x hx y hy hkey
      obtain rfl := List.mem_singleton.mp hy
      have hfenced := hs.fenced_of_reserve hread hparse hcut hscope howner hx hkey
      exact hfenced
  refine ⟨_, ?_, rfl, by rw [← hrows], hsound⟩
  exact (read_eq_some hsound).mpr ⟨List.mem_append_right _ (List.mem_singleton_self _), rfl⟩

theorem read_finalise {key key' : String} {result : Result} :
    (s.finalise key result now).read key' = (s.read key').map fun x =>
      if x.key = key then { x with result := some result, committed := now } else x := by
  have hupdate : (s.finalise key result now).read key' = (s.read key').map fun x =>
      if decide (x.key = key) then { x with result := some result, committed := now } else x :=
    rowOf_updateWhere fun _ => rfl
  simp only [decide_eq_true_eq] at hupdate
  exact hupdate

/-- The receipt that is finalised shows with its result, and the other ones as they were. -/
theorem Sound.shown_of_mem (hs : Sound s effects) (key : String) (result : Result) (now : ℤ)
    (hh : h ∈ effects) :
    (¬ (h ∈ s.receipts ∧ h.key = key) ∧ (s.finalise key result now).shown h = h) ∨
      (h ∈ s.receipts ∧ h.key = key ∧
        (s.finalise key result now).shown h = { h with result := some result, committed := now }) := by
  unfold Store.shown
  rw [read_finalise]
  cases hread : s.read h.key with
  | none => exact Or.inl ⟨fun hrow => rowOf_eq_none.mp hread h hrow.1 rfl, rfl⟩
  | some x =>
    obtain ⟨hx, hkey⟩ := (read_eq_some hs).mp hread
    dsimp only [Option.map_some]
    by_cases hscope : x.scope = h.scope
    · obtain rfl := hs.eq_of_scope (hs.rows x hx) hh hkey hscope
      by_cases hk : x.key = key
      · exact Or.inr ⟨hx, hk, by simp [hk]⟩
      · exact Or.inl ⟨fun hrow => hk hrow.2, by simp [hk]⟩
    · refine Or.inl ⟨fun hrow => ?_, if_neg ?_⟩
      · exact hscope (congrArg Row.scope (eq_of_key hs.keys hx hrow.1 hkey))
      · split_ifs <;> exact hscope

theorem Sound.shown_same (hs : Sound s effects) (key : String) (result : Result) (now : ℤ)
    (hh : h ∈ effects) : ((s.finalise key result now).shown h).key = h.key ∧
      ((s.finalise key result now).shown h).scope = h.scope ∧
      ((s.finalise key result now).shown h).issued = h.issued := by
  rcases hs.shown_of_mem key result now hh with ⟨-, heq⟩ | ⟨-, -, heq⟩ <;>
    rw [heq] <;> exact ⟨rfl, rfl, rfl⟩

/-- A result shows in the receipts of the transaction that reserved it. -/
theorem Sound.finalise {before pending : List Row} (hs : Sound s (before ++ pending)) {key : String}
    {result : Result} {old : Row} (hread : s.read key = some old) (hold : old ∈ pending) :
    Sound (s.finalise key result now)
      (before ++ pending.map (s.finalise key result now).shown) := by
  set u := s.finalise key result now with hu
  obtain ⟨hmem, rfl⟩ := (read_eq_some hs).mp hread
  have hpending : ∀ p ∈ pending, p ∈ before ++ pending := fun p hp => List.mem_append_right _ hp
  obtain ⟨hbefore, hlater, hcross⟩ := List.pairwise_append.mp hs.distinct
  have hkept : ∀ h ∈ s.receipts, h.key ≠ old.key → h ∈ u.receipts := by
    intro h hrow hk
    exact mem_updateWhere.mpr ⟨h, hrow, by rw [if_neg (by simp [hk])]⟩
  -- each effect is one of before, its receipt shown
  have hshown : ∀ x ∈ before ++ pending.map u.shown, ∃ h ∈ before ++ pending, x.key = h.key ∧
      x.scope = h.scope ∧ x.issued = h.issued ∧ (h ∈ s.receipts → x ∈ u.receipts) := by
    intro x hx
    rcases List.mem_append.mp hx with hx | hx
    · refine ⟨x, List.mem_append_left _ hx, rfl, rfl, rfl, fun hrow => hkept x hrow fun hk => ?_⟩
      have hsame := eq_of_key hs.keys hrow hmem hk
      exact (hcross x hx old hold hk).1 (congrArg Row.scope hsame)
    · obtain ⟨p, hp, rfl⟩ := List.mem_map.mp hx
      obtain ⟨hkey, hscope, hissued⟩ := hs.shown_same old.key result now (hpending p hp)
      refine ⟨p, hpending p hp, hkey, hscope, hissued, fun hrow => ?_⟩
      rcases hs.shown_of_mem old.key result now (hpending p hp) with ⟨hother, hsame⟩ | ⟨-, hk, hsaved⟩
      · rw [hu, hsame]
        exact hkept p hrow fun hk => hother ⟨hrow, hk⟩
      · refine mem_updateWhere.mpr ⟨p, hrow, ?_⟩
        rw [hu, hsaved, if_pos (decide_eq_true hk)]
  refine ⟨⟨hs.tidy.ids, hs.tidy.fresh, hs.tidy.owned⟩, ?_, ?_, ?_, ?_, ?_, ?_⟩
  · have hkeys : u.receipts.map Row.key = s.receipts.map Row.key := map_updateWhere fun _ => rfl
    rw [hkeys]
    exact hs.keys
  · intro x hx
    obtain ⟨r, hr, rfl⟩ := mem_updateWhere.mp hx
    by_cases hk : r.key = old.key
    · obtain rfl := eq_of_key hs.keys hr hmem hk
      refine List.mem_append_right _ (List.mem_map.mpr ⟨r, hold, ?_⟩)
      unfold Store.shown
      rw [hu, read_finalise, hread]
      simp
    · rw [if_neg (by simp [hk])]
      rcases List.mem_append.mp (hs.rows r hr) with hr' | hr'
      · exact List.mem_append_left _ hr'
      · refine List.mem_append_right _ (List.mem_map.mpr ⟨r, hr', ?_⟩)
        rcases hs.shown_of_mem old.key result now (hpending r hr') with ⟨-, hsame⟩ | ⟨-, hk', -⟩
        · exact hsame
        · exact absurd hk' hk
  · intro x hx
    obtain ⟨h, hh, hkey, -, hissued, -⟩ := hshown x hx
    rw [hkey, hissued]
    exact hs.issued h hh
  · intro x hx
    obtain ⟨h, hh, -, hscope, -, -⟩ := hshown x hx
    rw [hscope]
    exact hs.scopes h hh
  · intro x hx
    obtain ⟨h, hh, hkey, hscope, hissued, hrow⟩ := hshown x hx
    rcases hs.covered h hh with hr | hcut | hf
    · exact Or.inl (hrow hr)
    · exact Or.inr (Or.inl (hissued ▸ hcut))
    · refine Or.inr (Or.inr fun a ha hid howner => ?_)
      rw [hissued]
      exact hf a ha (hid.trans hscope) howner
  · have hd : ∀ x p, p ∈ pending → (x.key = p.key → x.scope ≠ p.scope ∧ s.Fenced x) →
        x.key = (u.shown p).key → x.scope ≠ (u.shown p).scope ∧ u.Fenced x := by
      intro x p hp hd
      obtain ⟨hkey, hscope, -⟩ := hs.shown_same old.key result now (hpending p hp)
      rw [hkey, hscope]
      exact hd
    refine List.pairwise_append.mpr ⟨hbefore, List.pairwise_map.mpr (hlater.imp_of_mem ?_), ?_⟩
    · intro x p hx hp hxp
      obtain ⟨hkey, hscope, hissued⟩ := hs.shown_same old.key result now (hpending x hx)
      apply hd _ p hp
      rw [hkey, hscope]
      intro hk
      obtain ⟨hne, hf⟩ := hxp hk
      refine ⟨hne, fun a ha hid howner => ?_⟩
      rw [hissued]
      exact hf a ha (hid.trans hscope) howner
    · intro x hx y hy
      obtain ⟨p, hp, rfl⟩ := List.mem_map.mp hy
      exact hd x p hp (hcross x hx p hp)

theorem Sound.shown_self (hs : Sound s effects) (hh : h ∈ effects) : s.shown h = h := by
  unfold Store.shown
  cases hread : s.read h.key with
  | none => rfl
  | some x =>
    obtain ⟨hx, hkey⟩ := (read_eq_some hs).mp hread
    dsimp only
    split_ifs with hscope
    · exact hs.eq_of_scope (hs.rows x hx) hh hkey hscope
    · rfl

/-! ## Transactions -/

/-- A transaction sees the effects that were committed and its own ones, and its unfinalised receipts
are checked before it commits. -/
structure Work.Sound (w : Work) (committed : List Row) : Prop where
  store : UserMutation.Sound w.store (committed ++ w.pending)
  unfinalised : ∀ r ∈ w.store.receipts, r.result = none → r.key ∈ w.reserved ∧ r ∈ w.pending

structure System.Sound (s : System) : Prop where
  store : UserMutation.Sound s.store s.committed
  results : ∀ r ∈ s.store.receipts, r.result.isSome
  work : ∀ w, s.work = some w → w.Sound s.committed

variable {committed : List Row} {w w' : Work} {sys sys' : System}

theorem Work.Sound.check (hw : w.Sound committed) (h : w.check b e now = .ok w') :
    w'.Sound committed := by
  obtain ⟨⟨answer, t⟩, hcheck, hw'⟩ := exists_of_map_eq_ok h
  obtain ⟨issued, l, hvalid, -, hcut, -, hanswer⟩ := check_eq_ok hcheck
  have hadvance : UserMutation.Sound (w.store.advance now) (committed ++ w.pending) :=
    hw.store.aged (aged_advance hw.store.tidy)
  rcases hanswer with ⟨old, result, rfl, -, -, -, rfl⟩ | ⟨rfl, hread, hreserve⟩
  · obtain rfl := hw'
    exact ⟨hadvance, hw.unfinalised⟩
  · obtain ⟨r, hr, -, hrows, hsound⟩ :=
      hadvance.reserve (b := b) hread (validate_eq_ok hvalid) hcut hreserve
    dsimp only at hw'
    rw [hr] at hw'
    obtain rfl := hw'
    refine ⟨by rw [← List.append_assoc]; exact hsound, ?_⟩
    intro x hx hnone
    dsimp only at hx ⊢
    rw [hrows] at hx
    rcases List.mem_append.mp hx with hx | hx
    · obtain ⟨hkey, hpending⟩ := hw.unfinalised x hx hnone
      exact ⟨List.mem_append_left _ hkey, List.mem_append_left _ hpending⟩
    · obtain rfl := List.mem_singleton.mp hx
      refine ⟨List.mem_append_right _ ?_, List.mem_append_right _ hx⟩
      exact List.mem_singleton.mpr (key_of_rowOf hr)

theorem Work.Sound.save (hw : w.Sound committed) {r : Result} (h : w.save b e r now = .ok w') :
    w'.Sound committed := by
  obtain ⟨t, hsave, rfl⟩ := exists_of_map_eq_ok h
  rcases save_eq_ok hsave with rfl | ⟨old, hread, hnone, rfl⟩
  · have hsame : w.pending.map w.store.shown = w.pending := by
      conv_rhs => rw [← List.map_id w.pending]
      apply List.map_congr_left
      intro p hp
      exact hw.store.shown_self (List.mem_append_right _ hp)
    exact ⟨by dsimp only; rw [hsame]; exact hw.store, by dsimp only; rw [hsame]; exact hw.unfinalised⟩
  · obtain ⟨hrow, hkey⟩ := (read_eq_some hw.store).mp hread
    have hold := (hw.unfinalised old hrow hnone).2
    refine ⟨hw.store.finalise hread hold, ?_⟩
    intro x hx hxnone
    obtain ⟨y, hy, rfl⟩ := mem_updateWhere.mp hx
    by_cases hk : y.key = e.key
    · rw [if_pos (decide_eq_true hk)] at hxnone
      cases hxnone
    · rw [if_neg (by simp [hk])] at hxnone ⊢
      obtain ⟨hreserved, hpending⟩ := hw.unfinalised y hy hxnone
      refine ⟨hreserved, List.mem_map.mpr ⟨y, hpending, ?_⟩⟩
      rcases hw.store.shown_of_mem e.key r now (List.mem_append_right _ hpending) with
        ⟨-, hsame⟩ | ⟨-, hk', -⟩
      · exact hsame
      · exact absurd hk' hk

theorem Work.Sound.replace (hw : w.Sound committed) {x : Except Fault Store}
    (hx : ∀ t, x = .ok t → Cleaned w.store t (committed ++ w.pending)) (h : w.replace x = .ok w') :
    w'.Sound committed := by
  obtain ⟨t, ht, rfl⟩ := exists_of_map_eq_ok h
  obtain ⟨hsound, hrows⟩ := hx t ht
  exact ⟨hsound, fun r hr => hw.unfinalised r (hrows.subset hr)⟩

theorem System.Sound.within (hs : sys.Sound) {f : Work → Except Fault Work}
    (hf : ∀ w w', w.Sound sys.committed → f w = .ok w' → w'.Sound sys.committed)
    (h : sys.within f = some sys') : sys'.Sound := by
  obtain ⟨w, hw, rfl⟩ := Option.map_eq_some_iff.mp h
  refine ⟨hs.store, hs.results, ?_⟩
  intro w' hw'
  dsimp only at hw'
  cases hfw : f w with
  | error => rw [hfw] at hw'; cases hw'
  | ok v =>
    rw [hfw] at hw'
    obtain rfl := Option.some.inj hw'
    exact hf w _ (hs.work w hw) hfw

theorem System.Sound.commit (hs : sys.Sound) (h : sys.commit = some sys') : sys'.Sound := by
  obtain ⟨w, hw, rfl⟩ := Option.map_eq_some_iff.mp h
  obtain ⟨hstore, hopen⟩ := hs.work w hw
  split_ifs with hfinal
  · refine ⟨hstore, ?_, fun w' hw' => absurd hw' (by simp)⟩
    intro r hr
    cases hresult : r.result with
    | some result => rfl
    | none =>
      -- the receipt was reserved in this transaction, and the check before the commit read it
      have hreserved := (hopen r hr hresult).1
      unfold Work.finalised at hfinal
      have hread := List.all_eq_true.mp hfinal r.key hreserved
      rw [(read_eq_some hstore).mpr ⟨hr, rfl⟩, Option.all_some, hresult] at hread
      exact hread
  · exact ⟨hs.store, hs.results, fun w' hw' => absurd hw' (by simp)⟩

theorem System.Sound.step {event : Event} (hs : sys.Sound)
    (h : UserMutation.step sys event = some sys') : sys'.Sound := by
  cases event with
  | begin =>
    unfold UserMutation.step at h
    split_ifs at h
    obtain rfl := Option.some.inj h
    refine ⟨hs.store, hs.results, fun w hw => ?_⟩
    obtain rfl := Option.some.inj hw
    refine ⟨by rw [List.append_nil]; exact hs.store, fun r hr hnone => ?_⟩
    have hsome := hs.results r hr
    rw [hnone] at hsome
    cases hsome
  | rollback =>
    unfold UserMutation.step at h
    split_ifs at h
    obtain rfl := Option.some.inj h
    exact ⟨hs.store, hs.results, fun w hw => absurd hw (by simp)⟩
  | commit => exact hs.commit h
  | check b e now => exact hs.within (fun w w' hw hf => hw.check hf) h
  | save b e r now => exact hs.within (fun w w' hw hf => hw.save hf) h
  | retireAccount authority account cut =>
    exact hs.within (fun w w' hw hf => hw.replace (fun t ht => hw.store.retireAccount ht) hf) h
  | retireFamily b =>
    exact hs.within (fun w w' hw hf => hw.replace (fun t ht => hw.store.retireFamily ht) hf) h
  | prune now orphan pending =>
    exact hs.within (fun w w' hw hf => hw.replace (fun t ht => hw.store.prune ht) hf) h
  | change c =>
    refine hs.within (fun w w' hw hf => hw.replace (fun t ht => ?_) hf) h
    obtain rfl := Except.ok.inj ht
    exact hw.store.change c

theorem System.Sound.empty : System.Sound {} :=
  ⟨UserMutation.Sound.empty, fun r hr => absurd hr List.not_mem_nil, fun w hw => absurd hw (by simp)⟩

theorem System.Sound.view (hs : sys.Sound) : UserMutation.Sound sys.view sys.effects := by
  unfold System.view System.effects
  split
  · exact hs.store
  · rename_i w hw
    exact (hs.work w hw).store

theorem System.committed_prefix : sys.committed <+: sys.effects := by
  unfold System.effects
  split
  · exact List.prefix_rfl
  · exact List.prefix_append _ _

/-! ## At most once -/

/-- A check against what was committed: it returns the receipt that was made for the request, which is
that of the effect when that is of the same account; only another account reserves the key again, when
the owner has retired the effect's account past the key. -/
theorem Sound.check_committed (hs : Sound s effects) (hh : h ∈ effects) (hkey : e.key = h.key)
    {answer : Option Receipt} (hcheck : s.check b e now = .ok (answer, t)) :
    (answer = none → s.scopeID b ≠ some h.scope ∧ s.Fenced h) ∧
      ∀ receipt, answer = some receipt → ∃ r ∈ effects, ∃ l result,
        resolveLifetime s.identity b = .ok l ∧ r.matches (s.scopeID b) b e l = true ∧
        r.key = e.key ∧ r.result = some result ∧ receipt = r.receipt result ∧
        (s.scopeID b = some h.scope → r = h) := by
  obtain ⟨issued, l, hvalid, hlife, hcut, -, hanswer⟩ := check_eq_ok hcheck
  rcases hanswer with ⟨old, result, rfl, hread, hmatches, hresult, -⟩ | ⟨rfl, hread, hreserve⟩
  · refine ⟨fun hnone => (by cases hnone), fun receipt hreceipt => ?_⟩
    obtain ⟨hrow, hold⟩ := (read_eq_some hs).mp hread
    refine ⟨old, hs.rows old hrow, l, result, hlife, hmatches, hold, hresult,
      (Option.some.inj hreceipt).symm, fun hid => ?_⟩
    have hscope : some old.scope = s.scopeID b := by
      unfold Row.matches Row.bound at hmatches
      simp only [Bool.and_eq_true, decide_eq_true_eq] at hmatches
      exact hmatches.1.1.1.1.1.1.1.1.2
    rw [hid] at hscope
    exact hs.eq_of_scope (hs.rows old hrow) hh (hold.trans hkey) (Option.some.inj hscope)
  · refine ⟨fun _ => ?_, fun receipt hreceipt => (by cases hreceipt)⟩
    have hadvance : Sound (s.advance now) effects := hs.aged (aged_advance hs.tidy)
    obtain ⟨u, id, hscope, howner, -⟩ := reserve_eq_ok hreserve
    have hparse := validate_eq_ok hvalid
    obtain ⟨hne, hfenced⟩ :=
      hadvance.fenced_of_reserve hread hparse hcut hscope howner hh hkey.symm
    rcases scopeFor_eq_ok hscope with ⟨hid, rfl⟩ | ⟨hnone, hinsert⟩
    · refine ⟨fun hsame => hne ?_, hfenced⟩
      have hid' : s.scopeID b = some id := hid
      exact Option.some.inj (hsame.symm.trans hid')
    · have hnone' : s.scopeID b = none := hnone
      refine ⟨by rw [hnone']; exact fun h => (by cases h), fun a ha hid hlive => ?_⟩
      obtain ⟨owner, -, rfl⟩ := insertAccount_eq_ok hinsert
      exact hfenced a (List.mem_append_left _ ha) hid hlive

/-- **At most once.** In every run, two committed effects of one key are those of two accounts, of which
the first is erased or was retired by its owner past the key. A check of a committed key returns the
receipt that was made for it or an error when it comes from the same account; from another account it
may reserve the key only when the first one is erased or was retired past it. A lookup that finds
nothing means that a check returns no receipt. -/
theorem effects_atMostOnce {es : List Event} (hrun : Machine.run step {} es = some sys) :
    (sys.committed.Pairwise fun h h' =>
      h.key = h'.key → h.scope ≠ h'.scope ∧ sys.view.Fenced h) ∧
    (∀ h ∈ sys.committed, ∀ b e now answer t, e.key = h.key →
      sys.view.check b e now = .ok (answer, t) →
      (answer = none → sys.view.scopeID b ≠ some h.scope ∧ sys.view.Fenced h) ∧
      ∀ receipt, answer = some receipt → ∃ r ∈ sys.effects, ∃ l result,
        resolveLifetime sys.view.identity b = .ok l ∧
        r.matches (sys.view.scopeID b) b e l = true ∧ r.key = e.key ∧ r.result = some result ∧
        receipt = r.receipt result ∧ (sys.view.scopeID b = some h.scope → r = h)) ∧
    ∀ b key now, sys.view.lookupTx b key now = .ok none →
      ∀ e, e.key = key → ∀ receipt t, sys.view.check b e now ≠ .ok (some receipt, t) := by
  have hsound : sys.Sound :=
    Machine.run_invariant (fun _ _ _ hs hstep => hs.step hstep) System.Sound.empty hrun
  have hview := hsound.view
  refine ⟨hview.distinct.sublist System.committed_prefix.sublist, ?_, ?_⟩
  · intro h hh b e now answer t hkey hcheck
    exact hview.check_committed (System.committed_prefix.subset hh) hkey hcheck
  · intro b key now hlookup e hkey receipt t
    exact not_check_of_lookupTx hlookup hkey receipt

/-! ## A key that two accounts use -/

/-- An instant in milliseconds, and a key that was issued then. -/
def noon : ℤ := 1793196000000

def firstKey : String := "p251_1793196000000_0123456789abcdef0123456789abcdef"

def request : Envelope :=
  ⟨firstKey, "update", "0123456789abcdef0123456789abcdef0123456789abcdef0123456789abcdef", false⟩

def binding (account : String) : Binding := ⟨.localAccount, account, "profile", "family", ""⟩

/-- Two accounts with a profile each. -/
def joining : List Event :=
  [.begin, .change (.join "ann"), .change (.join "bob"),
    .change (.rotate (fun _ _ => some ("0123456789abcdef0123456789abcdef", false))
      (fun _ => some ("fedcba9876543210fedcba9876543210", false)) [] (fun _ => none) fun _ => none),
    .commit]

/-- An account's mutation under the key, which its owner retires afterwards. -/
def retiring : List Event :=
  joining ++ [.begin, .check (binding "ann") request noon,
    .save (binding "ann") request ⟨.applied, "item", 7, 0, 0, .unset⟩ noon, .commit, .begin,
    .retireAccount .localAccount "ann" (noon + 1), .commit]

theorem run_retiring : (Machine.run step {} retiring).isSome = true := by decide +kernel

/-- The system after the two accounts' steps. -/
def retired : System := (Machine.run step {} retiring).get run_retiring

theorem effects_atMostOnce_retired :
    retired.committed.Pairwise fun h h' =>
      h.key = h'.key → h.scope ≠ h'.scope ∧ retired.view.Fenced h :=
  have hrun : Machine.run step {} retiring = some retired := (Option.some_get run_retiring).symm
  (effects_atMostOnce hrun).1

/-- The other account reserves the key, whose effect was committed by an account that still exists. -/
theorem reserved_again : ¬ ∀ es sys, Machine.run step {} es = some sys → ∀ h ∈ sys.committed,
    (∃ a ∈ sys.view.accounts, a.id = h.scope ∧ a.owner.isSome) → ∀ b e now t, e.key = h.key →
    sys.view.check b e now ≠ .ok (none, t) := by
  intro h
  have hcommitted : (retired.committed.any fun r => r.key = firstKey && retired.view.accounts.any
      fun a => a.id = r.scope && a.owner.isSome) = true := by decide +kernel
  have hcheck : ((retired.view.check (binding "bob") request noon).toOption.any
      fun x => x.1.isNone) = true := by decide +kernel
  obtain ⟨r, hr, hlive⟩ := List.any_eq_true.mp hcommitted
  simp only [Bool.and_eq_true, decide_eq_true_eq, List.any_eq_true] at hlive
  cases hanswer : retired.view.check (binding "bob") request noon with
  | error fault => rw [hanswer] at hcheck; cases hcheck
  | ok answer =>
    rw [hanswer] at hcheck
    obtain ⟨receipt, t⟩ := answer
    obtain rfl := Option.isNone_iff_eq_none.mp hcheck
    exact h retiring retired (Option.some_get run_retiring).symm r hr hlive.2 (binding "bob") request
      noon t hlive.1.symm hanswer

end Portico.UserMutation
