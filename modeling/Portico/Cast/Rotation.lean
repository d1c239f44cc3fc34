import Portico.Cast.Devices

/-!
# Cast: which tokens reconnect a device

The newest token of a device reconnects it, and so does the token that was used for the newest, until the
newest is used or a deadline passes. Using the older one again issues another newest but keeps the
deadline.

## Main results

* `Sound.issue`: an issue keeps them
* `sound_run`: every run keeps them
* `cast_tokens`: at most two tokens reconnect a device, and a reconnect leaves one session
-/

namespace Portico.Cast

/-- What a row remembers of its tokens, below the next number and at a time. -/
structure RowSound (bound : ℕ) (clock : ℤ) (d : CastDevice) : Prop where
  newest : ∃ newest rest, d.issued = newest :: rest ∧ newest.token = d.token ∧
    ∀ p, d.previousToken = some p → newest.used = some p
  deadline : ∀ p, d.previousToken = some p → ∀ i ∈ d.issued, i.used = some p →
    d.previousValidUntil ≤ i.issuedAt + castRecoveryWindow
  soon : ∀ p, d.previousToken = some p → d.previousValidUntil ≤ clock + castRecoveryWindow
  unused : ∀ i ∈ d.issued, i.used ≠ some d.token
  fresh : d.token < bound ∧ ∀ i ∈ d.issued, ∀ p, i.used = some p → p < bound

/-- What the rows keep: a device has one row, and every session family that isn't retired is the one that
its device's row names. -/
structure Sound (s : Store) (clock : ℤ) : Prop where
  rows : ∀ d ∈ s.devices, RowSound s.nextID clock d
  keys : (s.devices.map CastDevice.key).Nodup
  ids : (s.devices.map CastDevice.id).Nodup
  freshRows : ∀ d ∈ s.devices, d.id < s.nextID ∧ ∀ f, d.sessionFamily = some f → f < s.nextID
  freshFamilies : ∀ f ∈ s.families, f.id < s.nextID ∧ f.device < s.nextID
  current : ∀ f ∈ s.families, f.revoked = false → ∀ d ∈ s.devices, d.id = f.device →
    d.sessionFamily = some f.id

variable {env : Env} {now clock clock' : ℤ} {viewer : Viewer} {deviceID : String} {r : Rotation}
  {semantics : Semantics} {s s' : Store} {token value : ℕ} {d x : CastDevice} {bound bound' : ℕ}
  {family : ℕ} {id : ℕ}

/-! ## One row -/

theorem RowSound.later (h : RowSound bound clock d) (hbound : bound ≤ bound') (hclock : clock ≤ clock') :
    RowSound bound' clock' d where
  newest := h.newest
  deadline := h.deadline
  soon := fun p hp => (h.soon p hp).trans (by omega)
  unused := h.unused
  fresh := ⟨h.fresh.1.trans_le hbound, fun i hi p hp => (h.fresh.2 i hi p hp).trans_le hbound⟩

/-- A row that lost its token's predecessor, or whose state changed. -/
theorem RowSound.change (h : RowSound bound clock d) (htoken : x.token = d.token)
    (hissued : x.issued = d.issued) (hprevious : x.previousToken = none ∨
      x.previousToken = d.previousToken ∧ x.previousValidUntil = d.previousValidUntil) :
    RowSound bound clock x := by
  have hkept : ∀ p, x.previousToken = some p →
      d.previousToken = some p ∧ x.previousValidUntil = d.previousValidUntil := by
    intro p hp
    rcases hprevious with hnone | ⟨heq, huntil⟩
    · rw [hnone] at hp
      cases hp
    · exact ⟨heq ▸ hp, huntil⟩
  obtain ⟨newest, rest, hlist, htok, hused⟩ := h.newest
  refine ⟨⟨newest, rest, hissued.trans hlist, htok.trans htoken.symm, fun p hp => hused p (hkept p hp).1⟩,
    fun p hp i hi hip => ?_, fun p hp => ?_, ?_, ?_⟩
  · rw [(hkept p hp).2]
    exact h.deadline p (hkept p hp).1 i (hissued ▸ hi) hip
  · rw [(hkept p hp).2]
    exact h.soon p (hkept p hp).1
  · rw [htoken, hissued]
    exact h.unused
  · rw [htoken, hissued]
    exact h.fresh

theorem reissue_key (d : CastDevice) : (d.reissue now value r family).key = d.key := rfl

theorem reissue_id (d : CastDevice) : (d.reissue now value r family).id = d.id := rfl

/-- What a rotation may keep of the token that was used: a deadline that no earlier use of it allows to
be later. -/
structure Rotation.Fits (r : Rotation) (bound : ℕ) (now : ℤ) (d : CastDevice) : Prop where
  fresh : ∀ p, r.previous = some p → p < bound
  soon : r.previousUntil ≤ now + castRecoveryWindow
  kept : ∀ p, r.previous = some p → ∀ i ∈ d.issued, i.used = some p →
    r.previousUntil ≤ i.issuedAt + castRecoveryWindow

/-- **A row that is issued another token.** -/
theorem RowSound.reissue (h : RowSound bound clock d) (hr : r.previous ≠ none → r.Fits bound now d) :
    RowSound (bound + 3) now (d.reissue now bound r (bound + 1)) where
  newest := ⟨_, _, rfl, rfl, fun _ hp => hp⟩
  deadline := by
    intro p hp i hi hip
    have hfits := hr (by rw [show r.previous = some p from hp]; exact Option.some_ne_none p)
    rcases List.mem_cons.mp hi with rfl | hi
    · exact hfits.soon
    · exact hfits.kept p hp i hi hip
  soon := fun p hp => (hr (by rw [show r.previous = some p from hp]; exact Option.some_ne_none p)).soon
  unused := by
    intro i hi hip
    rcases List.mem_cons.mp hi with rfl | hi
    · have hused : r.previous = some bound := hip
      exact lt_irrefl bound ((hr (by rw [hused]; exact Option.some_ne_none _)).fresh bound hused)
    · exact lt_irrefl bound (h.fresh.2 i hi bound hip)
  fresh := by
    refine ⟨show bound < bound + 3 by omega, fun i hi p hp => ?_⟩
    rcases List.mem_cons.mp hi with rfl | hi
    · have hfits := hr (by rw [show r.previous = some p from hp]; exact Option.some_ne_none p)
      exact (hfits.fresh p hp).trans_le (Nat.le_add_right bound 3)
    · exact (h.fresh.2 i hi p hp).trans_le (Nat.le_add_right bound 3)

/-! ## All rows -/

theorem mem_retireFamily {f : Family} {o : Option ℕ} {l : List Family}
    (h : f ∈ retireFamily o l) :
    ∃ g ∈ l, g.id = f.id ∧ g.device = f.device ∧
      (f.revoked = false → g.revoked = false ∧ o ≠ some f.id) := by
  obtain ⟨g, hg, rfl⟩ := mem_updateWhere.mp h
  refine ⟨g, hg, ?_⟩
  by_cases hid : (some g.id == o) = true
  · simp [hid]
  · simp only [hid, if_false, Bool.false_eq_true]
    refine ⟨trivial, trivial, fun hrevoked => ⟨hrevoked, fun heq => hid ?_⟩⟩
    rw [heq, beq_self_eq_true]

theorem Sound.retire (h : Sound s clock) (hclock : clock ≤ now) (o : Option ℕ) :
    Sound { s with families := retireFamily o s.families } now where
  rows := fun d hd => (h.rows d hd).later le_rfl hclock
  keys := h.keys
  ids := h.ids
  freshRows := h.freshRows
  freshFamilies := by
    intro f hf
    obtain ⟨g, hg, hid, hdevice, -⟩ := mem_retireFamily hf
    exact hid ▸ hdevice ▸ h.freshFamilies g hg
  current := by
    intro f hf hrevoked d hd hdf
    obtain ⟨g, hg, hid, hdevice, hkept⟩ := mem_retireFamily hf
    rw [← hid]
    exact h.current g hg (hkept hrevoked).1 d hd (hdf.trans hdevice.symm)

/-- Rows that change but keep their names, their tokens and their families, or lose them. -/
theorem Sound.update {p : CastDevice → Bool} {f : CastDevice → CastDevice} {families : List Family}
    (h : Sound s clock) (hclock : clock ≤ now)
    (hsame : ∀ d, (f d).key = d.key ∧ (f d).id = d.id ∧ (f d).token = d.token ∧ (f d).issued = d.issued)
    (hprevious : ∀ d, (f d).previousToken = none ∨
      (f d).previousToken = d.previousToken ∧ (f d).previousValidUntil = d.previousValidUntil)
    (hfamily : ∀ d, (f d).sessionFamily = none ∨ (f d).sessionFamily = d.sessionFamily)
    (hfamilies : ∀ g ∈ families, ∃ g' ∈ s.families, g'.id = g.id ∧ g'.device = g.device ∧
      (g.revoked = false → g'.revoked = false))
    (hlost : ∀ g ∈ families, g.revoked = false → ∀ d ∈ s.devices, p d = true → d.id = g.device →
      (f d).sessionFamily = d.sessionFamily) :
    Sound { s with devices := updateWhere p f s.devices, families := families } now := by
  refine ⟨?_, ?_, ?_, ?_, ?_, ?_⟩
  · exact forall_updateWhere
      (fun d hd _ => ((h.rows d hd).change (hsame d).2.2.1 (hsame d).2.2.2 (hprevious d)).later le_rfl
        hclock)
      fun d hd _ => (h.rows d hd).later le_rfl hclock
  · change ((updateWhere p f s.devices).map _).Nodup
    rw [map_updateWhere fun d => (hsame d).1]
    exact h.keys
  · change ((updateWhere p f s.devices).map _).Nodup
    rw [map_updateWhere fun d => (hsame d).2.1]
    exact h.ids
  · refine forall_updateWhere (fun d hd _ => ?_) fun d hd _ => h.freshRows d hd
    rw [(hsame d).2.1]
    refine ⟨(h.freshRows d hd).1, fun g hg => ?_⟩
    rcases hfamily d with hnone | heq
    · rw [hnone] at hg
      cases hg
    · exact (h.freshRows d hd).2 g (heq ▸ hg)
  · intro g hg
    obtain ⟨g', hg', hid, hdevice, -⟩ := hfamilies g hg
    exact hid ▸ hdevice ▸ h.freshFamilies g' hg'
  · intro g hg hrevoked d hd hdg
    obtain ⟨g', hg', hid, hdevice, hkept⟩ := hfamilies g hg
    obtain ⟨d', hd', rfl⟩ := mem_updateWhere.mp hd
    cases hp : p d' with
    | true =>
      rw [hp, if_pos rfl, (hsame d').2.1] at hdg
      rw [if_pos rfl, hlost g hg hrevoked d' hd' hp hdg, ← hid]
      exact h.current g' hg' (hkept hrevoked) d' hd' (hdg.trans hdevice.symm)
    | false =>
      rw [hp] at hdg
      rw [← hid]
      exact h.current g' hg' (hkept hrevoked) d' hd' (hdg.trans hdevice.symm)

/-- **An issue** keeps the rows sound, and leaves its device one session. -/
theorem Sound.issue (h : Sound s clock) (hclock : clock ≤ now)
    (hr : r.previous ≠ none → ∀ d, rowOf CastDevice.key (viewer, deviceID) s.devices = some d →
      r.Fits s.nextID now d)
    (hissue : issueCast env now viewer deviceID r semantics s = .ok (value, s')) :
    Sound s' now ∧ ∃ d ∈ s'.devices, d.key = (viewer, deviceID) ∧ d.token = value ∧
      (∀ x, rowOf CastDevice.key (viewer, deviceID) s.devices = some x →
        d.issued = ⟨value, now, r.previous⟩ :: x.issued) ∧
      ∃ f, d.sessionFamily = some f.id ∧
        s'.families.filter (fun g => g.device == d.id && !g.revoked) = [f] := by
  obtain ⟨rfl, hnext, hnew | ⟨d, hrow, hdevices, hfamilies⟩⟩ := issueCast_eq hissue
  · obtain ⟨hnone, -, device, hid, htoken, hprevious, hkey, -, hfamily, hissued, hdevices, hfamilies⟩ :=
      hnew
    have hrow : RowSound s'.nextID now device := by
      have hused : ∀ i ∈ device.issued, i.used = none := by
        rw [hissued]
        intro i hi
        rw [List.mem_singleton.mp hi]
      have hlost : ∀ p, device.previousToken ≠ some p := fun p hp => by
        rw [hprevious] at hp
        cases hp
      refine ⟨⟨_, _, hissued, htoken.symm, fun p hp => absurd hp (hlost p)⟩,
        fun p hp => absurd hp (hlost p), fun p hp => absurd hp (hlost p), fun i hi hip => ?_, ?_,
        fun i hi p hp => ?_⟩
      · rw [hused i hi] at hip
        cases hip
      · rw [htoken, hnext]
        omega
      · rw [hused i hi] at hp
        cases hp
    refine ⟨⟨fun d hd => ?_, ?_, ?_, fun d hd => ?_, fun f hf => ?_, fun f hf hrevoked d hd hdf => ?_⟩,
      device, ?_, hkey, htoken, fun x hx => ?_, ⟨s.nextID + 1, s.nextID + 2, false⟩, hfamily, ?_⟩
    · rw [hdevices] at hd
      rcases List.mem_append.mp hd with hd | hd
      · exact (h.rows d hd).later (by omega) hclock
      · rwa [List.mem_singleton.mp hd]
    · rw [hdevices]
      exact nodup_append_row h.keys fun x hx => hkey ▸ rowOf_eq_none.mp hnone x hx
    · rw [hdevices]
      refine nodup_append_row h.ids fun x hx => ?_
      have := (h.freshRows x hx).1
      omega
    · rw [hdevices] at hd
      rcases List.mem_append.mp hd with hd | hd
      · have hfresh := h.freshRows d hd
        exact ⟨by omega, fun f hf => by have := hfresh.2 f hf; omega⟩
      · rw [List.mem_singleton.mp hd, hid, hfamily, hnext]
        refine ⟨by omega, fun f hf => ?_⟩
        rw [← Option.some.inj hf]
        omega
    · rw [hfamilies] at hf
      rcases List.mem_append.mp hf with hf | hf
      · have := h.freshFamilies f hf
        omega
      · rw [List.mem_singleton.mp hf, hnext]
        exact ⟨by simp, by simp⟩
    · rw [hfamilies] at hf
      rw [hdevices] at hd
      -- an old family has an old device, and the new one the new device
      rcases List.mem_append.mp hf with hf | hf <;> rcases List.mem_append.mp hd with hd | hd
      · exact h.current f hf hrevoked d hd hdf
      · have := h.freshFamilies f hf
        rw [List.mem_singleton.mp hd, hid] at hdf
        omega
      · have := h.freshRows d hd
        rw [List.mem_singleton.mp hf] at hdf
        simp only at hdf
        omega
      · rw [List.mem_singleton.mp hd, List.mem_singleton.mp hf, hfamily]
    · rw [hdevices]
      exact List.mem_append_right _ List.mem_cons_self
    · rw [hnone] at hx
      cases hx
    · rw [hfamilies, List.filter_append, hid]
      have hold : s.families.filter (fun g => g.device == s.nextID + 2 && !g.revoked) = [] := by
        refine List.filter_eq_nil_iff.mpr fun f hf => ?_
        have := (h.freshFamilies f hf).2
        simp only [Bool.and_eq_true, beq_iff_eq, not_and]
        intro heq
        omega
      rw [hold, List.filter_cons, if_pos (by simp)]
      rfl
  · obtain ⟨hd, hkey⟩ := (rowOf_eq_some h.keys).mp hrow
    have hprior : d.sessionFamily ≠ some (s.nextID + 1) := fun heq => by
      have := (h.freshRows d hd).2 _ heq
      omega
    have hown {x : CastDevice} (hx : x ∈ s.devices) (hid : (x.id == d.id) = true) : x = d :=
      eq_of_key h.ids hx hd (beq_iff_eq.mp hid)
    -- the session that the device held is the only one that wasn't retired
    have hretired {f : Family} (hf : f ∈ retireFamily d.sessionFamily s.families)
        (hdevice : f.device = d.id) : f.revoked = true := by
      obtain ⟨g, hg, hgid, hgd, hkept⟩ := mem_retireFamily hf
      by_contra hrevoked
      obtain ⟨hgr, hne⟩ := hkept (Bool.not_eq_true _ ▸ hrevoked)
      exact hne (hgid ▸ h.current g hg hgr d hd (hgd.trans hdevice).symm)
    have hsplit : s'.families = retireFamily d.sessionFamily s.families ++
        [⟨s.nextID + 1, d.id, false⟩] := by
      rw [hfamilies]
      unfold retireFamily updateWhere
      rw [List.map_append, List.map_singleton, if_neg]
      simpa using fun heq => hprior heq.symm
    refine ⟨⟨?_, ?_, ?_, ?_, fun f hf => ?_, fun f hf hrevoked y hy hyf => ?_⟩,
      d.reissue now s.nextID r (s.nextID + 1), ?_, hkey, rfl, fun x hx => ?_,
      ⟨s.nextID + 1, d.id, false⟩, rfl, ?_⟩
    · rw [hdevices, hnext]
      refine forall_updateWhere (fun x hx hid => ?_) fun x hx _ => (h.rows x hx).later (by omega) hclock
      obtain rfl := hown hx hid
      exact (h.rows x hx).reissue fun hp => hr hp x hrow
    · rw [hdevices, map_updateWhere reissue_key]
      exact h.keys
    · rw [hdevices, map_updateWhere reissue_id]
      exact h.ids
    · rw [hdevices, hnext]
      refine forall_updateWhere (fun x hx _ => ?_) fun x hx _ => ?_
      · have hfresh := (h.freshRows x hx).1
        refine ⟨hfresh.trans_le (Nat.le_add_right _ 3), fun f hf => ?_⟩
        rw [← Option.some.inj hf]
        omega
      · have hfresh := h.freshRows x hx
        exact ⟨by omega, fun f hf => by have := hfresh.2 f hf; omega⟩
    · rw [hsplit] at hf
      rcases List.mem_append.mp hf with hf | hf
      · obtain ⟨g, hg, hgid, hgd, -⟩ := mem_retireFamily hf
        have := h.freshFamilies g hg
        omega
      · have := (h.freshRows d hd).1
        rw [List.mem_singleton.mp hf, hnext]
        exact ⟨by simp, by simp; omega⟩
    · rw [hdevices] at hy
      obtain ⟨x, hx, rfl⟩ := mem_updateWhere.mp hy
      rw [hsplit] at hf
      rcases List.mem_append.mp hf with hf | hf
      · obtain ⟨g, hg, hgid, hgd, hkept⟩ := mem_retireFamily hf
        cases hid : (x.id == d.id) with
        | true =>
          obtain rfl := hown hx hid
          rw [hid, if_pos rfl] at hyf
          rw [hretired hf hyf.symm] at hrevoked
          cases hrevoked
        | false =>
          rw [hid] at hyf
          rw [← hgid]
          exact h.current g hg (hkept hrevoked).1 x hx (hyf.trans hgd.symm)
      · rw [List.mem_singleton.mp hf] at hyf ⊢
        cases hid : (x.id == d.id) with
        | true => rfl
        | false =>
          rw [hid] at hyf
          exact absurd hyf (beq_eq_false_iff_ne.mp hid)
    · rw [hdevices]
      exact mem_updateWhere.mpr ⟨d, hd, by rw [if_pos (beq_self_eq_true _)]⟩
    · rw [hrow] at hx
      obtain rfl := Option.some.inj hx
      rfl
    · rw [hsplit, List.filter_append, List.filter_eq_nil_iff.mpr, List.filter_cons,
        if_pos (by simp [reissue_id])]
      · rfl
      · intro f hf
        simp only [Bool.and_eq_true, beq_iff_eq, not_and]
        intro heq
        rw [hretired hf heq]
        decide

/-! ## Reconnecting -/

variable {device : Option String} {recovering : Bool}

/-- A row that is reconnected is found by its newest token, or by the one before in its time. -/
theorem accepted_eq (h : accepted now token device s = .ok (d, recovering)) :
    d ∈ s.devices ∧ d.state = .active ∧ now < d.expiresAt ∧
      ((recovering = false ∧ d.token = token) ∨
        (recovering = true ∧ d.previousToken = some token ∧ now < d.previousValidUntil ∧
          device = some d.deviceID)) := by
  unfold accepted at h
  split at h
  · cases h
  · rename_i x rec hlookup
    split_ifs at h with hrevoked hexpired
    obtain ⟨rfl, rfl⟩ := Prod.mk.inj (Except.ok.inj h)
    simp only [ne_eq, Bool.or_eq_true, decide_eq_true_eq, not_or, not_not, not_le] at hexpired
    unfold lookup at hlookup
    split at hlookup
    · rename_i y hrow
      obtain ⟨rfl, rfl⟩ := Prod.mk.inj (Option.some.inj hlookup)
      exact ⟨mem_of_rowOf hrow, hexpired.1, hexpired.2, .inl ⟨rfl, key_of_rowOf hrow⟩⟩
    · obtain ⟨name, rfl, hfind⟩ := Option.bind_eq_some_iff.mp hlookup
      obtain ⟨y, hy, heq⟩ := Option.map_eq_some_iff.mp hfind
      obtain ⟨rfl, rfl⟩ := Prod.mk.inj heq
      have hfound := List.find?_some hy
      simp only [Bool.and_eq_true, beq_iff_eq, decide_eq_true_eq] at hfound
      exact ⟨List.mem_of_find?_eq_some hy, hexpired.1, hexpired.2,
        .inr ⟨rfl, hfound.1.1, hfound.1.2, hfound.2 ▸ rfl⟩⟩

/-- **A reconnect** keeps the deadline of a token that was replaced, and leaves one session. -/
theorem Sound.reconnect (h : Sound s clock) (hclock : clock ≤ now)
    (hreconnect : castReconnect env now token device s = .ok (value, s')) :
    Sound s' now ∧ ∃ d ∈ s.devices, ∃ d' ∈ s'.devices, d'.key = d.key ∧ d'.token = value ∧
      d'.issued = ⟨value, now, some token⟩ :: d.issued ∧
      ∃ f, d'.sessionFamily = some f.id ∧
        s'.families.filter (fun g => g.device == d'.id && !g.revoked) = [f] := by
  unfold castReconnect at hreconnect
  split at hreconnect
  · cases hreconnect
  · rename_i d recovering haccepted
    simp only at hreconnect
    obtain ⟨hd, -, -, hfound⟩ := accepted_eq haccepted
    have hsound := h.rows d hd
    have hfits : (⟨some token, if recovering then d.previousValidUntil else now + castRecoveryWindow⟩ :
        Rotation).Fits s.nextID now d := by
      obtain ⟨newest, rest, hissued, -, hused⟩ := hsound.newest
      rcases hfound with ⟨rfl, rfl⟩ | ⟨rfl, hprevious, hlive, -⟩
      · refine ⟨fun p hp => ?_, le_rfl, fun p hp i hi hip => ?_⟩
        · obtain rfl := Option.some.inj hp
          exact hsound.fresh.1
        · obtain rfl := Option.some.inj hp
          exact absurd hip (hsound.unused i hi)
      · refine ⟨fun p hp => ?_, ?_, fun p hp i hi hip => ?_⟩
        · obtain rfl := Option.some.inj hp
          exact hsound.fresh.2 newest (hissued ▸ List.mem_cons_self) _ (hused _ hprevious)
        · exact (hsound.soon _ hprevious).trans (by omega)
        · obtain rfl := Option.some.inj hp
          exact hsound.deadline _ hprevious i hi hip
    have hissue := h.issue hclock (fun _ x hx => by
      obtain ⟨hx, hkey⟩ := (rowOf_eq_some h.keys).mp hx
      rw [eq_of_key h.keys hx hd hkey]
      exact hfits) hreconnect
    obtain ⟨hsound', d', hd', hkey, htoken, hissued, hfamily⟩ := hissue
    exact ⟨hsound', d, hd, d', hd', hkey, htoken,
      hissued d ((rowOf_eq_some h.keys).mpr ⟨hd, rfl⟩), hfamily⟩

/-! ## Runs -/

theorem Sound.revoke {p : Principal} {generation : Option ℕ} (h : Sound s clock) (hclock : clock ≤ now)
    (hrevoke : revokeCastDevice p id generation s = .ok s') : Sound s' now := by
  unfold revokeCastDevice at hrevoke
  split at hrevoke
  · cases hrevoke
  · rename_i d hfind
    split_ifs at hrevoke
    obtain rfl := Except.ok.inj hrevoke
    have hd := List.mem_of_find?_eq_some hfind
    have hid : d.id = id := by
      have hfound := List.find?_some hfind
      simp only [Bool.and_eq_true, beq_iff_eq] at hfound
      exact hfound.1
    refine h.update hclock (fun x => ⟨rfl, rfl, rfl, rfl⟩) (fun x => .inl rfl) (fun x => .inl rfl)
      (fun g hg => ?_) fun g hg hrevoked x hx hp hxg => ?_
    · obtain ⟨g', hg', hgid, hdevice, hkept⟩ := mem_retireFamily hg
      exact ⟨g', hg', hgid, hdevice, fun hrevoked => (hkept hrevoked).1⟩
    · -- the session of the row is retired with it
      obtain ⟨g', hg', hgid, hdevice, hkept⟩ := mem_retireFamily hg
      obtain ⟨hgr, hne⟩ := hkept hrevoked
      obtain rfl := eq_of_key h.ids hx hd ((beq_iff_eq.mp hp).trans hid.symm)
      exact absurd (hgid ▸ h.current g' hg' hgr x hx (hxg.trans hdevice.symm)) hne

theorem Sound.change {p : CastDevice → Bool} {state : DeviceState} (h : Sound s clock)
    (hclock : clock ≤ now) :
    Sound { s with devices := updateWhere p (fun x => { x with state := state }) s.devices } now :=
  h.update hclock (fun _ => ⟨rfl, rfl, rfl, rfl⟩) (fun _ => .inr ⟨rfl, rfl⟩) (fun _ => .inr rfl)
    (fun g hg => ⟨g, hg, rfl, rfl, id⟩) fun _ _ _ _ _ _ _ => rfl

theorem ok_of_toOption {α : Type} {x : Except Fault (ℕ × α)} {a : α}
    (h : x.toOption.map Prod.snd = some a) : ∃ value, x = .ok (value, a) := by
  cases x with
  | error f => cases h
  | ok y => exact ⟨y.1, by rw [← Option.some.inj h]⟩

/-- **Every step** keeps the rows sound. -/
theorem Sound.step {t t' : System} {e : ℤ × Event} (h : Sound t.store t.clock)
    (hstep : step t e = some t') : Sound t'.store t'.clock := by
  unfold Cast.step at hstep
  split_ifs at hstep with hback
  obtain ⟨s', hs', rfl⟩ := Option.map_eq_some_iff.mp hstep
  have hclock : t.clock ≤ e.1 := not_lt.mp hback
  obtain ⟨now, event⟩ := e
  cases event with
  | redeem env viewer deviceID pairingFamily =>
    obtain ⟨value, hissue⟩ := ok_of_toOption hs'
    exact (h.issue hclock (fun hp => absurd rfl hp) hissue).1
  | reconnect env token device =>
    obtain ⟨value, hreconnect⟩ := ok_of_toOption hs'
    exact (h.reconnect hclock hreconnect).1
  | revoke p id generation =>
    cases hrevoke : revokeCastDevice p id generation t.store with
    | error f =>
      rw [Event.apply, hrevoke] at hs'
      cases hs'
    | ok s =>
      rw [Event.apply, hrevoke] at hs'
      obtain rfl := Option.some.inj hs'
      exact h.revoke hclock hrevoke
  | mark id =>
    obtain rfl := Option.some.inj hs'
    exact h.change hclock
  | restore =>
    obtain rfl := Option.some.inj hs'
    exact h.change hclock
  | signOut family =>
    obtain rfl := Option.some.inj hs'
    exact h.retire hclock (some family)

theorem sound_empty : Sound {} 0 where
  rows := fun _ hd => (nomatch hd)
  keys := List.nodup_nil
  ids := List.nodup_nil
  freshRows := fun _ hd => (nomatch hd)
  freshFamilies := fun _ hf => (nomatch hf)
  current := fun _ hf => (nomatch hf)

/-- **Every run** keeps the rows sound. -/
theorem sound_run {es : List (ℤ × Event)} {t : System} (hrun : Machine.run Cast.step {} es = some t) :
    Sound t.store t.clock :=
  Machine.run_invariant (P := fun t => Sound t.store t.clock) (fun _ _ _ h hstep => h.step hstep)
    sound_empty hrun

/-- **Cast tokens.** In every run, what reconnects a device that is paired is its newest token, or the
token that was used for the newest, until a deadline counted from its first use. A reconnect issues
another newest token, and leaves the device one session that isn't retired. -/
theorem cast_tokens {es : List (ℤ × Event)} {t : System}
    (hrun : Machine.run step {} es = some t) :
    (∀ now token device d recovering, t.clock ≤ now →
      accepted now token device t.store = .ok (d, recovering) →
      d ∈ t.store.devices ∧ d.state = .active ∧ ∃ newest rest, d.issued = newest :: rest ∧
        (token = newest.token ∨
          (newest.used = some token ∧ device = some d.deviceID ∧
            ∀ i ∈ d.issued, i.used = some token → now < i.issuedAt + castRecoveryWindow))) ∧
    ∀ now env token device t', step t (now, .reconnect env token device) = some t' →
      ∃ d ∈ t.store.devices, ∃ d' ∈ t'.store.devices, d'.key = d.key ∧
        d'.issued = ⟨d'.token, now, some token⟩ :: d.issued ∧
        ∃ f, d'.sessionFamily = some f.id ∧
          t'.store.families.filter (fun g => g.device == d'.id && !g.revoked) = [f] := by
  have h := sound_run hrun
  refine ⟨fun now token device d recovering hclock haccepted => ?_, fun now env token device t' hstep => ?_⟩
  · obtain ⟨hd, hactive, -, hfound⟩ := accepted_eq haccepted
    obtain ⟨newest, rest, hissued, htoken, hused⟩ := (h.rows d hd).newest
    refine ⟨hd, hactive, newest, rest, hissued, ?_⟩
    rcases hfound with ⟨-, rfl⟩ | ⟨-, hprevious, hlive, hdevice⟩
    · exact .inl htoken.symm
    · exact .inr ⟨hused _ hprevious, hdevice, fun i hi hip =>
        hlive.trans_le ((h.rows d hd).deadline _ hprevious i hi hip)⟩
  · unfold Cast.step at hstep
    split_ifs at hstep with hback
    obtain ⟨s', hs', rfl⟩ := Option.map_eq_some_iff.mp hstep
    obtain ⟨value, hreconnect⟩ := ok_of_toOption hs'
    obtain ⟨-, d, hd, d', hd', hkey, htoken, hissued, hfamily⟩ :=
      h.reconnect (not_lt.mp hback) hreconnect
    exact ⟨d, hd, d', hd', hkey, htoken ▸ hissued, hfamily⟩

/-- A pairing, a reconnect whose answer is lost, and another with the token that the screen still has. -/
def lostAnswer : List (ℤ × Event) :=
  [(0, .redeem ⟨fun _ => true, true⟩ ⟨"local", "a", "p"⟩ "tv" (some 0)),
    (10, .reconnect ⟨fun _ => true, true⟩ 0 (some "tv")),
    (20, .reconnect ⟨fun _ => true, true⟩ 0 (some "tv"))]

/-- The token of the pairing reconnects the screen until two minutes after it was first used. -/
theorem cast_tokens_lost : ∃ t, Machine.run step {} lostAnswer = some t ∧
    (∃ d, accepted 120009 0 (some "tv") t.store = .ok (d, true)) ∧
    ∀ now d recovering, 20 ≤ now → accepted now 0 (some "tv") t.store = .ok (d, recovering) →
      now < 120010 := by
  refine ⟨_, rfl, ⟨_, rfl⟩, fun now d recovering hnow haccepted => ?_⟩
  obtain ⟨hd, -, newest, rest, hissued, hfound⟩ :=
    (@cast_tokens lostAnswer _ rfl).1 now 0 (some "tv") d recovering hnow haccepted
  obtain rfl := List.mem_singleton.mp hd
  obtain ⟨rfl, rfl⟩ := List.cons.inj hissued
  rcases hfound with htoken | ⟨-, -, hdeadline⟩
  · cases htoken
  · exact hdeadline ⟨3, 10, some 0⟩ (by decide) rfl

end Portico.Cast
