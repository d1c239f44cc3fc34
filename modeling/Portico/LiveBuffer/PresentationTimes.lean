import Portico.LiveBuffer.TransportStream

/-!
# The clock of a transport stream

The presentation times of a stream go on past the wrap of their 33 bits, and units are sent out of order. The
clock that is read is that of one stream, and its first and last time are those of the stream, less the same
number of wraps.

## Main results

* `unwrap_spec`, `unwrap_unique`: a time is taken as near to another as wraps allow
* `Spread.extend`: one more time
* `observeAll_inv`: the clocks after all times
* `readPTS_times`: the clock of a transport stream
-/

namespace Portico.LiveBuffer

open Words

variable {value near x t : ℤ} {times : List ℤ} {xs done rest : List Access} {a b : Access} {pid : ℕ}
  {streams : Streams} {s : Stream} {clock : Clock}

/-! ## Wraps -/

/-- **A time is taken as near to another as wraps allow.** -/
theorem unwrap_spec (value near : ℤ) :
    (∃ k, unwrap value near = value + k * ptsWrap) ∧ |unwrap value near - near| ≤ ptsWrap / 2 := by
  unfold unwrap ptsWrap
  rw [abs_le]
  split_ifs with h₁ h₂
  · refine ⟨⟨-((value - near - 2 ^ 33 / 2 + (2 ^ 33 - 1)) / 2 ^ 33), by ring⟩, ?_⟩
    omega
  · refine ⟨⟨(near - value - 2 ^ 33 / 2 + (2 ^ 33 - 1)) / 2 ^ 33, by ring⟩, ?_⟩
    omega
  · refine ⟨⟨0, by ring⟩, ?_⟩
    omega

theorem unwrap_unique (hx : ∃ k, x = value + k * ptsWrap) (hnear : |x - near| < ptsWrap / 2) :
    unwrap value near = x := by
  obtain ⟨⟨k, hk⟩, hle⟩ := unwrap_spec value near
  obtain ⟨j, rfl⟩ := hx
  rw [hk] at hle ⊢
  rw [abs_le] at hle
  rw [abs_lt] at hnear
  unfold ptsWrap at *
  have hsame : k = j := by omega
  rw [hsame]

/-! ## The times of a stream -/

def pidsOf (xs : List Access) : Finset ℕ := (xs.map Access.pid).toFinset

/-- The times of a stream, in the order of its packets. -/
def timesOf (xs : List Access) (pid : ℕ) : List ℤ := (xs.filter fun x => x.pid = pid).map Access.time

/-- Whether a stream is a picture's, which its first unit says. -/
def kindOf (xs : List Access) (pid : ℕ) : Bool := ((xs.find? fun x => x.pid = pid).map Access.video).getD false

/-- **Order within half a wrap**: no time is half a wrap or more away from the greatest before it. -/
def Near (times : List ℤ) : Prop :=
  ∀ before t after m, times = before ++ t :: after → IsGreatest {x | x ∈ before} m → |t - m| < ptsWrap / 2

/-- A clock is the first and the last of some times, less the same number of wraps. -/
def Spread (times : List ℤ) (clock : Clock) : Prop :=
  ∃ k : ℤ, IsLeast {x | x ∈ times} (clock.min + k * ptsWrap) ∧ IsGreatest {x | x ∈ times} (clock.max + k * ptsWrap)

theorem Near.init (h : Near (times ++ [t])) : Near times := by
  rintro before x after m rfl hm
  exact h before x (after ++ [t]) m (by simp) hm

theorem fieldOf_eq (t : ℤ) : ∃ k, t = (fieldOf t : ℤ) + k * ptsWrap := by
  refine ⟨t / ptsWrap, ?_⟩
  unfold fieldOf ptsWrap
  omega

theorem spread_singleton (t : ℤ) : Spread [t] ⟨fieldOf t, fieldOf t⟩ := by
  obtain ⟨k, hk⟩ := fieldOf_eq t
  refine ⟨k, ?_⟩
  show IsLeast {x | x ∈ [t]} ((fieldOf t : ℤ) + k * ptsWrap) ∧ IsGreatest {x | x ∈ [t]} ((fieldOf t : ℤ) + k * ptsWrap)
  rw [← hk]
  simp [IsLeast, IsGreatest]

/-- **One more time** keeps the clock. -/
theorem Spread.extend (h : Spread times s.clock) (hnear : Near (times ++ [t])) :
    Spread (times ++ [t]) (s.extend (fieldOf t)).clock := by
  obtain ⟨k, hleast, hgreatest⟩ := h
  obtain ⟨j, hj⟩ := fieldOf_eq t
  have hclose := hnear times t [] _ rfl hgreatest
  -- the time less the wraps of the clock is within half a wrap of its last time
  have hunwrap : unwrap (fieldOf t) s.clock.max = t - k * ptsWrap := by
    refine unwrap_unique ⟨j - k, ?_⟩ ?_
    · rw [sub_mul, ← add_sub_assoc, ← hj]
    · have hsub : t - k * ptsWrap - s.clock.max = t - (s.clock.max + k * ptsWrap) := by ring
      rw [hsub]
      exact hclose
  refine ⟨k, ?_⟩
  show IsLeast _ (min s.clock.min (unwrap (fieldOf t) s.clock.max) + k * ptsWrap) ∧
    IsGreatest _ (max s.clock.max (unwrap (fieldOf t) s.clock.max) + k * ptsWrap)
  rw [hunwrap, ← min_add_add_right, ← max_add_add_right, sub_add_cancel]
  have hset : {x | x ∈ times ++ [t]} = insert t {x | x ∈ times} := by
    ext x
    simp [or_comm]
  rw [hset, min_comm, max_comm]
  exact ⟨hleast.insert t, hgreatest.insert t⟩

/-! ## The clocks -/

/-- What is known of the streams after some times. -/
structure Tracks (done : List Access) (streams : Streams) : Prop where
  nodup : (streams.map Prod.fst).Nodup
  pids : (streams.map Prod.fst).toFinset = pidsOf done
  clocks : ∀ s ∈ streams, s.2.video = kindOf done s.1 ∧
    (Near (timesOf done s.1) → Spread (timesOf done s.1) s.2.clock)

theorem Tracks.length (h : Tracks done streams) : streams.length = (pidsOf done).card := by
  rw [← h.pids, List.toFinset_card_of_nodup h.nodup, List.length_map]

theorem pidsOf_concat : pidsOf (done ++ [a]) = insert a.pid (pidsOf done) := by
  ext x
  simp [pidsOf]

theorem timesOf_concat_self : timesOf (done ++ [a]) a.pid = timesOf done a.pid ++ [a.time] := by
  simp [timesOf]

theorem timesOf_concat_of_ne (h : a.pid ≠ pid) : timesOf (done ++ [a]) pid = timesOf done pid := by
  simp [timesOf, h]

theorem kindOf_concat (h : pid ∈ pidsOf done ∨ a.pid ≠ pid) : kindOf (done ++ [a]) pid = kindOf done pid := by
  unfold kindOf
  rw [List.find?_append]
  rcases h with h | h
  · obtain ⟨x, hx, hpid⟩ := List.mem_map.mp (List.mem_toFinset.mp h)
    cases hfind : done.find? fun x => x.pid = pid with
    | none =>
      rw [List.find?_eq_none] at hfind
      exact absurd (decide_eq_true hpid) (hfind x hx)
    | some y => rfl
  · rw [List.find?_cons_of_neg (by simpa using h), List.find?_nil, Option.or_none]

theorem kindOf_concat_new (h : a.pid ∉ pidsOf done) : kindOf (done ++ [a]) a.pid = a.video := by
  have hfind : done.find? (fun x => x.pid = a.pid) = none := by
    rw [List.find?_eq_none]
    intro x hx hpid
    exact h (List.mem_toFinset.mpr (List.mem_map.mpr ⟨x, hx, of_decide_eq_true hpid⟩))
  unfold kindOf
  rw [List.find?_append, hfind, Option.none_or, List.find?_cons_of_pos (by simp)]
  rfl

theorem timesOf_new (h : a.pid ∉ pidsOf done) : timesOf done a.pid = [] := by
  unfold timesOf
  rw [List.map_eq_nil_iff, List.filter_eq_nil_iff]
  intro x hx hpid
  exact h (List.mem_toFinset.mpr (List.mem_map.mpr ⟨x, hx, of_decide_eq_true hpid⟩))

/-- **One more time** is refused when it is of a stream too many, and is kept otherwise. -/
theorem Tracks.observe (h : Tracks done streams) :
    ((pidsOf (done ++ [a])).card ≤ 32 ∨ a.pid ∈ pidsOf done → ∃ streams', observe streams a.stamp = .ok streams' ∧
      Tracks (done ++ [a]) streams') ∧
    (a.pid ∉ pidsOf done → 32 < (pidsOf (done ++ [a])).card → observe streams a.stamp = .error .media) := by
  have hany : (streams.any fun s => s.1 = a.stamp.pid) = true ↔ a.pid ∈ pidsOf done := by
    rw [← h.pids, List.mem_toFinset, List.mem_map, List.any_eq_true]
    simp only [decide_eq_true_eq]
    rfl
  unfold LiveBuffer.observe
  by_cases hseen : a.pid ∈ pidsOf done
  · refine ⟨fun _ => ?_, fun hnew => absurd hseen hnew⟩
    rw [if_pos (hany.mpr hseen)]
    have hkeys : (streams.map fun s => if s.1 = a.stamp.pid then (s.1, s.2.extend a.stamp.pts) else s).map Prod.fst =
        streams.map Prod.fst := by
      rw [List.map_map]
      refine List.map_congr_left fun s _ => ?_
      show (if s.1 = a.stamp.pid then (s.1, s.2.extend a.stamp.pts) else s).1 = s.1
      split_ifs <;> rfl
    refine ⟨_, rfl, ⟨hkeys ▸ h.nodup, ?_, ?_⟩⟩
    · rw [hkeys, h.pids, pidsOf_concat, Finset.insert_eq_of_mem hseen]
    · intro s' hs'
      obtain ⟨s, hs, rfl⟩ := List.mem_map.mp hs'
      obtain ⟨hkind, hclock⟩ := h.clocks s hs
      by_cases hpid : s.1 = a.stamp.pid
      · rw [if_pos hpid]
        have hpid : a.pid = s.1 := hpid.symm
        refine ⟨hkind.trans (kindOf_concat (Or.inl (hpid ▸ hseen))).symm, fun hnear => ?_⟩
        show Spread (timesOf (done ++ [a]) s.1) (s.2.extend (fieldOf a.time)).clock
        rw [← hpid, timesOf_concat_self] at hnear ⊢
        rw [hpid] at hnear ⊢
        exact (hclock hnear.init).extend hnear
      · rw [if_neg hpid]
        have hpid : a.pid ≠ s.1 := Ne.symm hpid
        rw [kindOf_concat (Or.inr hpid), timesOf_concat_of_ne hpid]
        exact ⟨hkind, hclock⟩
  · rw [if_neg fun hc => hseen (hany.mp hc)]
    have hcard : (pidsOf (done ++ [a])).card = streams.length + 1 := by
      rw [pidsOf_concat, Finset.card_insert_of_notMem hseen, h.length]
    refine ⟨fun hroom => ?_, fun _ hfull => if_pos (by omega)⟩
    have hroom := hroom.resolve_right hseen
    rw [if_neg (by omega)]
    refine ⟨_, rfl, ⟨?_, ?_, ?_⟩⟩
    · rw [List.map_append]
      refine List.nodup_append.mpr ⟨h.nodup, List.nodup_singleton _, ?_⟩
      intro q hq r hr heq
      obtain rfl := List.mem_singleton.mp hr
      refine hseen ?_
      have heq : q = a.pid := heq
      rw [← h.pids, List.mem_toFinset, ← heq]
      exact hq
    · rw [List.map_append, List.toFinset_append, h.pids, pidsOf_concat]
      ext q
      simp [Access.stamp]
    · intro s hs
      rcases List.mem_append.mp hs with hs | hs
      · have hpid : a.pid ≠ s.1 := by
          intro hpid
          refine hseen ?_
          rw [← h.pids, List.mem_toFinset]
          exact List.mem_map.mpr ⟨s, hs, hpid.symm⟩
        rw [kindOf_concat (Or.inr hpid), timesOf_concat_of_ne hpid]
        exact h.clocks s hs
      · obtain rfl := List.mem_singleton.mp hs
        refine ⟨(kindOf_concat_new hseen).symm, fun _ => ?_⟩
        show Spread (timesOf (done ++ [a]) a.pid) ⟨fieldOf a.time, fieldOf a.time⟩
        rw [timesOf_concat_self, timesOf_new hseen]
        exact spread_singleton a.time

theorem pidsOf_append : pidsOf (done ++ rest) = pidsOf done ∪ pidsOf rest := by
  unfold pidsOf
  rw [List.map_append, List.toFinset_append]

/-- **All times**: the clocks of the streams, unless there are too many. -/
theorem observeAll_inv (h : Tracks done streams) :
    ((pidsOf (done ++ rest)).card ≤ 32 → ∃ streams', observeAll streams rest = .ok streams' ∧
      Tracks (done ++ rest) streams') ∧
    ((pidsOf done).card ≤ 32 → 32 < (pidsOf (done ++ rest)).card → observeAll streams rest = .error .media) := by
  induction rest generalizing done streams with
  | nil =>
    rw [List.append_nil]
    exact ⟨fun _ => ⟨streams, rfl, h⟩, fun hle hlt => absurd hle hlt.not_ge⟩
  | cons a rest ih =>
    have hassoc : done ++ a :: rest = (done ++ [a]) ++ rest := by rw [List.append_assoc]; rfl
    have hsub : (pidsOf (done ++ [a])).card ≤ (pidsOf (done ++ a :: rest)).card := by
      rw [hassoc, @pidsOf_append (done ++ [a]) _]
      exact Finset.card_le_card Finset.subset_union_left
    obtain ⟨hroom, hfull⟩ := h.observe (a := a)
    rw [observeAll]
    by_cases hfits : (pidsOf (done ++ [a])).card ≤ 32
    · obtain ⟨streams', hobserve, htracks⟩ := hroom (Or.inl hfits)
      rw [hobserve, hassoc]
      obtain ⟨hok, hbad⟩ := ih htracks
      exact ⟨hok, fun _ => hbad hfits⟩
    · refine ⟨fun hle => absurd (hsub.trans hle) hfits, fun hle _ => ?_⟩
      have hnew : a.pid ∉ pidsOf done := fun hmem => by
        rw [pidsOf_concat, Finset.insert_eq_of_mem hmem] at hfits
        exact hfits hle
      rw [hfull hnew (not_le.mp hfits)]

/-! ## The preferred stream -/

/-- A stream comes before another: a picture's, then the one of the least number. -/
def Before (xs : List Access) (pid pid' : ℕ) : Prop :=
  (kindOf xs pid = true ∧ kindOf xs pid' = false) ∨ kindOf xs pid = kindOf xs pid' ∧ pid ≤ pid'

/-- **The stream that is chosen**: none comes before it. -/
def Preferred (xs : List Access) (pid : ℕ) : Prop := pid ∈ pidsOf xs ∧ ∀ pid' ∈ pidsOf xs, Before xs pid pid'

theorem Before.trans {p q r : ℕ} (h : Before xs p q) (h' : Before xs q r) : Before xs p r := by
  rcases h with ⟨h₁, h₂⟩ | ⟨h₁, h₂⟩
  · rcases h' with ⟨h₃, -⟩ | ⟨h₃, -⟩
    · rw [h₂] at h₃
      cases h₃
    · exact Or.inl ⟨h₁, h₃ ▸ h₂⟩
  · rcases h' with ⟨h₃, h₄⟩ | ⟨h₃, h₄⟩
    · exact Or.inl ⟨h₁.trans h₃, h₄⟩
    · exact Or.inr ⟨h₁.trans h₃, h₂.trans h₄⟩

theorem foldl_prefer (hkinds : ∀ s ∈ streams, s.2.video = kindOf xs s.1) (c : ℕ × Stream)
    (hc : c.2.video = kindOf xs c.1) :
    ∃ s, streams.foldl prefer (some c) = some s ∧ (s = c ∨ s ∈ streams) ∧ Before xs s.1 c.1 ∧
      ∀ s' ∈ streams, Before xs s.1 s'.1 := by
  induction streams generalizing c with
  | nil => exact ⟨c, rfl, Or.inl rfl, Or.inr ⟨rfl, le_rfl⟩, nofun⟩
  | cons s streams ih =>
    obtain ⟨hs, hkinds⟩ := List.forall_mem_cons.mp hkinds
    rw [List.foldl_cons]
    unfold prefer
    simp only
    by_cases hfirst : (s.2.video && !c.2.video || s.2.video = c.2.video && s.1 < c.1) = true
    · rw [if_pos hfirst]
      obtain ⟨x, hx, hwhich, hbefore, hall⟩ := ih hkinds s hs
      simp only [Bool.or_eq_true, Bool.and_eq_true, Bool.not_eq_true', decide_eq_true_eq, hs, hc] at hfirst
      have hsc : Before xs s.1 c.1 := hfirst.imp_right fun h => ⟨h.1, h.2.le⟩
      refine ⟨x, hx, Or.inr ?_, hbefore.trans hsc, List.forall_mem_cons.mpr ⟨hbefore, hall⟩⟩
      rcases hwhich with rfl | hwhich
      · exact List.mem_cons_self
      · exact List.mem_cons_of_mem _ hwhich
    · rw [if_neg hfirst]
      obtain ⟨x, hx, hwhich, hbefore, hall⟩ := ih hkinds c hc
      simp only [Bool.or_eq_true, Bool.and_eq_true, Bool.not_eq_true', decide_eq_true_eq, hs, hc, not_or,
        not_and, Bool.not_eq_false, not_lt] at hfirst
      have hcs : Before xs c.1 s.1 := by
        cases hkind : kindOf xs s.1 with
        | true =>
          have hc' := hfirst.1 hkind
          exact Or.inr ⟨hc'.trans hkind.symm, hfirst.2 (hkind.trans hc'.symm)⟩
        | false =>
          cases hkind' : kindOf xs c.1 with
          | true => exact Or.inl ⟨hkind', hkind⟩
          | false => exact Or.inr ⟨hkind'.trans hkind.symm, hfirst.2 (hkind.trans hkind'.symm)⟩
      refine ⟨x, hx, hwhich.imp_right (List.mem_cons_of_mem _), hbefore, ?_⟩
      exact List.forall_mem_cons.mpr ⟨hbefore.trans hcs, hall⟩

/-- **The clock of a transport stream.** Times of 33 bits are read as they are written, and each is taken as
near to another as wraps allow. Of a stream of packets that carries no time, or times of more than 32 streams,
no clock is read. Of any other one the clock is that of the preferred stream: its first and its last time are
those of the stream less the same number of wraps, when its units are in order within half a wrap. -/
theorem readPTS_times (ps : List Packet) :
    (accesses ps = [] ∨ 32 < (pidsOf (accesses ps)).card →
      readPTS (ps.flatMap Packet.bytes) = .error .media) ∧
    (accesses ps ≠ [] → (pidsOf (accesses ps)).card ≤ 32 → ∃ pid clock, Preferred (accesses ps) pid ∧
      readPTS (ps.flatMap Packet.bytes) = .ok clock ∧
      (Near (timesOf (accesses ps) pid) → Spread (timesOf (accesses ps) pid) clock)) ∧
    (∀ mark v rest, mark < 16 → v < 2 ^ 33 → readField (pesTime mark v ++ rest) = v) ∧
    (∀ value near, (∃ k, unwrap value near = value + k * ptsWrap) ∧ |unwrap value near - near| ≤ ptsWrap / 2 ∧
      ∀ x, (∃ k, x = value + k * ptsWrap) → |x - near| < ptsWrap / 2 → x = unwrap value near) := by
  have hlength : ps.length ≤ (ps.flatMap Packet.bytes).length := by
    induction ps with
    | nil => exact Nat.zero_le _
    | cons p ps ih =>
      have hp := length_bytes (p := p)
      unfold packetSize at hp
      rw [List.flatMap_cons, List.length_append, List.length_cons]
      omega
  have hstart : Tracks [] [] := ⟨List.nodup_nil, rfl, fun s hs => absurd hs List.not_mem_nil⟩
  obtain ⟨hok, hbad⟩ := @observeAll_inv _ (accesses ps) _ hstart
  rw [List.nil_append] at hok hbad
  have hread := @readFrom_bytes _ [] _ hlength
  refine ⟨fun hnone => ?_, fun hsome hfew => ?_, fun mark v rest hmark hv => (readField_pesTime hmark hv).1,
    fun value near => ?_⟩
  · unfold readPTS
    rw [hread]
    rcases hnone with hnone | hmany
    · rw [hnone]
      rfl
    · rw [hbad (Nat.zero_le _) hmany]
  · obtain ⟨streams, hobserve, htracks⟩ := hok hfew
    have hne : streams ≠ [] := by
      rintro rfl
      obtain ⟨x, hx⟩ := List.exists_mem_of_ne_nil _ hsome
      have hmem : x.pid ∈ pidsOf (accesses ps) := List.mem_toFinset.mpr (List.mem_map_of_mem hx)
      rw [← htracks.pids] at hmem
      cases hmem
    obtain ⟨c, streams, rfl⟩ := List.exists_cons_of_ne_nil hne
    have hkinds : ∀ s ∈ c :: streams, s.2.video = kindOf (accesses ps) s.1 := fun s hs => (htracks.clocks s hs).1
    obtain ⟨hc, hkinds⟩ := List.forall_mem_cons.mp hkinds
    obtain ⟨s, hs, hwhich, hbefore, hall⟩ := foldl_prefer hkinds c hc
    have hmem : s ∈ c :: streams := by
      rcases hwhich with rfl | hwhich
      · exact List.mem_cons_self
      · exact List.mem_cons_of_mem _ hwhich
    refine ⟨s.1, s.2.clock, ⟨?_, fun pid' hpid' => ?_⟩, ?_, (htracks.clocks s hmem).2⟩
    · rw [← htracks.pids, List.mem_toFinset]
      exact List.mem_map_of_mem hmem
    · rw [← htracks.pids, List.mem_toFinset, List.mem_map] at hpid'
      obtain ⟨s', hs', rfl⟩ := hpid'
      rcases List.mem_cons.mp hs' with rfl | hs'
      · exact hbefore
      · exact hall s' hs'
    · have hchosen : (c :: streams).foldl prefer none = some s := by
        rw [List.foldl_cons]
        exact hs
      unfold readPTS
      rw [hread, hobserve]
      simp only [hchosen]
  · obtain ⟨hsame, hclose⟩ := unwrap_spec value near
    exact ⟨hsame, hclose, fun x hx hnear => (unwrap_unique hx hnear).symm⟩

/-- A packet in which a unit with a time begins. -/
def unitPacket (pid : ℕ) (sid : UInt8) (time : ℤ) (hpid : pid < 8192) (hkind : isVideo sid || isAudio sid) : Packet :=
  .begins ⟨false, pid, 0, 0, hpid, by decide, by decide⟩ none
    (.timed ⟨sid, 0, 0, 0x80, 0, 5, 2, time, List.replicate 170 0, hkind, by decide, by decide, by decide, by decide⟩)
    (by
      show 0 + (_ ++ (pesTime 2 (fieldOf time) ++ List.replicate 170 0)).length = 184
      rw [List.length_append, List.length_append, List.length_replicate]
      rfl)

/-- A sound that begins before the picture does. -/
def soundFirst : List Packet :=
  [unitPacket 300 0xc0 100 (by decide) (by decide), unitPacket 256 0xe0 360000 (by decide) (by decide),
    unitPacket 256 0xe0 180000 (by decide) (by decide)]

/-- The time of the sound is in a packet, but not in the clock. -/
theorem readPTS_soundFirst :
    readPTS (soundFirst.flatMap Packet.bytes) = .ok ⟨180000, 360000⟩ ∧
      (accesses soundFirst).map Access.time = [100, 360000, 180000] := by
  decide +kernel

end Portico.LiveBuffer
