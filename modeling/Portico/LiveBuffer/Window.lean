import Portico.LiveBuffer.Buffer

/-!
# The window of a live buffer

The window's segments are numbered one after the other, the index and the byte count agree with them,
and an init is kept as long as a retained fragment needs it. Appending and evicting keep all of it.

## Main results

* `Sound.evict`: eviction keeps the window sound and within its cap
* `Sound.append`: so does a new segment
-/

open scoped List

namespace Portico.LiveBuffer

/-- The discontinuity tags of a segment. -/
def Segment.tags (s : Segment) : ℤ := if s.discontinuity then 1 else 0

/-- A segment is numbered right after another. -/
def Follows (s t : Segment) : Prop :=
  t.sequence = s.sequence + 1 ∧ t.discontinuitiesBefore = s.discontinuitiesBefore + s.tags

/-- A fragment is decoded with an init. -/
def InitFile.serves (i : InitFile) (s : Segment) : Bool := s.fragmented && s.producer = i.producer

namespace Buffer

/-- The files of the window. -/
def paths (b : Buffer) : List File :=
  b.segments.map Segment.path ++ b.inits.map InitFile.path

/-- **The window is sound**: the byte count and the index agree with the segments, neighbours are
numbered one after the other, the newest segment has the number before the next, an init counts the
fragments that need it, and the files of the window haven't expired. The segments `gone` have left,
or haven't entered yet, and are counted as users of their inits. -/
structure Sound (gone : List Segment) (lent due : File → ℕ) (b : Buffer) : Prop where
  bytes : b.closed = false → b.bytes = (b.segments.map Segment.bytes).sum
  index : ∀ id t, b.byID id = some t ↔ t ∈ b.segments ∧ t.sequence = id
  numbered : b.segments.IsChain Follows
  newest : ∀ t, b.segments.getLast? = some t →
    b.next = t.sequence + 1 ∧ b.discontinuities = t.discontinuitiesBefore + t.tags
  small : ∀ t ∈ b.segments, t.bytes ≤ maxSegmentBytes
  uses : ∀ i ∈ b.inits, i.uses = (gone ++ b.segments).countP i.serves
  needed : ∀ t ∈ gone ++ b.segments, t.fragmented = true → ∃ i ∈ b.inits, i.producer = t.producer
  producers : (b.inits.map InitFile.producer).Nodup
  distinct : b.paths.Nodup
  alive : ∀ f ∈ b.paths, b.files.expired f = false
  files : b.files.Sound lent due
  emptied : b.closed = true → b.segments = [] ∧ b.inits = []

variable {b b' : Buffer} {gone gone' : List Segment} {lent due : File → ℕ} {i : InitFile}
  {s t old : Segment} {rest : List Segment} {p n threshold : ℤ} {f : File}

/-! ## Inits -/

theorem Sound.init?_eq_some (h : Sound gone lent due b) :
    b.init? p = some i ↔ i ∈ b.inits ∧ i.producer = p := by
  constructor
  · intro hi
    have hp := List.find?_some hi
    exact ⟨List.mem_of_find?_eq_some hi, of_decide_eq_true hp⟩
  · rintro ⟨hi, rfl⟩
    obtain ⟨j, hj⟩ : ∃ j, b.init? i.producer = some j :=
      Option.isSome_iff_exists.mp (List.find?_isSome.mpr ⟨i, hi, by simp⟩)
    have hmem := List.mem_of_find?_eq_some hj
    have hproducer := List.find?_some hj
    rw [hj, List.inj_on_of_nodup_map h.producers hmem hi (of_decide_eq_true hproducer)]

theorem Sound.init?_isSome (h : Sound gone lent due b) (ht : t ∈ gone ++ b.segments)
    (hf : t.fragmented = true) : ∃ i, b.init? t.producer = some i := by
  obtain ⟨i, hi, hp⟩ := h.needed t ht hf
  exact ⟨i, h.init?_eq_some.mpr ⟨hi, hp⟩⟩

theorem paths_useInit : (b.useInit p n).paths = b.paths := by
  simp only [paths, useInit, List.map_map]
  congr 1
  refine List.map_congr_left fun i _ => ?_
  simp only [Function.comp_apply]
  split_ifs <;> rfl

theorem Sound.useInit (h : Sound gone lent due b)
    (huses : ∀ i ∈ b.inits, ((gone' ++ b.segments).countP i.serves : ℤ) =
      (gone ++ b.segments).countP i.serves + if i.producer = p then n else 0)
    (hneeded : ∀ t ∈ gone' ++ b.segments, t.fragmented = true →
      ∃ i ∈ b.inits, i.producer = t.producer) :
    Sound gone' lent due (b.useInit p n) := by
  have hproducers : (b.useInit p n).inits.map InitFile.producer =
      b.inits.map InitFile.producer := by
    simp only [Buffer.useInit, List.map_map]
    refine List.map_congr_left fun i _ => ?_
    simp only [Function.comp_apply]
    split_ifs <;> rfl
  refine { h with
    uses := ?_, needed := ?_, producers := hproducers ▸ h.producers
    distinct := by rw [paths_useInit]; exact h.distinct
    alive := by rw [paths_useInit]; exact h.alive
    emptied := fun hc => ?_ }
  · intro j hj
    obtain ⟨i, hi, rfl⟩ := List.mem_map.mp hj
    have := huses i hi
    have := h.uses i hi
    by_cases hp : i.producer = p
    · rw [if_pos hp] at *
      show i.uses + n = ((gone' ++ b.segments).countP i.serves : ℤ)
      omega
    · rw [if_neg hp] at *
      show i.uses = ((gone' ++ b.segments).countP i.serves : ℤ)
      omega
  · intro t ht hf
    obtain ⟨i, hi, hp⟩ := hneeded t ht hf
    refine ⟨_, List.mem_map_of_mem hi, ?_⟩
    split_ifs <;> exact hp
  · obtain ⟨hsegments, hinits⟩ := h.emptied hc
    exact ⟨hsegments, by simp [Buffer.useInit, hinits]⟩

theorem Sound.retireInitLocked (h : Sound gone lent due b)
    (hunused : ∀ t ∈ gone ++ b.segments, t.fragmented = true → t.producer ≠ p) :
    Sound gone lent due (b.retireInitLocked p) := by
  unfold Buffer.retireInitLocked
  split
  next hnone => exact h
  next i hi =>
    obtain ⟨hmem, rfl⟩ := h.init?_eq_some.mp hi
    have hsub : (b.segments.map Segment.path ++
        (b.inits.filter fun j => j.producer ≠ i.producer).map InitFile.path) <+ b.paths :=
      List.Sublist.append_left (List.filter_sublist.map _) _
    have hpath : i.path ∈ b.paths :=
      List.mem_append_right _ (List.mem_map_of_mem hmem)
    have hout : ∀ f ∈ b.segments.map Segment.path ++
        (b.inits.filter fun j => j.producer ≠ i.producer).map InitFile.path, f ≠ i.path := by
      rintro f hf rfl
      rcases List.mem_append.mp hf with hf | hf
      · exact (List.nodup_append.mp h.distinct).2.2 _ hf _ (List.mem_map_of_mem hmem) rfl
      · obtain ⟨j, hj, hjp⟩ := List.mem_map.mp hf
        obtain ⟨hj, hne⟩ := List.mem_filter.mp hj
        have := List.inj_on_of_nodup_map (List.nodup_append.mp h.distinct).2.1 hj hmem hjp
        subst this
        simp at hne
    refine { h with
      uses := fun j hj => h.uses j (List.mem_of_mem_filter hj), needed := ?_
      producers := h.producers.sublist (List.filter_sublist.map _), distinct := h.distinct.sublist hsub
      alive := ?_, files := h.files.retire (h.alive _ hpath), emptied := fun hc => ?_ }
    · intro t ht hf
      obtain ⟨j, hj, hp⟩ := h.needed t ht hf
      refine ⟨j, List.mem_filter.mpr ⟨hj, ?_⟩, hp⟩
      rw [hp]
      simpa using hunused t ht hf
    · intro f hf
      rw [← Bool.not_eq_true, Shelf.expired_retire]
      rintro (hfi | hexp)
      · exact hout f hf hfi
      · rw [h.alive f (hsub.subset hf)] at hexp
        cases hexp
    · obtain ⟨hsegments, hinits⟩ := h.emptied hc
      exact ⟨hsegments, by simp [hinits]⟩

/-! ## Eviction -/

theorem Sound.uncount (h : Sound [old] lent due b) (hf : old.fragmented = true) :
    Sound [] lent due (b.useInit old.producer (-1)) := by
  refine h.useInit (fun j _ => ?_) fun t ht => h.needed t (List.mem_cons_of_mem _ ht)
  rw [List.singleton_append, List.nil_append, List.countP_cons]
  by_cases hj : j.producer = old.producer
  · simp [InitFile.serves, hf, hj]
  · simp [InitFile.serves, Ne.symm hj, hj]

/-- A fragment that left is no longer counted as a user of its init. -/
theorem Sound.unuse (h : Sound [old] lent due b) : Sound [] lent due (b.unuse old) := by
  unfold Buffer.unuse
  cases hf : old.fragmented with
  | false =>
    -- a transport stream segment uses no init
    rw [if_neg (by simp)]
    have hserves : ∀ i : InitFile, i.serves old = false := fun i => by simp [InitFile.serves, hf]
    refine { h with
      uses := fun i hi => ?_, needed := fun t ht => h.needed t (List.mem_cons_of_mem _ ht) }
    rw [h.uses i hi, List.singleton_append, List.countP_cons_of_neg (by simp [hserves]),
      List.nil_append]
  | true =>
    rw [if_pos rfl]
    obtain ⟨i, hi⟩ := h.init?_isSome (t := old) (by simp) hf
    rw [hi]
    obtain ⟨hmem, hproducer⟩ := h.init?_eq_some.mp hi
    dsimp only
    split_ifs with hlast
    · -- it was the last user, so no retained fragment is the producer's
      refine (h.uncount hf).retireInitLocked fun t ht htf htp => ?_
      have huses := h.uses i hmem
      rw [List.singleton_append, List.countP_cons_of_pos (by simp [InitFile.serves, hf, hproducer])]
        at huses
      have hpos : 0 < b.segments.countP i.serves :=
        List.countP_pos_iff.mpr ⟨t, ht, by simp [InitFile.serves, htf, htp, hproducer]⟩
      omega
    · exact h.uncount hf

theorem Sound.drop (h : Sound [] lent due b) (hb : b.segments = old :: rest) :
    Sound [old] lent due
      { b with
        segments := rest
        byID := Function.update b.byID old.sequence none
        bytes := b.bytes - old.bytes
        files := b.files.retire old.path } := by
  have hopen : b.closed = false := by
    rw [← Bool.not_eq_true]
    intro hc
    rw [(h.emptied hc).1] at hb
    cases hb
  have hnodup := h.distinct
  have halive := h.alive
  have hchain := h.numbered
  simp only [paths, hb, List.map_cons, List.cons_append, List.nodup_cons] at hnodup halive
  rw [hb] at hchain
  refine { h with
    bytes := fun _ => ?_, index := fun id t => ?_, numbered := hchain.tail, newest := fun t ht => ?_
    small := fun t ht => h.small t (by simp [hb, ht]), uses := fun i hi => ?_
    needed := fun t ht => ?_, distinct := hnodup.2, alive := fun f hf => ?_
    files := h.files.retire (halive _ List.mem_cons_self), emptied := fun hc => ?_ }
  · rw [h.bytes hopen, hb, List.map_cons, List.sum_cons]
    dsimp only
    omega
  · dsimp only
    have hindex := h.index id t
    rw [hb, List.mem_cons] at hindex
    by_cases hid : id = old.sequence
    · subst hid
      rw [Function.update_self]
      refine iff_of_false (by simp) ?_
      rintro ⟨ht, hseq⟩
      -- two retained segments never have one number
      have hold := (h.index old.sequence old).mpr ⟨by simp [hb], rfl⟩
      have htold := (h.index old.sequence t).mpr ⟨by simp [hb, ht], hseq⟩
      rw [hold] at htold
      obtain rfl := Option.some.inj htold
      exact hnodup.1 (List.mem_append_left _ (List.mem_map_of_mem ht))
    · rw [Function.update_of_ne hid, hindex]
      constructor
      · rintro ⟨rfl | ht, hseq⟩
        · exact absurd hseq.symm hid
        · exact ⟨ht, hseq⟩
      · exact fun ⟨ht, hseq⟩ => ⟨Or.inr ht, hseq⟩
  · refine h.newest t ?_
    dsimp only at ht
    rw [hb, List.getLast?_cons, ht]
    rfl
  · have := h.uses i hi
    rwa [hb] at this
  · refine h.needed t ?_
    rwa [hb]
  · rw [← Bool.not_eq_true, Shelf.expired_retire]
    rintro (rfl | hexp)
    · exact hnodup.1 hf
    · rw [halive f (List.mem_cons_of_mem _ hf)] at hexp
      cases hexp
  · rw [show _ = b.closed from rfl, hopen] at hc
    cases hc

theorem Sound.evictOne (h : Sound [] lent due b) (hb : b.segments = old :: rest) :
    Sound [] lent due (b.evictOne old rest) :=
  (h.drop hb).unuse

/-- What eviction leaves alone, and what it may retire: files of the window. -/
structure Trims (b b' : Buffer) : Prop where
  options : b'.options = b.options
  closed : b'.closed = b.closed
  readers : b'.readers = b.readers
  directoryRemovals : b'.directoryRemovals = b.directoryRemovals
  next : b'.next = b.next
  discontinuities : b'.discontinuities = b.discontinuities
  segments : b'.segments <:+ b.segments
  paths : ∀ f ∈ b'.paths, f ∈ b.paths
  expired : ∀ f, b'.files.expired f = true → b.files.expired f = true ∨ f ∈ b.paths
  left : ∀ f ∈ b.paths, f ∈ b'.paths ∨ b'.files.expired f = true
  kept : ∀ f, b.files.expired f = true → b'.files.expired f = true

theorem Trims.refl (b : Buffer) : Trims b b :=
  ⟨rfl, rfl, rfl, rfl, rfl, rfl, List.suffix_refl _, fun _ => id, fun _ => Or.inl, fun _ => Or.inl,
    fun _ => id⟩

theorem Trims.trans {b₁ b₂ b₃ : Buffer} (h : Trims b₁ b₂) (h' : Trims b₂ b₃) : Trims b₁ b₃ :=
  ⟨h'.options.trans h.options, h'.closed.trans h.closed, h'.readers.trans h.readers,
    h'.directoryRemovals.trans h.directoryRemovals, h'.next.trans h.next,
    h'.discontinuities.trans h.discontinuities, h'.segments.trans h.segments,
    fun f hf => h.paths f (h'.paths f hf),
    fun f hf => (h'.expired f hf).elim (h.expired f) fun hf => Or.inr (h.paths f hf),
    fun f hf => (h.left f hf).elim (h'.left f) fun hf => Or.inr (h'.kept f hf),
    fun f hf => h'.kept f (h.kept f hf)⟩

theorem trims_useInit : Trims b (b.useInit p n) :=
  ⟨rfl, rfl, rfl, rfl, rfl, rfl, List.suffix_refl _, fun f hf => by rwa [paths_useInit] at hf,
    fun _ => Or.inl, fun f hf => Or.inl (by rwa [paths_useInit]), fun _ => id⟩

theorem Sound.trims_retireInitLocked (h : Sound gone lent due b) :
    Trims b (b.retireInitLocked p) := by
  unfold Buffer.retireInitLocked
  split
  next => exact Trims.refl b
  next i hi =>
    obtain ⟨hmem, rfl⟩ := h.init?_eq_some.mp hi
    refine ⟨rfl, rfl, rfl, rfl, rfl, rfl, List.suffix_refl _, fun f hf => ?_, fun f hf => ?_,
      fun f hf => ?_, fun f hf => Shelf.expired_retire.mpr (Or.inr hf)⟩
    · exact (List.Sublist.append_left (List.filter_sublist.map _) _).subset hf
    · rcases Shelf.expired_retire.mp hf with rfl | hf
      · exact Or.inr (List.mem_append_right _ (List.mem_map_of_mem hmem))
      · exact Or.inl hf
    · rcases List.mem_append.mp hf with hf | hf
      · exact Or.inl (List.mem_append_left _ hf)
      · obtain ⟨j, hj, rfl⟩ := List.mem_map.mp hf
        by_cases hp : j.producer = i.producer
        · rw [List.inj_on_of_nodup_map h.producers hj hmem hp]
          exact Or.inr (Shelf.expired_retire.mpr (Or.inl rfl))
        · refine Or.inl (List.mem_append_right _ (List.mem_map_of_mem ?_))
          exact List.mem_filter.mpr ⟨hj, by simpa using hp⟩

theorem trims_drop (hb : b.segments = old :: rest) :
    Trims b
      { b with
        segments := rest
        byID := Function.update b.byID old.sequence none
        bytes := b.bytes - old.bytes
        files := b.files.retire old.path } := by
  refine ⟨rfl, rfl, rfl, rfl, rfl, rfl, hb ▸ List.suffix_cons old rest, fun f hf => ?_,
    fun f hf => ?_, fun f hf => ?_, fun f hf => Shelf.expired_retire.mpr (Or.inr hf)⟩
  · rw [paths, hb, List.map_cons]
    exact List.mem_cons_of_mem _ hf
  · rcases Shelf.expired_retire.mp hf with rfl | hf
    · right
      simp [paths, hb]
    · exact Or.inl hf
  · rw [paths, hb, List.map_cons, List.cons_append, List.mem_cons] at hf
    rcases hf with rfl | hf
    · exact Or.inr (Shelf.expired_retire.mpr (Or.inl rfl))
    · exact Or.inl hf

theorem Sound.trims_unuse (h : Sound [old] lent due b) : Trims b (b.unuse old) := by
  unfold Buffer.unuse
  split_ifs with hf
  · split
    next => exact Trims.refl b
    next =>
      split_ifs
      · apply trims_useInit.trans
        exact (h.uncount hf).trims_retireInitLocked
      · exact trims_useInit
  · exact Trims.refl b

theorem Sound.trims_evictOne (h : Sound [] lent due b) (hb : b.segments = old :: rest) :
    Trims b (b.evictOne old rest) := by
  apply (trims_drop hb).trans
  exact (h.drop hb).trims_unuse

theorem segments_evictOne : (b.evictOne old rest).segments = rest := by
  unfold evictOne unuse retireInitLocked useInit
  split
  · split
    · rfl
    · split_ifs
      · split <;> rfl
      · rfl
  · rfl

/-- **Eviction** keeps the window sound, leaves its newest segment, and leaves it within its cap. -/
theorem Sound.evict (h : Sound [] lent due b) (threshold : ℤ) {l : List Segment}
    (hb : b.segments = l) (hne : l ≠ []) :
    Sound [] lent due (Buffer.evict threshold l b) ∧ Trims b (Buffer.evict threshold l b) ∧
      (Buffer.evict threshold l b).segments ≠ [] ∧
      (Buffer.evict threshold l b).bytes ≤ b.options.maxBytes := by
  induction l generalizing b with
  | nil => exact absurd rfl hne
  | cons old rest ih =>
    cases rest with
    | nil =>
      -- one segment stays, and it fits
      have hopen : b.closed = false := by
        rw [← Bool.not_eq_true]
        intro hc
        rw [(h.emptied hc).1] at hb
        cases hb
      refine ⟨h, Trims.refl b, by simp [Buffer.evict, hb], ?_⟩
      have hbytes := h.bytes hopen
      have hsmall := h.small old (by simp [hb])
      have hcap := b.options.maxSegmentBytes_le
      rw [hb] at hbytes
      simp only [List.map_cons, List.map_nil, List.sum_cons, List.sum_nil] at hbytes
      show b.bytes ≤ b.options.maxBytes
      omega
    | cons new rest =>
      unfold Buffer.evict
      split_ifs with hover
      · have htrims := h.trims_evictOne hb
        obtain ⟨hsound, htrims', hkept, hcap⟩ :=
          ih (h.evictOne hb) segments_evictOne (List.cons_ne_nil _ _)
        exact ⟨hsound, htrims.trans htrims', hkept, htrims.options ▸ hcap⟩
      · push Not at hover
        exact ⟨h, Trims.refl b, by simp [hb], hover.1⟩

/-! ## Order -/

/-- A segment is numbered before another, and all its tags are counted before it. -/
def Before (s t : Segment) : Prop :=
  s.sequence < t.sequence ∧ s.discontinuitiesBefore + s.tags ≤ t.discontinuitiesBefore

theorem tags_nonneg (s : Segment) : 0 ≤ s.tags := by
  unfold Segment.tags
  split_ifs <;> omega

instance : Trans Before Before Before where
  trans {_ t _} h h' := by
    have := tags_nonneg t
    unfold Before at *
    omega

theorem Follows.before (h : Follows s t) : Before s t := by
  unfold Follows at h
  unfold Before
  omega

theorem Sound.pairwise (h : Sound gone lent due b) : b.segments.Pairwise Before :=
  (h.numbered.imp fun _ _ => Follows.before).pairwise

/-- A retained segment's number comes before the next one, and its tags are counted. -/
theorem Sound.lt_next (h : Sound gone lent due b) (ht : t ∈ b.segments) :
    t.sequence < b.next ∧ t.discontinuitiesBefore + t.tags ≤ b.discontinuities := by
  obtain ⟨l, last, hl⟩ := (List.eq_nil_or_concat' _).resolve_left (List.ne_nil_of_mem ht)
  have hlast := h.newest last (by simp [hl])
  have hpairwise := h.pairwise
  rw [hl] at ht hpairwise
  rcases List.mem_append.mp ht with ht | ht
  · have hbefore := (List.pairwise_append.mp hpairwise).2.2 t ht last (List.mem_singleton_self _)
    have := tags_nonneg last
    unfold Before at hbefore
    omega
  · rw [List.mem_singleton.mp ht]
    omega

/-! ## A new segment -/

theorem paths_push : (b.push t).paths.Perm (t.path :: b.paths) := by
  simp only [paths, Buffer.push, List.map_append, List.map_cons, List.map_nil]
  rw [List.append_assoc]
  exact List.perm_middle

theorem Sound.push (h : Sound [t] lent due b) (hopen : b.closed = false)
    (hsequence : t.sequence = b.next) (hbefore : t.discontinuitiesBefore = b.discontinuities)
    (hsmall : t.bytes ≤ maxSegmentBytes) (hpath : t.path ∉ b.paths)
    (halive : b.files.expired t.path = false) : Sound [] lent due (b.push t) := by
  have hmem : ∀ u, u ∈ (b.push t).segments ↔ u ∈ b.segments ∨ u = t := fun u => by
    simp [Buffer.push]
  refine { h with
    bytes := fun _ => ?_, index := fun id u => ?_, numbered := ?_, newest := fun u hu => ?_
    small := fun u hu => ?_, uses := fun i hi => ?_, needed := fun u hu => ?_
    distinct := paths_push.nodup_iff.mpr (List.nodup_cons.mpr ⟨hpath, h.distinct⟩)
    alive := fun f hf => ?_, emptied := fun hc => ?_ }
  · simp [Buffer.push, h.bytes hopen]
  · rw [hmem]
    simp only [Buffer.push]
    by_cases hid : id = t.sequence
    · subst hid
      rw [Function.update_self, Option.some_inj]
      constructor
      · rintro rfl
        exact ⟨Or.inr rfl, rfl⟩
      · rintro ⟨hu | rfl, hseq⟩
        · have := (h.lt_next hu).1
          omega
        · rfl
    · rw [Function.update_of_ne hid, h.index]
      constructor
      · exact fun ⟨hu, hseq⟩ => ⟨Or.inl hu, hseq⟩
      · rintro ⟨hu | rfl, hseq⟩
        · exact ⟨hu, hseq⟩
        · exact absurd hseq.symm hid
  · refine h.numbered.append (List.isChain_singleton _) ?_
    intro last hlast u hu
    obtain rfl : t = u := by simpa using hu
    obtain ⟨hnext, hcount⟩ := h.newest last hlast
    exact ⟨hsequence.trans hnext, hbefore.trans hcount⟩
  · obtain rfl : t = u := by simpa [Buffer.push] using hu
    simp only [Buffer.push, Segment.tags]
    split_ifs <;> omega
  · rcases (hmem u).mp hu with hu | rfl
    · exact h.small u hu
    · exact hsmall
  · rw [h.uses i hi]
    simp only [Buffer.push, List.nil_append, List.countP_append, List.singleton_append,
      List.countP_cons, List.countP_nil]
    omega
  · refine h.needed u ?_
    rcases (hmem u).mp hu with hu | rfl
    · exact List.mem_append_right _ hu
    · simp
  · rcases List.mem_cons.mp (paths_push.mem_iff.mp hf) with rfl | hf
    · exact halive
    · exact h.alive f hf
  · rw [show (b.push t).closed = b.closed from rfl, hopen] at hc
    cases hc

theorem exists_init (hinit : b.initialized s = true) (hf : s.fragmented = true) :
    ∃ i ∈ b.inits, i.producer = s.producer := by
  rw [initialized, hf, Bool.not_true, Bool.false_or, Option.any_eq_true] at hinit
  obtain ⟨i, hi, -⟩ := hinit
  have hp := List.find?_some hi
  exact ⟨i, List.mem_of_find?_eq_some hi, of_decide_eq_true hp⟩

theorem trims_counted : Trims b (b.counted s) := by
  unfold counted
  split_ifs
  · exact trims_useInit
  · exact Trims.refl b

theorem paths_counted : (b.counted s).paths = b.paths := by
  unfold counted
  split_ifs
  · exact paths_useInit
  · rfl

theorem files_counted : (b.counted s).files = b.files := by
  unfold counted
  split_ifs <;> rfl

theorem segments_counted : (b.counted s).segments = b.segments := by
  unfold counted
  split_ifs <;> rfl

theorem Sound.counted (h : Sound [] lent due b) (hinit : b.initialized s = true)
    (hfragmented : t.fragmented = s.fragmented) (hproducer : t.producer = s.producer) :
    Sound [t] lent due (b.counted s) := by
  unfold Buffer.counted
  cases hf : s.fragmented with
  | false =>
    have hserves : ∀ i : InitFile, i.serves t = false := fun i => by
      simp [InitFile.serves, hfragmented, hf]
    rw [if_neg (by simp)]
    refine { h with uses := fun i hi => ?_, needed := fun u hu huf => ?_ }
    · rw [h.uses i hi, List.singleton_append, List.countP_cons_of_neg (by simp [hserves]),
        List.nil_append]
    · rcases List.mem_cons.mp hu with rfl | hu
      · rw [hfragmented, hf] at huf
        cases huf
      · exact h.needed u hu huf
  | true =>
    rw [if_pos rfl]
    refine h.useInit (fun i _ => ?_) fun u hu huf => ?_
    · rw [List.nil_append, List.singleton_append, List.countP_cons]
      by_cases hp : i.producer = s.producer
      · simp [InitFile.serves, hfragmented, hproducer, hf, hp]
      · simp [InitFile.serves, hproducer, hp, Ne.symm hp]
    · rcases List.mem_cons.mp hu with rfl | hu
      · rw [hproducer]
        exact exists_init hinit hf
      · exact h.needed u hu huf

theorem append_eq_ok : b.append s = .ok b' ↔
    b.closed = false ∧ b.overlaps s = false ∧ b.initialized s = true ∧
      evict ((b.numbered s).endUS - microseconds b.options.retention)
        ((b.counted s).push (b.numbered s)).segments ((b.counted s).push (b.numbered s)) = b' := by
  unfold append
  cases b.closed
  · cases b.overlaps s
    · cases b.initialized s <;> simp
    · simp
  · simp

/-- **A new segment** keeps the window sound and within its cap. -/
theorem Sound.append (h : Sound [] lent due b) (hok : b.append s = .ok b')
    (hsmall : s.bytes ≤ maxSegmentBytes) (hpath : s.path ∉ b.paths)
    (halive : b.files.expired s.path = false) :
    Sound [] lent due b' ∧ b'.bytes ≤ b'.options.maxBytes ∧ b'.segments ≠ [] ∧
      Trims ((b.counted s).push (b.numbered s)) b' := by
  obtain ⟨hclosed, -, hinit, rfl⟩ := append_eq_ok.mp hok
  have hcounted := h.counted (t := b.numbered s) hinit rfl rfl
  have hkeeps := trims_counted (b := b) (s := s)
  have hpush := hcounted.push (hkeeps.closed.trans hclosed) hkeeps.next.symm
    hkeeps.discontinuities.symm hsmall (by rwa [paths_counted]) (by rwa [files_counted])
  have hne : ((b.counted s).push (b.numbered s)).segments ≠ [] := by simp [Buffer.push]
  obtain ⟨hsound, htrims, hkept, hcap⟩ :=
    hpush.evict ((b.numbered s).endUS - microseconds b.options.retention) rfl hne
  exact ⟨hsound, htrims.options ▸ hcap, hkept, htrims⟩

theorem paths_numbered : ((b.counted s).push (b.numbered s)).paths.Perm (s.path :: b.paths) := by
  apply paths_push.trans
  rw [paths_counted]
  exact List.Perm.refl _

theorem files_numbered : ((b.counted s).push (b.numbered s)).files = b.files := files_counted

/-! ## A new init -/

theorem storeInit_eq_ok : b.storeInit f n p = .ok b' ↔
    b.closed = false ∧ b.init? p = none ∧ { b with inits := ⟨f, n, p, 0⟩ :: b.inits } = b' := by
  unfold storeInit
  cases b.closed
  · cases b.init? p <;> simp
  · simp

theorem Sound.storeInit (h : Sound [] lent due b) (hok : b.storeInit f n p = .ok b')
    (hpath : f ∉ b.paths) (halive : b.files.expired f = false) : Sound [] lent due b' := by
  obtain ⟨hopen, hnone, rfl⟩ := storeInit_eq_ok.mp hok
  have hnew : ∀ i ∈ b.inits, i.producer ≠ p := by
    intro i hi hp
    have := h.init?_eq_some.mpr ⟨hi, hp⟩
    rw [hnone] at this
    cases this
  have hpaths : (b.segments.map Segment.path ++ f :: b.inits.map InitFile.path).Perm
      (f :: b.paths) := List.perm_middle
  refine { h with
    uses := fun i hi => ?_, needed := fun t ht hf => ?_
    producers := List.nodup_cons.mpr ⟨?_, h.producers⟩
    distinct := hpaths.nodup_iff.mpr (List.nodup_cons.mpr ⟨hpath, h.distinct⟩)
    alive := fun g hg => ?_, emptied := fun hc => ?_ }
  · rcases List.mem_cons.mp hi with rfl | hi
    · -- a retained fragment of this producer would have its init already
      symm
      rw [Int.natCast_eq_zero, List.countP_eq_zero]
      intro t ht hserves
      simp only [InitFile.serves, Bool.and_eq_true, decide_eq_true_eq] at hserves
      obtain ⟨j, hj, hjp⟩ := h.needed t ht hserves.1
      exact hnew j hj (hjp.trans hserves.2)
    · exact h.uses i hi
  · obtain ⟨i, hi, hp⟩ := h.needed t ht hf
    exact ⟨i, List.mem_cons_of_mem _ hi, hp⟩
  · rintro hp
    obtain ⟨i, hi, hip⟩ := List.mem_map.mp hp
    exact hnew i hi hip
  · rcases List.mem_cons.mp (hpaths.mem_iff.mp hg) with rfl | hg
    · exact halive
    · exact h.alive g hg
  · rw [show _ = b.closed from rfl, hopen] at hc
    cases hc

/-! ## The end -/

theorem foldl_retireInitLocked {l : List InitFile} (hb : b.inits = l)
    (hl : (l.map InitFile.producer).Nodup) :
    l.foldl (fun (b : Buffer) i => b.retireInitLocked i.producer) b =
      { b with
        inits := [], files := (l.map InitFile.path).foldl (fun s f => s.retire f) b.files } := by
  induction l generalizing b with
  | nil =>
    cases b
    simp_all
  | cons i l ih =>
    rw [List.map_cons, List.nodup_cons] at hl
    have hfirst : b.retireInitLocked i.producer =
        { b with inits := l, files := b.files.retire i.path } := by
      have hfind : b.init? i.producer = some i := by simp [init?, hb]
      have hrest : (i :: l).filter (fun j => j.producer ≠ i.producer) = l := by
        rw [List.filter_cons_of_neg (by simp), List.filter_eq_self]
        intro j hj
        simpa using fun hp => hl.1 (List.mem_map.mpr ⟨j, hj, hp⟩)
      rw [retireInitLocked, hfind]
      dsimp only
      rw [hb, hrest]
    rw [List.foldl_cons, hfirst, ih rfl hl.2, List.map_cons, List.foldl_cons]

theorem Sound.close_eq (h : Sound [] lent due b) (hopen : b.closed = false) :
    b.close =
      (if b.readers = 0 then [.directory] else [],
        { b with
          closed := true, segments := [], byID := fun _ => none, inits := []
          files := b.paths.foldl (fun s f => s.retire f) b.files }) := by
  unfold Buffer.close
  rw [if_neg (by simp [hopen])]
  dsimp only
  rw [foldl_retireInitLocked ?_ h.producers]
  · simp only [paths, List.foldl_append, List.foldl_map]
  · rfl

/-- A closed buffer retains nothing, and everything it retained has expired. -/
theorem Sound.close (h : Sound [] lent due b) : Sound [] lent due b.close.2 := by
  cases hc : b.closed with
  | true =>
    rw [Buffer.close, if_pos hc]
    exact h
  | false =>
    rw [h.close_eq hc]
    exact
      { bytes := fun hc => nomatch hc
        index := by simp
        numbered := List.isChain_nil
        newest := by simp
        small := by simp
        uses := by simp
        needed := by simp
        producers := List.nodup_nil
        distinct := List.nodup_nil
        alive := by simp [paths]
        files := h.files.foldl_retire h.distinct h.alive
        emptied := fun _ => ⟨rfl, rfl⟩ }

theorem Sound.expired_close (h : Sound [] lent due b) (hopen : b.closed = false) :
    ∀ f, b.close.2.files.expired f = true ↔ f ∈ b.paths ∨ b.files.expired f = true := by
  intro f
  rw [h.close_eq hopen]
  exact Shelf.expired_foldl_retire

end Buffer

end Portico.LiveBuffer
