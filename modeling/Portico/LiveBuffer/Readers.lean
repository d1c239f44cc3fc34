import Portico.LiveBuffer.Window

/-!
# Readers and removals

A file of the window can be opened as long as it is listed, and goes after its last reader gave it
back. Every call keeps the invariant that says so, whatever the order of the calls.

## Main results

* `System.Inv.next`: every call keeps the invariant
* `System.Reachable.inv`, `System.Inv.grows`: so does every run
-/

namespace Portico.LiveBuffer

open Machine

namespace System

/-- How often a file is lent. -/
def lentTo (s : System) (f : File) : ℕ := (s.lent.map Reader.path).count f

/-- How often the removal of a file is due. -/
def due (s : System) (f : File) : ℕ := s.todo.count (.file f)

/-- **The invariant**: the window is sound and within its cap, its files were made before, the
readers are those files were lent to, and the directory is removed, or about to be, when the buffer
is closed and nobody reads. -/
structure Inv (s : System) : Prop where
  window : s.buffer.Sound [] s.lentTo s.due
  capped : s.buffer.bytes ≤ s.buffer.options.maxBytes
  made : ∀ f ∈ s.buffer.paths, f < s.created
  unused : ∀ f, s.created ≤ f → s.buffer.files.expired f = false
  readers : s.buffer.readers = s.lent.length
  directory : s.buffer.directoryRemovals + s.todo.count .directory =
    if s.buffer.closed = true ∧ s.lent = [] then 1 else 0

/-- An earlier and a later state: the window grew at its end and shrank at its start, and what left
it expired. -/
structure Grows (s s' : System) : Prop where
  options : s'.buffer.options = s.buffer.options
  created : s.created ≤ s'.created
  next : s.buffer.next ≤ s'.buffer.next
  discontinuities : s.buffer.discontinuities ≤ s'.buffer.discontinuities
  segments : ∃ new, s'.buffer.segments <:+ s.buffer.segments ++ new ∧
    ∀ t ∈ new, s.created ≤ t.path ∧ s.buffer.next ≤ t.sequence ∧
      s.buffer.discontinuities ≤ t.discontinuitiesBefore
  left : ∀ f ∈ s.buffer.paths, f ∈ s'.buffer.paths ∨ s'.buffer.files.expired f = true
  kept : ∀ f, s.buffer.files.expired f = true → s'.buffer.files.expired f = true

variable {s s' s'' : System} {b : Buffer} {e : Event} {r : Reader} {a : Removal} {uri : Uri}
  {f x : File}

theorem Grows.same (hcreated : s.created ≤ s'.created)
    (hoptions : s'.buffer.options = s.buffer.options) (hnext : s'.buffer.next = s.buffer.next)
    (hdiscontinuities : s'.buffer.discontinuities = s.buffer.discontinuities)
    (hsegments : s'.buffer.segments = s.buffer.segments) (hinits : s'.buffer.inits = s.buffer.inits)
    (hexpired : s'.buffer.files.expired = s.buffer.files.expired) : Grows s s' where
  options := hoptions
  created := hcreated
  next := hnext.ge
  discontinuities := hdiscontinuities.ge
  segments := ⟨[], by rw [hsegments, List.append_nil], by simp⟩
  left f hf := Or.inl (by rwa [Buffer.paths, hsegments, hinits])
  kept f hf := by rwa [hexpired]

theorem Grows.refl (s : System) : Grows s s := Grows.same le_rfl rfl rfl rfl rfl rfl rfl

theorem Grows.trans (h : Grows s s') (h' : Grows s' s'') : Grows s s'' where
  options := h'.options.trans h.options
  created := h.created.trans h'.created
  next := h.next.trans h'.next
  discontinuities := h.discontinuities.trans h'.discontinuities
  segments := by
    obtain ⟨new, hsuffix, hnew⟩ := h.segments
    obtain ⟨new', hsuffix', hnew'⟩ := h'.segments
    refine ⟨new ++ new', ?_, fun t ht => ?_⟩
    · apply hsuffix'.trans
      rw [← List.append_assoc]
      obtain ⟨l, hl⟩ := hsuffix
      exact ⟨l, by rw [← hl, List.append_assoc]⟩
    · rcases List.mem_append.mp ht with ht | ht
      · exact hnew t ht
      · obtain ⟨hp, hs, hd⟩ := hnew' t ht
        exact ⟨h.created.trans hp, h.next.trans hs, h.discontinuities.trans hd⟩
  left f hf := (h.left f hf).elim (h'.left f) fun hf => Or.inr (h'.kept f hf)
  kept f hf := h'.kept f (h.kept f hf)

/-! ## The calls -/

theorem inv_init (o : Options) : Inv (init o) where
  window :=
    { bytes := fun _ => rfl
      index := by simp [init, Buffer.new]
      numbered := List.isChain_nil
      newest := by simp [init, Buffer.new]
      small := by simp [init, Buffer.new]
      uses := by simp [init, Buffer.new]
      needed := by simp [init, Buffer.new]
      producers := List.nodup_nil
      distinct := List.nodup_nil
      alive := by simp [init, Buffer.new, Buffer.paths]
      files := Shelf.sound_fresh
      emptied := fun _ => ⟨rfl, rfl⟩ }
  capped := by
    have := o.maxSegmentBytes_le
    simp only [init, Buffer.new, maxSegmentBytes] at *
    omega
  made := by simp [init, Buffer.new, Buffer.paths]
  unused _ _ := rfl
  readers := rfl
  directory := rfl

theorem Inv.make (h : Inv s) : Inv { s with created := s.created + 1 } :=
  { h with
    made := fun f hf => Nat.lt_succ_of_lt (h.made f hf)
    unused := fun f hf => h.unused f (Nat.le_of_succ_le hf) }

theorem Inv.notMem_paths (h : Inv s) : s.created ∉ s.buffer.paths := fun hmem =>
  (h.made _ hmem).false

theorem Inv.append (h : Inv s) {t : Segment} {n : ℕ} (hn : s.created ≤ n) (hmade : t.path < n)
    (hout : t.path ∉ s.buffer.paths) (halive : s.buffer.files.expired t.path = false)
    (hsmall : t.bytes ≤ maxSegmentBytes) (hok : s.buffer.append t = .ok b) :
    Inv { s with buffer := b, created := n } := by
  obtain ⟨hsound, hcap, -, htrims⟩ := h.window.append hok hsmall hout halive
  have hcounted := Buffer.trims_counted (b := s.buffer) (s := t)
  have hfiles : ∀ f ∈ ((s.buffer.counted t).push (s.buffer.numbered t)).paths, f < n := by
    intro f hf
    rcases List.mem_cons.mp (Buffer.paths_numbered.mem_iff.mp hf) with rfl | hf
    · exact hmade
    · exact (h.made f hf).trans_le hn
  exact
    { window := hsound
      capped := hcap
      made := fun f hf => hfiles f (htrims.paths f hf)
      unused := fun f hf => by
        rw [← Bool.not_eq_true]
        intro hexp
        rcases htrims.expired f hexp with hexp | hmem
        · rw [Buffer.files_numbered, h.unused f (hn.trans hf)] at hexp
          cases hexp
        · exact absurd (hfiles f hmem) (not_lt.mpr hf)
      readers := (htrims.readers.trans hcounted.readers).trans h.readers
      directory := by
        show b.directoryRemovals + _ = _
        rw [htrims.directoryRemovals, htrims.closed]
        have := h.directory
        rwa [← hcounted.closed, ← hcounted.directoryRemovals] at this }

theorem Inv.grows_append (h : Inv s) {t : Segment} (ht : t.path = s.created)
    (hsmall : t.bytes ≤ maxSegmentBytes) (hok : s.buffer.append t = .ok b) :
    Grows s { s with buffer := b, created := s.created + 1 } := by
  obtain ⟨-, -, -, htrims⟩ := h.window.append hok hsmall (ht ▸ h.notMem_paths)
    (ht ▸ h.unused _ le_rfl)
  have hcounted := Buffer.trims_counted (b := s.buffer) (s := t)
  refine
    { options := htrims.options.trans hcounted.options
      created := Nat.le_succ _, next := ?_, discontinuities := ?_
      segments := ⟨[s.buffer.numbered t], ?_, ?_⟩, left := fun f hf => ?_, kept := fun f hf => ?_ }
  · have hnext : b.next = (s.buffer.counted t).next + 1 := htrims.next
    have := hcounted.next
    show s.buffer.next ≤ b.next
    omega
  · have hcount := htrims.discontinuities
    have := hcounted.discontinuities
    simp only [Buffer.push] at hcount ⊢
    split_ifs at hcount <;> omega
  · have := htrims.segments
    rwa [Buffer.push, Buffer.segments_counted] at this
  · rw [List.forall_mem_singleton]
    exact ⟨ht.ge, le_rfl, le_rfl⟩
  · exact htrims.left f (Buffer.paths_numbered.mem_iff.mpr (List.mem_cons_of_mem _ hf))
  · exact htrims.kept f (by rwa [Buffer.files_numbered])

theorem Inv.storeInit (h : Inv s) {bytes producer : ℤ}
    (hok : s.buffer.storeInit s.created bytes producer = .ok b) :
    Inv { s with buffer := b, created := s.created + 1 } ∧
      Grows s { s with buffer := b, created := s.created + 1 } := by
  have hsound := h.window.storeInit hok h.notMem_paths (h.unused _ le_rfl)
  obtain ⟨hopen, -, rfl⟩ := Buffer.storeInit_eq_ok.mp hok
  have hmade : ∀ f, f ∈ s.buffer.segments.map Segment.path ++
      s.created :: s.buffer.inits.map InitFile.path → f = s.created ∨ f ∈ s.buffer.paths :=
    fun f hf => List.mem_cons.mp (List.perm_middle.mem_iff.mp hf)
  constructor
  · refine { h.make with window := hsound, made := fun f hf => ?_ }
    rcases hmade f hf with rfl | hf
    · exact Nat.lt_succ_self _
    · exact Nat.lt_succ_of_lt (h.made f hf)
  · refine
      { options := rfl, created := Nat.le_succ _, next := le_rfl, discontinuities := le_rfl
        segments := ⟨[], by rw [List.append_nil], by simp⟩
        left := fun f hf => Or.inl ?_, kept := fun _ => id }
    exact List.perm_middle.mem_iff.mpr (List.mem_cons_of_mem _ hf)

/-! ### Readers -/

theorem openFile_eq_ok (hok : s.buffer.openFile uri = .ok (r, b)) :
    s.buffer.closed = false ∧ s.buffer.files.expired r.path = false ∧ b = s.buffer.lend r.path := by
  cases uri with
  | segment id m4s =>
    unfold Buffer.openFile at hok
    dsimp only at hok
    split_ifs at hok with hc
    split at hok
    · cases hok
    · split_ifs at hok with hexp hdisk
      all_goals
        cases hok
        push Not at hexp
        exact ⟨by simpa using hc, by simpa using hexp.1, rfl⟩
  | init producer =>
    unfold Buffer.openFile Buffer.openInit at hok
    dsimp only at hok
    split_ifs at hok with hc
    split at hok
    · cases hok
    · split_ifs at hok with hexp hdisk
      cases hok
      exact ⟨by simpa using hc, by simpa using hexp, rfl⟩

theorem Inv.openFile (h : Inv s) (hok : s.buffer.openFile uri = .ok (r, b)) :
    Inv { s with buffer := b, lent := r :: s.lent } ∧
      Grows s { s with buffer := b, lent := r :: s.lent } := by
  obtain ⟨hopen, halive, rfl⟩ := openFile_eq_ok hok
  refine ⟨?_, Grows.same le_rfl rfl rfl rfl rfl rfl rfl⟩
  refine { h with
    window := { h.window with files := h.window.files.take halive fun x => ?_ }
    readers := ?_, directory := ?_ }
  · simp only [lentTo, List.map_cons, List.count_cons, beq_iff_eq]
    by_cases hx : x = r.path
    · rw [if_pos hx.symm, if_pos hx]
    · rw [if_neg (Ne.symm hx), if_neg hx, Nat.add_zero]
  · show s.buffer.readers + 1 = _
    rw [h.readers, List.length_cons]
    rfl
  · have := h.directory
    rw [if_neg (by simp [hopen])] at this
    rw [if_neg (by simp)]
    exact this

theorem count_file_release : (b.release f).1.count (.file x) =
    if x = f ∧ (b.files.give f).done f = true then 1 else 0 := by
  have hdirectory : (if b.closed = true ∧ b.readers - 1 = 0 then [Removal.directory] else []).count
      (.file x) = 0 := by
    split_ifs <;> simp
  simp only [Buffer.release, List.count_append]
  rw [hdirectory, Nat.add_zero]
  cases (b.files.give f).done f with
  | false => simp
  | true =>
    rw [if_pos rfl, List.count_singleton]
    simp only [beq_iff_eq, Removal.file.injEq, and_true]
    exact if_congr eq_comm rfl rfl

theorem count_directory_release : (b.release f).1.count .directory =
    if b.closed = true ∧ b.readers = 1 then 1 else 0 := by
  simp only [Buffer.release, List.count_append]
  have hone : b.readers - 1 = 0 ↔ b.readers = 1 := by omega
  by_cases hdone : (b.files.give f).done f = true <;> split_ifs <;> simp_all

theorem Inv.release (h : Inv s) (hr : r ∈ s.lent) :
    Inv { s with
      buffer := (s.buffer.release r.path).2, lent := s.lent.erase r
      todo := (s.buffer.release r.path).1 ++ s.todo } := by
  have hperm := List.perm_cons_erase hr
  have hlength := hperm.length_eq
  rw [List.length_cons] at hlength
  have hcount : ∀ x, s.lentTo x = ((s.lent.erase r).map Reader.path).count x +
      if x = r.path then 1 else 0 := by
    intro x
    rw [lentTo, (hperm.map Reader.path).count_eq, List.map_cons, List.count_cons]
    simp only [beq_iff_eq]
    rw [if_congr (eq_comm (a := x)) rfl rfl]
  have hreaders := h.readers
  refine { h with
    window := { h.window with files := h.window.files.give ?_ (fun x => ?_) fun x => ?_ }
    readers := ?_, directory := ?_ }
  · have := hcount r.path
    rw [if_pos rfl] at this
    exact this ▸ Nat.succ_pos _
  · have := hcount x
    show ((s.lent.erase r).map Reader.path).count x = _
    split_ifs at this ⊢ <;> omega
  · simp only [due, List.count_append, count_file_release]
    exact Nat.add_comm _ _
  · show s.buffer.readers - 1 = ((s.lent.erase r).length : ℤ)
    omega
  · -- the directory goes with the last reader of a closed buffer
    have hdirectory := h.directory
    rw [if_neg (fun hc => List.ne_nil_of_mem hr hc.2)] at hdirectory
    have hlast : s.buffer.readers = 1 ↔ s.lent.erase r = [] := by
      rw [← List.length_eq_zero_iff]
      omega
    dsimp only
    rw [List.count_append, count_directory_release]
    simp only [hlast]
    show s.buffer.directoryRemovals + _ = if s.buffer.closed = true ∧ s.lent.erase r = [] then 1 else 0
    omega

theorem Inv.act (h : Inv s) (ha : a ∈ s.todo) :
    Inv { s with buffer := s.buffer.act a, todo := s.todo.erase a } := by
  have hpos : 0 < s.todo.count a := List.count_pos_iff.mpr ha
  cases a with
  | file f =>
    refine { h with
      window := { h.window with files := h.window.files.remove hpos fun x => ?_ }
      directory := ?_ }
    · simp only [due]
      by_cases hx : x = f
      · subst hx
        rw [if_pos rfl, List.count_erase_self]
      · rw [if_neg hx, List.count_erase_of_ne (by simpa using hx)]
    · have := h.directory
      rwa [← List.count_erase_of_ne (l := s.todo) (b := Removal.file f) (by simp)] at this
  | directory =>
    refine { h with
      window := { h.window with files := ⟨h.window.files.readers, fun x => ?_⟩ }, directory := ?_ }
    · have := h.window.files.removals x
      rwa [due, ← List.count_erase_of_ne (l := s.todo) (b := Removal.directory) (by simp)] at this
    · have := h.directory
      rw [List.count_erase_self]
      show s.buffer.directoryRemovals + 1 + _ = if s.buffer.closed = true ∧ s.lent = [] then 1 else 0
      omega

theorem Inv.close (h : Inv s) :
    Inv { s with buffer := s.buffer.close.2, todo := s.buffer.close.1 ++ s.todo } ∧
      Grows s { s with buffer := s.buffer.close.2, todo := s.buffer.close.1 ++ s.todo } := by
  cases hc : s.buffer.closed with
  | true =>
    rw [Buffer.close, if_pos hc]
    exact ⟨h, Grows.refl s⟩
  | false =>
    have hwindow := h.window.close
    have hexpired := h.window.expired_close hc
    rw [h.window.close_eq hc] at hwindow hexpired ⊢
    have hdue : ∀ f, ((if s.buffer.readers = 0 then [Removal.directory] else []) ++
        s.todo).count (.file f) = s.due f := by
      intro f
      rw [List.count_append, due]
      split_ifs <;> simp
    have hdirectory := h.directory
    rw [if_neg (by simp [hc])] at hdirectory
    constructor
    · exact
        { window := { hwindow with files := ⟨hwindow.files.readers, fun f => by
            rw [due, hdue]
            exact hwindow.files.removals f⟩ }
          capped := h.capped
          made := by simp [Buffer.paths]
          unused := fun f hf => by
            rw [← Bool.not_eq_true, hexpired]
            rintro (hmem | hexp)
            · exact absurd (h.made f hmem) (by simpa using hf)
            · rw [h.unused f hf] at hexp
              cases hexp
          readers := h.readers
          directory := by
            have hnone : s.buffer.readers = 0 ↔ s.lent = [] := by
              rw [h.readers, Int.natCast_eq_zero, List.length_eq_zero_iff]
            dsimp only
            rw [List.count_append]
            simp only [hnone, true_and]
            split_ifs <;> simp only [List.count_singleton_self, List.count_nil] <;> omega }
    · exact
        { options := rfl
          created := le_rfl
          next := le_rfl
          discontinuities := le_rfl
          segments := ⟨[], List.nil_suffix, by simp⟩
          left := fun f hf => Or.inr ((hexpired f).mpr (Or.inl hf))
          kept := fun f hf => (hexpired f).mpr (Or.inr hf) }

/-- **Every call keeps the invariant.** -/
theorem Inv.next (h : Inv s) (hs : step s e = some s') : Inv s' ∧ Grows s s' := by
  cases e with
  | append producer fragmented startUS endUS bytes discontinuity =>
    simp only [step] at hs
    split_ifs at hs with hvalid
    split at hs
    · cases hs
      exact ⟨h.make, Grows.same (Nat.le_succ _) rfl rfl rfl rfl rfl rfl⟩
    next hok =>
      cases hs
      exact ⟨h.append (Nat.le_succ _) (Nat.lt_succ_self _) h.notMem_paths (h.unused _ le_rfl)
        hvalid.2.2 hok, h.grows_append rfl hvalid.2.2 hok⟩
  | storeInit bytes producer =>
    simp only [step] at hs
    split_ifs at hs
    split at hs
    · cases hs
      exact ⟨h.make, Grows.same (Nat.le_succ _) rfl rfl rfl rfl rfl rfl⟩
    next hok =>
      cases hs
      exact h.storeInit hok
  | openFile uri =>
    simp only [step] at hs
    split at hs
    · cases hs
      exact ⟨h, Grows.refl s⟩
    next hok =>
      cases hs
      exact h.openFile hok
  | release r =>
    simp only [step] at hs
    split_ifs at hs with hr
    cases hs
    exact ⟨h.release hr, Grows.same le_rfl rfl rfl rfl rfl rfl rfl⟩
  | act a =>
    simp only [step] at hs
    split_ifs at hs with ha
    cases hs
    refine ⟨h.act ha, ?_⟩
    cases a <;> exact Grows.same le_rfl rfl rfl rfl rfl rfl rfl
  | close =>
    simp only [step] at hs
    cases hs
    exact h.close

theorem Reachable.inv (h : Reachable s) : Inv s := by
  obtain ⟨o, h⟩ := h
  exact h.invariant (inv_init o) fun _ _ _ hinv hs => (hinv.next hs).1

theorem Inv.grows (h : Inv s) (hrun : Reaches step s s') : Inv s' ∧ Grows s s' := by
  refine hrun.invariant (P := fun t => Inv t ∧ Grows s t) ⟨h, Grows.refl s⟩ ?_
  rintro t e t' ⟨ht, hgrows⟩ hs
  obtain ⟨ht', hgrows'⟩ := ht.next hs
  exact ⟨ht', hgrows.trans hgrows'⟩

end System

end Portico.LiveBuffer
