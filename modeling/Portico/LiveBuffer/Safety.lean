import Portico.LiveBuffer.Readers

/-!
# Safety of the live buffer

What holds of a live buffer in every state, whatever calls its publishers, its players and its owner
make, and in whatever order.

## Main results

* `Buffer.mem_uris`: what a playlist lists
* `System.Inv.opens`: what a playlist lists can be opened
* `System.buffer_safe`: every reachable state is safe
-/

namespace Portico.LiveBuffer

open Machine

namespace Buffer

variable {b : Buffer} {uri : Uri} {mapped now : ℤ} {position : Option ℤ} {l : List Segment}
  {p : Playlist}

theorem shown_suffix : b.shown position <:+ b.segments := by
  unfold shown
  split
  · exact List.suffix_refl _
  · exact List.drop_suffix _ _

theorem playlistFrom_eq_some (hp : b.playlistFrom position now = some p) :
    b.closed = false ∧ p.entries = entries 0 (b.shown position) ∧
      ∃ first, (b.shown position).head? = some first ∧ p.mediaSequence = first.sequence ∧
        p.discontinuitySequence = first.discontinuitiesBefore := by
  unfold playlistFrom at hp
  by_cases hc : b.closed = true
  · rw [if_pos hc] at hp
    cases hp
  · rw [if_neg hc] at hp
    obtain ⟨first, hfirst, rfl⟩ := Option.map_eq_some_iff.mp hp
    exact ⟨by simpa using hc, rfl, first, hfirst, rfl, rfl⟩

/-- A playlist lists the segments it shows and the inits of the fragments among them. -/
theorem mem_uris
    (huri : uri ∈ (entries mapped l).flatMap fun e => (e.map.map Uri.init).toList ++ [e.uri]) :
    ∃ t ∈ l, uri = .segment t.sequence t.fragmented ∨
      t.fragmented = true ∧ uri = .init t.producer := by
  induction l generalizing mapped with
  | nil => cases huri
  | cons t l ih =>
    rw [entries, List.flatMap_cons, List.mem_append] at huri
    rcases huri with huri | huri
    · refine ⟨t, List.mem_cons_self, ?_⟩
      dsimp only at huri
      split_ifs at huri with hmap
      · simp only [Option.map_some, Option.toList_some, List.cons_append, List.nil_append,
          List.mem_cons, List.not_mem_nil, or_false] at huri
        exact huri.symm.imp id fun huri => ⟨hmap.1, huri⟩
      · simp only [Option.map_none, Option.toList_none, List.nil_append,
          List.mem_singleton] at huri
        exact Or.inl huri
    · obtain ⟨u, hu, h⟩ := ih huri
      exact ⟨u, List.mem_cons_of_mem _ hu, h⟩

end Buffer

namespace System

variable {s s' : System} {uri : Uri} {t : Segment} {position : Option ℤ} {now : ℤ} {p : Playlist}
  {f : File}

theorem Inv.onDisk (h : Inv s) (hopen : s.buffer.closed = false) (hf : f ∈ s.buffer.paths) :
    s.buffer.onDisk f = true := by
  have hremovals := h.window.files.present (h.window.alive f hf)
  have hdirectory := h.directory
  rw [if_neg (by simp [hopen])] at hdirectory
  simp only [Buffer.onDisk, hremovals, decide_true, Bool.true_and, decide_eq_true_eq]
  omega

theorem Inv.opens_segment (h : Inv s) (hopen : s.buffer.closed = false)
    (ht : t ∈ s.buffer.segments) :
    ∃ r b, s.buffer.openFile (.segment t.sequence t.fragmented) = .ok (r, b) := by
  have hpath : t.path ∈ s.buffer.paths := List.mem_append_left _ (List.mem_map_of_mem ht)
  simp only [Buffer.openFile, hopen, (h.window.index _ _).mpr ⟨ht, rfl⟩, h.window.alive _ hpath,
    h.onDisk hopen hpath, ne_eq, not_true_eq_false, or_false, Bool.not_true, if_false,
    Bool.false_eq_true]
  exact ⟨_, _, rfl⟩

theorem Inv.opens_init (h : Inv s) (hopen : s.buffer.closed = false) (ht : t ∈ s.buffer.segments)
    (hf : t.fragmented = true) : ∃ r b, s.buffer.openFile (.init t.producer) = .ok (r, b) := by
  obtain ⟨i, hi⟩ := h.window.init?_isSome (t := t) ht hf
  have hpath : i.path ∈ s.buffer.paths :=
    List.mem_append_right _ (List.mem_map_of_mem (h.window.init?_eq_some.mp hi).1)
  simp only [Buffer.openFile, Buffer.openInit, hopen, hi, h.window.alive _ hpath,
    h.onDisk hopen hpath, Bool.not_true, if_false, Bool.false_eq_true]
  exact ⟨_, _, rfl⟩

theorem Inv.opens (h : Inv s) (hp : s.buffer.playlistFrom position now = some p)
    (huri : uri ∈ p.uris) : ∃ r b, s.buffer.openFile uri = .ok (r, b) := by
  obtain ⟨hopen, hentries, -⟩ := Buffer.playlistFrom_eq_some hp
  rw [Playlist.uris, hentries] at huri
  obtain ⟨t, ht, hcase⟩ := Buffer.mem_uris huri
  have hmem := Buffer.shown_suffix.subset ht
  rcases hcase with rfl | ⟨hf, rfl⟩
  · exact h.opens_segment hopen hmem
  · exact h.opens_init hopen hmem hf

/-- **Safety** of a live buffer. -/
structure Safe (s : System) : Prop where
  bytes : s.buffer.closed = false → s.buffer.bytes = (s.buffer.segments.map Segment.bytes).sum
  emptied : s.buffer.closed = true → s.buffer.segments = []
  capped : s.buffer.bytes ≤ s.buffer.options.maxBytes
  index : ∀ id t, s.buffer.byID id = some t ↔ t ∈ s.buffer.segments ∧ t.sequence = id
  contiguous : ∀ n t u, s.buffer.segments[n]? = some t → s.buffer.segments[n + 1]? = some u →
    u.sequence = t.sequence + 1
  uses : ∀ i ∈ s.buffer.inits, i.uses = s.buffer.segments.countP i.serves
  listed : ∀ position now p, s.buffer.playlistFrom position now = some p →
    ∀ uri ∈ p.uris, ∃ r b, s.buffer.openFile uri = .ok (r, b)
  left : ∀ s', Reaches step s s' → ∀ f ∈ s.buffer.paths,
    f ∈ s'.buffer.paths ∨ s'.buffer.files.expired f = true
  removed_once : ∀ f, s.buffer.files.removals f ≤ 1
  removed_after : ∀ f, s.buffer.files.removals f ≠ 0 →
    s.buffer.files.expired f = true ∧ ∀ r ∈ s.lent, r.path ≠ f
  removed : ∀ f, s.buffer.files.expired f = true → (∀ r ∈ s.lent, r.path ≠ f) →
    .file f ∉ s.todo → s.buffer.files.removals f = 1
  directory_once : s.buffer.directoryRemovals ≤ 1
  directory_after : s.buffer.directoryRemovals ≠ 0 → s.buffer.closed = true ∧ s.lent = []
  directory : s.buffer.closed = true → s.lent = [] → .directory ∉ s.todo →
    s.buffer.directoryRemovals = 1

theorem lentTo_eq_zero : s.lentTo f = 0 ↔ ∀ r ∈ s.lent, r.path ≠ f := by
  rw [lentTo, List.count_eq_zero, List.mem_map]
  push Not
  exact Iff.rfl

theorem Inv.contiguous (h : Inv s) {n : ℕ} {t u : Segment} (ht : s.buffer.segments[n]? = some t)
    (hu : s.buffer.segments[n + 1]? = some u) : Follows t u := by
  obtain ⟨hn, rfl⟩ := List.getElem?_eq_some_iff.mp ht
  obtain ⟨hn', rfl⟩ := List.getElem?_eq_some_iff.mp hu
  exact List.isChain_iff_getElem.mp h.window.numbered n hn'

/-- **A live buffer is safe** in every state: its counts agree with its window, everything it lists
can be opened, and each file, and the directory, is removed once and only after its last reader. -/
theorem buffer_safe (h : Reachable s) : Safe s := by
  have hinv := h.inv
  have hfiles := hinv.window.files
  have hdirectory := hinv.directory
  exact
    { bytes := hinv.window.bytes
      emptied := fun hc => (hinv.window.emptied hc).1
      capped := hinv.capped
      index := hinv.window.index
      contiguous := fun n t u ht hu => (hinv.contiguous ht hu).1
      uses := hinv.window.uses
      listed := fun _ _ _ hp _ huri => hinv.opens hp huri
      left := fun s' hrun => (hinv.grows hrun).2.left
      removed_once := hfiles.removals_le_one
      removed_after := fun f hf => (hfiles.of_removed hf).imp_right lentTo_eq_zero.mp
      removed := fun f hexp hlent htodo =>
        hfiles.removed hexp (lentTo_eq_zero.mpr hlent) (List.count_eq_zero.mpr htodo)
      directory_once := by split_ifs at hdirectory <;> omega
      directory_after := fun hne => by
        by_contra hc
        rw [if_neg hc] at hdirectory
        omega
      directory := fun hc hlent htodo => by
        rw [if_pos ⟨hc, hlent⟩, List.count_eq_zero.mpr htodo] at hdirectory
        omega }

/-- The smallest options. -/
def smallest : Options where
  liveDelay := 0
  originMS := 1
  maxBytes := maxSegmentBytes
  retention := 12 * 1000000000
  scheduled := false
  originMS_pos := by decide
  maxSegmentBytes_le := le_rfl
  maxBytes_le := by decide
  le_retention := le_rfl
  retention_le := by decide

theorem buffer_safe_read : ∃ s, run step (init smallest)
    [.storeInit 1 1, .append 1 true 0 1 1 false, .openFile (.init 1), .close] = some s ∧ Safe s := by
  have hrun : (run step (init smallest)
      [.storeInit 1 1, .append 1 true 0 1 1 false, .openFile (.init 1), .close]).isSome = true := by
    decide +kernel
  obtain ⟨s, hs⟩ := Option.isSome_iff_exists.mp hrun
  exact ⟨s, hs, buffer_safe ⟨smallest, _, hs⟩⟩

/-- A closed buffer keeps its last byte count, though it retains nothing. -/
theorem bytes_closed : ∃ s, Reachable s ∧
    s.buffer.bytes ≠ (s.buffer.segments.map Segment.bytes).sum := by
  have hrun : ((run step (init smallest) [.append 1 false 0 1 1 false, .close]).map fun s =>
      (s.buffer.bytes, (s.buffer.segments.map Segment.bytes).sum)) = some (1, 0) := by
    decide +kernel
  obtain ⟨s, hs, hcount⟩ := Option.map_eq_some_iff.mp hrun
  obtain ⟨hbytes, hsum⟩ := Prod.mk.inj hcount
  refine ⟨s, ⟨smallest, _, hs⟩, ?_⟩
  rw [hbytes, hsum]
  decide

end System

end Portico.LiveBuffer
