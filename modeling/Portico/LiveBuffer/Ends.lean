import Portico.LiveBuffer.Publisher
import Portico.LiveBuffer.Safety

/-!
# Where a window ends

A segment may start up to the tolerance before the newest one ends. It ends no earlier if it lasts
that long; a shorter one may end before the segment it follows, and the window's end goes back.

## Main results

* `System.segments_inTurn`: the retained segments of a run whose segments last that long
* `System.windowEnd_mono`: the window's end of such a run
* `System.window_ordered`: both, and that the tolerance is the exact bound
* `System.window_turns_back`: a publisher whose second segment lasts 20 ms
-/

namespace Portico.LiveBuffer

open Machine

/-- How far before the end of the newest segment another may start. -/
def tolerance : ℤ := 250000

/-- A segment starts and ends no earlier than another. -/
def InTurn (t u : Segment) : Prop := t.startUS ≤ u.startUS ∧ t.endUS ≤ u.endUS

instance : Trans InTurn InTurn InTurn where
  trans h h' := ⟨h.1.trans h'.1, h.2.trans h'.2⟩

/-- A segment lasts as long as the tolerance. -/
def Segment.Lasts (t : Segment) : Prop := tolerance ≤ t.endUS - t.startUS

/-- A new segment lasts as long as the tolerance. -/
def Event.Lasts : Event → Prop
  | .append _ _ startUS endUS _ _ => tolerance ≤ endUS - startUS
  | _ => True

/-- The window's end instant. -/
def Buffer.windowEnd (now : ℤ) (b : Buffer) : ℤ := (b.windowLocked now).2.1

variable {s s' : System} {e : Event} {es es' : List Event} {o : Options} {t u : Segment}
  {now now' : ℤ} {b b' : Buffer}

namespace Buffer

theorem start_le (hnew : b.overlaps t = false) (hlast : b.segments.getLast? = some u) :
    u.endUS - tolerance ≤ t.startUS := by
  unfold overlaps at hnew
  rw [hlast, Option.any_some, decide_eq_false_iff_not, not_lt] at hnew
  exact hnew

theorem windowEnd_eq (hlast : b.segments.getLast? = some u) :
    b.windowEnd now =
      (if b.options.scheduled = true then min now u.endUS else u.endUS) - b.options.originMS * 1000 := by
  obtain ⟨first, hfirst⟩ : ∃ first, b.segments.head? = some first := by
    rw [← Option.isSome_iff_exists, List.isSome_head?]
    rintro hnil
    rw [hnil] at hlast
    cases hlast
  unfold windowEnd windowLocked
  rw [hfirst, hlast]
  dsimp only
  split_ifs with hearlier hscheduled hscheduled
  · omega
  · exact absurd hearlier.1 hscheduled
  · have : ¬ now - b.options.originMS * 1000 < u.endUS - b.options.originMS * 1000 :=
      fun hlt => hearlier ⟨hscheduled, hlt⟩
    omega
  · rfl

/-- The window's end doesn't go back when neither its newest segment's nor the clock does. -/
theorem windowEnd_le (hoptions : b'.options = b.options) (hlast : b.segments.getLast? = some t)
    (hlast' : b'.segments.getLast? = some u) (hend : t.endUS ≤ u.endUS) (hnow : now ≤ now') :
    b.windowEnd now ≤ b'.windowEnd now' := by
  rw [windowEnd_eq hlast, windowEnd_eq hlast', hoptions]
  split_ifs <;> omega

end Buffer

namespace System

/-! ## One call -/

/-- A call leaves the segments alone, closes the buffer, or appends a segment that starts no earlier
than the tolerance allows. -/
theorem Inv.segments_step (h : Inv s) (hs : step s e = some s') :
    s'.buffer.segments = s.buffer.segments ∧ s'.buffer.closed = s.buffer.closed ∨
      s'.buffer.closed = true ∨ s.buffer.closed = false ∧
      ∃ producer fragmented startUS endUS bytes discontinuity t,
        e = .append producer fragmented startUS endUS bytes discontinuity ∧
        t.startUS = startUS ∧ t.endUS = endUS ∧
        (∀ u, s.buffer.segments.getLast? = some u → u.endUS - tolerance ≤ t.startUS) ∧
        s'.buffer.segments <:+ s.buffer.segments ++ [t] ∧ s'.buffer.segments ≠ [] := by
  cases e with
  | append producer fragmented startUS endUS bytes discontinuity =>
    simp only [step] at hs
    split_ifs at hs with hvalid
    split at hs
    · cases hs
      exact Or.inl ⟨rfl, rfl⟩
    next hok =>
      cases hs
      obtain ⟨-, -, hkept, htrims⟩ :=
        h.window.append hok hvalid.2.2 h.notMem_paths (h.unused _ le_rfl)
      obtain ⟨hopen, hoverlaps, -, -⟩ := Buffer.append_eq_ok.mp hok
      have hsuffix := htrims.segments
      rw [Buffer.push, Buffer.segments_counted] at hsuffix
      have hstart : ∀ u, s.buffer.segments.getLast? = some u → u.endUS - tolerance ≤ startUS :=
        fun u hu => Buffer.start_le hoverlaps hu
      exact Or.inr (Or.inr ⟨hopen, _, _, _, _, _, _, _, rfl, rfl, rfl, hstart, hsuffix, hkept⟩)
  | storeInit bytes producer =>
    simp only [step] at hs
    split_ifs at hs
    split at hs
    · cases hs
      exact Or.inl ⟨rfl, rfl⟩
    next hok =>
      cases hs
      obtain ⟨-, -, rfl⟩ := Buffer.storeInit_eq_ok.mp hok
      exact Or.inl ⟨rfl, rfl⟩
  | openFile uri =>
    simp only [step] at hs
    split at hs
    · cases hs
      exact Or.inl ⟨rfl, rfl⟩
    next hok =>
      cases hs
      obtain ⟨-, -, rfl⟩ := openFile_eq_ok hok
      exact Or.inl ⟨rfl, rfl⟩
  | release r =>
    simp only [step] at hs
    split_ifs at hs
    cases hs
    exact Or.inl ⟨rfl, rfl⟩
  | act a =>
    simp only [step] at hs
    split_ifs at hs
    cases hs
    cases a <;> exact Or.inl ⟨rfl, rfl⟩
  | close =>
    simp only [step] at hs
    cases hs
    refine Or.inr (Or.inl ?_)
    cases hc : s.buffer.closed with
    | true => rw [Buffer.close, if_pos hc]; exact hc
    | false => rw [h.window.close_eq hc]

theorem getLast?_suffix {l : List Segment} (h : l <:+ s.buffer.segments ++ [t]) (hne : l ≠ []) :
    l.getLast? = some t := by
  obtain ⟨before, hbefore⟩ := h
  have hlast : (before ++ l).getLast? = some t := by rw [hbefore]; simp
  rwa [List.getLast?_append_of_ne_nil _ hne] at hlast

/-- A segment that lasts as long as the tolerance and starts within it ends no earlier than the
newest. -/
theorem end_le (hstart : u.endUS - tolerance ≤ t.startUS) (hlasts : t.Lasts) : u.endUS ≤ t.endUS := by
  unfold Segment.Lasts at hlasts
  omega

/-! ## Runs -/

/-- The retained segments last as long as the tolerance, and follow each other in turn. -/
structure InTime (s : System) : Prop where
  inv : Inv s
  lasts : ∀ t ∈ s.buffer.segments, t.Lasts
  inTurn : s.buffer.segments.IsChain InTurn

theorem InTime.step (h : InTime s) (he : e.Lasts) (hs : s.step e = some s') : InTime s' := by
  have hinv := (h.inv.next hs).1
  rcases h.inv.segments_step hs with ⟨hsame, -⟩ | hclosed | ⟨-, _, _, _, _, _, _, t, rfl, rfl, rfl,
    hstart, hsuffix, -⟩
  · exact ⟨hinv, hsame ▸ h.lasts, hsame ▸ h.inTurn⟩
  · have hempty := (hinv.window.emptied hclosed).1
    exact ⟨hinv, by simp [hempty], by simp [hempty]⟩
  · have hlasts : t.Lasts := he
    refine ⟨hinv, fun u hu => ?_, ?_⟩
    · rcases List.mem_append.mp (hsuffix.subset hu) with hu | hu
      · exact h.lasts u hu
      · rwa [List.mem_singleton.mp hu]
    · refine (h.inTurn.append (List.isChain_singleton t) ?_).suffix hsuffix
      intro u hu t' ht'
      obtain rfl : t = t' := by simpa using ht'
      -- the newest segment starts its whole length before its end
      have hlong : tolerance ≤ u.endUS - u.startUS := h.lasts u (List.mem_of_getLast? hu)
      have hnear := hstart u hu
      exact ⟨by omega, end_le hnear hlasts⟩

/-- The retained segments of a run whose segments last as long as the tolerance are ordered by their
starts and by their ends. -/
theorem segments_inTurn (hrun : run step (init o) es = some s) (hlasts : ∀ e ∈ es, e.Lasts) :
    s.buffer.segments.Pairwise InTurn := by
  have hinit : InTime (init o) := ⟨inv_init o, nofun, List.isChain_nil⟩
  have hkept : InTime s :=
    run_invariant_of (fun _ _ _ h he hs => h.step he hs) hinit hlasts hrun
  exact hkept.inTurn.pairwise

/-- The buffer is closed, or its newest segment ends no earlier than `u`. -/
structure EndsBy (o : Options) (u : Segment) (s : System) : Prop where
  inv : Inv s
  options : s.buffer.options = o
  last : s.buffer.closed = true ∨ ∃ t, s.buffer.segments.getLast? = some t ∧ u.endUS ≤ t.endUS

theorem EndsBy.step (h : EndsBy o u s) (he : e.Lasts) (hs : s.step e = some s') :
    EndsBy o u s' := by
  obtain ⟨hinv, hgrows⟩ := h.inv.next hs
  refine ⟨hinv, hgrows.options.trans h.options, ?_⟩
  rcases h.inv.segments_step hs with ⟨hsame, hclosed⟩ | hclosed | ⟨hopen, _, _, _, _, _, _, t, rfl,
    rfl, rfl, hstart, hsuffix, hne⟩
  · rw [hsame, hclosed]
    exact h.last
  · exact Or.inl hclosed
  · rcases h.last with hclosed | ⟨v, hv, hend⟩
    · rw [hopen] at hclosed
      cases hclosed
    · exact Or.inr ⟨t, getLast?_suffix hsuffix hne, hend.trans (end_le (hstart v hv) he)⟩

/-- The window's end of a run whose segments last as long as the tolerance doesn't go back, until the
buffer is closed. -/
theorem windowEnd_mono (h : Inv s) (hrun : run step s es = some s') (hlasts : ∀ e ∈ es, e.Lasts)
    (hsome : s.buffer.segments ≠ []) (hopen : s'.buffer.closed = false) (hnow : now ≤ now') :
    s.buffer.windowEnd now ≤ s'.buffer.windowEnd now' := by
  have hu := List.getLast?_eq_some_getLast hsome
  set u := s.buffer.segments.getLast hsome
  have hstart : EndsBy s.buffer.options u s := ⟨h, rfl, Or.inr ⟨u, hu, le_rfl⟩⟩
  have hend : EndsBy s.buffer.options u s' :=
    run_invariant_of (fun _ _ _ h he hs => h.step he hs) hstart hlasts hrun
  rcases hend.last with hclosed | ⟨t, ht, hle⟩
  · rw [hopen] at hclosed
    cases hclosed
  · exact Buffer.windowEnd_le hend.options hu ht hle hnow

/-! ## The bound -/

/-- An open buffer accepts a transport stream segment that starts as early as the tolerance allows. -/
theorem exists_append (hopen : s.buffer.closed = false) (hlast : s.buffer.segments.getLast? = some u)
    (d : ℤ) : ∃ t b, s.buffer.append t = .ok b ∧ t.startUS = u.endUS - tolerance ∧
      t.endUS - t.startUS = d := by
  refine ⟨⟨0, 1, false, 0, u.endUS - tolerance, u.endUS - tolerance + d, 1, false, 0⟩, _,
    Buffer.append_eq_ok.mpr ⟨hopen, ?_, rfl, rfl⟩, rfl, add_sub_cancel_left _ _⟩
  unfold Buffer.overlaps
  rw [hlast, Option.any_some, decide_eq_false_iff_not]
  exact lt_irrefl _

/-- **Ends in turn.** A segment the buffer accepts starts at most the tolerance before the end of the
one before, so it ends no further before it than the tolerance less its own length. The tolerance is
the exact length from which on a segment never ends before the one it follows. A run whose segments
all last that long retains segments that are ordered by start and by end, and its window's end never
goes back. -/
theorem window_ordered (hrun : run step (init o) es = some s) :
    (∀ t u b, s.buffer.append t = .ok b → s.buffer.segments.getLast? = some u →
      u.endUS - tolerance ≤ t.startUS ∧ u.endUS - (tolerance - (t.endUS - t.startUS)) ≤ t.endUS) ∧
    (∀ u, s.buffer.closed = false → s.buffer.segments.getLast? = some u → ∀ d,
      (∀ t b, s.buffer.append t = .ok b → t.endUS - t.startUS = d → u.endUS ≤ t.endUS) ↔
        tolerance ≤ d) ∧
    ((∀ e ∈ es, e.Lasts) → s.buffer.segments.Pairwise InTurn) ∧
    (s.buffer.segments ≠ [] → ∀ es' s', run step s es' = some s' → (∀ e ∈ es', e.Lasts) →
      s'.buffer.closed = false → ∀ now now', now ≤ now' →
        s.buffer.windowEnd now ≤ s'.buffer.windowEnd now') := by
  have hinv : Inv s := Reachable.inv ⟨o, es, hrun⟩
  refine ⟨fun t u b hok hlast => ?_, fun u hopen hlast d => ⟨fun h => ?_, fun hd t b hok hlen => ?_⟩,
    segments_inTurn hrun, fun hsome es' s' hrun' hlasts hopen now now' hnow =>
      windowEnd_mono hinv hrun' hlasts hsome hopen hnow⟩
  · have hstart := Buffer.start_le (Buffer.append_eq_ok.mp hok).2.1 hlast
    exact ⟨hstart, by omega⟩
  · obtain ⟨t, b, hok, hstart, hlen⟩ := exists_append hopen hlast d
    have := h t b hok hlen
    omega
  · have hstart := Buffer.start_le (Buffer.append_eq_ok.mp hok).2.1 hlast
    omega

/-- Two segments of four seconds, the second of which starts 50 ms early. -/
theorem window_ordered_overlapping : ∃ s,
    run step (init smallest) [.append 1 false 0 4000000 188 false,
      .append 1 false 3950000 7950000 188 false] = some s ∧ s.buffer.segments.Pairwise InTurn := by
  have hrun : (run step (init smallest) [.append 1 false 0 4000000 188 false,
      .append 1 false 3950000 7950000 188 false]).isSome = true := by
    decide +kernel
  obtain ⟨s, hs⟩ := Option.isSome_iff_exists.mp hrun
  refine ⟨s, hs, (window_ordered hs).2.2.1 fun e he => ?_⟩
  rcases List.mem_cons.mp he with rfl | he
  · exact (by decide : (250000 : ℤ) ≤ 4000000 - 0)
  · rw [List.mem_singleton.mp he]
    exact (by decide : (250000 : ℤ) ≤ 7950000 - 3950000)

/-- An encoder's second segment lasts 20 ms, and starts 30 ms before the first one ends. -/
def shortUpload : Output :=
  let env (path : File) : Env := ⟨path, fun _ => 4000000, true, fun _ => true⟩
  let first := (Publisher.new ⟨1, false, false, 0, 0⟩).serve (env 0)
    (.segment false 0 ⟨0, 188, fun _ => some ⟨0, 360000⟩⟩) (Buffer.new smallest)
  let second := first.publisher.serve (env 1)
    (.segment false 1 ⟨1, 188, fun _ => some ⟨357300, 359100⟩⟩) first.buffer
  second.publisher.serve (env 2)
    (.manifest [.header, .extinf (some 4000000), .segment false 0, .extinf (some 20000),
      .segment false 1]) second.buffer

/-- **The window's end goes back**: the publisher's second segment is accepted and ends before the
first. -/
theorem window_turns_back :
    shortUpload.appended.map (fun x => (x.2.startUS, x.2.endUS)) =
      [(0, 4000000), (3970000, 3990000)] ∧
    ¬ ∀ o es s s' e now, run step (init o) es = some s → s.step e = some s' →
      s.buffer.segments ≠ [] → s'.buffer.closed = false →
        (s'.buffer.segments.Pairwise fun t u => t.endUS ≤ u.endUS) ∧
          s.buffer.windowEnd now ≤ s'.buffer.windowEnd now := by
  refine ⟨by decide +kernel, fun hclaim => ?_⟩
  have hfirst : ((run step (init smallest) [.append 1 false 0 4000000 188 false]).map fun s =>
      (s.buffer.segments.length, s.buffer.windowEnd 0)) = some (1, 3999000) := by decide +kernel
  have hsecond : ((run step (init smallest) ([.append 1 false 0 4000000 188 false] ++
      [.append 1 false 3970000 3990000 188 false])).map fun s =>
        (s.buffer.closed, s.buffer.windowEnd 0)) = some (false, 3989000) := by decide +kernel
  obtain ⟨s, hs, hends⟩ := Option.map_eq_some_iff.mp hfirst
  obtain ⟨s', hs', hends'⟩ := Option.map_eq_some_iff.mp hsecond
  obtain ⟨t, ht, hstep⟩ := run_concat.mp hs'
  obtain rfl := Option.some.inj (hs.symm.trans ht)
  obtain ⟨hlen, hend⟩ := Prod.mk.inj hends
  obtain ⟨hopen, hend'⟩ := Prod.mk.inj hends'
  have hsome : s.buffer.segments ≠ [] := by
    intro hnil
    rw [hnil] at hlen
    cases hlen
  have hback := (hclaim _ _ s s' _ 0 hs hstep hsome hopen).2
  rw [hend, hend'] at hback
  exact absurd hback (by decide)

end System

end Portico.LiveBuffer
