import Portico.LiveBuffer.Safety

/-!
# Stable numbering

A player that reloads a playlist finds a segment under the numbers it had before, whatever was
appended and evicted in between.

## Main results

* `Buffer.number_shown`: these numbers are the segment's own
* `System.Inv.same`: a file or a number stands for one segment in all states
* `System.numbering_stable`: the numbers are stable and the headers never decrease
-/

namespace Portico.LiveBuffer

open Machine

/-- The media sequence number of a playlist's segment. -/
def Playlist.number (p : Playlist) (i : ℕ) : ℤ := p.mediaSequence + i

/-- The discontinuity sequence number of a playlist's segment: the tags up to its own count. -/
def Playlist.discontinuity (p : Playlist) (i : ℕ) : ℤ :=
  p.discontinuitySequence + (p.entries.take (i + 1)).countP Entry.discontinuity

/-- A position that doesn't lie before another; `none` is the window's start. -/
def Ahead : Option ℤ → Option ℤ → Prop
  | none, _ => True
  | some _, none => False
  | some p, some p' => p ≤ p'

namespace Buffer

variable {b : Buffer} {lent due : File → ℕ} {mapped now at_ : ℤ} {position : Option ℤ}
  {l : List Segment} {p : Playlist} {s t u first : Segment} {i : ℕ} {e : Entry}

/-! ## The numbers of a playlist -/

theorem map_entries : (entries mapped l).map Entry.discontinuity = l.map Segment.discontinuity := by
  induction l generalizing mapped with
  | nil => rfl
  | cons s l ih => rw [entries, List.map_cons, List.map_cons, ih]

theorem uri_entries : (entries mapped l).map Entry.uri =
    l.map fun s => .segment s.sequence s.fragmented := by
  induction l generalizing mapped with
  | nil => rfl
  | cons s l ih => rw [entries, List.map_cons, List.map_cons, ih]

theorem countP_entries (n : ℕ) : ((entries mapped l).take n).countP Entry.discontinuity =
    (l.take n).countP Segment.discontinuity := by
  have h : (((entries mapped l).map Entry.discontinuity).take n).countP id =
      ((l.map Segment.discontinuity).take n).countP id := by
    rw [map_entries]
  simpa only [← List.map_take, List.countP_map, Function.id_comp] using h

theorem number_chain (hl : l.IsChain Follows) (hfirst : l.head? = some first)
    (ht : l[i]? = some t) :
    t.sequence = first.sequence + i ∧ t.discontinuitiesBefore + t.tags =
      first.discontinuitiesBefore + (l.take (i + 1)).countP Segment.discontinuity := by
  induction l generalizing first i with
  | nil => cases hfirst
  | cons s l ih =>
    obtain rfl := Option.some.inj hfirst
    have htags : ∀ n, ((s :: l).take (n + 1)).countP Segment.discontinuity =
        s.tags + (l.take n).countP Segment.discontinuity := by
      intro n
      rw [List.take_succ_cons, List.countP_cons, Segment.tags]
      split_ifs <;> push_cast <;> omega
    cases i with
    | zero =>
      obtain rfl := Option.some.inj ht
      rw [htags, List.take_zero, List.countP_nil]
      simp
    | succ i =>
      rw [List.getElem?_cons_succ] at ht
      -- the tags of the first segment count before the second
      cases l with
      | nil => cases ht
      | cons s' l =>
        obtain ⟨hfollows, htail⟩ := List.isChain_cons_cons.mp hl
        obtain ⟨hsequence, hcount⟩ := ih htail rfl ht
        obtain ⟨hnext, hbefore⟩ := hfollows
        rw [htags]
        push_cast
        omega

theorem number_shown (h : b.Sound [] lent due) (hp : b.playlistFrom position now = some p)
    (ht : (b.shown position)[i]? = some t) :
    p.number i = t.sequence ∧ p.discontinuity i = t.discontinuitiesBefore + t.tags := by
  obtain ⟨-, hentries, first, hfirst, hsequence, hcount⟩ := playlistFrom_eq_some hp
  have hchain : (b.shown position).IsChain Follows := h.numbered.suffix shown_suffix
  obtain ⟨ht, htags⟩ := number_chain hchain hfirst ht
  rw [Playlist.number, Playlist.discontinuity, hentries, countP_entries, hsequence, hcount]
  exact ⟨ht.symm, htags.symm⟩

theorem entry_shown (hp : b.playlistFrom position now = some p) (he : p.entries[i]? = some e) :
    ∃ t, (b.shown position)[i]? = some t ∧ e.uri = .segment t.sequence t.fragmented := by
  obtain ⟨-, hentries, -⟩ := playlistFrom_eq_some hp
  have h : ((p.entries.map Entry.uri)[i]?) = some e.uri := by rw [List.getElem?_map, he]; rfl
  rw [hentries, uri_entries, List.getElem?_map, Option.map_eq_some_iff] at h
  obtain ⟨t, ht, huri⟩ := h
  exact ⟨t, ht, huri.symm⟩

/-! ## The first segment shown -/

/-- The segments left out end before the position, and the first one shown holds it or is the
newest. -/
theorem shown_some {q : ℤ} (hat : at_ = b.options.originMS * 1000 + q) :
    ∃ l, b.segments = l ++ b.shown (some q) ∧ (∀ t ∈ l, t.endUS ≤ at_) ∧
      ∀ first, (b.shown (some q)).head? = some first →
        at_ < first.endUS ∨ b.segments.getLast? = some first := by
  unfold shown
  dsimp only
  rw [← hat]
  refine ⟨_, (List.take_append_drop _ _).symm, fun t ht => ?_, fun first hfirst => ?_⟩
  · cases hfind : b.segments.findIdx? fun s => at_ < s.endUS with
    | none =>
      have := List.findIdx?_eq_none_iff.mp hfind t (List.mem_of_mem_take ht)
      simpa using this
    | some k =>
      obtain ⟨hk, -, hbefore⟩ := List.findIdx?_eq_some_iff_getElem.mp hfind
      rw [hfind, Option.getD_some] at ht
      obtain ⟨j, hj, rfl⟩ := List.mem_take_iff_getElem.mp ht
      have := hbefore j (by omega)
      simpa using this
  · rw [List.head?_drop] at hfirst
    cases hfind : b.segments.findIdx? fun s => at_ < s.endUS with
    | none =>
      rw [hfind, Option.getD_none] at hfirst
      rw [List.getLast?_eq_getElem?]
      exact Or.inr hfirst
    | some k =>
      obtain ⟨hk, hholds, -⟩ := List.findIdx?_eq_some_iff_getElem.mp hfind
      rw [hfind, Option.getD_some, List.getElem?_eq_getElem hk] at hfirst
      obtain rfl := Option.some.inj hfirst
      exact Or.inl (of_decide_eq_true hholds)

/-- Of two retained segments, the one with the smaller number comes first. -/
theorem Sound.before (h : b.Sound [] lent due) (ht : t ∈ b.segments) (hu : u ∈ b.segments)
    (hlt : t.sequence < u.sequence) : Before t u := by
  have hrel : ∀ {i j : ℕ} (hi : i < b.segments.length) (hj : j < b.segments.length), i < j →
      Before b.segments[i] b.segments[j] :=
    fun hi hj hij => List.pairwise_iff_getElem.mp h.pairwise _ _ hi hj hij
  obtain ⟨i, hi, rfl⟩ := List.mem_iff_getElem.mp ht
  obtain ⟨j, hj, rfl⟩ := List.mem_iff_getElem.mp hu
  rcases Nat.lt_trichotomy i j with hij | rfl | hij
  · exact hrel hi hj hij
  · omega
  · have := (hrel hj hi hij).1
    omega

end Buffer

namespace System

variable {s s' : System} {position position' : Option ℤ} {now now' : ℤ} {p p' : Playlist}
  {t t' first first' : Segment} {q : ℤ}

theorem Inv.eq_of_path (h : Inv s) (ht : t ∈ s.buffer.segments) (ht' : t' ∈ s.buffer.segments)
    (hpath : t.path = t'.path) : t = t' :=
  List.inj_on_of_nodup_map (List.nodup_append.mp h.window.distinct).1 ht ht' hpath

theorem Inv.eq_of_sequence (h : Inv s) (ht : t ∈ s.buffer.segments)
    (ht' : t' ∈ s.buffer.segments) (hsequence : t.sequence = t'.sequence) : t = t' := by
  have hindex := (h.window.index _ _).mpr ⟨ht, rfl⟩
  rw [hsequence, (h.window.index _ _).mpr ⟨ht', rfl⟩] at hindex
  exact (Option.some.inj hindex).symm

/-- A retained segment was retained before, or is newer than all that was. -/
theorem Grows.mem (h : Grows s s') (ht : t ∈ s'.buffer.segments) : t ∈ s.buffer.segments ∨
    s.created ≤ t.path ∧ s.buffer.next ≤ t.sequence ∧
      s.buffer.discontinuities ≤ t.discontinuitiesBefore := by
  obtain ⟨new, hsuffix, hnew⟩ := h.segments
  exact (List.mem_append.mp (hsuffix.subset ht)).imp_right (hnew t)

theorem Inv.same (h : Inv s) (hgrows : Grows s s') (ht : t ∈ s.buffer.segments)
    (ht' : t' ∈ s'.buffer.segments) (hsame : t.path = t'.path ∨ t.sequence = t'.sequence) :
    t = t' := by
  rcases hgrows.mem ht' with hold | ⟨hpath, hnext, -⟩
  · exact hsame.elim (h.eq_of_path ht hold) (h.eq_of_sequence ht hold)
  · have hmade := h.made t.path (List.mem_append_left _ (List.mem_map_of_mem ht))
    have hlt := (h.window.lt_next ht).1
    rcases hsame with heq | heq
    · exact absurd (heq ▸ hmade) (not_lt.mpr hpath)
    · omega

/-- The first segment shown later doesn't come before the first one shown earlier. -/
theorem Inv.first_le (h : Inv s) (hgrows : Grows s s') (hahead : Ahead position position')
    (hfirst : (s.buffer.shown position).head? = some first)
    (hfirst' : (s'.buffer.shown position').head? = some first')
    (hold : first' ∈ s.buffer.segments) : first.sequence ≤ first'.sequence := by
  by_contra hlt
  have hmem : first ∈ s.buffer.segments :=
    Buffer.shown_suffix.subset (List.mem_of_mem_head? hfirst)
  have hbefore := h.window.before hold hmem (not_le.mp hlt)
  have hpairwise := h.window.pairwise
  cases position with
  | none =>
    -- nothing comes before the window's start
    obtain ⟨l, hl⟩ := List.head?_eq_some_iff.mp (show s.buffer.segments.head? = some first from hfirst)
    rw [hl] at hold hpairwise
    rcases List.mem_cons.mp hold with rfl | hold
    · exact hlt le_rfl
    · have := ((List.pairwise_cons.mp hpairwise).1 _ hold).1
      omega
  | some q =>
    cases position' with
    | none => exact hahead
    | some q' =>
      have hq : q ≤ q' := hahead
      obtain ⟨l, hl, hends, -⟩ := Buffer.shown_some (b := s.buffer) (q := q) rfl
      obtain ⟨-, -, -, hholds⟩ := Buffer.shown_some (b := s'.buffer) (q := q') rfl
      obtain ⟨rest, hrest⟩ := List.head?_eq_some_iff.mp hfirst
      -- the segment ends before the earlier position, so it is the newest of the later window
      have hend : first'.endUS ≤ s.buffer.options.originMS * 1000 + q := by
        apply hends
        rw [hl, hrest] at hold hpairwise
        refine (List.mem_append.mp hold).resolve_right fun hin => ?_
        rcases List.mem_cons.mp hin with rfl | hin
        · exact hlt le_rfl
        · have := ((List.pairwise_cons.mp (List.pairwise_append.mp hpairwise).2.1).1 _ hin).1
          omega
      have hlast := (hholds first' hfirst').resolve_left (by rw [hgrows.options]; omega)
      obtain ⟨new, hsuffix, hnew⟩ := hgrows.segments
      obtain ⟨l', hl'⟩ := hsuffix
      -- but a window's newest segment is not before one retained earlier
      have hnewest : (s.buffer.segments ++ new).getLast? = some first' := by
        rw [← hl', List.getLast?_append, hlast]
        rfl
      rw [List.getLast?_append, Option.or_eq_some_iff] at hnewest
      rcases hnewest with hnewest | ⟨-, hnewest⟩
      · have := (hnew first' (List.mem_of_getLast? hnewest)).2.1
        have := (h.window.lt_next hold).1
        omega
      · have := (h.window.newest first' hnewest).1
        have := (h.window.lt_next hmem).1
        omega

/-- **Numbering is stable.** A segment two playlists list, at any two times, has the same media
sequence number and the same discontinuity sequence number in both, whether it is recognised by its
file or by its address, and the headers never decrease as long as the position doesn't go back. -/
theorem numbering_stable (h : Reachable s) (hrun : Reaches step s s')
    (hp : s.buffer.playlistFrom position now = some p)
    (hp' : s'.buffer.playlistFrom position' now' = some p') :
    (∀ i j t t', (s.buffer.shown position)[i]? = some t →
      (s'.buffer.shown position')[j]? = some t' → t.path = t'.path →
        p.number i = p'.number j ∧ p.discontinuity i = p'.discontinuity j) ∧
    (∀ i j e e', p.entries[i]? = some e → p'.entries[j]? = some e' → e.uri = e'.uri →
      p.number i = p'.number j ∧ p.discontinuity i = p'.discontinuity j) ∧
    (Ahead position position' → p.mediaSequence ≤ p'.mediaSequence ∧
      p.discontinuitySequence ≤ p'.discontinuitySequence) := by
  have hinv := h.inv
  obtain ⟨hinv', hgrows⟩ := hinv.grows hrun
  have hsame : ∀ i j t t', (s.buffer.shown position)[i]? = some t →
      (s'.buffer.shown position')[j]? = some t' → t.path = t'.path ∨ t.sequence = t'.sequence →
        p.number i = p'.number j ∧ p.discontinuity i = p'.discontinuity j := by
    intro i j t t' ht ht' heq
    obtain rfl := hinv.same hgrows (Buffer.shown_suffix.subset (List.mem_of_getElem? ht))
      (Buffer.shown_suffix.subset (List.mem_of_getElem? ht')) heq
    obtain ⟨hnumber, hcount⟩ := Buffer.number_shown hinv.window hp ht
    obtain ⟨hnumber', hcount'⟩ := Buffer.number_shown hinv'.window hp' ht'
    exact ⟨hnumber.trans hnumber'.symm, hcount.trans hcount'.symm⟩
  refine ⟨fun i j t t' ht ht' hpath => hsame i j t t' ht ht' (Or.inl hpath), ?_, fun hahead => ?_⟩
  · intro i j e e' he he' huri
    obtain ⟨t, ht, hturi⟩ := Buffer.entry_shown hp he
    obtain ⟨t', ht', hturi'⟩ := Buffer.entry_shown hp' he'
    rw [hturi, hturi', Uri.segment.injEq] at huri
    exact hsame i j t t' ht ht' (Or.inr huri.1)
  · obtain ⟨-, -, first, hfirst, hsequence, hbefore⟩ := Buffer.playlistFrom_eq_some hp
    obtain ⟨-, -, first', hfirst', hsequence', hbefore'⟩ := Buffer.playlistFrom_eq_some hp'
    rw [hsequence, hsequence', hbefore, hbefore']
    have hmem := Buffer.shown_suffix.subset (List.mem_of_mem_head? hfirst)
    have hmem' := Buffer.shown_suffix.subset (List.mem_of_mem_head? hfirst')
    obtain ⟨hlt, hcount⟩ := hinv.window.lt_next hmem
    have htags := Buffer.tags_nonneg first
    rcases hgrows.mem hmem' with hold | ⟨-, hnext, hdisc⟩
    · rcases (hinv.first_le hgrows hahead hfirst hfirst' hold).lt_or_eq with hless | heq
      · have hrel := hinv.window.before hmem hold hless
        unfold Buffer.Before at hrel
        omega
      · obtain rfl := hinv.eq_of_sequence hmem hold heq
        exact ⟨le_rfl, le_rfl⟩
    · omega

/-- A segment after a gap is listed second, and then first. -/
theorem numbering_stable_slid : ∃ s s' p p', Reachable s ∧ Reaches step s s' ∧
    s.buffer.playlistFrom none 0 = some p ∧ s'.buffer.playlistFrom none 0 = some p' ∧
      p.number 1 = p'.number 0 ∧ p.discontinuity 1 = p'.discontinuity 0 := by
  have hfirst : ((run step (init smallest)
      [.append 1 false 0 6000000 1 false, .append 1 false 8000000 14000000 1 false]).bind fun s =>
        s.buffer.playlistFrom none 0) =
      some ⟨3, 6, 1, 0, none,
        [⟨false, none, 0, 6000000, .segment 1 false⟩,
          ⟨true, none, 8000000, 6000000, .segment 2 false⟩]⟩ := by
    decide +kernel
  have hslid : ((run step (init smallest)
      ([.append 1 false 0 6000000 1 false, .append 1 false 8000000 14000000 1 false] ++
        [.append 1 false 14000000 20000000 1 false])).bind fun s =>
          s.buffer.playlistFrom none 0) =
      some ⟨3, 6, 2, 0, none,
        [⟨true, none, 8000000, 6000000, .segment 2 false⟩,
          ⟨false, none, 14000000, 6000000, .segment 3 false⟩]⟩ := by
    decide +kernel
  obtain ⟨s, hs, hp⟩ := Option.bind_eq_some_iff.mp hfirst
  obtain ⟨s', hs', hp'⟩ := Option.bind_eq_some_iff.mp hslid
  obtain ⟨t, ht, hrest⟩ := run_append.mp hs'
  obtain rfl : s = t := Option.some.inj (hs.symm.trans ht)
  refine ⟨s, s', _, _, ⟨smallest, _, hs⟩, ⟨_, hrest⟩, hp, hp', ?_⟩
  exact (numbering_stable ⟨smallest, _, hs⟩ ⟨_, hrest⟩ hp hp').2.1 1 0 _ _ rfl rfl rfl

end System

end Portico.LiveBuffer
