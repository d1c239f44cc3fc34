import Portico.LibraryChannels.Slots

/-!
# The block of an instant

Blocks overlap. The one of the highest priority wins at an instant, of equal ones the one of the least id,
and where there is none the default block does. A slot is what wins at its start, up to the next instant at
which something else does.

## Main results

* `winner_wins`: what is chosen wins
* `Wins.transfer`: blocks that begin or end at no instant between two let the same one win at both
* `slotAt_wins`: a slot is what wins at its start, and lasts for as long as that wins
-/

namespace Portico.LibraryChannels

variable {c : Config} {blocks : List ResolvedBlock} {at_ stop t u edge : ℤ} {a b b' : ResolvedBlock}

/-! ## What wins -/

def ResolvedBlock.Covers (b : ResolvedBlock) (t : ℤ) : Prop := b.start ≤ t ∧ t < b.stop

/-- A block beats another one: by its priority, then by its id. -/
def ResolvedBlock.Outranks (b a : ResolvedBlock) : Prop :=
  a.priority < b.priority ∨ b.priority = a.priority ∧ b.id < a.id

/-- The blocks that compete at an instant: those that are on, and the default one. -/
def Competes (c : Config) (blocks : List ResolvedBlock) (stop t : ℤ) (b : ResolvedBlock) : Prop :=
  b = defaultBlock c t stop ∨ b ∈ blocks ∧ b.Covers t

/-- **A block wins at an instant**: it competes, and none that does outranks it. -/
structure Wins (c : Config) (blocks : List ResolvedBlock) (stop t : ℤ) (b : ResolvedBlock) : Prop where
  competes : Competes c blocks stop t b
  beats : ∀ a, Competes c blocks stop t a → ¬ a.Outranks b

theorem ResolvedBlock.Outranks.trans (h : b.Outranks a) (h' : b'.Outranks b) : b'.Outranks a := by
  unfold ResolvedBlock.Outranks at *
  rcases h with h | ⟨h, hid⟩
  · rcases h' with h' | ⟨h', -⟩
    · exact Or.inl (h.trans h')
    · exact Or.inl (h' ▸ h)
  · rcases h' with h' | ⟨h', hid'⟩
    · exact Or.inl (h ▸ h')
    · exact Or.inr ⟨h'.trans h, hid'.trans hid⟩

theorem ResolvedBlock.not_outranks_self : ¬ b.Outranks b := by
  rintro (h | ⟨-, h⟩)
  · exact lt_irrefl _ h
  · exact lt_irrefl _ h

/-- A block that doesn't outrank a block doesn't outrank one that beats it either. -/
theorem ResolvedBlock.not_outranks_of (h : ¬ a.Outranks b) (h' : b'.Outranks b) : ¬ a.Outranks b' :=
  fun ha => h (h'.trans ha)

theorem ResolvedBlock.id_eq (h : ¬ a.Outranks b) (h' : ¬ b.Outranks a) : a.id = b.id := by
  unfold ResolvedBlock.Outranks at h h'
  push Not at h h'
  have hpriority : a.priority = b.priority := le_antisymm h.1 h'.1
  exact le_antisymm (h'.2 hpriority.symm) (h.2 hpriority)

/-- **The winners of an instant** have one id. -/
theorem Wins.id_unique (h : Wins c blocks stop t b) (h' : Wins c blocks stop t b') : b.id = b'.id :=
  ResolvedBlock.id_eq (h'.beats b h.competes) (h.beats b' h'.competes)

/-! ## The choice -/

/-- The choice from several blocks, with the one that was chosen so far. -/
theorem foldl_wins {selected : ResolvedBlock} (chosen : ResolvedBlock)
    (hchosen : chosen = blocks.foldl (fun selected b =>
      if b.start ≤ t && t < b.stop &&
          (selected.priority < b.priority || b.priority = selected.priority && b.id < selected.id) then b
      else selected) selected) :
    (chosen = selected ∨ chosen ∈ blocks ∧ chosen.Covers t) ∧ (chosen = selected ∨ chosen.Outranks selected) ∧
      ∀ a ∈ blocks, a.Covers t → ¬ a.Outranks chosen := by
  induction blocks generalizing selected with
  | nil => exact ⟨Or.inl hchosen, Or.inl hchosen, nofun⟩
  | cons b blocks ih =>
    rw [List.foldl_cons] at hchosen
    obtain ⟨hwhich, hrank, hbest⟩ := ih hchosen
    by_cases hbetter : b.Covers t ∧ b.Outranks selected
    · have hcond : (b.start ≤ t && t < b.stop &&
          (selected.priority < b.priority || b.priority = selected.priority && b.id < selected.id)) = true := by
        simp only [Bool.and_eq_true, Bool.or_eq_true, decide_eq_true_eq]
        exact hbetter
      rw [if_pos hcond] at hwhich hrank
      refine ⟨Or.inr ?_, Or.inr ?_, List.forall_mem_cons.mpr ⟨fun _ => ?_, hbest⟩⟩
      · rcases hwhich with rfl | ⟨hmem, hcovers⟩
        · exact ⟨List.mem_cons_self, hbetter.1⟩
        · exact ⟨List.mem_cons_of_mem _ hmem, hcovers⟩
      · rcases hrank with rfl | hrank
        · exact hbetter.2
        · exact hbetter.2.trans hrank
      · rcases hrank with rfl | hrank
        · exact ResolvedBlock.not_outranks_self
        · exact ResolvedBlock.not_outranks_of ResolvedBlock.not_outranks_self hrank
    · have hcond : ¬ (b.start ≤ t && t < b.stop &&
          (selected.priority < b.priority || b.priority = selected.priority && b.id < selected.id)) = true := by
        simp only [Bool.and_eq_true, Bool.or_eq_true, decide_eq_true_eq]
        exact hbetter
      rw [if_neg hcond] at hwhich hrank
      refine ⟨?_, hrank, List.forall_mem_cons.mpr ⟨fun hcovers => ?_, hbest⟩⟩
      · exact hwhich.imp_right fun h => ⟨List.mem_cons_of_mem _ h.1, h.2⟩
      · have hnot : ¬ b.Outranks selected := fun h => hbetter ⟨hcovers, h⟩
        rcases hrank with rfl | hrank
        · exact hnot
        · exact ResolvedBlock.not_outranks_of hnot hrank

/-- **What is chosen wins.** -/
theorem winner_wins : Wins c blocks stop t (winner c blocks stop t) := by
  obtain ⟨hwhich, hrank, hbest⟩ := @foldl_wins blocks _ _ (winner c blocks stop t) rfl
  refine ⟨hwhich, fun a ha => ?_⟩
  rcases ha with rfl | ⟨hmem, hcovers⟩
  · rcases hrank with hrank | hrank
    · rw [hrank]
      exact ResolvedBlock.not_outranks_self
    · exact ResolvedBlock.not_outranks_of ResolvedBlock.not_outranks_self hrank
  · exact hbest a hmem hcovers

/-! ## Where nothing changes -/

/-- A block with another interval, which ranks as it does. -/
def ResolvedBlock.Alike (a b : ResolvedBlock) : Prop := a.priority = b.priority ∧ a.id = b.id

theorem ResolvedBlock.Alike.outranks (ha : a.Alike b) (h : a.Outranks b') : b.Outranks b' := by
  unfold ResolvedBlock.Outranks at *
  rw [← ha.1, ← ha.2]
  exact h

theorem ResolvedBlock.Alike.outranked (ha : a.Alike b) (h : b'.Outranks a) : b'.Outranks b := by
  unfold ResolvedBlock.Outranks at *
  rw [← ha.1, ← ha.2]
  exact h

/-- What competes at an instant competes at another one at which the same blocks are on. -/
theorem Competes.transfer (hsame : ∀ b ∈ blocks, b.Covers t ↔ b.Covers u) (h : Competes c blocks stop t b) :
    ∃ b', Competes c blocks stop u b' ∧ b.Alike b' ∧
      (b' = b ∨ b = defaultBlock c t stop ∧ b' = defaultBlock c u stop) := by
  rcases h with rfl | ⟨hmem, hcovers⟩
  · exact ⟨defaultBlock c u stop, Or.inl rfl, ⟨rfl, rfl⟩, Or.inr ⟨rfl, rfl⟩⟩
  · exact ⟨b, Or.inr ⟨hmem, (hsame b hmem).mp hcovers⟩, ⟨rfl, rfl⟩, Or.inl rfl⟩

/-- **What wins at an instant** wins at another one at which the same blocks are on. -/
theorem Wins.transfer (hsame : ∀ b ∈ blocks, b.Covers t ↔ b.Covers u) (h : Wins c blocks stop t b) :
    ∃ b', Wins c blocks stop u b' ∧ b'.id = b.id := by
  obtain ⟨b', hcompetes, halike, -⟩ := h.competes.transfer hsame
  refine ⟨b', ⟨hcompetes, fun a ha houtranks => ?_⟩, halike.2.symm⟩
  obtain ⟨a', ha', halike', -⟩ := ha.transfer fun b hb => (hsame b hb).symm
  exact h.beats a' ha' (halike'.outranks (ResolvedBlock.Alike.outranked ⟨halike.1.symm, halike.2.symm⟩ houtranks))

/-! ## A slot -/

/-- The instants at which something else may win. -/
def slotEdges (blocks : List ResolvedBlock) (at_ stop : ℤ) : List ℤ :=
  (stop :: (blocks.flatMap fun b => [b.start, b.stop]).filter fun edge =>
    at_ < edge && edge < stop).insertionSort (· ≤ ·)

/-- Something else wins, or the schedule ends. -/
def changes (c : Config) (blocks : List ResolvedBlock) (at_ stop edge : ℤ) : Bool :=
  edge = stop || (winner c blocks stop edge).id ≠ (winner c blocks stop at_).id

theorem slotAt_eq : slotAt c blocks at_ stop = { winner c blocks stop at_ with
    stop := ((slotEdges blocks at_ stop).find? (changes c blocks at_ stop)).getD stop } := rfl

theorem mem_slotEdges : edge ∈ slotEdges blocks at_ stop ↔ edge = stop ∨
    (∃ b ∈ blocks, edge = b.start ∨ edge = b.stop) ∧ at_ < edge ∧ edge < stop := by
  unfold slotEdges
  rw [(List.perm_insertionSort _ _).mem_iff]
  simp only [List.mem_cons, List.mem_filter, List.mem_flatMap, List.not_mem_nil, or_false, Bool.and_eq_true,
    decide_eq_true_eq]

/-- What is found first in a sorted list is the least that there is to find. -/
theorem find?_sorted {l : List ℤ} {p : ℤ → Bool} {x : ℤ} (hl : l.Pairwise (· ≤ ·)) (h : l.find? p = some x) :
    ∀ y ∈ l, y < x → p y = false := by
  induction l with
  | nil => cases h
  | cons z l ih =>
    obtain ⟨hfirst, hl⟩ := List.pairwise_cons.mp hl
    intro y hy hlt
    cases hz : p z with
    | true =>
      rw [List.find?_cons_of_pos hz] at h
      obtain rfl := Option.some.inj h
      rcases List.mem_cons.mp hy with rfl | hy
      · exact absurd hlt (lt_irrefl _)
      · exact absurd hlt (hfirst y hy).not_gt
    | false =>
      rw [List.find?_cons_of_neg (by simp [hz])] at h
      rcases List.mem_cons.mp hy with rfl | hy
      · exact hz
      · exact ih hl h y hy hlt

theorem slotEdges_find : ∃ next, (slotEdges blocks at_ stop).find? (changes c blocks at_ stop) = some next := by
  cases h : (slotEdges blocks at_ stop).find? (changes c blocks at_ stop) with
  | some next => exact ⟨next, rfl⟩
  | none =>
    rw [List.find?_eq_none] at h
    exact absurd (by simp [changes]) (h stop (mem_slotEdges.mpr (Or.inl rfl)))

/-- The same blocks are on at two instants between which none begins or ends. -/
theorem covers_iff (htu : t ≤ u) (hnone : ∀ b ∈ blocks, (b.start ≤ t ∨ u < b.start) ∧ (b.stop ≤ t ∨ u < b.stop)) :
    ∀ b ∈ blocks, b.Covers t ↔ b.Covers u := by
  intro b hb
  obtain ⟨hstart, hstop⟩ := hnone b hb
  unfold ResolvedBlock.Covers
  omega

/-- **A slot is what wins at its start, for as long as it wins.** It is the winner with an end of its own; the
same block wins at all instants of the slot; and at its end another block wins or the schedule ends. Blocks with
one id are the same, and when the ids are distinct and none is that of the default block, the winners at these
instants are equal but for the start of a default block. -/
theorem slotAt_wins (c : Config) (blocks : List ResolvedBlock) (at_ stop : ℤ) :
    ∃ b, Wins c blocks stop at_ b ∧
      slotAt c blocks at_ stop = { b with stop := (slotAt c blocks at_ stop).stop } ∧
      (∀ t, at_ ≤ t → t < (slotAt c blocks at_ stop).stop → ∀ b', Wins c blocks stop t b' → b'.id = b.id) ∧
      ((slotAt c blocks at_ stop).stop = stop ∨
        (at_ < (slotAt c blocks at_ stop).stop ∧ (slotAt c blocks at_ stop).stop < stop) ∧
        ∀ b', Wins c blocks stop (slotAt c blocks at_ stop).stop b' → b'.id ≠ b.id) ∧
      ((blocks.map ResolvedBlock.id).Nodup → (∀ b ∈ blocks, b.id ≠ "default") →
        ∀ t, at_ ≤ t → t < (slotAt c blocks at_ stop).stop → ∀ b', Wins c blocks stop t b' →
          b' = b ∨ b = defaultBlock c at_ stop ∧ b' = defaultBlock c t stop) := by
  obtain ⟨next, hnext⟩ := @slotEdges_find c blocks at_ stop
  have hstop : (slotAt c blocks at_ stop).stop = next := by
    rw [slotAt_eq, hnext]
    rfl
  have hslot : slotAt c blocks at_ stop = { winner c blocks stop at_ with stop := next } := by
    rw [slotAt_eq, hnext]
    rfl
  have hsorted : (slotEdges blocks at_ stop).Pairwise (· ≤ ·) := List.pairwise_insertionSort _ _
  have hearlier := find?_sorted hsorted hnext
  have hmem := mem_slotEdges.mp (List.mem_of_find?_eq_some hnext)
  have hle : next ≤ stop := by
    rcases hmem with rfl | ⟨-, -, hlt⟩
    · exact le_rfl
    · exact hlt.le
  -- an edge before the first change has the same winner
  have hedge : ∀ e, at_ ≤ e → e < next → (e = at_ ∨ e ∈ slotEdges blocks at_ stop) →
      (winner c blocks stop e).id = (winner c blocks stop at_).id := by
    intro e hat hlt he
    rcases he with rfl | he
    · rfl
    · have hnot := hearlier e he hlt
      unfold changes at hnot
      simp only [Bool.or_eq_false_iff, decide_eq_false_iff_not, not_not] at hnot
      exact hnot.2
  have hconstant : ∀ t, at_ ≤ t → t < next → ∀ b', Wins c blocks stop t b' →
      b'.id = (winner c blocks stop at_).id := by
    intro t hat hlt b' hwins
    -- the last edge up to `t`, after which no block begins or ends until `t`
    set upTo := insert at_ ((slotEdges blocks at_ stop).filter fun e => at_ ≤ e && e ≤ t).toFinset with hupTo
    have hin : ∀ e, e ∈ upTo ↔ e = at_ ∨ e ∈ slotEdges blocks at_ stop ∧ at_ ≤ e ∧ e ≤ t := fun e => by
      rw [hupTo, Finset.mem_insert, List.mem_toFinset, List.mem_filter, Bool.and_eq_true, decide_eq_true_eq,
        decide_eq_true_eq]
    have hne : upTo.Nonempty := ⟨at_, (hin at_).mpr (Or.inl rfl)⟩
    set e := upTo.max' hne with he
    have hbounds : at_ ≤ e ∧ e ≤ t ∧ (e = at_ ∨ e ∈ slotEdges blocks at_ stop) := by
      rcases (hin e).mp (upTo.max'_mem hne) with h | ⟨h, hge, hle⟩
      · exact ⟨h.ge, h.trans_le hat, Or.inl h⟩
      · exact ⟨hge, hle, Or.inr h⟩
    have hgap : ∀ x, (∃ b ∈ blocks, x = b.start ∨ x = b.stop) → x ≤ e ∨ t < x := by
      intro x hx
      by_contra hbetween
      push Not at hbetween
      refine absurd (upTo.le_max' x ((hin x).mpr (Or.inr ⟨mem_slotEdges.mpr (Or.inr ⟨hx, ?_, ?_⟩), ?_, ?_⟩))) ?_
      · exact hbounds.1.trans_lt hbetween.1
      · exact hbetween.2.trans_lt (hlt.trans_le hle)
      · exact (hbounds.1.trans_lt hbetween.1).le
      · exact hbetween.2
      · exact not_le.mpr hbetween.1
    have hsame : ∀ b ∈ blocks, b.Covers t ↔ b.Covers e := fun b hb =>
      (covers_iff hbounds.2.1 (fun b hb => ⟨hgap b.start ⟨b, hb, Or.inl rfl⟩,
        hgap b.stop ⟨b, hb, Or.inr rfl⟩⟩) b hb).symm
    obtain ⟨b'', hwins'', hid⟩ := hwins.transfer hsame
    rw [← hid, hwins''.id_unique winner_wins]
    exact hedge e hbounds.1 (hbounds.2.1.trans_lt hlt) hbounds.2.2
  rw [hstop]
  refine ⟨winner c blocks stop at_, winner_wins, hslot, hconstant, ?_, fun hids hdefault t hat hlt b' hwins => ?_⟩
  · rcases hmem with hmem | ⟨-, hat, hlt⟩
    · exact Or.inl hmem
    · refine Or.inr ⟨⟨hat, hlt⟩, fun b' hwins => ?_⟩
      have hchange := List.find?_some hnext
      unfold changes at hchange
      rw [Bool.or_eq_true, decide_eq_true_eq, decide_eq_true_eq] at hchange
      rw [hwins.id_unique winner_wins]
      exact hchange.resolve_left hlt.ne
  · have hid := hconstant t hat hlt b' hwins
    rcases hwins.competes with rfl | ⟨hb', -⟩
    · rcases (@winner_wins c blocks stop at_).competes with h | ⟨h, -⟩
      · exact Or.inr ⟨h, rfl⟩
      · exact absurd hid.symm (hdefault _ h)
    · rcases (@winner_wins c blocks stop at_).competes with h | ⟨h, -⟩
      · rw [h] at hid
        exact absurd hid (hdefault _ hb')
      · exact Or.inl (List.inj_on_of_nodup_map hids hb' h hid)

end Portico.LibraryChannels
