import Portico.Lib.Machine
import Portico.EventFeed.Pages

/-!
# A reader of the event feed

One reader follows the ring while events are appended, the ring's head is cut off, and other readers
use the keys of the process. It continues from the position it was last given: the page's, when it
got the page, or that of the last event it got of it.

## Main results

* `step_tells`: what one step gives the reader
* `delivery`: the law holds of every run
-/

namespace Portico.EventFeed

/-- The ring, the keys of the process, and the cursor that the reader was last given. -/
structure Session where
  ring : Ring
  keys : CursorKeys
  cursor : Raw

/-- What happens: a writer, a trim, whatever else the process does with its keys (a restart too), or
a read of which the reader gets the whole page or its first events. -/
inductive Action where
  | append (h : Hint) (now : ℤ)
  | trim (newestID : ℤ)
  | trimEventRing (limit : ℕ)
  | hub (keys : CursorKeys)
  | read (now : ℤ) (got : Option ℕ)

/-- The answer to the reader. -/
def Session.answer (codec : Codec) (rd : Reader) (s : Session) (now : ℤ) : Answer × CursorKeys :=
  EventFeed.read codec rd s.ring s.keys now s.cursor

/-- The cursor to continue from after `got` events of a page, or all of it. -/
def Page.resume (p : Page) (cursor : Raw) : Option ℕ → Option Raw
  | none => some (.sealed p.nextAfter)
  | some 0 => some cursor
  | some (k + 1) => p.events[k]?.map fun e => .sealed e.id

def step (codec : Codec) (rd : Reader) (s : Session) : Action → Option Session
  | .append h now => (s.ring.append h now).map fun ring => { s with ring := ring }
  | .trim newestID => some { s with ring := s.ring.trim newestID }
  | .trimEventRing limit => some { s with ring := s.ring.trimEventRing limit }
  | .hub keys => some { s with keys := keys }
  | .read now got =>
    ((s.answer codec rd now).1.toPage.resume s.cursor got).map fun cursor =>
      { s with keys := (s.answer codec rd now).2, cursor := cursor }

/-- The row that an action writes. -/
def Action.row (s : Session) : Action → Option Row
  | .append h now => some { h with id := s.ring.seq + 1, atMS := now }
  | _ => none

/-- The first events of a page, or all of them. -/
def Page.first (p : Page) : Option ℕ → List Event
  | none => p.events
  | some k => p.events.take k

/-- The events that the reader gets. -/
def gets (codec : Codec) (rd : Reader) (s : Session) : Action → Option (List Event)
  | .read now got =>
    match (s.answer codec rd now).1 with
    | .page p => some (p.first got)
    | .resync _ _ => none
  | _ => none

/-- The rows that a run writes. -/
def appended (codec : Codec) (rd : Reader) (s : Session) (es : List Action) : List Row :=
  Machine.outputs (step codec rd) Action.row s es

/-- The events that the reader gets in a run. -/
def received (codec : Codec) (rd : Reader) (s : Session) (es : List Action) : List Event :=
  (Machine.outputs (step codec rd) (gets codec rd) s es).flatten

/-- The reader gets a resync. -/
def Resynced (codec : Codec) (rd : Reader) (s : Session) (a : Action) : Prop :=
  ∃ now got head at_ keys, a = .read now got ∧ got ≠ some 0 ∧
    s.answer codec rd now = (.resync head at_, keys)

variable {codec : Codec} {rd : Reader} {s t u : Session} {a : Action} {es : List Action} {r : Ring}

/-! ## The ring of a run -/

/-- The ring holds the end of the log, and its sequence is past it. -/
structure Logged (log : List Row) (r : Ring) : Prop where
  suffix : r.rows <:+ log
  sorted : log.Pairwise fun x y => x.id < y.id
  le_seq : ∀ row ∈ log, row.id ≤ r.seq

theorem Logged.of_ring (r : Ring) : Logged r.rows r := ⟨List.suffix_rfl, r.sorted, r.le_seq⟩

theorem Ring.trim_suffix (n : ℤ) : (r.trim n).rows <:+ r.rows :=
  suffix_filter_not_le r.sorted (n - ringSize)

theorem Ring.trimEventRing_suffix (limit : ℕ) : (r.trimEventRing limit).rows <:+ r.rows := by
  obtain ⟨k, hk⟩ := take_filter_le r.sorted ((r.rows.getLast?.map Row.id).getD 0 - ringSize) limit
  have hrows : (r.trimEventRing limit).rows = r.rows.drop k := by
    rw [← filter_notMem_take r.sorted k, ← hk]
    rfl
  rw [hrows]
  exact List.drop_suffix k r.rows

theorem Logged.cut {log : List Row} {r' : Ring} (h : Logged log r) (hsuffix : r'.rows <:+ r.rows)
    (hseq : r'.seq = r.seq) : Logged log r' :=
  ⟨hsuffix.trans h.suffix, h.sorted, fun row hrow => hseq ▸ h.le_seq row hrow⟩

/-- One more row is logged, whether or not the head is cut off with it. -/
theorem Logged.append {log : List Row} {r' : Ring} {h : Hint} {now : ℤ} (hlog : Logged log r)
    (hr : r.append h now = some r') :
    Logged (log ++ [{ h with id := r.seq + 1, atMS := now }]) r' ∧ r'.seq = r.seq + 1 := by
  have hinsert : Logged (log ++ [{ h with id := r.seq + 1, atMS := now }]) (r.insert h now) := by
    obtain ⟨cut, hcut⟩ := hlog.suffix
    refine ⟨⟨cut, ?_⟩, ?_, ?_⟩
    · rw [← hcut, List.append_assoc]
      rfl
    · rw [List.pairwise_append]
      refine ⟨hlog.sorted, List.pairwise_singleton _ _, fun x hx y hy => ?_⟩
      obtain rfl := List.mem_singleton.mp hy
      have := hlog.le_seq x hx
      dsimp only
      omega
    · intro row hrow
      rcases List.mem_append.mp hrow with hrow | hrow
      · have := hlog.le_seq row hrow
        have : (r.insert h now).seq = r.seq + 1 := rfl
        omega
      · obtain rfl := List.mem_singleton.mp hrow
        exact le_rfl
  unfold Ring.append at hr
  split_ifs at hr with hbad htrim
  · obtain rfl := Option.some.inj hr
    exact ⟨hinsert.cut (Ring.trim_suffix _) rfl, rfl⟩
  · obtain rfl := Option.some.inj hr
    exact ⟨hinsert, rfl⟩

theorem logged_step {log : List Row} (h : Logged log s.ring) (hstep : step codec rd s a = some t) :
    Logged (log ++ (a.row s).toList) t.ring ∧ s.ring.seq ≤ t.ring.seq := by
  cases a with
  | append hint now =>
    obtain ⟨r', hr, rfl⟩ := Option.map_eq_some_iff.mp hstep
    obtain ⟨hlog, hseq⟩ := h.append hr
    refine ⟨hlog, ?_⟩
    dsimp only
    omega
  | trim newestID =>
    obtain rfl := Option.some.inj hstep
    simp only [Action.row, Option.toList_none, List.append_nil]
    exact ⟨h.cut (Ring.trim_suffix newestID) rfl, le_rfl⟩
  | trimEventRing limit =>
    obtain rfl := Option.some.inj hstep
    simp only [Action.row, Option.toList_none, List.append_nil]
    exact ⟨h.cut (Ring.trimEventRing_suffix limit) rfl, le_rfl⟩
  | hub keys =>
    obtain rfl := Option.some.inj hstep
    simp only [Action.row, Option.toList_none, List.append_nil]
    exact ⟨h, le_rfl⟩
  | read now got =>
    obtain ⟨cursor, -, rfl⟩ := Option.map_eq_some_iff.mp hstep
    simp only [Action.row, Option.toList_none, List.append_nil]
    exact ⟨h, le_rfl⟩

/-! ## What is told of a log -/

variable {log later : List Row} {a₁ b₁ c₁ : ℤ}

theorem told_append_told (h : log.Pairwise fun x y => x.id < y.id) (hab : a₁ ≤ b₁) (hbc : b₁ ≤ c₁) :
    told rd log a₁ b₁ ++ told rd log b₁ c₁ = told rd log a₁ c₁ := by
  unfold told
  rw [← List.filter_append, between_append_between h hab hbc]

theorem told_append (h : ∀ row ∈ later, b₁ < row.id) :
    told rd (log ++ later) a₁ b₁ = told rd log a₁ b₁ := by
  unfold told
  rw [between_append h]

theorem told_self : told rd log a₁ a₁ = [] := by
  unfold told
  rw [between_self, List.filter_nil]

theorem mem_told {row : Row} :
    row ∈ told rd log a₁ b₁ ↔ row ∈ log ∧ (a₁ < row.id ∧ row.id ≤ b₁) ∧ rd.shows row = true := by
  unfold told
  rw [List.mem_filter, mem_between, and_assoc]

theorem told_sorted (h : log.Pairwise fun x y => x.id < y.id) :
    (told rd log a₁ b₁).Pairwise fun x y => x.id < y.id :=
  (between_pairwise h).sublist List.filter_sublist

theorem told_filter_le (h : c₁ ≤ b₁) :
    (told rd log a₁ b₁).filter (fun row => decide (row.id ≤ c₁)) = told rd log a₁ c₁ := by
  unfold told
  rw [← between_filter_le h, List.filter_filter, List.filter_filter]
  exact List.filter_congr fun row _ => Bool.and_comm _ _

/-- A reader that is where the ring allows reads the ring as if it were the log. -/
theorem Logged.told {after : ℤ} (h : Logged log r) (hgap : r.gap after = false) :
    told rd r.rows after b₁ = told rd log after b₁ := by
  obtain ⟨cut, rfl⟩ := h.suffix
  unfold EventFeed.told
  rw [between_suffix]
  intro row hrow
  have hsorted := (List.pairwise_append.mp h.sorted).2.2 row hrow
  have hseq := h.le_seq row (List.mem_append_left _ hrow)
  unfold Ring.gap Ring.minimum at hgap
  cases hrows : r.rows with
  | nil =>
    rw [hrows] at hgap
    simp only [List.head?_nil, Option.map_none, Option.getD_none] at hgap
    simp at hgap
    omega
  | cons first rest =>
    have hfirst := hsorted first (hrows ▸ List.mem_cons_self)
    have hpositive := r.positive first (hrows ▸ List.mem_cons_self)
    rw [hrows] at hgap
    simp at hgap
    have hnear : ¬ after < first.id - 1 := of_decide_eq_false (hgap.1.2 hpositive)
    omega

/-- The first events of a page tell the rows up to the last of them. -/
theorem tells_take {events : List Event} {k : ℕ} {e : Event}
    (h : log.Pairwise fun x y => x.id < y.id)
    (htells : List.Forall₂ (Tells codec rd) events (told rd log a₁ b₁)) (he : events[k]? = some e) :
    a₁ < e.id.position ∧ e.id.position ≤ b₁ ∧
      List.Forall₂ (Tells codec rd) (events.take (k + 1)) (told rd log a₁ e.id.position) := by
  obtain ⟨hk, rfl⟩ := List.getElem?_eq_some_iff.mp he
  have hk' : k < (told rd log a₁ b₁).length := htells.length_eq ▸ hk
  have hposition : events[k].id.position = (told rd log a₁ b₁)[k].id :=
    (htells.get hk hk').1
  obtain ⟨-, hrange, -⟩ := mem_told.mp (List.getElem_mem hk')
  refine ⟨hposition ▸ hrange.1, hposition ▸ hrange.2, ?_⟩
  have hfirst : (told rd log a₁ b₁).filter
      (fun row => decide (row.id ≤ (told rd log a₁ b₁)[k].id)) = (told rd log a₁ b₁).take (k + 1) :=
    filter_le_getElem (told_sorted h) hk'
  have htake : told rd log a₁ events[k].id.position = (told rd log a₁ b₁).take (k + 1) := by
    rw [← hfirst, hposition, told_filter_le hrange.2]
  rw [htake]
  exact List.forall₂_take (k + 1) htells

/-! ## What a step tells -/

theorem gets_page {p : Page} {now : ℤ} {got : Option ℕ} (h : (s.answer codec rd now).1 = .page p) :
    gets codec rd s (.read now got) = some (p.first got) := by
  unfold gets
  dsimp only
  rw [h]

theorem gets_resync {head : Cursor} {at_ now : ℤ} {got : Option ℕ}
    (h : (s.answer codec rd now).1 = .resync head at_) : gets codec rd s (.read now got) = none := by
  unfold gets
  dsimp only
  rw [h]

/-- What a step gives a reader at `c`: it moves on, and gets the rows it may see in between. -/
structure Progress (codec : Codec) (rd : Reader) (log : List Row) (c : Cursor) (got : List Event)
    (t : Session) (c' : Cursor) : Prop where
  cursor : t.cursor = .sealed c'
  forward : c.position ≤ c'.position
  behind : c'.position ≤ t.ring.seq
  tells : List.Forall₂ (Tells codec rd) got (told rd log c.position c'.position)

theorem Progress.refl {c : Cursor} (hc : t.cursor = .sealed c) (hle : c.position ≤ t.ring.seq) :
    Progress codec rd log c [] t c :=
  ⟨hc, le_rfl, hle, by rw [told_self]; exact List.Forall₂.nil⟩

theorem progress_page {c : Cursor} {p : Page} {now : ℤ} {got : Option ℕ} (hlog : Logged log s.ring)
    (hc : s.cursor = .sealed c) (hle : c.position ≤ s.ring.seq)
    (hanswer : (s.answer codec rd now).1 = .page p) (hstep : step codec rd s (.read now got) = some t) :
    ∃ c', Progress codec rd log c (p.first got) t c' := by
  obtain ⟨cursor, hcursor, rfl⟩ := Option.map_eq_some_iff.mp hstep
  rw [hanswer] at hcursor
  rcases read_page (Prod.ext hanswer rfl : s.answer codec rd now = (.page p, _)) with
    ⟨hempty, -⟩ | ⟨d, hd, hgap, hfollows⟩
  · rw [hc] at hempty
    cases hempty
  · obtain rfl : c = d := Raw.sealed.inj (hc.symm.trans hd)
    have htells := hfollows.tells
    rw [hlog.told hgap] at htells
    cases got with
    | none =>
      obtain rfl := Option.some.inj hcursor
      exact ⟨p.nextAfter, rfl, hfollows.forward, hfollows.newest, htells⟩
    | some k =>
      cases k with
      | zero =>
        obtain rfl := Option.some.inj hcursor
        exact ⟨c, Progress.refl hc hle⟩
      | succ k =>
        obtain ⟨e, he, rfl⟩ := Option.map_eq_some_iff.mp hcursor
        obtain ⟨hlow, hhigh, htake⟩ := tells_take hlog.sorted htells he
        exact ⟨e.id, rfl, hlow.le, hhigh.trans hfollows.newest, htake⟩

/-- **What one step gives the reader**: the rows that it may see between its position before and its
position after, unless it is told to start over. -/
theorem step_tells {c : Cursor} (hlog : Logged log s.ring) (hc : s.cursor = .sealed c)
    (hle : c.position ≤ s.ring.seq) (hstep : step codec rd s a = some t)
    (hquiet : ¬ Resynced codec rd s a) :
    ∃ c', Progress codec rd (log ++ (a.row s).toList) c ((gets codec rd s a).getD []) t c' := by
  obtain ⟨hlog', hseq⟩ := logged_step hlog hstep
  cases a with
  | append hint now =>
    obtain ⟨r', hr, rfl⟩ := Option.map_eq_some_iff.mp hstep
    exact ⟨c, Progress.refl hc (hle.trans hseq)⟩
  | trim newestID =>
    obtain rfl := Option.some.inj hstep
    exact ⟨c, Progress.refl hc hle⟩
  | trimEventRing limit =>
    obtain rfl := Option.some.inj hstep
    exact ⟨c, Progress.refl hc hle⟩
  | hub keys =>
    obtain rfl := Option.some.inj hstep
    exact ⟨c, Progress.refl hc hle⟩
  | read now got =>
    simp only [Action.row, Option.toList_none, List.append_nil]
    cases hanswer : (s.answer codec rd now).1 with
    | page p =>
      rw [gets_page hanswer]
      exact progress_page hlog hc hle hanswer hstep
    | resync head at_ =>
      rw [gets_resync hanswer]
      -- the answer was lost on the way
      obtain ⟨cursor, hcursor, rfl⟩ := Option.map_eq_some_iff.mp hstep
      obtain rfl : got = some 0 := by
        by_contra hgot
        exact hquiet ⟨now, got, head, at_, _, rfl, hgot, Prod.ext hanswer rfl⟩
      obtain rfl := Option.some.inj hcursor
      exact ⟨c, Progress.refl hc hle⟩

theorem step_resynced (hstep : step codec rd s a = some t) (h : Resynced codec rd s a) :
    ∃ c, t.cursor = .sealed c ∧ c.position = s.ring.seq ∧ gets codec rd s a = none ∧
      t.ring = s.ring ∧ a.row s = none := by
  obtain ⟨now, got, head, at_, keys, rfl, hgot, hanswer⟩ := h
  have hhead := read_resync hanswer
  obtain ⟨cursor, hcursor, rfl⟩ := Option.map_eq_some_iff.mp hstep
  refine ⟨head, ?_, hhead, gets_resync (congrArg Prod.fst hanswer), rfl, rfl⟩
  rw [hanswer] at hcursor
  cases got with
  | none => exact (Option.some.inj hcursor).symm
  | some k =>
    obtain ⟨k, rfl⟩ := Nat.exists_eq_succ_of_ne_zero fun hk => hgot (congrArg some hk)
    obtain ⟨e, he, rfl⟩ := Option.map_eq_some_iff.mp hcursor
    cases k with
    | zero =>
      obtain rfl := Option.some.inj he
      rfl
    | succ k => cases he

/-- A reader without a position gets none of the events, and is at the newest row. -/
theorem step_begins (hc : s.cursor = .empty) (hstep : step codec rd s a = some t) :
    gets codec rd s a = none ∧ t.cursor = .empty ∨
    (gets codec rd s a = some [] ∧ (t.cursor = .empty ∨
      ∃ c, t.cursor = .sealed c ∧ c.position = s.ring.seq) ∧ t.ring = s.ring) := by
  cases a with
  | append hint now =>
    obtain ⟨r', hr, rfl⟩ := Option.map_eq_some_iff.mp hstep
    exact Or.inl ⟨rfl, hc⟩
  | trim newestID =>
    obtain rfl := Option.some.inj hstep
    exact Or.inl ⟨rfl, hc⟩
  | trimEventRing limit =>
    obtain rfl := Option.some.inj hstep
    exact Or.inl ⟨rfl, hc⟩
  | hub keys =>
    obtain rfl := Option.some.inj hstep
    exact Or.inl ⟨rfl, hc⟩
  | read now got =>
    right
    obtain ⟨cursor, hcursor, rfl⟩ := Option.map_eq_some_iff.mp hstep
    have hanswer : (s.answer codec rd now).1 =
        .page ⟨[], (s.keys.seal s.ring.seq rd.cursorBinding now).1, false⟩ := by
      unfold Session.answer EventFeed.read
      rw [if_pos hc]
    rw [gets_page hanswer]
    rw [hanswer] at hcursor
    cases got with
    | none =>
      obtain rfl := Option.some.inj hcursor
      exact ⟨rfl, Or.inr ⟨_, rfl, rfl⟩, rfl⟩
    | some k =>
      refine ⟨by simp [Page.first], ?_, rfl⟩
      cases k with
      | zero =>
        obtain rfl := Option.some.inj hcursor
        exact Or.inl hc
      | succ k => cases hcursor

/-! ## The law -/

variable {s₀ : Session} {before after : List Action}

/-- Every row of a run: those that the ring began with, and those written since. -/
def written (codec : Codec) (rd : Reader) (s : Session) (es : List Action) : List Row :=
  s.ring.rows ++ appended codec rd s es

theorem written_concat (hrun : Machine.run (step codec rd) s₀ es = some s) :
    written codec rd s₀ (es ++ [a]) = written codec rd s₀ es ++ (a.row s).toList := by
  unfold written appended
  rw [Machine.outputs_concat hrun, List.append_assoc]

theorem received_concat (hrun : Machine.run (step codec rd) s₀ es = some s) :
    received codec rd s₀ (es ++ [a]) =
      received codec rd s₀ es ++ (gets codec rd s a).getD [] := by
  unfold received
  rw [Machine.outputs_concat hrun, List.flatten_append]
  cases gets codec rd s a <;> simp

/-- What a run keeps of the log, the reader's position, and what the reader has got. -/
structure Reading (codec : Codec) (rd : Reader) (s₀ : Session) (es : List Action) (s : Session) :
    Prop where
  logged : Logged (written codec rd s₀ es) s.ring
  placed : s.cursor = .empty ∨ ∃ c, s.cursor = .sealed c ∧ c.position ≤ s.ring.seq
  sorted : ((received codec rd s₀ es).map fun e => e.id.position).Pairwise (· < ·)
  past : ∀ e ∈ received codec rd s₀ es, ∃ c, s.cursor = .sealed c ∧ e.id.position ≤ c.position
  visible : ∀ e ∈ received codec rd s₀ es,
    ∃ row ∈ written codec rd s₀ es, rd.shows row = true ∧ Tells codec rd e row

theorem exists_tells {events : List Event} {rows : List Row}
    (h : List.Forall₂ (Tells codec rd) events rows) :
    ∀ e ∈ events, ∃ row ∈ rows, Tells codec rd e row := by
  induction h with
  | nil => exact fun e he => absurd he List.not_mem_nil
  | cons htells _ ih =>
    intro e he
    rcases List.mem_cons.mp he with rfl | he
    · exact ⟨_, List.mem_cons_self, htells⟩
    · obtain ⟨row, hrow, htells⟩ := ih e he
      exact ⟨row, List.mem_cons_of_mem _ hrow, htells⟩

/-- Nothing was got in a step that leaves the reader where it was, or further on. -/
theorem Reading.idle (h : Reading codec rd s₀ es s)
    (hrun : Machine.run (step codec rd) s₀ es = some s) (hstep : step codec rd s a = some t)
    (hgets : (gets codec rd s a).getD [] = [])
    (hplaced : t.cursor = .empty ∨ ∃ c, t.cursor = .sealed c ∧ c.position ≤ t.ring.seq)
    (hpast : ∀ c, s.cursor = .sealed c → ∃ c', t.cursor = .sealed c' ∧ c.position ≤ c'.position) :
    Reading codec rd s₀ (es ++ [a]) t := by
  have hreceived := received_concat (a := a) hrun
  rw [hgets, List.append_nil] at hreceived
  refine ⟨?_, hplaced, ?_, ?_, ?_⟩
  · rw [written_concat hrun]
    exact (logged_step h.logged hstep).1
  · rw [hreceived]
    exact h.sorted
  · rw [hreceived]
    intro e he
    obtain ⟨c, hc, hle⟩ := h.past e he
    obtain ⟨c', hc', hle'⟩ := hpast c hc
    exact ⟨c', hc', hle.trans hle'⟩
  · rw [hreceived, written_concat hrun]
    intro e he
    obtain ⟨row, hrow, hshows⟩ := h.visible e he
    exact ⟨row, List.mem_append_left _ hrow, hshows⟩

theorem Reading.progress {c c' : Cursor} (h : Reading codec rd s₀ es s)
    (hrun : Machine.run (step codec rd) s₀ es = some s) (hstep : step codec rd s a = some t)
    (hc : s.cursor = .sealed c)
    (hprogress : Progress codec rd (written codec rd s₀ es ++ (a.row s).toList) c
      ((gets codec rd s a).getD []) t c') :
    Reading codec rd s₀ (es ++ [a]) t := by
  have hlog := (logged_step h.logged hstep).1
  have hrange : ∀ e ∈ (gets codec rd s a).getD [], c.position < e.id.position ∧
      e.id.position ≤ c'.position := by
    intro e he
    obtain ⟨row, hrow, htells⟩ := exists_tells hprogress.tells e he
    exact htells.1 ▸ (mem_told.mp hrow).2.1
  refine ⟨?_, Or.inr ⟨c', hprogress.cursor, hprogress.behind⟩, ?_, ?_, ?_⟩
  · rw [written_concat hrun]
    exact hlog
  · rw [received_concat hrun, List.map_append, List.pairwise_append]
    refine ⟨h.sorted, ?_, fun x hx y hy => ?_⟩
    · rw [forall₂_told hprogress.tells, List.pairwise_map]
      exact told_sorted hlog.sorted
    · obtain ⟨e, he, rfl⟩ := List.mem_map.mp hx
      obtain ⟨e', he', rfl⟩ := List.mem_map.mp hy
      obtain ⟨d, hd, hle⟩ := h.past e he
      obtain rfl : c = d := Raw.sealed.inj (hc.symm.trans hd)
      exact hle.trans_lt (hrange e' he').1
  · rw [received_concat hrun]
    intro e he
    refine ⟨c', hprogress.cursor, ?_⟩
    rcases List.mem_append.mp he with he | he
    · obtain ⟨d, hd, hle⟩ := h.past e he
      obtain rfl : c = d := Raw.sealed.inj (hc.symm.trans hd)
      exact hle.trans hprogress.forward
    · exact (hrange e he).2
  · rw [received_concat hrun, written_concat hrun]
    intro e he
    rcases List.mem_append.mp he with he | he
    · obtain ⟨row, hrow, hshows⟩ := h.visible e he
      exact ⟨row, List.mem_append_left _ hrow, hshows⟩
    · obtain ⟨row, hrow, htells⟩ := exists_tells hprogress.tells e he
      obtain ⟨hin, -, hshows⟩ := mem_told.mp hrow
      exact ⟨row, hin, hshows, htells⟩

theorem Reading.step (h : Reading codec rd s₀ es s)
    (hrun : Machine.run (step codec rd) s₀ es = some s) (hstep : EventFeed.step codec rd s a = some t) :
    Reading codec rd s₀ (es ++ [a]) t := by
  rcases h.placed with hc | ⟨c, hc, hle⟩
  · -- the reader has no position yet
    rcases step_begins hc hstep with ⟨hgets, ht⟩ | ⟨hgets, ht, hring⟩
    · refine h.idle hrun hstep (by rw [hgets]; rfl) (Or.inl ht) fun c hs => ?_
      rw [hc] at hs
      cases hs
    · refine h.idle hrun hstep (by rw [hgets]; rfl) ?_ fun c hs => ?_
      · rcases ht with ht | ⟨c, ht, hposition⟩
        · exact Or.inl ht
        · exact Or.inr ⟨c, ht, by rw [hposition, hring]⟩
      · rw [hc] at hs
        cases hs
  · by_cases hresynced : Resynced codec rd s a
    · obtain ⟨c', ht, hposition, hgets, hring, -⟩ := step_resynced hstep hresynced
      refine h.idle hrun hstep (by rw [hgets]; rfl)
        (Or.inr ⟨c', ht, by rw [hposition, hring]⟩) fun d hd => ⟨c', ht, ?_⟩
      obtain rfl : c = d := Raw.sealed.inj (hc.symm.trans hd)
      exact hle.trans hposition.ge
    · obtain ⟨c', hprogress⟩ := step_tells h.logged hc hle hstep hresynced
      exact h.progress hrun hstep hc hprogress

theorem Reading.run (h : s₀.cursor = .empty) (hrun : Machine.run (EventFeed.step codec rd) s₀ es = some s) :
    Reading codec rd s₀ es s := by
  induction es using List.reverseRecOn generalizing s with
  | nil =>
    obtain rfl := Option.some.inj hrun
    refine ⟨?_, Or.inl h, List.Pairwise.nil, fun e he => absurd he List.not_mem_nil,
      fun e he => absurd he List.not_mem_nil⟩
    have hnone : written codec rd s₀ [] = s₀.ring.rows := by
      unfold written appended
      exact List.append_nil _
    rw [hnone]
    exact Logged.of_ring s₀.ring
  | append_singleton es a ih =>
    obtain ⟨t, ht, hstep⟩ := Machine.run_concat.mp hrun
    exact (ih ht).step ht hstep

theorem seq_lt_row : ∀ row ∈ (a.row s).toList, s.ring.seq < row.id := by
  intro row hrow
  cases a with
  | append hint now =>
    obtain rfl := List.mem_singleton.mp hrow
    dsimp only
    omega
  | _ => exact absurd hrow List.not_mem_nil

/-- Between two points of a run with no resync between them, the reader gets each row that it may see
and that is numbered between its positions there. -/
theorem received_between {c : Cursor} (h₀ : s₀.cursor = .empty)
    (hbefore : Machine.run (step codec rd) s₀ before = some t)
    (hafter : Machine.run (step codec rd) t after = some s)
    (hquiet : ¬ Machine.Happened (step codec rd) (Resynced codec rd) t after)
    (hc : t.cursor = .sealed c) :
    ∃ c', s.cursor = .sealed c' ∧ c.position ≤ c'.position ∧
      List.Forall₂ (Tells codec rd) (received codec rd t after)
        (told rd (written codec rd s₀ (before ++ after)) c.position c'.position) := by
  induction after using List.reverseRecOn generalizing s with
  | nil =>
    obtain rfl := Option.some.inj hafter
    exact ⟨c, hc, le_rfl, by rw [told_self]; exact List.Forall₂.nil⟩
  | append_singleton after a ih =>
    obtain ⟨u, hu, hstep⟩ := Machine.run_concat.mp hafter
    obtain ⟨hquiet, hnow⟩ := not_or.mp fun hor => hquiet ((Machine.happened_concat hu).mpr hor)
    obtain ⟨d, hd, hforward, htells⟩ := ih hu hquiet
    have hrun := Machine.run_append.mpr ⟨t, hbefore, hu⟩
    have hreading := Reading.run h₀ hrun
    have hle : d.position ≤ u.ring.seq := by
      rcases hreading.placed with hempty | ⟨d', hd', hle⟩
      · rw [hd] at hempty
        cases hempty
      · obtain rfl : d = d' := Raw.sealed.inj (hd.symm.trans hd')
        exact hle
    obtain ⟨c', hprogress⟩ := step_tells hreading.logged hd hle hstep hnow
    refine ⟨c', hprogress.cursor, hforward.trans hprogress.forward, ?_⟩
    rw [received_concat hu, ← List.append_assoc, written_concat hrun,
      ← told_append_told (logged_step hreading.logged hstep).1.sorted hforward hprogress.forward,
      told_append fun row hrow => hle.trans_lt (seq_lt_row row hrow)]
    exact List.rel_append htells hprogress.tells

/-- What the feed owes a reader that began without a position. -/
structure Delivered (codec : Codec) (rd : Reader) (s₀ : Session) (es : List Action) (s : Session) :
    Prop where
  /-- No event comes twice, and none out of order. -/
  once : ((received codec rd s₀ es).map fun e => e.id.position).Pairwise (· < ·)
  /-- An event is a row that was written, that is addressed to the reader and visible to it. -/
  visible : ∀ e ∈ received codec rd s₀ es,
    ∃ row ∈ written codec rd s₀ es, rd.shows row = true ∧ Tells codec rd e row
  /-- Until it is told to start over, the reader gets each such row between its positions, in order. -/
  complete : ∀ before after t c, es = before ++ after →
    Machine.run (step codec rd) s₀ before = some t → t.cursor = .sealed c →
    ¬ Machine.Happened (step codec rd) (Resynced codec rd) t after →
    ∃ c', s.cursor = .sealed c' ∧ c.position ≤ c'.position ∧
      List.Forall₂ (Tells codec rd) (received codec rd t after)
        (told rd (written codec rd s₀ es) c.position c'.position)
  /-- A reader that is told to start over is at or after every row. -/
  resumes : ∀ before a t, es = before ++ [a] → Machine.run (step codec rd) s₀ before = some t →
    Resynced codec rd t a →
    ∃ c, s.cursor = .sealed c ∧ ∀ row ∈ written codec rd s₀ es, row.id ≤ c.position
  /-- A page that isn't empty moves the reader on; one that leaves nothing behind moves it past every
  row, the hidden ones too; and only a page with events leaves something behind. -/
  advances : ∀ now p, (s.answer codec rd now).1 = .page p →
    (∀ c, s.cursor = .sealed c → p.events ≠ [] → c.position < p.nextAfter.position) ∧
    (p.more = false → ∀ row ∈ written codec rd s₀ es, row.id ≤ p.nextAfter.position) ∧
    (p.more = true → p.events ≠ [])

/-- **The feed delivers.** In every run of appends, trims and reads, with pages lost in part or whole
and keys replaced at any point, the reader gets each event that is addressed to it and visible to it
once, in order and without a gap, until it is told to start over; and then it is past every event. -/
theorem delivery (codec : Codec) (rd : Reader) (r : Ring) (keys : CursorKeys) (es : List Action)
    (s : Session) (hrun : Machine.run (step codec rd) ⟨r, keys, .empty⟩ es = some s) :
    Delivered codec rd ⟨r, keys, .empty⟩ es s := by
  have hreading := Reading.run rfl hrun
  refine ⟨hreading.sorted, hreading.visible, ?_, ?_, ?_⟩
  · rintro before after t c rfl hbefore hc hquiet
    obtain ⟨u, hu, hafter⟩ := Machine.run_append.mp hrun
    obtain rfl := Option.some.inj (hbefore.symm.trans hu)
    exact received_between rfl hbefore hafter hquiet hc
  · rintro before a t rfl hbefore hresynced
    obtain ⟨u, hu, hstep⟩ := Machine.run_concat.mp hrun
    obtain rfl := Option.some.inj (hbefore.symm.trans hu)
    obtain ⟨c, hc, hposition, -, hring, -⟩ := step_resynced hstep hresynced
    refine ⟨c, hc, fun row hrow => ?_⟩
    rw [hposition, ← hring]
    exact hreading.logged.le_seq row hrow
  · intro now p hanswer
    rcases read_page (Prod.ext hanswer rfl : s.answer codec rd now = (.page p, _)) with
      ⟨hempty, hevents, hposition, hmore⟩ | ⟨d, hd, hgap, hfollows⟩
    · refine ⟨fun c hc => ?_, fun _ row hrow => ?_, fun hfull => ?_⟩
      · rw [hempty] at hc
        cases hc
      · rw [hposition]
        exact hreading.logged.le_seq row hrow
      · rw [hmore] at hfull
        cases hfull
    · refine ⟨fun c hc hevents => ?_, fun hrest row hrow => ?_, hfollows.full⟩
      · obtain rfl : c = d := Raw.sealed.inj (hc.symm.trans hd)
        obtain ⟨e, he⟩ := List.exists_mem_of_ne_nil _ hevents
        obtain ⟨row, hrow, -⟩ := exists_tells hfollows.tells e he
        obtain ⟨-, hrange, -⟩ := mem_told.mp hrow
        exact hrange.1.trans_le hrange.2
      · rw [hfollows.rest hrest]
        exact hreading.logged.le_seq row hrow

/-- A member of the household, reading short texts. -/
def member : Reader :=
  ⟨"local", "account", "profile", "member", "", false, false, fun _ => true, fun _ => true⟩

def plainCodec : Codec := ⟨fun _ => false, fun _ => none, fun _ => none, fun _ => "", fun _ => 200⟩

/-- Something for everyone, something for the administrator, and a page that is lost on the way. -/
def reading : List Action :=
  [.read 1000 none, .append ⟨"server", "library.changed", "", "", "", ""⟩ 1001,
    .append ⟨"admin", "operation.changed", "", "", "", ""⟩ 1002, .read 1003 (some 0),
    .read 1004 none]

theorem delivery_reading : ∃ s,
    Machine.run (step plainCodec member) ⟨⟨[], 0, .nil, nofun, nofun, le_rfl⟩, {}, .empty⟩ reading =
      some s ∧
    Delivered plainCodec member ⟨⟨[], 0, .nil, nofun, nofun, le_rfl⟩, {}, .empty⟩ reading s :=
  ⟨_, rfl, delivery plainCodec member _ _ reading _ rfl⟩

end Portico.EventFeed
