import Portico.Lib.Number

/-!
# A shuffle that changes gently

A window of a shuffled queue is put in an order in which each song is followed by the one that sounds most
like it, among the next ones. A song isn't followed by itself, nor by one of the same artist, where there is
another choice.

## Main definitions

* `SmoothTrack`: an occurrence of a song, with its embedding and its artists
* `clusterDot`: how alike two songs sound
* `choose`, `smoothFrom`: the next song, and all that follow
* `smoothWindow`: the occurrences of a window in their new order

## Main results

* `choose_isSome`: a song is always found
* `smoothFrom_perm`: each occurrence is used once
* `smoothWindow_perm`: a window that is accepted is reordered
-/

namespace Portico.Sonic

open Number

/-! ## Embeddings -/

def dimensions : ℕ := 200

/-- A direction in the space of sounds. -/
structure Embedding where
  values : List Number
  size : values.length = dimensions
deriving DecidableEq

/-- The distance from zero. -/
def abs : Number → Number
  | finite a => finite |a|
  | infinite _ => infinite false
  | nan => nan

/-- Finite values whose squares sum to one, up to rounding. -/
def Embedding.valid (e : Embedding) : Bool :=
  (e.values.all fun v => v ≠ nan && v ≠ infinite true && v ≠ infinite false) &&
    let error := abs (e.values.foldl (fun squared v => squared + v * v) 0 - 1)
    error ≠ nan && !(nearest (1 / 100000) < error)

/-- `min(1, max(-1, v))`. -/
def clamp (v : Number) : Number := if v < -1 then -1 else if 1 < v then 1 else v

/-- How alike two songs sound. -/
def clusterDot (a b : Embedding) : Number :=
  clamp ((a.values.zip b.values).foldl (fun value v => value + v.1 * v.2) 0)

/-! ## Tracks -/

/-- An occurrence of a song. -/
structure SmoothTrack where
  occurrence : ℤ
  id : ℤ
  vector : Embedding
  artists : List ℤ
deriving DecidableEq

def smoothWindowMax : ℕ := 256
def smoothLookahead : ℕ := 64

inductive Fault
  | embedding
  | range
  | fuel
deriving DecidableEq, Repr

def smoothArtistOverlap (a b : List ℤ) : Bool := a.any fun x => b.any fun y => x = y

def validSmoothTrack (track : SmoothTrack) : Bool :=
  0 < track.id && track.vector.valid && track.artists.all fun artist => 0 < artist

/-! ## The next song -/

/-- Another song is among the next ones. -/
def hasOtherSong (last : SmoothTrack) (window : List SmoothTrack) : Bool :=
  window.any fun candidate => candidate.id ≠ last.id

/-- A song of other artists is among those that may be chosen. -/
def hasOtherArtist (last : SmoothTrack) (otherSong : Bool) (window : List SmoothTrack) : Bool :=
  window.any fun candidate => (!otherSong || candidate.id ≠ last.id) && last.artists ≠ [] &&
    candidate.artists ≠ [] && !smoothArtistOverlap last.artists candidate.artists

/-- A song that isn't to follow. -/
def skips (last : SmoothTrack) (otherSong otherArtist : Bool) (candidate : SmoothTrack) : Bool :=
  otherSong && candidate.id = last.id ||
    otherArtist && (candidate.artists = [] || smoothArtistOverlap last.artists candidate.artists)

/-- The choice after one more candidate: a later one has to be more alike by more than a rounding error. -/
def better (last : SmoothTrack) (skip : SmoothTrack → Bool) (chosen : Option (ℕ × Number))
    (candidate : SmoothTrack × ℕ) : Option (ℕ × Number) :=
  if skip candidate.1 then chosen
  else
    let next := clusterDot last.vector candidate.1.vector
    match chosen with
    | none => some (candidate.2, next)
    | some (at_, score) =>
      if score + nearest (1 / 1000000000000) < next then some (candidate.2, next) else some (at_, score)

/-- The position of the next song, and how alike it is. -/
def choose (last : SmoothTrack) (window : List SmoothTrack) : Option (ℕ × Number) :=
  let otherSong := hasOtherSong last window
  let otherArtist := hasOtherArtist last otherSong window
  window.zipIdx.foldl (better last (skips last otherSong otherArtist)) none

/-- The occurrences that follow a song. -/
def smoothFrom : ℕ → SmoothTrack → List SmoothTrack → Except Fault (List ℤ)
  | _, _, [] => .ok []
  | 0, _, _ :: _ => .error .fuel
  | fuel + 1, last, pending =>
    match choose last (pending.take smoothLookahead) with
    | none => .error .embedding
    | some (chosen, _) =>
      match pending[chosen]? with
      | none => .error .range
      | some next => (smoothFrom fuel next (pending.eraseIdx chosen)).map (next.occurrence :: ·)

/-! ## A window -/

/-- What a window is refused for: its size, the song before it, an occurrence that isn't a number or comes
twice, or a song that isn't known well enough. -/
def accepts (input : List SmoothTrack) (previous : Option SmoothTrack) : Bool :=
  input.length ≤ smoothWindowMax && previous.all validSmoothTrack &&
    (input.all fun track => 0 ≤ track.occurrence && validSmoothTrack track) &&
    (input.map SmoothTrack.occurrence).Nodup

/-- **The occurrences of a window** in an order that changes gently, from the song before it or from its first
one. -/
def smoothWindow (input : List SmoothTrack) (previous : Option SmoothTrack) : Except Fault (List ℤ) :=
  if !accepts input previous then .error .embedding
  else match previous, input with
    | some last, _ => smoothFrom input.length last input
    | none, [] => .ok []
    | none, first :: rest => (smoothFrom rest.length first rest).map (first.occurrence :: ·)

variable {last : SmoothTrack} {window pending input : List SmoothTrack} {previous : Option SmoothTrack}
  {skip : SmoothTrack → Bool} {out : List ℤ} {fuel : ℕ}

/-! ## A song is found -/

/-- A choice is of a candidate, and there is one after a candidate that isn't skipped. -/
theorem foldl_better (l : List (SmoothTrack × ℕ)) (chosen : Option (ℕ × Number)) :
    (l.foldl (better last skip) chosen = chosen ∨
      ∃ p ∈ l, ∃ score, l.foldl (better last skip) chosen = some (p.2, score)) ∧
    ((chosen ≠ none ∨ ∃ p ∈ l, skip p.1 = false) → l.foldl (better last skip) chosen ≠ none) := by
  induction l generalizing chosen with
  | nil =>
    refine ⟨Or.inl rfl, ?_⟩
    rintro (h | ⟨p, hp, -⟩)
    · exact h
    · cases hp
  | cons p l ih =>
    rw [List.foldl_cons]
    obtain ⟨hwhich, hsome⟩ := ih (better last skip chosen p)
    -- one candidate is skipped, or it takes the place of the choice, or it leaves it
    have hstep : (better last skip chosen p = chosen ∨ ∃ score, better last skip chosen p = some (p.2, score)) ∧
        ((chosen ≠ none ∨ skip p.1 = false) → better last skip chosen p ≠ none) := by
      unfold better
      cases hskip : skip p.1 with
      | true =>
        refine ⟨Or.inl (if_pos rfl), ?_⟩
        rintro (h | h)
        · rw [if_pos rfl]
          exact h
        · cases h
      | false =>
        rw [if_neg Bool.false_ne_true]
        cases chosen with
        | none => exact ⟨Or.inr ⟨_, rfl⟩, nofun⟩
        | some c =>
          simp only
          split_ifs
          · exact ⟨Or.inr ⟨_, rfl⟩, nofun⟩
          · exact ⟨Or.inl rfl, nofun⟩
    constructor
    · rcases hwhich with hwhich | ⟨q, hq, score, hwhich⟩
      · rw [hwhich]
        rcases hstep.1 with h | ⟨score, h⟩
        · exact Or.inl h
        · exact Or.inr ⟨p, List.mem_cons_self, score, h⟩
      · exact Or.inr ⟨q, List.mem_cons_of_mem _ hq, score, hwhich⟩
    · rintro (h | ⟨q, hq, hskip⟩)
      · exact hsome (Or.inl (hstep.2 (Or.inl h)))
      · rcases List.mem_cons.mp hq with rfl | hq
        · exact hsome (Or.inl (hstep.2 (Or.inr hskip)))
        · exact hsome (Or.inr ⟨q, hq, hskip⟩)

theorem exists_not_skipped (hne : window ≠ []) : ∃ candidate ∈ window,
    skips last (hasOtherSong last window) (hasOtherArtist last (hasOtherSong last window) window) candidate =
      false := by
  cases hartist : hasOtherArtist last (hasOtherSong last window) window with
  | true =>
    unfold hasOtherArtist at hartist
    obtain ⟨candidate, hmem, hcandidate⟩ := List.any_eq_true.mp hartist
    simp only [Bool.and_eq_true, Bool.or_eq_true, Bool.not_eq_true', decide_eq_true_eq] at hcandidate
    obtain ⟨⟨⟨hsong, -⟩, hsome⟩, hother⟩ := hcandidate
    refine ⟨candidate, hmem, ?_⟩
    unfold skips
    rw [hother, decide_eq_false hsome, Bool.or_self, Bool.and_false, Bool.or_false]
    rcases hsong with hsong | hsong
    · rw [hsong, Bool.false_and]
    · rw [decide_eq_false hsong, Bool.and_false]
  | false =>
    unfold skips
    cases hsong : hasOtherSong last window with
    | true =>
      unfold hasOtherSong at hsong
      obtain ⟨candidate, hmem, hcandidate⟩ := List.any_eq_true.mp hsong
      refine ⟨candidate, hmem, ?_⟩
      rw [decide_eq_false (of_decide_eq_true hcandidate)]
      rfl
    | false =>
      obtain ⟨candidate, hmem⟩ := List.exists_mem_of_ne_nil window hne
      exact ⟨candidate, hmem, rfl⟩

/-- **A song is always found**, whatever the songs sound like. -/
theorem choose_isSome (hne : window ≠ []) : ∃ at_ score, choose last window = some (at_, score) ∧ at_ < window.length := by
  obtain ⟨candidate, hmem, hskip⟩ := @exists_not_skipped last _ hne
  obtain ⟨i, hi, hcandidate⟩ := List.getElem_of_mem hmem
  obtain ⟨hwhich, hsome⟩ := @foldl_better last (skips last (hasOtherSong last window)
    (hasOtherArtist last (hasOtherSong last window) window)) window.zipIdx none
  have hfound := hsome (Or.inr ⟨(candidate, i), List.mk_mem_zipIdx_iff_getElem?.mpr (by simp [hi, hcandidate]), hskip⟩)
  rcases hwhich with hnone | ⟨p, hp, score, hchosen⟩
  · exact absurd hnone hfound
  · refine ⟨p.2, score, hchosen, ?_⟩
    exact (List.mem_zipIdx' (x := p.1) (i := p.2) hp).1

/-! ## Each occurrence is used once -/

/-- **All that follow a song**: each occurrence is used once, and no call fails. -/
theorem smoothFrom_perm (hfuel : pending.length ≤ fuel) :
    ∃ out, smoothFrom fuel last pending = .ok out ∧ out.Perm (pending.map SmoothTrack.occurrence) := by
  induction fuel generalizing last pending with
  | zero =>
    obtain rfl := List.length_eq_zero_iff.mp (Nat.le_zero.mp hfuel)
    exact ⟨[], rfl, List.Perm.refl _⟩
  | succ fuel ih =>
    cases pending with
    | nil => exact ⟨[], rfl, List.Perm.refl _⟩
    | cons track rest =>
      have hne : (track :: rest).take smoothLookahead ≠ [] := by simp [smoothLookahead]
      obtain ⟨chosen, score, hchosen, hlt⟩ := @choose_isSome last _ hne
      have hlt : chosen < (track :: rest).length := hlt.trans_le (List.length_take_le' _ _)
      have hlength : ((track :: rest).eraseIdx chosen).length ≤ fuel := by
        rw [List.length_eraseIdx_of_lt hlt]
        exact Nat.sub_le_of_le_add hfuel
      obtain ⟨out, hout, hperm⟩ := @ih ((track :: rest).get ⟨chosen, hlt⟩) _ hlength
      refine ⟨((track :: rest).get ⟨chosen, hlt⟩).occurrence :: out, ?_, ?_⟩
      · rw [smoothFrom, hchosen]
        simp only
        rw [List.getElem?_eq_getElem hlt]
        simp only
        rw [List.get_eq_getElem] at hout
        rw [hout]
        · rfl
        · exact nofun
      · refine (hperm.cons _).trans ?_
        rw [← List.map_cons]
        exact (List.getElem_cons_eraseIdx_perm hlt).map _

/-! ## A window -/

/-- A window that can be put in another order: at most 256 different occurrences of songs that are known well
enough, after such a song or none. -/
structure Smoothable (input : List SmoothTrack) (previous : Option SmoothTrack) : Prop where
  size : input.length ≤ 256
  previous : ∀ last ∈ previous, validSmoothTrack last = true
  tracks : ∀ track ∈ input, 0 ≤ track.occurrence ∧ validSmoothTrack track = true
  occurrences : (input.map SmoothTrack.occurrence).Nodup

theorem accepts_iff : accepts input previous = true ↔ Smoothable input previous := by
  unfold accepts
  simp only [Bool.and_eq_true, decide_eq_true_eq, List.all_eq_true, Option.all_eq_true]
  constructor
  · rintro ⟨⟨⟨hsize, hprevious⟩, htracks⟩, hnodup⟩
    exact ⟨hsize, hprevious, htracks, hnodup⟩
  · rintro ⟨hsize, hprevious, htracks, hnodup⟩
    exact ⟨⟨⟨hsize, hprevious⟩, htracks⟩, hnodup⟩

/-- **A window is reordered**: each of its occurrences comes once, the first one first when there is no song
before. A window that can't be is refused. -/
theorem smoothWindow_perm (input : List SmoothTrack) (previous : Option SmoothTrack) :
    (Smoothable input previous → ∃ out, smoothWindow input previous = .ok out ∧
      out.Perm (input.map SmoothTrack.occurrence) ∧
      (previous = none → out.head? = (input.map SmoothTrack.occurrence).head?)) ∧
    (¬ Smoothable input previous → smoothWindow input previous = .error .embedding) := by
  rw [← accepts_iff]
  constructor
  · intro haccepts
    unfold smoothWindow
    rw [haccepts]
    cases previous with
    | some last =>
      obtain ⟨out, hout, hperm⟩ := @smoothFrom_perm last input _ le_rfl
      exact ⟨out, hout, hperm, nofun⟩
    | none =>
      cases input with
      | nil => exact ⟨[], rfl, List.Perm.refl _, fun _ => rfl⟩
      | cons first rest =>
        obtain ⟨out, hout, hperm⟩ := @smoothFrom_perm first rest _ le_rfl
        refine ⟨first.occurrence :: out, ?_, hperm.cons _, fun _ => rfl⟩
        show (smoothFrom rest.length first rest).map (first.occurrence :: ·) = _
        rw [hout]
        rfl
  · intro hrefuses
    unfold smoothWindow
    rw [Bool.eq_false_iff.mpr hrefuses]
    rfl

/-- An occurrence of a song with one tone. -/
def tone (occurrence : ℤ) : SmoothTrack where
  occurrence
  id := 1
  vector := ⟨1 :: List.replicate 199 0, rfl⟩
  artists := []

theorem tone_valid (occurrence : ℤ) : validSmoothTrack (tone occurrence) = true := by
  show validSmoothTrack (tone 0) = true
  decide +kernel

example : smoothWindow [tone 0, tone 1, tone 2] (some (tone 7)) = .ok [0, 1, 2] := by decide +kernel

/-- An occurrence that comes twice, a window of 257 songs, and a song before it that isn't known: all are
refused, although the window's songs are known well. -/
theorem smoothWindow_refuses :
    ((∀ track ∈ [tone 0, tone 0], validSmoothTrack track = true) ∧
      smoothWindow [tone 0, tone 0] none = .error .embedding) ∧
    ((∀ track ∈ (List.range 257).map fun n : ℕ => tone n, validSmoothTrack track = true) ∧
      smoothWindow ((List.range 257).map fun n : ℕ => tone n) none = .error .embedding) ∧
    (validSmoothTrack (tone 0) = true ∧
      smoothWindow [tone 0] (some { tone 1 with id := 0 }) = .error .embedding) := by
  refine ⟨⟨?_, by decide +kernel⟩, ⟨fun track htrack => ?_, ?_⟩, tone_valid 0, by decide +kernel⟩
  · intro track htrack
    rcases List.mem_pair.mp htrack with rfl | rfl
    · exact tone_valid 0
    · exact tone_valid 0
  · obtain ⟨n, -, rfl⟩ := List.mem_map.mp htrack
    exact tone_valid n
  · have hrefuses : ¬ Smoothable ((List.range 257).map fun n : ℕ => tone n) none := by
      rintro ⟨hsize, -, -, -⟩
      rw [List.length_map, List.length_range] at hsize
      omega
    unfold smoothWindow
    rw [Bool.eq_false_iff.mpr fun h => hrefuses (accepts_iff.mp h)]
    rfl

end Portico.Sonic
