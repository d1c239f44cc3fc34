import Portico.Lib.Checked
import Portico.Mp4.Boxes

/-!
# Reads of boxes stay in the string

The boxes of a range tile it. Every function over them ends in a result or in a refusal, with one
exception: the edit is written from the track header once more, without the check that the reading
of the time scales makes, and a track that ends in an empty header stops the program.

## Main results

* `mp4Boxes_yields`: boxes tile their range
* `mp4Timescales_yields`, `rebaseFragments_yields`: results or refusals
* `boxes_in_range`: all of it together
-/

namespace Portico.Mp4

open Bytes Words

/-- A result with a property, or a refusal. -/
abbrev Refuses {α : Type} (P : α → Prop) (x : Except Fault α) : Prop := Yields (· = Fault.box) P x

variable {data init media : Data} {i j start stop : ℕ}

/-! ## Reads -/

theorem uint32_yields (h : i + 4 ≤ data.length) : Refuses (· < 2 ^ 32) (uint32 data i) := by
  obtain ⟨v, hv⟩ := exists_wordAt h
  rw [uint32, hv]
  exact wordAt_lt hv

theorem uint64_yields (h : i + 8 ≤ data.length) : Refuses (· < 2 ^ 64) (uint64 data i) := by
  obtain ⟨v, hv⟩ := exists_wordAt h
  rw [uint64, hv]
  exact wordAt_lt hv

theorem byteAt_yields (h : i + 1 ≤ data.length) : Refuses (· < 256) (byteAt data i) := by
  obtain ⟨v, hv⟩ := exists_wordAt h
  rw [byteAt, hv]
  exact wordAt_lt hv

theorem bytesAt_yields (hij : i ≤ j) (h : j ≤ data.length) :
    Refuses (· = slice data i j) (bytesAt data i j) := by
  rw [bytesAt, if_pos ⟨hij, h⟩]
  rfl

/-! ## Boxes tile a range -/

/-- Boxes that fill a range in order, each with its header before its body. -/
def Tiles (data : Data) : ℕ → ℕ → List Box → Prop
  | start, stop, [] => start = stop
  | start, stop, b :: bs =>
    b.start = start ∧ b.kind = slice data (start + 4) (start + 8) ∧
      (b.body = start + 8 ∨ b.body = start + 16) ∧ b.body ≤ b.stop ∧ Tiles data b.stop stop bs

theorem Tiles.le {bs : List Box} (h : Tiles data start stop bs) : start ≤ stop := by
  induction bs generalizing start with
  | nil => exact h.le
  | cons b bs ih =>
    obtain ⟨-, -, hbody, hle, hrest⟩ := h
    have := ih hrest
    omega

theorem Tiles.stop_eq {before : List Box} {b : Box} (h : Tiles data start stop (before ++ [b])) :
    b.stop = stop := by
  induction before generalizing start with
  | nil => exact h.2.2.2.2
  | cons c before ih => exact ih h.2.2.2.2

theorem Tiles.mem {bs : List Box} {b : Box} (h : Tiles data start stop bs) (hb : b ∈ bs) :
    start ≤ b.start ∧ b.start + 8 ≤ b.body ∧ b.body ≤ b.stop ∧ b.stop ≤ stop := by
  induction bs generalizing start with
  | nil => cases hb
  | cons c bs ih =>
    obtain ⟨rfl, -, hbody, hle, hrest⟩ := h
    have hstop := hrest.le
    rcases List.mem_cons.mp hb with rfl | hb
    · omega
    · have := ih hrest hb
      omega

theorem sizeAt_yields {room : ℕ} (h8 : 8 ≤ room) (h : i + room ≤ data.length) :
    Refuses (fun r => r.2 = 8 ∨ r.2 = 16) (sizeAt data room i) := by
  refine (uint32_yields (by omega)).bind fun size _ => ?_
  by_cases h1 : size = 1
  · rw [if_pos h1]
    refine Yields.guard rfl fun h16 => ?_
    exact (uint64_yields (by omega)).bind fun _ _ => .inr rfl
  · rw [if_neg h1]
    exact .inl rfl

theorem boxesFrom_yields {fuel found : ℕ} (hi : i ≤ stop) (hstop : stop ≤ data.length)
    (hfuel : stop - i ≤ fuel) : Refuses (Tiles data i stop) (boxesFrom data stop fuel i found) := by
  induction fuel generalizing i found with
  | zero =>
    rw [boxesFrom, if_neg (by omega)]
    show i = stop
    omega
  | succ fuel ih =>
    rw [boxesFrom]
    by_cases hlt : i < stop
    · rw [if_pos hlt]
      refine Yields.guard rfl fun h8 => ?_
      refine (sizeAt_yields (by omega) (by omega)).bind fun r hr => ?_
      obtain ⟨size, header⟩ := r
      refine Yields.guard rfl fun hsize => ?_
      simp only at hr hsize ⊢
      generalize (if size = 0 then stop - i else size) = size at hsize
      refine (bytesAt_yields (by omega) (by omega)).bind fun kind hkind => ?_
      have hstep : i + 8 ≤ i + size := by omega
      refine (ih (by omega) (by omega)).bind fun rest hrest => ?_
      refine ⟨rfl, hkind, ?_, ?_, hrest⟩
      · show i + header = i + 8 ∨ i + header = i + 16
        omega
      · show i + header ≤ i + size
        omega
    · rw [if_neg hlt]
      show i = stop
      omega

/-- **The boxes of a range tile it.** -/
theorem mp4Boxes_yields (hle : start ≤ stop) (hstop : stop ≤ data.length) :
    Refuses (Tiles data start stop) (mp4Boxes data start stop) :=
  boxesFrom_yields hle hstop le_rfl

theorem tiles_of_ok {bs : List Box} (h : mp4Boxes data 0 data.length = .ok bs) :
    Tiles data 0 data.length bs :=
  (mp4Boxes_yields (Nat.zero_le _) le_rfl).of_ok h

/-- A box of a string. -/
def Within (data : Data) (b : Box) : Prop := b.body ≤ b.stop ∧ b.stop ≤ data.length

theorem Tiles.within {bs : List Box} {b : Box} (h : Tiles data start stop bs) (hb : b ∈ bs)
    (hstop : stop ≤ data.length) : Within data b := by
  have := h.mem hb
  exact ⟨this.2.2.1, by omega⟩

theorem children_yields {b : Box} (h : Within data b) :
    Refuses (fun bs => ∀ c ∈ bs, Within data c) (mp4Boxes data b.body b.stop) :=
  (mp4Boxes_yields h.1 h.2).imp fun _ hbs _ hc => hbs.within hc h.2

theorem mp4Child_yields {b : Box} (h : Within data b) (kind : String) :
    Refuses (Within data) (mp4Child data b kind) := by
  refine (children_yields h).bind fun bs hbs => ?_
  cases hf : bs.find? fun b => b.kind = ascii kind with
  | none => exact rfl
  | some c => exact hbs c (List.mem_of_find?_eq_some hf)

/-! ## Time scales -/

theorem trackScale_yields {t : Box} (h : Within init t) :
    Refuses (fun _ => True) (trackScale init t) := by
  refine (mp4Child_yields h _).bind fun tk htk => ?_
  refine (mp4Child_yields h _).bind fun md hmd => ?_
  refine (mp4Child_yields hmd _).bind fun hd hhd => ?_
  refine Yields.guard rfl fun hshort => ?_
  have ht := htk.2
  have hh := hhd.2
  refine (byteAt_yields (by omega)).bind fun tv _ => ?_
  refine (byteAt_yields (by omega)).bind fun hv _ => ?_
  refine Yields.guard rfl fun _ => ?_
  refine Yields.guard rfl fun hroom => ?_
  refine (uint32_yields (by omega)).bind fun id _ => ?_
  refine (uint32_yields (by omega)).bind fun scale _ => ?_
  exact Yields.guard rfl fun _ => trivial

theorem addTracks_yields {b : Box} (out : Scales) (h : Within init b) :
    Refuses (fun _ => True) (addTracks init out b) := by
  unfold addTracks
  by_cases hk : b.kind ≠ ascii "moov"
  · rw [if_pos hk]
    trivial
  · rw [if_neg hk]
    refine (children_yields h).bind fun tracks htracks => ?_
    refine Yields.foldlM trivial fun out _ t ht => ?_
    unfold addTrack
    by_cases htrak : t.kind ≠ ascii "trak"
    · rw [if_pos htrak]
      trivial
    · rw [if_neg htrak]
      exact (trackScale_yields (htracks t ht)).bind fun _ _ => trivial

/-- **The time scales** are read or refused. -/
theorem mp4Timescales_yields (init : Data) : Refuses (fun _ => True) (mp4Timescales init) := by
  refine (mp4Boxes_yields (Nat.zero_le _) le_rfl).bind fun boxes hboxes => ?_
  refine (Yields.foldlM trivial fun out _ b hb =>
    addTracks_yields out (hboxes.within hb le_rfl)).bind fun out _ => ?_
  exact Yields.guard rfl fun _ => trivial

/-! ## Fragments -/

/-- What has been read stands in the string. -/
structure InRange (data : Data) (s : Scan) : Prop where
  stamps : ∀ t ∈ s.stamps, t.place + (if t.version = 0 then 4 else 8) ≤ data.length
  compositions : ∀ c ∈ s.compositions, c.versionAt < data.length ∧ c.place + 4 ≤ data.length

theorem InRange.present {s : Scan} (h : InRange data s) (track : ℕ) (z : ℤ) :
    InRange data (s.present track z) := by
  unfold Scan.present
  split
  · exact ⟨h.stamps, h.compositions⟩
  · split_ifs
    · exact ⟨h.stamps, h.compositions⟩
    · exact h

theorem fieldAt_yields {flags bit default : ℕ} (h : stop ≤ data.length) :
    Refuses (fun _ => flags.testBit bit = true → i + 4 ≤ stop)
      (fieldAt data stop flags bit i default) := by
  unfold fieldAt
  by_cases hb : flags.testBit bit = true
  · rw [if_pos hb]
    refine Yields.guard rfl fun hroom => ?_
    exact (uint32_yields (by omega)).imp fun _ _ _ => by omega
  · rw [if_neg hb]
    exact fun h => absurd h hb

theorem flagsAt_yields (h : i + 4 ≤ data.length) : Refuses (fun _ => True) (flagsAt data i) :=
  (uint32_yields h).bind fun _ _ => trivial

theorem scanSample_yields {run : Run} {r : Reader} (hstop : run.stop ≤ media.length)
    (hbody : run.body < media.length) (h : InRange media r.scan) :
    Refuses (fun r => InRange media r.scan) (scanSample media run r) := by
  refine (fieldAt_yields hstop).bind fun duration _ => ?_
  refine (fieldAt_yields hstop).bind fun word hword => ?_
  refine Yields.guard rfl fun _ => ?_
  refine InRange.present ?_ _ _
  by_cases hoffset : run.flags.testBit 11 = true
  · rw [if_pos hoffset]
    refine ⟨h.stamps, fun c hc => ?_⟩
    rcases List.mem_append.mp hc with hc | hc
    · exact h.compositions c hc
    · rw [List.mem_singleton.mp hc]
      exact ⟨hbody, (hword hoffset).trans hstop⟩
  · rw [if_neg hoffset]
    exact h

theorem scanSamples_yields {run : Run} (hstop : run.stop ≤ media.length)
    (hbody : run.body < media.length) {n : ℕ} {r : Reader} (h : InRange media r.scan) :
    Refuses (fun r => InRange media r.scan) (scanSamples media run n r) := by
  induction n generalizing r with
  | zero => exact h
  | succ n ih => exact (scanSample_yields hstop hbody h).bind fun r hr => ih hr

theorem scanRun_yields {track defaultDuration : ℕ} {r : Scan × ℤ} {b : Box} (hb : Within media b)
    (h : InRange media r.1) :
    Refuses (fun r => InRange media r.1) (scanRun media track defaultDuration r b) := by
  unfold scanRun
  by_cases hk : b.kind ≠ ascii "trun"
  · rw [if_pos hk]
    exact h
  · rw [if_neg hk]
    refine Yields.guard rfl fun hshort => ?_
    have hstop := hb.2
    refine (flagsAt_yields (by omega)).bind fun flags _ => ?_
    refine (uint32_yields (by omega)).bind fun n _ => ?_
    refine Yields.guard rfl fun _ => ?_
    refine (byteAt_yields (by omega)).bind fun version _ => ?_
    exact (scanSamples_yields hstop (by show b.body < _; omega) h).bind fun r hr => hr

theorem decodeTime_yields {dt : Box} (h : Within media dt) :
    Refuses (fun r => r.1 + (if r.2.1 = 0 then 4 else 8) ≤ media.length) (decodeTime media dt) := by
  have hstop := h.2
  refine Yields.guard rfl fun hshort => ?_
  refine (byteAt_yields (by omega)).bind fun v _ => ?_
  refine (uint32_yields (by omega)).bind fun word _ => ?_
  by_cases h1 : v = 1
  · rw [if_pos h1]
    refine Yields.guard rfl fun hroom => ?_
    refine (uint64_yields (by omega)).bind fun value _ => ?_
    show dt.body + 4 + (if v = 0 then 4 else 8) ≤ media.length
    rw [if_neg (by omega)]
    omega
  · rw [if_neg h1]
    refine Yields.guard rfl fun h0 => ?_
    show dt.body + 4 + (if v = 0 then 4 else 8) ≤ media.length
    rw [if_pos (not_not.mp h0)]
    omega

theorem scanTraf_yields {scales : Scales} {s : Scan} {traf : Box} (ht : Within media traf)
    (h : InRange media s) : Refuses (InRange media) (scanTraf scales media s traf) := by
  unfold scanTraf
  by_cases hk : traf.kind ≠ ascii "traf"
  · rw [if_pos hk]
    exact h
  · rw [if_neg hk]
    refine (mp4Child_yields ht _).bind fun hd hhd => ?_
    refine Yields.guard rfl fun hshort => ?_
    have hstop := hhd.2
    refine (uint32_yields (by omega)).bind fun id _ => ?_
    refine (mp4Child_yields ht _).bind fun dt hdt => ?_
    refine (decodeTime_yields hdt).bind fun r hr => ?_
    obtain ⟨place, version, value⟩ := r
    refine Yields.guard rfl fun _ => ?_
    have hstamp : InRange media (s.stamp ⟨place, version, value, id⟩) := by
      refine ⟨fun t ht => ?_, h.compositions⟩
      rcases List.mem_append.mp ht with ht | ht
      · exact h.stamps t ht
      · rw [List.mem_singleton.mp ht]
        exact hr
    refine (children_yields ht).bind fun children hchildren => ?_
    refine (flagsAt_yields (by omega)).bind fun flags _ => ?_
    refine (fieldAt_yields hstop).bind fun defaultDuration _ => ?_
    refine Yields.bind (P := fun r : Scan × ℤ => InRange media r.1) ?_ fun r hr => hr
    exact Yields.foldlM hstamp fun r hr c hc => scanRun_yields (hchildren c hc) hr

theorem scanFragments_yields (scales : Scales) (media : Data) :
    Refuses (InRange media) (scanFragments scales media) := by
  refine (mp4Boxes_yields (Nat.zero_le _) le_rfl).bind fun boxes hboxes => ?_
  refine Yields.foldlM ⟨fun t ht => (nomatch ht), fun c hc => nomatch hc⟩ fun s hs b hb => ?_
  unfold scanFragment
  by_cases hk : b.kind ≠ ascii "moof"
  · rw [if_pos hk]
    exact hs
  · rw [if_neg hk]
    refine (children_yields (hboxes.within hb le_rfl)).bind fun trafs htrafs => ?_
    exact Yields.foldlM hs fun s hs t ht => scanTraf_yields (htrafs t ht) hs

theorem putAt_yields {bs : Data} (h : i + bs.length ≤ data.length) :
    Refuses (fun d => d.length = data.length) (putAt data i bs) := by
  obtain ⟨d, hd, hlen⟩ := exists_put h
  rw [putAt, hd]
  exact hlen

theorem moveComposition_yields {scales : Scales} {s : Scan} {c : Composition}
    (hv : c.versionAt < media.length) (hp : c.place + 4 ≤ media.length) :
    Refuses (fun d => d.length = media.length) (moveComposition scales s media c) := by
  refine Yields.guard rfl fun _ => ?_
  refine (putAt_yields (by rw [List.length_singleton]; omega)).bind fun d hd => ?_
  exact (putAt_yields (by rw [length_wordBytes]; omega)).imp fun e he => he.trans hd

theorem moveStamp_yields {scales : Scales} {s : Scan} {ticks : ℕ → ℕ} {t : Stamp}
    (hp : t.place + (if t.version = 0 then 4 else 8) ≤ media.length) :
    Refuses (fun d => d.length = media.length) (moveStamp scales s ticks media t) := by
  refine Yields.guard rfl fun _ => ?_
  by_cases hv : t.version = 0
  · rw [if_pos hv] at hp ⊢
    refine Yields.guard rfl fun _ => ?_
    exact putAt_yields (by rw [length_wordBytes]; omega)
  · rw [if_neg hv] at hp ⊢
    exact putAt_yields (by rw [length_wordBytes]; omega)

/-- **The fragments** are moved or refused, and keep their length. -/
theorem rebaseFragments_yields (ticks : ℕ → ℕ) (init media : Data) :
    Refuses (fun d => d.length = media.length) (rebaseFragments ticks init media) := by
  refine (mp4Timescales_yields init).bind fun scales _ => ?_
  refine (scanFragments_yields scales media).bind fun s hs => ?_
  refine Yields.guard rfl fun _ => ?_
  refine Yields.bind (P := fun d : Data => d.length = media.length) ?_ fun d hd => ?_
  · refine Yields.foldlM rfl fun d hd c hc => ?_
    obtain ⟨hv, hp⟩ := hs.compositions c hc
    exact (moveComposition_yields (hv.trans_eq hd.symm) (hp.trans_eq hd.symm)).imp
      fun e he => he.trans hd
  · refine Yields.foldlM hd fun d hd t ht => ?_
    exact (moveStamp_yields ((hs.stamps t ht).trans_eq hd.symm)).imp fun e he => he.trans hd

/-! ## The edit of one second -/

/-- Whether a track header has room for its version and the identity of the track. -/
def HeaderFits (data : Data) (p : Box) : Prop :=
  ∃ v, wordAt 1 data p.body = some v ∧ p.body + (if v = 1 then 20 else 12) + 4 ≤ p.stop

/-- Whether the headers of a track name one that has a time scale. -/
def Editable (scales : Scales) (data : Data) (parts : List Box) : Prop :=
  ∃ id scale, parts.foldlM (headerId data) 0 = .ok id ∧ scales.lookup id = some scale ∧
    scale ≤ maxInt32

/-- What the rewriting of a container gets through. -/
inductive Fine (scales : Scales) : Data → Data → Prop
  | mk {data parent : Data} {parts : List Box} (boxes : mp4Boxes data 0 data.length = .ok parts)
      (inner : ∀ p ∈ parts, isContainer p.kind = true →
        Fine scales (slice data p.body p.stop) p.kind)
      (edits : parent = ascii "trak" → Editable scales data parts) : Fine scales data parent

/-- What stops it: a track that ends in an empty header, in a container before which nothing is
refused. -/
inductive EmptyHeader (scales : Scales) : Data → Data → Prop
  | here {data : Data} {before : List Box} {p : Box}
      (boxes : mp4Boxes data 0 data.length = .ok (before ++ [p]))
      (inner : ∀ q ∈ before, isContainer q.kind = true →
        Fine scales (slice data q.body q.stop) q.kind)
      (headers : ∀ q ∈ before, q.kind = ascii "tkhd" → HeaderFits data q)
      (kind : p.kind = ascii "tkhd") (empty : p.body = p.stop) :
      EmptyHeader scales data (ascii "trak")
  | inside {data parent : Data} {before after : List Box} {p : Box}
      (boxes : mp4Boxes data 0 data.length = .ok (before ++ p :: after))
      (inner : ∀ q ∈ before, isContainer q.kind = true →
        Fine scales (slice data q.body q.stop) q.kind)
      (container : isContainer p.kind = true)
      (met : EmptyHeader scales (slice data p.body p.stop) p.kind) : EmptyHeader scales data parent

variable {scales : Scales} {parent : Data} {parts : List Box} {id : ℕ} {p : Box}

theorem headerId_ok (h : Within data p) :
    (∃ n, headerId data id p = .ok n) ↔ (p.kind = ascii "tkhd" → HeaderFits data p) := by
  unfold headerId
  by_cases hk : p.kind = ascii "tkhd"
  · rw [if_neg (not_not.mpr hk)]
    cases hv : wordAt 1 data p.body with
    | none =>
      rw [byteAt, hv]
      refine ⟨fun ⟨_, h⟩ => (nomatch h), fun hf => ?_⟩
      obtain ⟨v, hv', -⟩ := hf hk
      exact absurd (hv.symm.trans hv') nofun
    | some v =>
      rw [byteAt, hv]
      have hfits : HeaderFits data p ↔ p.body + (if v = 1 then 20 else 12) + 4 ≤ p.stop := by
        refine ⟨?_, fun h => ⟨v, hv, h⟩⟩
        rintro ⟨w, hw, h⟩
        obtain rfl := Option.some.inj (hv.symm.trans hw)
        exact h
      have hstop := h.2
      show (∃ n, (if p.body + (if v = 1 then 20 else 12) + 4 > p.stop then .error .box
        else uint32 data (p.body + if v = 1 then 20 else 12)) = .ok n) ↔ _
      rw [imp_iff_right hk, hfits]
      by_cases hroom : p.body + (if v = 1 then 20 else 12) + 4 ≤ p.stop
      · rw [if_neg (not_lt.mpr hroom)]
        obtain ⟨n, hn⟩ := exists_wordAt (hroom.trans hstop)
        rw [uint32, hn]
        exact ⟨fun _ => hroom, fun _ => ⟨n, rfl⟩⟩
      · rw [if_pos (not_le.mp hroom)]
        exact ⟨fun ⟨_, h⟩ => (nomatch h), fun h => absurd h hroom⟩
  · rw [if_pos hk]
    exact ⟨fun _ h => absurd h hk, fun _ => ⟨id, rfl⟩⟩

/-- The header of a track is read outside the track only if it is empty and ends it. -/
theorem headerId_range (h : Within data p) {e : Fault} (he : headerId data id p = .error e) :
    e = .box ∨ e = .range ∧ p.kind = ascii "tkhd" ∧ p.body = data.length := by
  by_cases hk : p.kind = ascii "tkhd"
  · have hstop := h.2
    have hbody := h.1
    by_cases hin : p.body + 1 ≤ data.length
    · have hrefuses : Refuses (fun _ => True) (headerId data id p) := by
        rw [headerId, if_neg (not_not.mpr hk)]
        refine (byteAt_yields hin).bind fun v _ => ?_
        refine Yields.guard rfl fun hroom => ?_
        exact (uint32_yields (by omega)).imp fun _ _ => trivial
      exact .inl (hrefuses.of_error he)
    · have hv : wordAt 1 data p.body = none := if_neg hin
      rw [headerId, if_neg (not_not.mpr hk), byteAt, hv] at he
      exact .inr ⟨(Except.error.inj he).symm, hk, by omega⟩
  · rw [headerId, if_pos hk] at he
    cases he

theorem headerId_of_empty (hk : p.kind = ascii "tkhd") (h : p.body = data.length) :
    headerId data id p = .error .range := by
  have hv : wordAt 1 data p.body = none := if_neg (by omega)
  rw [headerId, if_neg (not_not.mpr hk), byteAt, hv]
  rfl

theorem Tiles.eq_nil {before after : List Box} (h : Tiles data start stop (before ++ p :: after))
    (hp : stop ≤ p.stop) : after = [] := by
  induction before generalizing start with
  | nil =>
    obtain ⟨-, -, -, -, hrest⟩ := h
    cases after with
    | nil => rfl
    | cons q after =>
      have := hrest.mem List.mem_cons_self
      omega
  | cons b before ih => exact ih h.2.2.2.2

/-- The headers of a track have an identity exactly if each of them has room for one. -/
theorem exists_headerIds (h : ∀ p ∈ parts, Within data p) :
    (∃ n, parts.foldlM (headerId data) id = .ok n) ↔
      ∀ p ∈ parts, p.kind = ascii "tkhd" → HeaderFits data p := by
  induction parts generalizing id with
  | nil => exact ⟨fun _ p hp => (nomatch hp), fun _ => ⟨id, rfl⟩⟩
  | cons p parts ih =>
    obtain ⟨hp, hrest⟩ := List.forall_mem_cons.mp h
    rw [List.forall_mem_cons, ← @headerId_ok _ id _ hp, List.foldlM_cons]
    cases hid : headerId data id p with
    | error e => exact ⟨fun ⟨_, h⟩ => (nomatch h), fun ⟨⟨_, h⟩, _⟩ => nomatch h⟩
    | ok n => exact (@ih n hrest).trans ⟨fun h => ⟨⟨n, rfl⟩, h⟩, fun h => h.2⟩

theorem idEdit_ok : (∃ e, idEdit scales id = .ok e) ↔
    ∃ scale, scales.lookup id = some scale ∧ scale ≤ maxInt32 := by
  unfold idEdit
  cases scales.lookup id with
  | none => exact ⟨fun ⟨_, h⟩ => (nomatch h), fun ⟨_, h, _⟩ => nomatch h⟩
  | some scale =>
    by_cases hmax : scale > maxInt32
    · simp only [if_pos hmax]
      refine ⟨fun ⟨_, h⟩ => (nomatch h), ?_⟩
      rintro ⟨s, ⟨⟩, hle⟩
      exact absurd hle (not_le.mpr hmax)
    · simp only [if_neg hmax]
      exact ⟨fun _ => ⟨scale, rfl, not_lt.mp hmax⟩, fun _ => ⟨_, rfl⟩⟩

theorem idEdit_error {e : Fault} (h : idEdit scales id = .error e) : e = .box := by
  unfold idEdit at h
  split at h
  · exact (Except.error.inj h).symm
  · split_ifs at h
    exact (Except.error.inj h).symm

theorem trackEdit_ok : (∃ e, trackEdit scales data parts = .ok e) ↔ Editable scales data parts := by
  unfold trackEdit Editable
  cases parts.foldlM (headerId data) 0 with
  | error e => exact ⟨fun ⟨_, h⟩ => (nomatch h), fun ⟨_, _, h, _⟩ => nomatch h⟩
  | ok id =>
    refine idEdit_ok.trans ⟨fun ⟨scale, h⟩ => ⟨id, scale, rfl, h⟩, ?_⟩
    rintro ⟨_, scale, ⟨⟩, h⟩
    exact ⟨scale, h⟩

/-- The edit of a track is refused, unless its headers end with an empty one. -/
theorem trackEdit_error (htiles : Tiles data 0 data.length parts) {e : Fault}
    (he : trackEdit scales data parts = .error e) :
    e = .box ∨ e = .range ∧ ∃ before p, parts = before ++ [p] ∧
      (∀ q ∈ before, q.kind = ascii "tkhd" → HeaderFits data q) ∧ p.kind = ascii "tkhd" ∧
      p.body = p.stop := by
  have hwithin : ∀ p ∈ parts, Within data p := fun p hp => htiles.within hp le_rfl
  unfold trackEdit at he
  cases hfold : parts.foldlM (headerId data) 0 with
  | error e' =>
    rw [hfold] at he
    obtain rfl := Except.error.inj he
    obtain ⟨before, p, after, n, rfl, hbefore, hp⟩ := foldlM_eq_error.mp hfold
    have hin := hwithin p (List.mem_append_right _ List.mem_cons_self)
    refine (headerId_range hin hp).imp id ?_
    rintro ⟨hrange, hk, hend⟩
    have hstop : p.body = p.stop := by
      have := hin.1
      have := hin.2
      omega
    obtain rfl := htiles.eq_nil (by omega)
    exact ⟨hrange, before, p, rfl, (exists_headerIds fun q hq =>
      hwithin q (List.mem_append_left _ hq)).mp ⟨n, hbefore⟩, hk, hstop⟩
  | ok id =>
    rw [hfold] at he
    exact .inl (idEdit_error he)

/-- What happens to one box of a container. -/
def rewritePiece (scales : Scales) (fuel : ℕ) (data parent : Data) (part : Box) :
    Except Fault Data := do
  let body ← bytesAt data part.body part.stop
  if isContainer part.kind then do
    let inner ← rewrite scales fuel body part.kind
    return piece parent part.kind inner
  else return piece parent part.kind body

theorem rewritePiece_leaf {fuel : ℕ} (hp : Within data p) (hk : isContainer p.kind = false) :
    rewritePiece scales fuel data parent p =
      .ok (piece parent p.kind (slice data p.body p.stop)) := by
  have hbody : bytesAt data p.body p.stop = .ok (slice data p.body p.stop) := if_pos hp
  rw [rewritePiece, hbody, hk]
  rfl

theorem rewritePiece_container {fuel : ℕ} (hp : Within data p) (hk : isContainer p.kind = true) :
    rewritePiece scales fuel data parent p =
      (rewrite scales fuel (slice data p.body p.stop) p.kind).map (piece parent p.kind) := by
  have hbody : bytesAt data p.body p.stop = .ok (slice data p.body p.stop) := if_pos hp
  rw [rewritePiece, hbody, hk, ok_bind, if_pos rfl]
  cases rewrite scales fuel (slice data p.body p.stop) p.kind <;> rfl

theorem rewritePiece_ok {fuel : ℕ} (hp : Within data p) :
    (∃ r, rewritePiece scales fuel data parent p = .ok r) ↔ (isContainer p.kind = true →
      ∃ out, rewrite scales fuel (slice data p.body p.stop) p.kind = .ok out) := by
  cases hk : isContainer p.kind with
  | false => exact ⟨fun _ h => (nomatch h), fun _ => ⟨_, rewritePiece_leaf hp hk⟩⟩
  | true =>
    rw [rewritePiece_container hp hk]
    cases rewrite scales fuel (slice data p.body p.stop) p.kind with
    | error e => exact ⟨fun ⟨_, h⟩ => (nomatch h), fun h => nomatch (h rfl).choose_spec⟩
    | ok out => exact ⟨fun _ _ => ⟨out, rfl⟩, fun _ => ⟨_, rfl⟩⟩

theorem rewritePiece_error {fuel : ℕ} {e : Fault} (hp : Within data p)
    (h : rewritePiece scales fuel data parent p = .error e) : isContainer p.kind = true ∧
      rewrite scales fuel (slice data p.body p.stop) p.kind = .error e := by
  cases hk : isContainer p.kind with
  | false =>
    rw [rewritePiece_leaf hp hk] at h
    cases h
  | true =>
    rw [rewritePiece_container hp hk] at h
    cases hr : rewrite scales fuel (slice data p.body p.stop) p.kind with
    | error e' =>
      rw [hr] at h
      exact ⟨rfl, h⟩
    | ok out =>
      rw [hr] at h
      cases h

theorem rewrite_succ (scales : Scales) (fuel : ℕ) (data parent : Data) :
    rewrite scales (fuel + 1) data parent = do
      let parts ← mp4Boxes data 0 data.length
      let pieces ← parts.mapM (rewritePiece scales fuel data parent)
      if parent = ascii "trak" then
        let edts ← trackEdit scales data parts
        return pieces.flatten ++ edts
      else return pieces.flatten := rfl

theorem length_body_lt (htiles : Tiles data 0 data.length parts) (hp : p ∈ parts) :
    (slice data p.body p.stop).length < data.length := by
  have := htiles.mem hp
  rw [length_slice (by omega)]
  omega

theorem Fine.rewrite_ok (h : Fine scales data parent) {fuel : ℕ} (hfuel : data.length < fuel) :
    ∃ out, rewrite scales fuel data parent = .ok out := by
  induction h generalizing fuel with
  | @mk data parent parts boxes inner edits ih =>
    obtain ⟨fuel, rfl⟩ : ∃ n, fuel = n + 1 := ⟨fuel - 1, by omega⟩
    have htiles := tiles_of_ok boxes
    have hpieces : ∃ pieces, parts.mapM (rewritePiece scales fuel data parent) = .ok pieces := by
      refine exists_mapM_ok.mpr fun p hp => ?_
      have hlt := length_body_lt htiles hp
      exact (rewritePiece_ok (htiles.within hp le_rfl)).mpr fun hk => ih p hp hk (by omega)
    obtain ⟨pieces, hpieces⟩ := hpieces
    rw [rewrite_succ, boxes, ok_bind, hpieces, ok_bind]
    by_cases htrak : parent = ascii "trak"
    · obtain ⟨e, he⟩ := trackEdit_ok.mpr (edits htrak)
      rw [if_pos htrak, he]
      exact ⟨_, rfl⟩
    · rw [if_neg htrak]
      exact ⟨_, rfl⟩

theorem EmptyHeader.rewrite_range (h : EmptyHeader scales data parent) {fuel : ℕ}
    (hfuel : data.length < fuel) : rewrite scales fuel data parent = .error .range := by
  induction h generalizing fuel with
  | @here data before p boxes inner headers kind empty =>
    obtain ⟨fuel, rfl⟩ : ∃ n, fuel = n + 1 := ⟨fuel - 1, by omega⟩
    have htiles := tiles_of_ok boxes
    have hpieces : ∃ pieces, (before ++ [p]).mapM
        (rewritePiece scales fuel data (ascii "trak")) = .ok pieces := by
      refine exists_mapM_ok.mpr fun q hq => ?_
      have hlt := length_body_lt htiles hq
      refine (rewritePiece_ok (htiles.within hq le_rfl)).mpr fun hk => ?_
      rcases List.mem_append.mp hq with hq | hq
      · exact (inner q hq hk).rewrite_ok (by omega)
      · rw [List.mem_singleton.mp hq, kind] at hk
        exact absurd hk (by decide)
    obtain ⟨pieces, hpieces⟩ := hpieces
    obtain ⟨id, hid⟩ := (@exists_headerIds _ _ 0 fun q hq =>
      htiles.within (List.mem_append_left _ hq) le_rfl).mpr headers
    have hlast : p.body = data.length := by
      have hend := htiles.stop_eq
      omega
    have hedit : trackEdit scales data (before ++ [p]) = .error .range := by
      rw [trackEdit, List.foldlM_append, hid, ok_bind, List.foldlM_cons,
        headerId_of_empty kind hlast]
      rfl
    rw [rewrite_succ, boxes, ok_bind, hpieces, ok_bind, if_pos rfl, hedit]
    rfl
  | @inside data parent before after p boxes inner container met ih =>
    obtain ⟨fuel, rfl⟩ : ∃ n, fuel = n + 1 := ⟨fuel - 1, by omega⟩
    have htiles := tiles_of_ok boxes
    have hp : p ∈ before ++ p :: after := List.mem_append_right _ List.mem_cons_self
    have hpieces : (before ++ p :: after).mapM (rewritePiece scales fuel data parent) =
        .error .range := by
      refine mapM_eq_error.mpr ⟨before, p, after, rfl, fun q hq => ?_, ?_⟩
      · have hq' : q ∈ before ++ p :: after := List.mem_append_left _ hq
        have hlt := length_body_lt htiles hq'
        exact (rewritePiece_ok (htiles.within hq' le_rfl)).mpr fun hk =>
          (inner q hq hk).rewrite_ok (by omega)
      · have hlt := length_body_lt htiles hp
        rw [rewritePiece_container (htiles.within hp le_rfl) container, ih (by omega)]
        rfl
    rw [rewrite_succ, boxes, ok_bind, hpieces]
    rfl

/-- **A container** is rewritten because it is fine, or refused, or stopped by an empty header. -/
theorem rewrite_cases {fuel : ℕ} (hfuel : data.length < fuel) :
    ((∃ out, rewrite scales fuel data parent = .ok out) ∧ Fine scales data parent) ∨
      rewrite scales fuel data parent = .error .box ∨ EmptyHeader scales data parent := by
  induction fuel generalizing data parent with
  | zero => omega
  | succ fuel ih =>
    rw [rewrite_succ]
    cases hboxes : mp4Boxes data 0 data.length with
    | error e =>
      obtain rfl := (mp4Boxes_yields (Nat.zero_le _) le_rfl).of_error hboxes
      exact .inr (.inl rfl)
    | ok parts =>
      have htiles := tiles_of_ok hboxes
      have hfine : ∀ q ∈ parts, (∃ r, rewritePiece scales fuel data parent q = .ok r) →
          isContainer q.kind = true → Fine scales (slice data q.body q.stop) q.kind := by
        intro q hq hok hk
        have hlt := length_body_lt htiles hq
        obtain ⟨out, hout⟩ := (rewritePiece_ok (htiles.within hq le_rfl)).mp hok hk
        rcases @ih (slice data q.body q.stop) q.kind (by omega) with h | h | h
        · exact h.2
        · exact absurd (hout.symm.trans h) nofun
        · exact absurd (hout.symm.trans (h.rewrite_range (by omega))) nofun
      rw [ok_bind]
      cases hpieces : parts.mapM (rewritePiece scales fuel data parent) with
      | error e =>
        obtain ⟨before, p, after, rfl, hbefore, hp⟩ := mapM_eq_error.mp hpieces
        have hmem : p ∈ before ++ p :: after := List.mem_append_right _ List.mem_cons_self
        have hlt := length_body_lt htiles hmem
        obtain ⟨hk, hinner⟩ := rewritePiece_error (htiles.within hmem le_rfl) hp
        right
        rcases @ih (slice data p.body p.stop) p.kind (by omega) with h | h | h
        · obtain ⟨⟨out, hout⟩, -⟩ := h
          exact absurd (hout.symm.trans hinner) nofun
        · obtain rfl := Except.error.inj (h.symm.trans hinner)
          exact .inl rfl
        · exact .inr (.inside hboxes (fun q hq => hfine q (List.mem_append_left _ hq)
            (hbefore q hq)) hk h)
      | ok pieces =>
        have hall : ∀ q ∈ parts, isContainer q.kind = true →
            Fine scales (slice data q.body q.stop) q.kind :=
          fun q hq => hfine q hq (exists_mapM_ok.mp ⟨pieces, hpieces⟩ q hq)
        rw [ok_bind]
        by_cases htrak : parent = ascii "trak"
        · rw [if_pos htrak]
          cases hedit : trackEdit scales data parts with
          | ok e => exact .inl ⟨⟨_, rfl⟩, .mk hboxes hall fun _ => trackEdit_ok.mp ⟨e, hedit⟩⟩
          | error e =>
            right
            rcases trackEdit_error htiles hedit with rfl | ⟨-, before, p, rfl, hfits, hk, hempty⟩
            · exact .inl rfl
            · rw [htrak]
              exact .inr (.here hboxes (fun q hq => hall q (List.mem_append_left _ hq)) hfits hk
                hempty)
        · rw [if_neg htrak]
          exact .inl ⟨⟨_, rfl⟩, .mk hboxes hall fun h => absurd h htrak⟩

/-! ## Everything in range -/

/-- A run that ends without a read or write out of range, and ends. -/
def Safe {α : Type} (x : Except Fault α) : Prop := x ≠ .error .range ∧ x ≠ .error .fuel

theorem Safe.of_refuses {α : Type} {P : α → Prop} {x : Except Fault α} (h : Refuses P x) :
    Safe x :=
  ⟨fun hx => (nomatch h.of_error hx), fun hx => nomatch h.of_error hx⟩

theorem safe_presentationOriginInit (init : Data) : Safe (presentationOriginInit init) ↔
    ¬ ∃ scales, mp4Timescales init = .ok scales ∧ EmptyHeader scales init [] := by
  unfold presentationOriginInit
  cases hs : mp4Timescales init with
  | error e =>
    obtain rfl := (mp4Timescales_yields init).of_error hs
    exact ⟨fun _ ⟨_, h, _⟩ => (nomatch h), fun _ => ⟨nofun, nofun⟩⟩
  | ok scales =>
    rw [ok_bind]
    rcases @rewrite_cases init scales [] _ (Nat.lt_succ_self _) with
      ⟨⟨out, hout⟩, -⟩ | hbox | hempty
    · rw [hout]
      refine ⟨fun _ ⟨s, h, hempty⟩ => ?_, fun _ => ⟨nofun, nofun⟩⟩
      obtain rfl := Except.ok.inj h
      exact absurd (hout.symm.trans (hempty.rewrite_range (Nat.lt_succ_self _))) nofun
    · rw [hbox]
      refine ⟨fun _ ⟨s, h, hempty⟩ => ?_, fun _ => ⟨nofun, nofun⟩⟩
      obtain rfl := Except.ok.inj h
      exact absurd (hbox.symm.trans (hempty.rewrite_range (Nat.lt_succ_self _))) nofun
    · rw [hempty.rewrite_range (Nat.lt_succ_self _)]
      exact ⟨fun h => absurd rfl h.1, fun h => absurd ⟨scales, rfl, hempty⟩ h⟩

/-- **Reads and writes of boxes stay in the string**, and boxes tile their range, exactly for the
init segments without an empty track header that is met: one that ends a track, in containers
before which nothing is refused. -/
theorem boxes_in_range (ticks : ℕ → ℕ) (init media : Data) :
    ((∀ data : Data, (data = init ∨ data = media) → ∀ start stop, start ≤ stop →
        stop ≤ data.length → Refuses (Tiles data start stop) (mp4Boxes data start stop)) ∧
      Safe (mp4Timescales init) ∧ Safe (presentationOriginInit init) ∧
      Safe (rebaseFragments ticks init media)) ↔
    ¬ ∃ scales, mp4Timescales init = .ok scales ∧ EmptyHeader scales init [] := by
  rw [← safe_presentationOriginInit]
  exact ⟨fun h => h.2.2.1, fun h => ⟨fun data _ start stop hle hstop => mp4Boxes_yields hle hstop,
    .of_refuses (mp4Timescales_yields init), h,
    .of_refuses (rebaseFragments_yields ticks init media)⟩⟩

/-- An init segment with one track, which has a header and, at its end, an empty one. -/
def twoHeaders : Data :=
  let header (v : ℕ) : Data := wordBytes 8 0 ++ wordBytes 4 0 ++ wordBytes 4 v
  box (ascii "moov") (box (ascii "trak") (box (ascii "tkhd") (header 1) ++
    box (ascii "mdia") (box (ascii "mdhd") (header 48000)) ++ box (ascii "tkhd") []))

theorem twoHeaders_range :
    mp4Timescales twoHeaders = .ok [(1, 48000)] ∧
      presentationOriginInit twoHeaders = .error .range := by
  decide +kernel

end Portico.Mp4
