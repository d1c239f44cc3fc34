import Portico.Queue.Advance
import Portico.Queue.Chunks
import Portico.Lib.Outcome
import Portico.Queue.Unshuffled

/-!
# Refilling a radio queue

`appendRadioTx` and `writeRadioKeysTx` of `playbackv1/queue_radio.go`: a prepared batch goes behind
the keys of its snapshot. The last chunk is read again, filled up and written over; the keys that
don't fit go to chunks of their own. The queue shows the new ordinals at its end.

## Main results

* `writeRadioChunks_spec`: the chunks encode the old keys followed by the new ones
* `Layout.WellFormed.writeRadioKeys_spec`: the queue shows the new ordinals behind everything else
* `RadioQueue.appendRadio_spec`: a refill does both, or is refused
-/

namespace Portico

open Words

/-! ## Chunks -/

/-- `writeQueueChunkTx`: write a chunk, if each of its keys can be read. -/
def writeQueueChunk (chunks : ℕ → Option Data) (no : ℕ) (raw : Data) :
    Except QueueError (ℕ → Option Data) :=
  match raw with
  | [] => .error .notFound
  | w :: slots =>
    if slots = [] ∨ w.toNat = 0 ∨ slots.length % w.toNat ≠ 0 then .error .notFound
    else
      let count := slots.length / w.toNat
      if count < 1 ∨ chunkKeys < count then .error .tooLarge
      else if ∃ n ∈ List.range count, chunkKey raw n = none then .error .notFound
      else .ok (Function.update chunks no (some raw))

/-- The loop that writes keys, a chunk at a time. -/
def writeKeys (chunks : ℕ → Option Data) (no : ℕ) (keys : List Data) :
    Except QueueError (ℕ → Option Data) :=
  if _ : keys = [] then .ok chunks
  else
    match writeQueueChunk chunks no (encodeChunk (keys.take chunkKeys)) with
    | .error e => .error e
    | .ok chunks => writeKeys chunks (no + 1) (keys.drop chunkKeys)
termination_by keys.length
decreasing_by
  have := List.length_pos_iff.mpr ‹keys ≠ []›
  rw [List.length_drop, chunkKeys]
  omega

/-- The keys that the last chunk holds below the offset. -/
def lastKeys (chunks : ℕ → Option Data) (no offset : ℕ) : Except QueueError (List Data) :=
  if offset = 0 then .ok []
  else
    match chunks no with
    | none => .error .notFound
    | some old => ((List.range offset).mapM (chunkKey old)).elim (.error .notFound) .ok

/-- The chunks of `writeRadioKeysTx`: the last one is filled up and written over. -/
def writeRadioChunks (chunks : ℕ → Option Data) (built : ℕ) (ids : List Data) :
    Except QueueError (ℕ → Option Data) := do
  let keys ← lastKeys chunks (built / chunkKeys) (built % chunkKeys)
  writeKeys chunks (built / chunkKeys) (keys ++ ids)

/-- The chunks from a number on hold the keys from its first ordinal on, and no others. -/
structure Rewritten (chunks chunks' : ℕ → Option Data) (no : ℕ) (keys : List Data) : Prop where
  before : ∀ c < no, chunks' c = chunks c
  written : ∀ j, j * chunkKeys < keys.length →
    chunks' (no + j) = some (encodeChunk ((keys.drop (j * chunkKeys)).take chunkKeys))
  behind : ∀ j, keys.length ≤ j * chunkKeys → chunks' (no + j) = chunks (no + j)

theorem writeQueueChunk_encodeChunk {keys : List Data} (hne : keys ≠ [])
    (hlen : keys.length ≤ chunkKeys) (h : ∀ k ∈ keys, Storable k) (chunks : ℕ → Option Data)
    (no : ℕ) :
    writeQueueChunk chunks no (encodeChunk keys) =
      .ok (Function.update chunks no (some (encodeChunk keys))) := by
  obtain ⟨hpos, hle⟩ := le_foldl_width keys 1
  have hlt : keys.foldl (fun width k => max width k.length) 1 < 256 :=
    foldl_width_lt (by omega) fun k hk => (h k hk).1
  have hread := chunkKey_encodeChunk h
  rw [encodeChunk] at hread ⊢
  set width := keys.foldl (fun width k => max width k.length) 1
  set slots := keys.flatMap fun k => k ++ List.replicate (width - k.length) 0
  have hslots : slots.length = keys.length * width := by
    refine length_flatMap_slots fun k hk => ?_
    have := hle k hk
    rw [List.length_append, List.length_replicate]
    omega
  have hwidth : (UInt8.ofNat width).toNat = width := by
    rw [UInt8.toNat_ofNat', Nat.mod_eq_of_lt (by omega)]
  have hkeys := List.length_pos_iff.mpr hne
  have hmul : 0 < keys.length * width := Nat.mul_pos hkeys (by omega)
  have hcount : slots.length / width = keys.length := by
    rw [hslots, Nat.mul_div_cancel _ (by omega)]
  have hmod : slots.length % width = 0 := by rw [hslots, Nat.mul_mod_left]
  have hsome : slots ≠ [] := by
    rw [← List.length_pos_iff, hslots]
    exact hmul
  simp only [writeQueueChunk, hwidth, hcount]
  have hzero : width ≠ 0 := by omega
  rw [if_neg (by simp [hmod, hsome, hzero]), if_neg (by omega), if_neg]
  rintro ⟨n, hn, hnone⟩
  rw [List.mem_range] at hn
  rw [hread, List.getElem?_eq_getElem hn] at hnone
  cases hnone

/-- **The loop** writes the keys from its chunk on. -/
theorem writeKeys_spec {keys : List Data} (h : ∀ k ∈ keys, Storable k)
    (chunks : ℕ → Option Data) (no : ℕ) :
    ∃ chunks', writeKeys chunks no keys = .ok chunks' ∧ Rewritten chunks chunks' no keys := by
  induction hn : keys.length using Nat.strong_induction_on generalizing keys chunks no with
  | _ n ih =>
    rw [writeKeys]
    by_cases hne : keys = []
    · refine ⟨chunks, by rw [dif_pos hne], fun c _ => rfl, fun j hj => ?_, fun j _ => rfl⟩
      rw [hne] at hj
      exact absurd hj (Nat.not_lt_zero _)
    · have hpos := List.length_pos_iff.mpr hne
      have htake : ∀ k ∈ keys.take chunkKeys, Storable k := fun k hk => h k (List.mem_of_mem_take hk)
      have hdrop : ∀ k ∈ keys.drop chunkKeys, Storable k := fun k hk => h k (List.mem_of_mem_drop hk)
      have hfull : (keys.take chunkKeys).length ≤ chunkKeys := by
        rw [List.length_take]
        exact min_le_left _ _
      have hsome : keys.take chunkKeys ≠ [] := by
        rw [← List.length_pos_iff, List.length_take, chunkKeys]
        omega
      have hshort : (keys.drop chunkKeys).length < n := by
        rw [List.length_drop, chunkKeys]
        omega
      obtain ⟨chunks', hok, hbefore, hwritten, hbehind⟩ := ih _ hshort hdrop
        (Function.update chunks no (some (encodeChunk (keys.take chunkKeys)))) (no + 1) rfl
      refine ⟨chunks', ?_, fun c hc => ?_, fun j hj => ?_, fun j hj => ?_⟩
      · rw [dif_neg hne, writeQueueChunk_encodeChunk hsome hfull htake]
        exact hok
      · rw [hbefore c (by omega), Function.update_of_ne (by omega)]
      · -- The first chunk is the one just written; the rest are the loop's.
        cases j with
        | zero =>
          rw [Nat.add_zero, hbefore no (by omega), Function.update_self, Nat.zero_mul,
            List.drop_zero]
        | succ j =>
          have hat := hwritten j (by
            rw [List.length_drop]
            rw [Nat.succ_mul] at hj
            omega)
          rw [List.drop_drop, show chunkKeys + j * chunkKeys = (j + 1) * chunkKeys by ring] at hat
          rw [show no + (j + 1) = no + 1 + j by ring]
          exact hat
      · cases j with
        | zero =>
          rw [Nat.zero_mul] at hj
          omega
        | succ j =>
          have hat := hbehind j (by
            rw [List.length_drop]
            rw [Nat.succ_mul] at hj
            omega)
          rw [show no + (j + 1) = no + 1 + j by ring, hat, Function.update_of_ne (by omega)]

theorem lastKeys_spec {chunks : ℕ → Option Data} {keys : List Data}
    (hreads : ∀ n < keys.length, readKey chunks n = keys[n]?) :
    lastKeys chunks (keys.length / chunkKeys) (keys.length % chunkKeys) =
      .ok (keys.drop (keys.length / chunkKeys * chunkKeys)) := by
  have hsplit := Nat.div_add_mod' keys.length chunkKeys
  set no := keys.length / chunkKeys
  set offset := keys.length % chunkKeys with hoffset
  have hlt : offset < chunkKeys := Nat.mod_lt _ (by decide)
  have hread : ∀ n < offset, (chunks no).bind (chunkKey · n) = keys[no * chunkKeys + n]? := by
    intro n hn
    have hat := hreads (no * chunkKeys + n) (by omega)
    rw [readKey, Nat.mul_comm, Nat.mul_add_div (by decide), Nat.div_eq_of_lt (hn.trans hlt),
      Nat.mul_add_mod, Nat.mod_eq_of_lt (hn.trans hlt), Nat.add_zero] at hat
    rw [hat, Nat.mul_comm]
  rw [lastKeys]
  split_ifs with hzero
  · rw [List.drop_eq_nil_of_le (by omega)]
  · have hfirst := hread 0 (by omega)
    rw [List.getElem?_eq_getElem (by omega)] at hfirst
    obtain ⟨old, hold, -⟩ := Option.bind_eq_some_iff.mp hfirst
    have hat : ∀ n < offset, chunkKey old n = keys[no * chunkKeys + n]? := by
      intro n hn
      rw [← hread n hn, hold, Option.bind_some]
    obtain ⟨ks, hks⟩ := exists_mapM (l := List.range offset) (f := chunkKey old) fun n hn => by
      have hlt := List.mem_range.mp hn
      exact ⟨_, (hat n hlt).trans (List.getElem?_eq_getElem (by omega))⟩
    have hlen := length_mapM hks
    rw [List.length_range] at hlen
    have hall : ks = keys.drop (no * chunkKeys) := by
      refine List.ext_getElem (by rw [List.length_drop]; omega) fun n hn hn' => ?_
      have hget := congrArg (fun xs => xs[n]?) (mapM_eq_some hks)
      simp only [List.getElem?_map, List.getElem?_eq_getElem hn] at hget
      rw [List.getElem?_range (by omega), Option.map_some, Option.map_some, hat n (by omega),
        List.getElem?_eq_getElem (by rw [List.length_drop] at hn'; omega)] at hget
      rw [List.getElem_drop]
      exact (Option.some.inj (Option.some.inj hget)).symm
    rw [hold]
    simp only [hks, hall]
    rfl

/-- **The chunks of a refill** encode the old keys followed by the new ones, whatever the last chunk
held: from that chunk on they are written, those before it stay. -/
theorem writeRadioChunks_spec {chunks : ℕ → Option Data} {keys ids : List Data}
    (hreads : ∀ n < keys.length, readKey chunks n = keys[n]?) (hids : ∀ k ∈ ids, Storable k) :
    ∃ chunks', writeRadioChunks chunks keys.length ids = .ok chunks' ∧
      Rewritten chunks chunks' (keys.length / chunkKeys)
        ((keys ++ ids).drop (keys.length / chunkKeys * chunkKeys)) ∧
      ∀ n, ((keys ++ ids).length ≤ n → readKey chunks n = none) →
        readKey chunks' n = (keys ++ ids)[n]? := by
  have hle := Nat.div_mul_le_self keys.length chunkKeys
  have hdrop : (keys ++ ids).drop (keys.length / chunkKeys * chunkKeys) =
      keys.drop (keys.length / chunkKeys * chunkKeys) ++ ids := List.drop_append_of_le_length hle
  -- A key that is read from a chunk can be stored in one again.
  have hold : ∀ k ∈ keys, Storable k := by
    intro k hk
    obtain ⟨n, hn, rfl⟩ := List.getElem_of_mem hk
    have hread := hreads n hn
    rw [List.getElem?_eq_getElem hn] at hread
    obtain ⟨chunk, -, hkey⟩ := Option.bind_eq_some_iff.mp hread
    exact storable_of_chunkKey hkey
  have hall : ∀ k ∈ keys ++ ids, Storable k := fun k hk =>
    (List.mem_append.mp hk).elim (hold k) (hids k)
  obtain ⟨chunks', hok, hrewritten⟩ := writeKeys_spec
    (fun k hk => hall k (List.mem_of_mem_drop hk)) chunks (keys.length / chunkKeys)
  refine ⟨chunks', ?_, hrewritten, fun n hnone => ?_⟩
  · rw [writeRadioChunks, lastKeys_spec hreads]
    rw [hdrop] at hok
    exact hok
  · set no := keys.length / chunkKeys
    have hsplit := Nat.div_add_mod' n chunkKeys
    have hmod : n % chunkKeys < chunkKeys := Nat.mod_lt _ (by decide)
    by_cases hbefore : n / chunkKeys < no
    · have hnext : (n / chunkKeys + 1) * chunkKeys ≤ no * chunkKeys :=
        Nat.mul_le_mul_right _ hbefore
      rw [Nat.succ_mul] at hnext
      have hlt : n < keys.length := by omega
      rw [readKey, hrewritten.before _ hbefore, ← readKey, hreads n hlt,
        List.getElem?_append_left hlt]
    · obtain ⟨j, hj⟩ : ∃ j, n / chunkKeys = no + j := ⟨n / chunkKeys - no, by omega⟩
      have hmul : n / chunkKeys * chunkKeys = no * chunkKeys + j * chunkKeys := by
        rw [hj, Nat.add_mul]
      by_cases hlong : j * chunkKeys < ((keys ++ ids).drop (no * chunkKeys)).length
      · rw [readKey, hj, hrewritten.written j hlong, Option.bind_some,
          chunkKey_encodeChunk fun k hk =>
            hall k (List.mem_of_mem_drop (List.mem_of_mem_drop (List.mem_of_mem_take hk))),
          List.getElem?_take_of_lt hmod, List.getElem?_drop, List.getElem?_drop,
          show no * chunkKeys + (j * chunkKeys + n % chunkKeys) = n by omega]
      · -- Behind what was written nothing changes.
        have hbehind := hrewritten.behind j (not_lt.mp hlong)
        rw [List.length_drop] at hlong
        have hn : (keys ++ ids).length ≤ n := by omega
        rw [readKey, hj, hbehind, ← hj, ← readKey, hnone hn, List.getElem?_eq_none hn]

/-! ## Rows -/

namespace Layout

variable {l : Layout} {refill : RadioRefill} {s : Snapshot}

/-- What a refill leaves of the rows: everything stays where it was, and the new ordinals follow. -/
structure Refilled (l l' : Layout) (refill : RadioRefill) : Prop where
  wellFormed : l'.WellFormed
  q : l'.q = l.q
  removals : l'.removals = l.removals
  entries : l'.entries = l.entries ++ block refill.snapshot refill.built refill.ids.length
  liveEntries : l'.liveEntries =
    l.liveEntries ++ block refill.snapshot refill.built refill.ids.length
  old_snapshot : ∀ id ≠ refill.snapshot, l'.snapshot? id = l.snapshot? id
  snapshot : ∃ s, l.snapshot? refill.snapshot = some s ∧ l'.snapshot? refill.snapshot =
    some { s with keys := s.keys ++ refill.ids, count := refill.built + refill.ids.length }

variable (l refill) in
/-- The rows with the batch behind its snapshot's keys. -/
def extendSnapshot : Layout :=
  { l with
    snapshots := l.snapshots.map fun s =>
      if s.id = refill.snapshot then
        { s with keys := s.keys.take refill.built ++ refill.ids
                 count := refill.built + refill.ids.length }
      else s }

theorem snapshot?_extendSnapshot (id : ℕ) :
    (l.extendSnapshot refill).snapshot? id = (l.snapshot? id).map fun s =>
      if id = refill.snapshot then
        { s with keys := s.keys.take refill.built ++ refill.ids
                 count := refill.built + refill.ids.length }
      else s := by
  have hid : ∀ s : Snapshot, (if s.id = refill.snapshot then
      { s with keys := s.keys.take refill.built ++ refill.ids
               count := refill.built + refill.ids.length }
      else s).id = s.id := fun s => by split_ifs <;> rfl
  rw [snapshot?, snapshot?, extendSnapshot, List.find?_map]
  have hsame : ((fun s : Snapshot => decide (s.id = id)) ∘ fun s : Snapshot =>
      if s.id = refill.snapshot then
        { s with keys := s.keys.take refill.built ++ refill.ids
                 count := refill.built + refill.ids.length }
      else s) = fun s => decide (s.id = id) := funext fun s => by
    rw [Function.comp_apply, hid]
  rw [hsame]
  cases hfind : l.snapshots.find? fun s => decide (s.id = id) with
  | none => rfl
  | some s =>
    have heq : s.id = id := by simpa using List.find?_some hfind
    rw [Option.map_some, Option.map_some, heq]

theorem WellFormed.extendSnapshot (h : l.WellFormed) (hs : l.snapshot? refill.snapshot = some s)
    (hbuilt : s.built = refill.built) : (l.extendSnapshot refill).WellFormed where
  sorted := h.sorted
  valid := h.valid
  nodup := h.nodup
  tombstones := h.tombstones
  removed := h.removed
  inside := h.inside
  positive := h.positive
  stored g hg := by
    obtain ⟨row, hrow, hkeys⟩ := h.stored g hg
    rw [snapshot?_extendSnapshot, hrow]
    refine ⟨_, rfl, fun hstate => ?_⟩
    split_ifs at hstate ⊢ with hid
    · have hle := hkeys hstate
      rw [hid, hs] at hrow
      obtain rfl := Option.some.inj hrow
      rw [Snapshot.built] at hbuilt
      rw [List.length_append, List.length_take]
      omega
    · exact hkeys hstate
  fresh row hrow := by
    obtain ⟨row', hrow', rfl⟩ := List.mem_map.mp hrow
    split_ifs
    · exact h.fresh row' hrow'
    · exact h.fresh row' hrow'
  keyed := by
    have hids : (l.extendSnapshot refill).snapshots.map Snapshot.id =
        l.snapshots.map Snapshot.id := by
      rw [Layout.extendSnapshot, List.map_map]
      refine List.map_congr_left fun row _ => ?_
      rw [Function.comp_apply]
      split_ifs <;> rfl
    rw [hids]
    exact h.keyed

/-- Nothing in the queue shows an ordinal that isn't built, and no tombstone is on one. -/
theorem WellFormed.built_le (h : l.WellFormed) (hs : l.snapshot? refill.snapshot = some s)
    (hready : s.state = .ready) (hbuilt : s.built = refill.built) {o : ℕ}
    (ho : refill.built ≤ o) :
    ⟨refill.snapshot, o⟩ ∉ l.entries ∧ o ∉ l.removals refill.snapshot := by
  have hnot : ⟨refill.snapshot, o⟩ ∉ l.entries := by
    intro hmem
    obtain ⟨g, hg, hsnap, -, hlt⟩ := mem_entries.mp hmem
    obtain ⟨row, hrow, hkeys⟩ := h.stored g hg
    rw [hsnap, hs] at hrow
    obtain rfl := Option.some.inj hrow
    have hle := hkeys (by rw [hready]; nofun)
    rw [Snapshot.built] at hbuilt
    simp only at hlt
    omega
  exact ⟨hnot, fun hr => hnot (h.inside _ _ hr)⟩

theorem WellFormed.extendTail (h : l.WellFormed) {pre : List Segment} {tail : Segment}
    (hseg : l.segments = pre ++ [tail]) {n : ℕ}
    (hfresh : ∀ o, tail.first + tail.count ≤ o →
      ⟨tail.snapshot, o⟩ ∉ l.entries ∧ o ∉ l.removals tail.snapshot)
    (hstored : ∃ s, l.snapshot? tail.snapshot = some s ∧
      (s.state ≠ .building → tail.first + tail.count + n ≤ s.keys.length)) :
    let extended : Layout := { l with segments := pre ++ [{ tail with count := tail.count + n }] }
    extended.WellFormed ∧
      extended.entries = l.entries ++ block tail.snapshot (tail.first + tail.count) n := by
  intro extended
  have htail : tail ∈ l.segments := by simp [hseg]
  have hkept : ∀ g ∈ pre, g ∈ l.segments := fun g hg => by simp [hseg, hg]
  have hentries : extended.entries =
      l.entries ++ block tail.snapshot (tail.first + tail.count) n := by
    have hsplit := List.range'_append_1 (s := tail.first) (m := tail.count) (n := n)
    simp only [entries, hseg, extended, List.flatMap_append, List.flatMap_singleton,
      Segment.entries, block]
    rw [← hsplit, List.map_append, List.append_assoc]
  refine ⟨?_, hentries⟩
  have hkeys : extended.segments.map Segment.sortKey = l.segments.map Segment.sortKey := by
    simp [extended, hseg]
  have hmem : ∀ g ∈ extended.segments, g ∈ l.segments ∨
      g = { tail with count := tail.count + n } := by
    intro g hg
    simp only [extended, List.mem_append, List.mem_singleton] at hg
    exact hg.imp_left (hkept g)
  constructor
  · rw [hkeys]
    exact h.sorted
  · intro g hg
    rcases hmem g hg with hg | rfl
    · exact h.valid g hg
    · exact h.valid tail htail
  · rw [hentries, List.nodup_append']
    refine ⟨h.nodup, (List.nodup_range' ..).map fun a b hab => by simpa using hab, ?_⟩
    intro e he hnew
    obtain ⟨o, ho, rfl⟩ := List.mem_map.mp hnew
    exact (hfresh o (List.mem_range'_1.mp ho).1).1 he
  · exact h.tombstones
  · intro g hg
    rcases hmem g hg with hg | rfl
    · exact h.removed g hg
    · -- No tombstone is on a new ordinal.
      rw [h.removed tail htail]
      refine List.countP_congr fun r hr => ?_
      have hold : r < tail.first + tail.count := by
        by_contra hge
        exact (hfresh r (not_lt.mp hge)).2 hr
      simp only [decide_eq_true_eq]
      omega
  · intro s r hr
    rw [hentries]
    exact List.mem_append_left _ (h.inside s r hr)
  · intro g hg
    rcases hmem g hg with hg | rfl
    · exact h.stored g hg
    · obtain ⟨s, hs, hle⟩ := hstored
      exact ⟨s, hs, fun hstate => by have := hle hstate; simp only; omega⟩
  · exact h.fresh
  · exact h.keyed
  · intro g hg
    rcases hmem g hg with hg | rfl
    · exact h.positive g hg
    · have := h.positive tail htail
      simp only
      omega

theorem filter_live_block {snapshot first n : ℕ}
    (h : ∀ o, first ≤ o → o ∉ l.removals snapshot) :
    (block snapshot first n).filter (fun e => l.Live e) = block snapshot first n := by
  rw [List.filter_eq_self]
  intro e he
  obtain ⟨o, ho, rfl⟩ := List.mem_map.mp he
  exact decide_eq_true (h o (List.mem_range'_1.mp ho).1)

/-- **The rows of a refill** show the new ordinals behind everything else. -/
theorem WellFormed.writeRadioKeys_spec (h : l.WellFormed)
    (hs : l.snapshot? refill.snapshot = some s) (hready : s.state = .ready)
    (hbuilt : s.built = refill.built) (hids : refill.ids ≠ []) :
    ∃ l', l.writeRadioKeys refill = .ok l' ∧ Refilled l l' refill := by
  have hpos := List.length_pos_iff.mpr hids
  have hstored := h.extendSnapshot hs hbuilt
  have hfresh : ∀ o, refill.built ≤ o →
      ⟨refill.snapshot, o⟩ ∉ l.entries ∧ o ∉ l.removals refill.snapshot :=
    fun o => h.built_le hs hready hbuilt
  have hkeys : s.keys.take refill.built = s.keys := by
    rw [← hbuilt, Snapshot.built, List.take_length]
  have hrow : (l.extendSnapshot refill).snapshot? refill.snapshot =
      some { s with keys := s.keys ++ refill.ids
                    count := refill.built + refill.ids.length } := by
    rw [snapshot?_extendSnapshot, hs, Option.map_some, if_pos rfl, hkeys]
  have hlen : ({ s with keys := s.keys ++ refill.ids
                        count := refill.built + refill.ids.length } : Snapshot).keys.length =
      refill.built + refill.ids.length := by
    rw [List.length_append, ← hbuilt, Snapshot.built]
  have hold : ∀ id ≠ refill.snapshot,
      (l.extendSnapshot refill).snapshot? id = l.snapshot? id := by
    intro id hid
    rw [snapshot?_extendSnapshot]
    simp [hid]
  -- What is left to show of a layout with the same snapshots and tombstones.
  have hdone : ∀ l' : Layout, l'.WellFormed →
      l'.entries = l.entries ++ block refill.snapshot refill.built refill.ids.length →
      l'.q = l.q → l'.removals = l.removals →
      l'.snapshots = (l.extendSnapshot refill).snapshots → Refilled l l' refill := by
    intro l' hwf hentries hq hremovals hsnapshots
    have hlive : ∀ e, l'.Live e ↔ l.Live e := fun e => by rw [Live, Live, hremovals]
    refine ⟨hwf, hq, hremovals, hentries, ?_, fun id hid => ?_, s, hs, ?_⟩
    · rw [liveEntries, hentries, List.filter_append, liveEntries]
      simp only [hlive]
      rw [filter_live_block fun o ho => (hfresh o ho).2]
    · rw [← hold id hid, snapshot?, hsnapshots, snapshot?]
    · rw [← hrow, snapshot?, hsnapshots, snapshot?]
  have hadd : ∃ key, sortKeyOr (lastSortKey l.segments) [] = .ok key ∧
      Refilled l ((l.extendSnapshot refill).addRow refill.snapshot key refill.built
        refill.ids.length 0) refill := by
    obtain ⟨key, hkey, hplace⟩ := hstored.place_last
    obtain ⟨hwf, hentries⟩ := hstored.addRow_place hplace refill.snapshot refill.built
      refill.ids.length 0 (fun o ho _ => (hfresh o ho).1)
      (by
        symm
        rw [List.countP_eq_zero]
        intro r hr hin
        exact (hfresh r (of_decide_eq_true hin).1).2 hr)
      ⟨_, hrow, fun _ => hlen.ge⟩ hpos
    rw [List.append_nil] at hentries
    exact ⟨key, hkey, hdone _ hwf hentries rfl rfl rfl⟩
  rcases List.eq_nil_or_concat l.segments with hseg | ⟨pre, tail, hseg⟩
  · obtain ⟨key, hkey, hrefilled⟩ := hadd
    refine ⟨_, ?_, hrefilled⟩
    rw [hseg] at hkey
    have hkey' : sortKeyOr [] [] = .ok key := hkey
    have hnone : l.segments.getLast? = none := by rw [hseg, List.getLast?_nil]
    simp only [writeRadioKeys, hnone]
    rw [hkey']
    rfl
  · rw [List.concat_eq_append] at hseg
    have hlast : l.segments.getLast? = some tail := by rw [hseg, List.getLast?_concat]
    by_cases htail : tail.snapshot = refill.snapshot ∧ tail.first + tail.count = refill.built
    · obtain ⟨hwf, hentries⟩ := hstored.extendTail (n := refill.ids.length) hseg
        (by rw [htail.1, htail.2]; exact hfresh)
        ⟨_, by rw [htail.1]; exact hrow, fun _ => by rw [htail.2]; exact hlen.ge⟩
      have hblock : block tail.snapshot (tail.first + tail.count) refill.ids.length =
          block refill.snapshot refill.built refill.ids.length := by rw [htail.1, htail.2]
      rw [hblock] at hentries
      refine ⟨_, ?_, hdone _ hwf hentries rfl rfl rfl⟩
      have hmodify : l.segments.modify (l.segments.length - 1)
          (fun g => { g with count := g.count + refill.ids.length }) =
          pre ++ [{ tail with count := tail.count + refill.ids.length }] := by
        rw [hseg, List.length_append, List.length_singleton, Nat.add_sub_cancel,
          modify_length pre [] tail]
      simp only [writeRadioKeys, hlast]
      rw [if_pos htail, hmodify]
      rfl
    · obtain ⟨key, hkey, hrefilled⟩ := hadd
      refine ⟨_, ?_, hrefilled⟩
      rw [lastSortKey, hlast] at hkey
      have hkey' : sortKeyOr tail.sortKey [] = .ok key := hkey
      simp only [writeRadioKeys, hlast]
      rw [if_neg htail, hkey']
      rfl

/-! ## Positions -/

/-- **The play order** grows at its end. -/
theorem Refilled.playOrder {l' : Layout} (hr : Refilled l l' refill) (h : l.WellFormed)
    (hs : l.q.shuffle = false) : l'.playOrder =
      l.playOrder ++ (block refill.snapshot refill.built refill.ids.length).map some := by
  rw [hr.wellFormed.playOrder_eq (by rw [hr.q]; exact hs), h.playOrder_eq hs, hr.liveEntries,
    List.map_append]

/-- Unshuffled an entry's position is its place among the live entries. -/
theorem WellFormed.positionOf_of_not_shuffle (h : l.WellFormed) (hs : l.q.shuffle = false)
    {e : Entry} (he : e ∈ l.liveEntries) : l.positionOf e = ((l.liveEntries.idxOf e : ℤ), true) := by
  obtain ⟨i, g, -, -, -, hat⟩ := h.sourceIndexOf_eq he
  rw [positionOf, hat]
  simp only [sourceToOrder_of_not_shuffle hs, sourceEntries_of_not_shuffle hs]
  simp

/-- **Every entry keeps its position**, and a removed one still has none. -/
theorem Refilled.positionOf {l' : Layout} (hr : Refilled l l' refill) (h : l.WellFormed)
    (hs : l.q.shuffle = false) {e : Entry} (he : e ∈ l.entries) :
    l'.positionOf e = l.positionOf e := by
  have hs' : l'.q.shuffle = false := by rw [hr.q]; exact hs
  have hlive : l'.Live e ↔ l.Live e := by rw [Live, Live, hr.removals]
  have hmem' : e ∈ l'.entries := by
    rw [hr.entries]
    exact List.mem_append_left _ he
  by_cases hin : l.Live e
  · have hold := mem_liveEntries.mpr ⟨he, hin⟩
    have hnew := mem_liveEntries.mpr ⟨hmem', hlive.mpr hin⟩
    rw [hr.wellFormed.positionOf_of_not_shuffle hs' hnew, h.positionOf_of_not_shuffle hs hold,
      hr.liveEntries, List.idxOf_append_of_mem hold]
  · have hold : e ∉ l.liveEntries := fun hmem => hin (mem_liveEntries.mp hmem).2
    have hnew : e ∉ l'.liveEntries := fun hmem => hin (hlive.mp (mem_liveEntries.mp hmem).2)
    rw [Layout.positionOf, Layout.positionOf, sourceIndexOf_eq_none hold,
      sourceIndexOf_eq_none hnew]

/-- **Every entry keeps its key.** -/
theorem Refilled.key {l' : Layout} (hr : Refilled l l' refill) (h : l.WellFormed)
    (hs : l.snapshot? refill.snapshot = some s) (hready : s.state = .ready) {e : Entry}
    (he : e ∈ l.entries) : l'.key e = l.key e := by
  by_cases hid : e.snapshot = refill.snapshot
  · obtain ⟨g, hg, hsnap, -, hlt⟩ := mem_entries.mp he
    obtain ⟨row, hrow, hkeys⟩ := h.stored g hg
    obtain ⟨row', hrow', hnew⟩ := hr.snapshot
    rw [hsnap, hid, hs] at hrow
    obtain rfl := Option.some.inj hrow
    obtain rfl := Option.some.inj (hs.symm.trans hrow')
    have hin : e.ordinal < s.keys.length := hlt.trans_le (hkeys (by rw [hready]; nofun))
    have hread := List.getElem?_eq_getElem hin
    have hnewkey := key_of_stored (e := e) (by rw [hid]; exact hnew)
      ((List.getElem?_append_left hin).trans hread)
    have holdkey := key_of_stored (e := e) (by rw [hid]; exact hs) hread
    rw [hnewkey, holdkey]
  · exact key_congr (hr.old_snapshot _ hid)

/-- **Every new ordinal has its key.** -/
theorem Refilled.new_key {l' : Layout} (hr : Refilled l l' refill)
    (hs : l.snapshot? refill.snapshot = some s) (hbuilt : s.built = refill.built) (i : ℕ)
    (hi : i < refill.ids.length) :
    l'.key ⟨refill.snapshot, refill.built + i⟩ = .key refill.ids[i] := by
  obtain ⟨row', hrow', hnew⟩ := hr.snapshot
  obtain rfl := Option.some.inj (hs.symm.trans hrow')
  refine key_of_stored hnew ?_
  rw [Snapshot.built] at hbuilt
  simp only
  rw [List.getElem?_append_right (by omega), show refill.built + i - s.keys.length = i by omega,
    List.getElem?_eq_getElem hi]

/-! ## What is refused -/

variable (l refill) in
/-- The batch fits the queue and its snapshot, and the snapshot is built as far as the batch was
prepared for. -/
structure Accepts : Prop where
  ordered : l.q.shuffle = false
  fits : l.total + refill.ids.length ≤ maxQueueKeys
  room : refill.built + refill.ids.length ≤ maxSnapshotKeys
  current : ∃ s, l.snapshot? refill.snapshot = some s ∧ s.state = .ready ∧ s.built = refill.built

theorem appendRadio_of_accepts (h : Accepts l refill) :
    l.appendRadio (some refill) = l.writeRadioKeys refill := by
  obtain ⟨hs, hfits, hroom, s, hsnap, hready, hbuilt⟩ := h
  simp only [appendRadio, hsnap]
  rw [if_neg (by rw [hs]; simp only [Bool.false_eq_true, false_or]; omega),
    if_neg (not_not.mpr hready), if_neg (not_not.mpr hbuilt)]

theorem appendRadio_of_not_accepts (h : ¬ Accepts l refill) :
    ∃ e, l.appendRadio (some refill) = .error e := by
  rw [appendRadio]
  split_ifs with hbounds
  · exact ⟨_, rfl⟩
  · rw [not_or, not_or] at hbounds
    obtain ⟨hs, hfits, hroom⟩ := hbounds
    cases hsnap : l.snapshot? refill.snapshot with
    | none => exact ⟨_, rfl⟩
    | some s =>
      simp only
      split_ifs with hready hbuilt
      · exact ⟨_, rfl⟩
      · exact ⟨_, rfl⟩
      · refine absurd ⟨by simpa using hs, not_lt.mp hfits, not_lt.mp hroom, s, hsnap, ?_, ?_⟩ h
        · exact not_not.mp hready
        · exact not_not.mp hbuilt

end Layout

/-! ## Rows and chunks -/

/-- The rows of a queue with the chunks of its snapshots. -/
structure RadioQueue where
  layout : Layout
  chunks : ℕ → ℕ → Option Data

namespace RadioQueue

variable {text : ℕ → Data} {r r' : RadioQueue} {refill : RadioRefill}

/-- The chunks of each snapshot hold its keys; `text` is the public id of a key. -/
def Reads (text : ℕ → Data) (r : RadioQueue) : Prop :=
  ∀ id s, r.layout.snapshot? id = some s →
    ∀ n < s.keys.length, readKey (r.chunks id) n = (s.keys[n]?).map text

/-- A refill writes the rows and the chunks, or nothing: any failure rolls the other part back.
`allowed` answers the checks against the catalogue. -/
def appendRadio (text : ℕ → Data) (r : RadioQueue) (allowed : Bool) (refill : RadioRefill) :
    Except QueueError RadioQueue := do
  if ¬ allowed then throw .notFound
  let layout ← r.layout.appendRadio (some refill)
  let chunks ← writeRadioChunks (r.chunks refill.snapshot) refill.built (refill.ids.map text)
  return { layout, chunks := Function.update r.chunks refill.snapshot chunks }

/-- What a refill leaves: the new entries last, every old one as it was, and the chunks from the one
that was last on written with the old keys followed by the new ones. -/
structure Appended (text : ℕ → Data) (r r' : RadioQueue) (refill : RadioRefill) : Prop where
  rows : r.layout.Refilled r'.layout refill
  playOrder : r'.layout.playOrder = r.layout.playOrder ++
    (Layout.block refill.snapshot refill.built refill.ids.length).map some
  new_key : ∀ i (hi : i < refill.ids.length),
    r'.layout.key ⟨refill.snapshot, refill.built + i⟩ = .key refill.ids[i]
  position : ∀ e ∈ r.layout.entries, r'.layout.positionOf e = r.layout.positionOf e
  key : ∀ e ∈ r.layout.entries, r'.layout.key e = r.layout.key e
  removed : ∀ e, r'.layout.Live e ↔ r.layout.Live e
  rewritten : ∃ s, r.layout.snapshot? refill.snapshot = some s ∧
    Rewritten (r.chunks refill.snapshot) (r'.chunks refill.snapshot) (refill.built / chunkKeys)
      (((s.keys ++ refill.ids).map text).drop (refill.built / chunkKeys * chunkKeys))
  chunks : ∀ id ≠ refill.snapshot, r'.chunks id = r.chunks id
  reads : r'.Reads text

/-- **A refill** appends exactly the new keys, in order, behind the existing ones, and keeps
everything else, whatever the last chunk held; it is refused exactly when the batch doesn't fit,
isn't allowed or was prepared for another state of the snapshot. -/
theorem appendRadio_spec (r : RadioQueue) (allowed : Bool) (refill : RadioRefill)
    (h : r.layout.WellFormed) (hreads : r.Reads text) (hids : refill.ids ≠ [])
    (htext : ∀ i ∈ refill.ids, Storable (text i)) :
    (allowed ∧ r.layout.Accepts refill →
      ∃ r', r.appendRadio text allowed refill = .ok r' ∧ Appended text r r' refill) ∧
    (¬ (allowed ∧ r.layout.Accepts refill) → ∃ e, r.appendRadio text allowed refill = .error e) := by
  refine ⟨?_, fun hnot => ?_⟩
  · rintro ⟨hallowed, haccepts⟩
    obtain ⟨hs, -, -, s, hsnap, hready, hbuilt⟩ := id haccepts
    obtain ⟨l', hok, hrefilled⟩ := h.writeRadioKeys_spec hsnap hready hbuilt hids
    have hlen : (s.keys.map text).length = refill.built := by
      rw [List.length_map]
      exact hbuilt
    obtain ⟨chunks', hchunks, hrewritten, hnew⟩ := @writeRadioChunks_spec (r.chunks refill.snapshot) (s.keys.map text) (refill.ids.map text) (fun n hn => by
        rw [List.length_map] at hn
        rw [hreads _ s hsnap n hn, List.getElem?_map]) (fun k hk => by
        obtain ⟨i, hi, rfl⟩ := List.mem_map.mp hk
        exact htext i hi)
    rw [hlen] at hchunks hrewritten
    rw [← List.map_append] at hrewritten hnew
    obtain ⟨s', hs', hsnap'⟩ := hrefilled.snapshot
    obtain rfl := Option.some.inj (hsnap.symm.trans hs')
    refine ⟨⟨l', Function.update r.chunks refill.snapshot chunks'⟩, ?_, hrefilled,
      hrefilled.playOrder h hs, hrefilled.new_key hsnap hbuilt,
      fun e he => hrefilled.positionOf h hs he, fun e he => hrefilled.key h hsnap hready he,
      fun e => by rw [Layout.Live, Layout.Live, hrefilled.removals], ⟨s, hsnap, ?_⟩,
      fun id hid => Function.update_of_ne hid _ _, fun id row hrow n hn => ?_⟩
    · rw [RadioQueue.appendRadio, Layout.appendRadio_of_accepts haccepts, hok, hchunks, hallowed]
      rfl
    · simp only [Function.update_self]
      exact hrewritten
    · by_cases hid : id = refill.snapshot
      · obtain rfl := hid
        obtain rfl := Option.some.inj (hsnap'.symm.trans hrow)
        simp only [Function.update_self]
        rw [hnew n (fun hle => absurd hn (not_lt.mpr (by simpa using hle))), List.getElem?_map]
      · rw [hrefilled.old_snapshot id hid] at hrow
        simp only [Function.update_of_ne hid]
        exact hreads id row hrow n hn
  · by_cases hallowed : allowed
    · obtain ⟨e, he⟩ := Layout.appendRadio_of_not_accepts fun haccepts => hnot ⟨hallowed, haccepts⟩
      exact ⟨e, by rw [RadioQueue.appendRadio, he, hallowed]; rfl⟩
    · exact ⟨.notFound, by rw [RadioQueue.appendRadio, if_pos hallowed]; rfl⟩

/-- A queue of one station, whose snapshot has one key so far. -/
def station (text : ℕ → Data) : RadioQueue where
  layout :=
    { q := {}
      segments := [{ id := 1, snapshot := 0, sortKey := [18], first := 0, count := 1 }]
      snapshots := [{ id := 0, kind := .radio, count := 1, keys := [5] }]
      nextId := 2 }
  chunks := fun _ no => if no = 0 then some (encodeChunk [text 5]) else none

theorem appendRadio_spec_station :
    ∃ r', (station fun i => [UInt8.ofNat i]).appendRadio (fun i => [UInt8.ofNat i]) true
        ⟨0, 1, [6, 7]⟩ = .ok r' ∧
      Appended (fun i => [UInt8.ofNat i]) (station fun i => [UInt8.ofNat i]) r' ⟨0, 1, [6, 7]⟩ := by
  refine (appendRadio_spec (station fun i => [UInt8.ofNat i]) true ⟨0, 1, [6, 7]⟩ ?_ ?_ (by decide)
    ?_).1 ⟨rfl, rfl, by decide, by decide, _, rfl, rfl, rfl⟩
  · refine ⟨by decide, ?_, by decide, fun _ => List.Pairwise.nil, by decide, nofun, ?_, by decide,
      by decide, by decide⟩
    · intro g hg
      obtain rfl := List.mem_singleton.mp hg
      exact SortKey.valid_singleton (by decide) (by decide)
    · intro g hg
      obtain rfl := List.mem_singleton.mp hg
      exact ⟨_, rfl, fun _ => by decide⟩
  · intro id s hs n hn
    obtain rfl : (⟨0, .radio, .ready, 1, none, none, [5]⟩ : Snapshot) = s := by
      rw [Layout.snapshot?, station, List.find?_singleton] at hs
      split_ifs at hs
      exact Option.some.inj hs
    obtain rfl : n = 0 := by simpa using hn
    exact @chunkKey_encodeChunk ([[UInt8.ofNat 5]]) (by unfold Storable; decide) 0
  · unfold Storable
    decide

end RadioQueue

end Portico
