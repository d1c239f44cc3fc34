import Portico.Lib.Table

/-!
# JSON documents and their canonical form

A document as it is written, with the members of its objects in their order and its numbers as they
are spelled. What a reader can see of it is the node at each path; two documents whose keys are
distinct have one canonical form just when a reader can't tell them apart.

## Main results

* `nodeAt_canonical`: the canonical form shows the same at each path
* `canonical_eq_iff`: documents have one canonical form just when they show the same
-/

namespace Portico

/-- A document as it is written. -/
inductive Json
  | null
  | bool (b : Bool)
  | number (literal : String)
  | string (s : String)
  | array (xs : List Json)
  | object (members : List (String × Json))
deriving Repr

namespace Json

/-! ## Equality -/

mutual

def decEq : (a b : Json) → Decidable (a = b)
  | .null, .null => .isTrue rfl
  | .bool a, .bool b => decidable_of_iff (a = b) (by simp)
  | .number a, .number b => decidable_of_iff (a = b) (by simp)
  | .string a, .string b => decidable_of_iff (a = b) (by simp)
  | .array xs, .array ys =>
    have := decEqList xs ys
    decidable_of_iff (xs = ys) (by simp)
  | .object ms, .object ns =>
    have := decEqMembers ms ns
    decidable_of_iff (ms = ns) (by simp)
  | .null, .bool _ | .null, .number _ | .null, .string _ | .null, .array _ | .null, .object _
  | .bool _, .null | .bool _, .number _ | .bool _, .string _ | .bool _, .array _
  | .bool _, .object _ | .number _, .null | .number _, .bool _ | .number _, .string _
  | .number _, .array _ | .number _, .object _ | .string _, .null | .string _, .bool _
  | .string _, .number _ | .string _, .array _ | .string _, .object _ | .array _, .null
  | .array _, .bool _ | .array _, .number _ | .array _, .string _ | .array _, .object _
  | .object _, .null | .object _, .bool _ | .object _, .number _ | .object _, .string _
  | .object _, .array _ => .isFalse (by simp)

def decEqList : (xs ys : List Json) → Decidable (xs = ys)
  | [], [] => .isTrue rfl
  | [], _ :: _ => .isFalse (by simp)
  | _ :: _, [] => .isFalse (by simp)
  | x :: xs, y :: ys =>
    have := decEq x y
    have := decEqList xs ys
    decidable_of_iff (x = y ∧ xs = ys) (by simp)

def decEqMembers : (ms ns : List (String × Json)) → Decidable (ms = ns)
  | [], [] => .isTrue rfl
  | [], _ :: _ => .isFalse (by simp)
  | _ :: _, [] => .isFalse (by simp)
  | (k, x) :: ms, (l, y) :: ns =>
    have := decEq x y
    have := decEqMembers ms ns
    decidable_of_iff (k = l ∧ x = y ∧ ms = ns) (by simp [and_assoc])

end

instance : DecidableEq Json := decEq

/-! ## What a reader sees -/

/-- What is at one place of a document. -/
inductive Node
  | null
  | bool (b : Bool)
  | number (literal : String)
  | string (s : String)
  | array (length : ℕ)
  | object
deriving DecidableEq, Repr

/-- A step into a document. -/
inductive Step
  | index (i : ℕ)
  | key (k : String)
deriving DecidableEq, Repr

def node : Json → Node
  | .null => .null
  | .bool b => .bool b
  | .number literal => .number literal
  | .string s => .string s
  | .array xs => .array xs.length
  | .object _ => .object

/-- The member of an object with a key. -/
def member (k : String) (ms : List (String × Json)) : Option Json :=
  (rowOf Prod.fst k ms).map Prod.snd

/-- The part of a document that a step leads to. -/
def into : Json → Step → Option Json
  | .array xs, .index i => xs[i]?
  | .object ms, .key k => member k ms
  | _, _ => none

/-- What is at a path of a document. -/
def nodeAt : Json → List Step → Option Node
  | j, [] => some j.node
  | j, step :: path => (j.into step).bind fun x => nodeAt x path

/-! ## Distinct keys -/

mutual

/-- No object of the document has a key twice. -/
def unique : Json → Bool
  | .array xs => uniqueList xs
  | .object ms => decide (ms.map Prod.fst).Nodup && uniqueMembers ms
  | _ => true

def uniqueList : List Json → Bool
  | [] => true
  | x :: xs => x.unique && uniqueList xs

def uniqueMembers : List (String × Json) → Bool
  | [] => true
  | (_, x) :: ms => x.unique && uniqueMembers ms

end

theorem uniqueList_iff {xs : List Json} : uniqueList xs = true ↔ ∀ x ∈ xs, x.unique = true := by
  induction xs with
  | nil => simp [uniqueList]
  | cons x xs ih => simp [uniqueList, ih]

theorem uniqueMembers_iff {ms : List (String × Json)} :
    uniqueMembers ms = true ↔ ∀ m ∈ ms, m.2.unique = true := by
  induction ms with
  | nil => simp [uniqueMembers]
  | cons m ms ih =>
    obtain ⟨k, x⟩ := m
    simp [uniqueMembers, ih]

theorem unique_array {xs : List Json} : unique (.array xs) = true ↔ ∀ x ∈ xs, x.unique = true := by
  rw [unique, uniqueList_iff]

theorem unique_object {ms : List (String × Json)} :
    unique (.object ms) = true ↔ (ms.map Prod.fst).Nodup ∧ ∀ m ∈ ms, m.2.unique = true := by
  rw [unique, Bool.and_eq_true, decide_eq_true_eq, uniqueMembers_iff]

/-! ## The canonical form -/

/-- The members in the order of their keys. -/
def sortMembers (ms : List (String × Json)) : List (String × Json) :=
  ms.insertionSort fun a b => a.1 ≤ b.1

mutual

/-- The document with the members of each object in the order of their keys. -/
def canonical : Json → Json
  | .array xs => .array (canonicalList xs)
  | .object ms => .object (sortMembers (canonicalMembers ms))
  | j => j

def canonicalList : List Json → List Json
  | [] => []
  | x :: xs => x.canonical :: canonicalList xs

def canonicalMembers : List (String × Json) → List (String × Json)
  | [] => []
  | (k, x) :: ms => (k, x.canonical) :: canonicalMembers ms

end

theorem canonicalList_eq (xs : List Json) : canonicalList xs = xs.map canonical := by
  induction xs with
  | nil => rfl
  | cons x xs ih => rw [canonicalList, ih, List.map_cons]

theorem canonicalMembers_eq (ms : List (String × Json)) :
    canonicalMembers ms = ms.map fun m => (m.1, m.2.canonical) := by
  induction ms with
  | nil => rfl
  | cons m ms ih => rw [canonicalMembers, ih, List.map_cons]

theorem keys_canonicalMembers (ms : List (String × Json)) :
    (canonicalMembers ms).map Prod.fst = ms.map Prod.fst := by
  rw [canonicalMembers_eq, List.map_map]
  rfl

theorem perm_sortMembers (ms : List (String × Json)) : (sortMembers ms).Perm ms :=
  List.perm_insertionSort _ ms

theorem mem_member {ms : List (String × Json)} (hkeys : (ms.map Prod.fst).Nodup) {k : String}
    {x : Json} : member k ms = some x ↔ (k, x) ∈ ms := by
  unfold member
  rw [Option.map_eq_some_iff]
  constructor
  · rintro ⟨m, hm, rfl⟩
    obtain ⟨hmem, rfl⟩ := (rowOf_eq_some hkeys).mp hm
    exact hmem
  · intro hmem
    exact ⟨(k, x), (rowOf_eq_some hkeys).mpr ⟨hmem, rfl⟩, rfl⟩

theorem member_perm {ms ns : List (String × Json)} (h : ms.Perm ns)
    (hkeys : (ms.map Prod.fst).Nodup) (k : String) : member k ms = member k ns := by
  have hkeys' : (ns.map Prod.fst).Nodup := (h.map Prod.fst).nodup_iff.mp hkeys
  apply Option.ext
  intro x
  rw [mem_member hkeys, mem_member hkeys', h.mem_iff]

theorem member_canonicalMembers (ms : List (String × Json)) (k : String) :
    member k (canonicalMembers ms) = (member k ms).map canonical := by
  rw [canonicalMembers_eq]
  unfold member rowOf
  rw [List.find?_map, Option.map_map, Option.map_map]
  rfl

theorem node_canonical (j : Json) : j.canonical.node = j.node := by
  cases j with
  | array xs => simp [canonical, node, canonicalList_eq]
  | object ms => simp [canonical, node]
  | null | bool | number | string => rfl

theorem into_canonical {j : Json} (h : j.unique = true) (step : Step) :
    j.canonical.into step = (j.into step).map canonical := by
  cases j with
  | null | bool | number | string => cases step <;> rfl
  | array xs =>
    cases step with
    | key k => rfl
    | index i => simp [canonical, into, canonicalList_eq]
  | object ms =>
    cases step with
    | index i => rfl
    | key k =>
      obtain ⟨hkeys, -⟩ := unique_object.mp h
      rw [canonical, into, into, member_perm (perm_sortMembers _), member_canonicalMembers]
      rw [((perm_sortMembers _).map Prod.fst).nodup_iff, keys_canonicalMembers]
      exact hkeys

theorem unique_into {j x : Json} {step : Step} (h : j.unique = true) (hx : j.into step = some x) :
    x.unique = true := by
  cases j with
  | null | bool | number | string => cases hx
  | array xs =>
    cases step with
    | key k => cases hx
    | index i => exact unique_array.mp h x (List.mem_of_getElem? hx)
  | object ms =>
    cases step with
    | index i => cases hx
    | key k =>
      obtain ⟨hkeys, hall⟩ := unique_object.mp h
      exact hall (k, x) ((mem_member hkeys).mp hx)

theorem nodeAt_canonical {j : Json} (h : j.unique = true) (path : List Step) :
    j.canonical.nodeAt path = j.nodeAt path := by
  induction path generalizing j with
  | nil => rw [nodeAt, nodeAt, node_canonical]
  | cons step path ih =>
    rw [nodeAt, nodeAt, into_canonical h]
    cases hx : j.into step with
    | none => rfl
    | some x => exact ih (unique_into h hx)

/-! ## Documents that show the same -/

theorem sizeOf_member {m : String × Json} {ms : List (String × Json)} (h : m ∈ ms) :
    sizeOf m.2 < 1 + sizeOf ms := by
  have hm := List.sizeOf_lt_of_mem h
  obtain ⟨k, x⟩ := m
  simp only [Prod.mk.sizeOf_spec] at hm ⊢
  omega

theorem parts_induction {P : Json → Prop}
    (leaf : ∀ j : Json, (∀ step, j.into step = none) → (∀ xs, j ≠ .array xs) →
      (∀ ms, j ≠ .object ms) → P j)
    (array : ∀ xs, (∀ x ∈ xs, P x) → P (.array xs))
    (object : ∀ ms : List (String × Json), (∀ m ∈ ms, P m.2) → P (.object ms)) (j : Json) : P j := by
  match j with
  | .null | .bool _ | .number _ | .string _ =>
    exact leaf _ (fun step => by cases step <;> rfl) (by simp) (by simp)
  | .array xs =>
    refine array xs fun x hx => ?_
    have := List.sizeOf_lt_of_mem hx
    exact parts_induction leaf array object x
  | .object ms =>
    refine object ms fun m hm => ?_
    have := sizeOf_member hm
    exact parts_induction leaf array object m.2
termination_by sizeOf j

/-- What one document has at a step, a document that shows the same has too. -/
theorem into_of_nodeAt {a b x : Json} {step : Step} (h : ∀ path, a.nodeAt path = b.nodeAt path)
    (hx : a.into step = some x) :
    ∃ y, b.into step = some y ∧ ∀ path, x.nodeAt path = y.nodeAt path := by
  have hstep : ∀ path, x.nodeAt path = (b.into step).bind fun y => nodeAt y path := by
    intro path
    have hpath := h (step :: path)
    rwa [nodeAt, nodeAt, hx] at hpath
  cases hy : b.into step with
  | none =>
    have hnone := hstep []
    rw [hy] at hnone
    cases hnone
  | some y =>
    rw [hy] at hstep
    exact ⟨y, rfl, hstep⟩

/-- The members of two objects that show the same, up to their canonical forms. -/
theorem canonicalMembers_subset {ms ns : List (String × Json)}
    (ih : ∀ m ∈ ms, ∀ n ∈ ns, (∀ path, m.2.nodeAt path = n.2.nodeAt path) →
      m.2.canonical = n.2.canonical)
    (hms : (ms.map Prod.fst).Nodup) (hns : (ns.map Prod.fst).Nodup)
    (h : ∀ path, (Json.object ms).nodeAt path = (Json.object ns).nodeAt path) :
    canonicalMembers ms ⊆ canonicalMembers ns := by
  rw [canonicalMembers_eq, canonicalMembers_eq]
  intro m' hm'
  obtain ⟨m, hm, rfl⟩ := List.mem_map.mp hm'
  obtain ⟨y, hy, hshow⟩ :=
    into_of_nodeAt h (show (Json.object ms).into (.key m.1) = some m.2 from (mem_member hms).mpr hm)
  have hmem := (mem_member hns).mp hy
  rw [ih m hm (m.1, y) hmem hshow]
  exact List.mem_map_of_mem hmem

theorem sortMembers_eq {ms ns : List (String × Json)} (hms : (ms.map Prod.fst).Nodup)
    (hns : (ns.map Prod.fst).Nodup) (h : ms ⊆ ns) (h' : ns ⊆ ms) : sortMembers ms = sortMembers ns := by
  have hperm : ms.Perm ns :=
    (List.perm_ext_iff_of_nodup hms.of_map hns.of_map).mpr fun m => ⟨fun hm => h hm, fun hm => h' hm⟩
  have hsorted : ∀ ms : List (String × Json), (sortMembers ms).Pairwise fun a b => a.1 ≤ b.1 := by
    intro ms
    have : IsTrans (String × Json) fun a b => a.1 ≤ b.1 := ⟨fun _ _ _ => le_trans⟩
    have : Std.Total fun a b : String × Json => a.1 ≤ b.1 := ⟨fun a b => le_total a.1 b.1⟩
    exact List.pairwise_insertionSort _ ms
  refine List.Perm.eq_of_pairwise (fun a b ha hb hab hba => ?_) (hsorted ms) (hsorted ns)
    ((perm_sortMembers ms).trans (hperm.trans (perm_sortMembers ns).symm))
  have ha' := h ((perm_sortMembers ms).mem_iff.mp ha)
  have hb' := (perm_sortMembers ns).mem_iff.mp hb
  exact eq_of_key hns ha' hb' (le_antisymm hab hba)

theorem canonical_eq_of_nodeAt {a b : Json} (ha : a.unique = true) (hb : b.unique = true)
    (h : ∀ path, a.nodeAt path = b.nodeAt path) : a.canonical = b.canonical := by
  induction a using parts_induction generalizing b with
  | leaf j hleaf harray hobject =>
    have hnode := Option.some.inj (h [])
    cases j with
    | array xs => exact absurd rfl (harray xs)
    | object ms => exact absurd rfl (hobject ms)
    | null | bool | number | string =>
      cases b <;> cases hnode
      rfl
  | array xs ih =>
    have hnode := Option.some.inj (h [])
    cases b with
    | null | bool | number | string | object => cases hnode
    | array ys =>
      have hlength : xs.length = ys.length := Node.array.inj hnode
      rw [canonical, canonical, canonicalList_eq, canonicalList_eq]
      congr 1
      apply List.ext_getElem
      · simpa using hlength
      · intro i hi hi'
        simp only [List.length_map] at hi hi'
        obtain ⟨y, hy, hshow⟩ := into_of_nodeAt h
          (show (Json.array xs).into (.index i) = some xs[i] from List.getElem?_eq_getElem hi)
        have hyi : ys[i] = y := Option.some.inj ((List.getElem?_eq_getElem hi').symm.trans hy)
        rw [List.getElem_map, List.getElem_map, hyi]
        have hx := List.getElem_mem hi
        exact ih xs[i] hx (unique_array.mp ha _ hx) (unique_into hb hy) hshow
  | object ms ih =>
    have hnode := Option.some.inj (h [])
    cases b with
    | null | bool | number | string | array => cases hnode
    | object ns =>
      obtain ⟨hms, hall⟩ := unique_object.mp ha
      obtain ⟨hns, hall'⟩ := unique_object.mp hb
      have hparts : ∀ m ∈ ms, ∀ n ∈ ns, (∀ path, m.2.nodeAt path = n.2.nodeAt path) →
          m.2.canonical = n.2.canonical :=
        fun m hm n hn hshow => ih m hm (hall m hm) (hall' n hn) hshow
      have hparts' : ∀ n ∈ ns, ∀ m ∈ ms, (∀ path, n.2.nodeAt path = m.2.nodeAt path) →
          n.2.canonical = m.2.canonical :=
        fun n hn m hm hshow => (hparts m hm n hn fun path => (hshow path).symm).symm
      rw [canonical, canonical]
      congr 1
      apply sortMembers_eq
      · rw [keys_canonicalMembers]
        exact hms
      · rw [keys_canonicalMembers]
        exact hns
      · exact canonicalMembers_subset hparts hms hns h
      · exact canonicalMembers_subset hparts' hns hms fun path => (h path).symm

/-- **Canonical forms.** Documents without repeated keys have one canonical form just when a reader
sees the same at every path. -/
theorem canonical_eq_iff {a b : Json} (ha : a.unique = true) (hb : b.unique = true) :
    a.canonical = b.canonical ↔ ∀ path, a.nodeAt path = b.nodeAt path := by
  constructor
  · intro h path
    rw [← nodeAt_canonical ha, h, nodeAt_canonical hb]
  · exact canonical_eq_of_nodeAt ha hb

end Json

end Portico
