import Portico.Lib.Bytes

/-!
# Addresses and prefixes

Addresses of both families, how they are read from text, and the lists of prefixes that they
are looked up in. Texts are strings of bytes.

## Main definitions

* `Addr`: an address; `Addr.unmap`, `Addr.withoutZone`, `Addr.isUnspecified`, `Addr.isMulticast`
* `parseAddr`: an address from text, with `parseIPv4` and `parseIPv6`
* `Prefix`, `contains`: networks, and whether one of a list holds an address
* `splitHostPort`, `parseAddress`: the address of a socket peer or of a hop

## Main results

* `parseGroups_lower`: the case of the digits of an address doesn't matter
* `parseGroups_bytes`: an address is written in digits, colons and points
-/

namespace Portico.Network

open Bytes

abbrev Text := List UInt8

/-! ## Addresses -/

/-- An address, and the zone of one of IPv6. -/
inductive Addr where
  | v4 (bits : BitVec 32)
  | v6 (bits : BitVec 128) (zone : Text)
  deriving DecidableEq, Repr

namespace Addr

def is4 : Addr → Bool
  | v4 _ => true
  | v6 _ _ => false

def is6 (a : Addr) : Bool := !a.is4

def zone : Addr → Text
  | v4 _ => []
  | v6 _ z => z

def withoutZone : Addr → Addr
  | v4 b => v4 b
  | v6 b _ => v6 b []

/-- Whether an address of IPv6 wraps one of IPv4. -/
def is4In6 : Addr → Bool
  | v4 _ => false
  | v6 b _ => b >>> 32 == 0xffff

def unmap : Addr → Addr
  | v4 b => v4 b
  | v6 b z => if (v6 b z).is4In6 then v4 (b.truncate 32) else v6 b z

def isUnspecified (a : Addr) : Bool := a = v4 0 || a = v6 0 []

def isMulticast (a : Addr) : Bool :=
  match a.unmap with
  | v4 b => b >>> 28 == 0xe
  | v6 b _ => b >>> 120 == 0xff

end Addr

/-! ## Addresses from text -/

def isDigit (b : UInt8) : Bool := 48 ≤ b && b ≤ 57

def digitsValue (l : Text) : ℕ := l.foldl (fun v b => v * 10 + (b.toNat - 48)) 0

/-- A field of an address of IPv4: no leading zero, and at most 255. -/
def isOctet (l : Text) : Bool :=
  l ≠ [] && l.all isDigit && (l.length = 1 || l.head? ≠ some 48) && digitsValue l ≤ 255

def parseIPv4Fields (s : Text) : Option (List ℕ) :=
  let fields := split 46 s
  if fields.length = 4 && fields.all isOctet then some (fields.map digitsValue) else none

def parseIPv4 (s : Text) : Option Addr :=
  (parseIPv4Fields s).map fun f => .v4 (BitVec.ofNat 32 (f.foldl (fun v x => v * 256 + x) 0))

def hexDigit (b : UInt8) : Option ℕ :=
  if 48 ≤ b && b ≤ 57 then some (b.toNat - 48)
  else if 97 ≤ b && b ≤ 102 then some (b.toNat - 97 + 10)
  else if 65 ≤ b && b ≤ 70 then some (b.toNat - 65 + 10)
  else none

def isHex (b : UInt8) : Bool := (hexDigit b).isSome

def hexValue (l : Text) : ℕ := l.foldl (fun v b => v * 16 + (hexDigit b).getD 0) 0

/-- The groups of an address of IPv6, of which `left` are still to come, and where the ellipsis
stands among them. -/
def readGroups : ℕ → Text → List ℕ → Option ℕ → Option (List ℕ × Option ℕ)
  | 0, s, groups, ellipsis => if s = [] then some (groups, ellipsis) else none
  | left + 1, s, groups, ellipsis =>
    let digits := s.takeWhile isHex
    if digits = [] || digits.length > 4 then none
    else match s.dropWhile isHex with
      | [] => some (groups ++ [hexValue digits], ellipsis)
      | c :: rest =>
        if c = 46 then
          -- an embedded address of IPv4 stands for the last two groups
          if (ellipsis = none && left + 1 ≠ 2) || left + 1 < 2 then none
          else (parseIPv4Fields s).map fun f =>
            (groups ++ [f.getD 0 0 * 256 + f.getD 1 0, f.getD 2 0 * 256 + f.getD 3 0], ellipsis)
        else if c ≠ 58 then none
        else match rest with
          | [] => none
          | d :: more =>
            let groups := groups ++ [hexValue digits]
            if d = 58 then
              if ellipsis.isSome then none
              else if more = [] then some (groups, some groups.length)
              else readGroups left more groups (some groups.length)
            else readGroups left (d :: more) groups ellipsis

/-- The groups with zeros for the ellipsis, which stands for at least one of them. -/
def expand (groups : List ℕ) (ellipsis : Option ℕ) : Option (List ℕ) :=
  match ellipsis with
  | none => if groups.length < 8 then none else some groups
  | some e =>
    if groups.length < 8 then
      some (groups.take e ++ List.replicate (8 - groups.length) 0 ++ groups.drop e)
    else none

/-- The groups of an address of IPv6, which may begin with the ellipsis. -/
def startGroups (s : Text) : Option (List ℕ × Option ℕ) :=
  if s.take 2 = [58, 58] then
    if s.drop 2 = [] then some ([], some 0) else readGroups 8 (s.drop 2) [] (some 0)
  else readGroups 8 s [] none

/-- The bits of an address of IPv6, written without a zone. -/
def parseGroups (s : Text) : Option (BitVec 128) := do
  let (groups, ellipsis) ← startGroups s
  let all ← expand groups ellipsis
  return BitVec.ofNat 128 (all.foldl (fun v g => v * 65536 + g) 0)

def parseIPv6 (s : Text) : Option Addr :=
  match cut 37 s with
  | (ip, none) => (parseGroups ip).map fun b => .v6 b []
  | (ip, some zone) => if zone = [] then none else (parseGroups ip).map fun b => .v6 b zone

/-- Whether a byte tells the families apart. -/
def isMark (b : UInt8) : Bool := b = 46 || b = 58 || b = 37

def parseAddr (s : Text) : Option Addr :=
  match s.find? isMark with
  | some b => if b = 46 then parseIPv4 s else if b = 58 then parseIPv6 s else none
  | none => none

/-! ## The case of the digits -/

theorem hexDigit_lower (b : UInt8) : hexDigit (lower b) = hexDigit b := by
  revert b
  apply forall_byte
  decide +kernel

theorem isHex_lower (b : UInt8) : isHex (lower b) = isHex b := by
  rw [isHex, isHex, hexDigit_lower]

theorem hexValue_lower (l : Text) : hexValue (l.map lower) = hexValue l := by
  rw [hexValue, hexValue, List.foldl_map]
  simp only [hexDigit_lower]

theorem lower_of_isDigit {b : UInt8} (h : isDigit b = true) : lower b = b := by
  revert h
  revert b
  apply forall_byte
  decide +kernel

theorem isHex_of_isDigit {b : UInt8} (h : isDigit b = true) : isHex b = true := by
  revert h
  revert b
  apply forall_byte
  decide +kernel

theorem takeWhile_isHex_lower (s : Text) :
    (s.map lower).takeWhile isHex = (s.takeWhile isHex).map lower := by
  rw [List.takeWhile_map]
  congr 2
  exact funext isHex_lower

theorem dropWhile_isHex_lower (s : Text) :
    (s.map lower).dropWhile isHex = (s.dropWhile isHex).map lower := by
  rw [List.dropWhile_map]
  congr 2
  exact funext isHex_lower

/-- The bytes that an address is written in. -/
def isAddrByte (b : UInt8) : Bool := isHex b || b = 46 || b = 58

theorem parseIPv4Fields_bytes {s : Text} {f : List ℕ} (h : parseIPv4Fields s = some f) :
    ∀ b ∈ s, isDigit b = true ∨ b = 46 := by
  intro b hb
  simp only [parseIPv4Fields] at h
  split_ifs at h with hall
  simp only [Bool.and_eq_true, List.all_eq_true] at hall
  rcases mem_split (c := 46) hb with hb | ⟨w, hw, hbw⟩
  · exact .inr hb
  · have hoctet := hall.2 w hw
    simp only [isOctet, Bool.and_eq_true, List.all_eq_true] at hoctet
    exact .inl (hoctet.1.1.2 b hbw)

theorem parseIPv4Fields_lower {s : Text} {f : List ℕ} (h : parseIPv4Fields s = some f) :
    s.map lower = s := by
  refine (List.map_congr_left fun b hb => ?_).trans (List.map_id s)
  rcases parseIPv4Fields_bytes h b hb with hd | rfl
  · exact lower_of_isDigit hd
  · rfl

theorem lower_eq_mark (b : UInt8) :
    (lower b = 46 ↔ b = 46) ∧ (lower b = 58 ↔ b = 58) ∧ (lower b = 37 ↔ b = 37) := by
  revert b
  apply forall_byte
  decide +kernel

theorem lower_ne_nil {s : Text} : s.map lower = [] ↔ s = [] := List.map_eq_nil_iff

/-- **The groups of an address don't depend on the case of their digits.** -/
theorem readGroups_lower {left : ℕ} {s : Text} {groups : List ℕ} {ellipsis : Option ℕ}
    {r : List ℕ × Option ℕ} (h : readGroups left s groups ellipsis = some r) :
    readGroups left (s.map lower) groups ellipsis = some r := by
  induction left generalizing s groups ellipsis with
  | zero =>
    rw [readGroups] at h ⊢
    simpa only [lower_ne_nil] using h
  | succ left ih =>
    rw [readGroups] at h ⊢
    simp only [takeWhile_isHex_lower, dropWhile_isHex_lower, List.map_eq_nil_iff, List.length_map,
      hexValue_lower, Option.ite_none_left_eq_some] at h ⊢
    refine ⟨h.1, ?_⟩
    replace h := h.2
    cases hd : s.dropWhile isHex with
    | nil => rw [hd] at h; exact h
    | cons c rest =>
      rw [hd] at h
      simp only [List.map_cons, lower_eq_mark, ne_eq] at h ⊢
      by_cases hc : c = 46
      · rw [if_pos hc, Option.ite_none_left_eq_some] at h ⊢
        obtain ⟨hroom, h⟩ := h
        obtain ⟨f, hf, -⟩ := Option.map_eq_some_iff.mp h
        rw [parseIPv4Fields_lower hf]
        exact ⟨hroom, h⟩
      · rw [if_neg hc, Option.ite_none_left_eq_some] at h ⊢
        obtain ⟨hcolon, h⟩ := h
        refine ⟨hcolon, ?_⟩
        cases rest with
        | nil => cases h
        | cons d more =>
          simp only [List.map_cons, lower_eq_mark, List.map_eq_nil_iff] at h ⊢
          by_cases hdd : d = 58
          · rw [if_pos hdd, Option.ite_none_left_eq_some] at h ⊢
            refine ⟨h.1, ?_⟩
            replace h := h.2
            by_cases hmore : more = []
            · rwa [if_pos hmore] at h ⊢
            · rw [if_neg hmore] at h ⊢
              exact ih h
          · rw [if_neg hdd] at h ⊢
            exact ih h

theorem readGroups_bytes {left : ℕ} {s : Text} {groups : List ℕ} {ellipsis : Option ℕ}
    {r : List ℕ × Option ℕ} (h : readGroups left s groups ellipsis = some r) :
    ∀ b ∈ s, isAddrByte b = true := by
  induction left generalizing s groups ellipsis with
  | zero =>
    rw [readGroups] at h
    split_ifs at h with hs
    rw [hs]
    exact fun b hb => nomatch hb
  | succ left ih =>
    rw [readGroups] at h
    simp only [Option.ite_none_left_eq_some] at h
    replace h := h.2
    have hsplit := List.takeWhile_append_dropWhile (p := isHex) (l := s)
    have hhex : ∀ b ∈ s.takeWhile isHex, isAddrByte b = true := fun b hb => by
      simp only [isAddrByte, List.mem_takeWhile_imp hb, Bool.true_or]
    suffices hrest : ∀ b ∈ s.dropWhile isHex, isAddrByte b = true by
      intro b hb
      rw [← hsplit] at hb
      rcases List.mem_append.mp hb with hb | hb
      · exact hhex b hb
      · exact hrest b hb
    cases hd : s.dropWhile isHex with
    | nil => exact fun b hb => nomatch hb
    | cons c rest =>
      rw [hd] at h
      simp only [ne_eq] at h
      by_cases hc : c = 46
      · -- the text from the group on is an address of IPv4
        rw [if_pos hc, Option.ite_none_left_eq_some] at h
        obtain ⟨f, hf, -⟩ := Option.map_eq_some_iff.mp h.2
        intro b hb
        have hbs : b ∈ s := by rw [← hsplit, hd]; exact List.mem_append_right _ hb
        rcases parseIPv4Fields_bytes hf b hbs with hdig | rfl
        · simp only [isAddrByte, isHex_of_isDigit hdig, Bool.true_or]
        · rfl
      · rw [if_neg hc, Option.ite_none_left_eq_some] at h
        obtain ⟨hcolon, h⟩ := h
        cases rest with
        | nil => cases h
        | cons d more =>
          simp only at h
          have hc58 : isAddrByte c = true := by rw [not_not.mp hcolon]; rfl
          suffices hmore : ∀ b ∈ d :: more, isAddrByte b = true from
            fun b hb => (List.mem_cons.mp hb).elim (fun hb => hb ▸ hc58) (hmore b)
          by_cases hdd : d = 58
          · rw [if_pos hdd, Option.ite_none_left_eq_some] at h
            replace h := h.2
            have hd58 : isAddrByte d = true := by rw [hdd]; rfl
            by_cases hmore : more = []
            · rw [hmore]
              exact fun b hb => (List.mem_singleton.mp hb) ▸ hd58
            · rw [if_neg hmore] at h
              exact fun b hb => (List.mem_cons.mp hb).elim (fun hb => hb ▸ hd58) (ih h b)
          · rw [if_neg hdd] at h
            exact ih h

theorem startGroups_lower {s : Text} {r : List ℕ × Option ℕ} (h : startGroups s = some r) :
    startGroups (s.map lower) = some r := by
  unfold startGroups at h ⊢
  by_cases hs : s.take 2 = [58, 58]
  · have hmap : (s.map lower).take 2 = [58, 58] := by rw [← List.map_take, hs]; rfl
    rw [if_pos hs] at h
    rw [if_pos hmap, ← List.map_drop]
    by_cases hd : s.drop 2 = []
    · rw [if_pos hd] at h
      rwa [if_pos (lower_ne_nil.mpr hd)]
    · rw [if_neg hd] at h
      rw [if_neg (mt lower_ne_nil.mp hd)]
      exact readGroups_lower h
  · have hmap : (s.map lower).take 2 ≠ [58, 58] := by
      intro hm
      apply hs
      match s, hm with
      | [_], hm => simp at hm
      | a :: b :: _, hm =>
        simp only [List.map_cons, List.take_succ_cons, List.take_zero, List.cons.injEq,
          lower_eq_mark, and_true] at hm
        rw [hm.1, hm.2]
        rfl
    rw [if_neg hs] at h
    rw [if_neg hmap]
    exact readGroups_lower h

theorem startGroups_bytes {s : Text} {r : List ℕ × Option ℕ} (h : startGroups s = some r) :
    ∀ b ∈ s, isAddrByte b = true := by
  unfold startGroups at h
  by_cases hs : s.take 2 = [58, 58]
  · rw [if_pos hs] at h
    intro b hb
    rw [← List.take_append_drop 2 s, hs] at hb
    rcases List.mem_append.mp hb with hb | hb
    · have hb : b = 58 := by simpa using hb
      rw [hb]
      rfl
    · by_cases hd : s.drop 2 = []
      · rw [hd] at hb
        cases hb
      · rw [if_neg hd] at h
        exact readGroups_bytes h b hb
  · rw [if_neg hs] at h
    exact readGroups_bytes h

theorem parseGroups_lower {s : Text} {bits : BitVec 128} (h : parseGroups s = some bits) :
    parseGroups (s.map lower) = some bits := by
  unfold parseGroups at h ⊢
  obtain ⟨r, hr, h⟩ := Option.bind_eq_some_iff.mp h
  rw [startGroups_lower hr]
  exact h

theorem parseGroups_bytes {s : Text} {bits : BitVec 128} (h : parseGroups s = some bits) :
    ∀ b ∈ s, isAddrByte b = true := by
  unfold parseGroups at h
  obtain ⟨r, hr, -⟩ := Option.bind_eq_some_iff.mp h
  exact startGroups_bytes hr

/-! ## Prefixes -/

structure Prefix where
  addr : Addr
  bits : ℕ
  deriving DecidableEq, Repr

def Prefix.contains (p : Prefix) : Addr → Bool
  | .v4 a => match p.addr with
    | .v4 b => p.bits ≤ 32 && (a ^^^ b) >>> (32 - p.bits) == 0
    | .v6 _ _ => false
  | .v6 a zone => match p.addr with
    | .v4 _ => false
    | .v6 b _ => zone = [] && p.bits ≤ 128 && (a ^^^ b) >>> (128 - p.bits) == 0

def contains (prefixes : List Prefix) (addr : Addr) : Bool :=
  let addr := addr.unmap.withoutZone
  !addr.isUnspecified && !addr.isMulticast && prefixes.any (·.contains addr)

/-! ## The address of a socket -/

/-- A host and its port, the host without its brackets. -/
def splitHostPort (hostport : Text) : Option (Text × Text) :=
  match splitLast 58 hostport with
  | none => none
  | some (before, port) =>
    match hostport with
    | 91 :: rest =>
      -- the first closing bracket has to stand just before the last colon
      match cut 93 rest with
      | (_, none) => none
      | (host, some after) =>
        if after ≠ 58 :: port || host.contains 91 || port.contains 91 || port.contains 93 then none
        else some (host, port)
    | _ =>
      if before.contains 58 || hostport.contains 91 || hostport.contains 93 then none
      else some (before, port)

def parseAddress (raw : Text) : Option Addr :=
  let raw := match splitHostPort raw with
    | some (host, _) => host
    | none => raw
  match parseAddr (trim (fun b => b = 91 || b = 93) raw) with
  | none => none
  | some addr =>
    if addr.isUnspecified || addr.isMulticast then none else some addr.unmap.withoutZone

end Portico.Network
