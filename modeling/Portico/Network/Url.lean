import Portico.Network.Addr

/-!
# Authorities in URLs

How the authority of a URL is written and read: bytes that may not stand there are escaped, and
an authority is read back only if it is a name with at most one port, or an address of IPv6 in
brackets. Of URLs only those that end with their authority are modelled, which origins are.

## Main definitions

* `escape`, `unescape`: the bytes of a host, with escapes for those that aren't kept
* `parseHost`, `hostname`: the host of an authority, and its name without brackets and port
* `urlString`, `urlParse`: a scheme and an authority as text, and back

## Main results

* `parseHost_escape`: what an escaped host is read as, if it is read, is that host
* `urlParse_urlString`: a host that is read back is read back under every scheme
-/

namespace Portico.Network

open Bytes

/-! ## Escapes -/

/-- Whether a byte stands for itself in a host. -/
def isKept (b : UInt8) : Bool :=
  isDigit b || (65 ≤ b && b ≤ 90) || (97 ≤ b && b ≤ 122) ||
    (ascii "-_.~!$&'()*+,;=:[]<>\"").contains b

def upperHex (n : ℕ) : UInt8 := if n < 10 then UInt8.ofNat (48 + n) else UInt8.ofNat (55 + n)

def escapeByte (b : UInt8) : Text :=
  if isKept b then [b] else [37, upperHex (b.toNat / 16), upperHex (b.toNat % 16)]

def escape (s : Text) : Text := s.flatMap escapeByte

inductive Encoding where
  | host
  | zone
  deriving DecidableEq, Repr

/-- Whether the escape of a byte is refused: a host escapes no byte of ASCII but the percent sign,
and a zone only what could stand in a host, or a space. -/
def isRefused (mode : Encoding) (b : UInt8) : Bool :=
  match mode with
  | .host => b < 128 && b ≠ 37
  | .zone => b ≠ 37 && b ≠ 32 && !isKept b

def unescape (mode : Encoding) : Text → Option Text
  | [] => some []
  | b :: l =>
    if b = 37 then
      match l with
      | x :: y :: rest =>
        match hexDigit x, hexDigit y with
        | some hi, some lo =>
          if isRefused mode (UInt8.ofNat (hi * 16 + lo)) then none
          else (unescape mode rest).map (UInt8.ofNat (hi * 16 + lo) :: ·)
        | _, _ => none
      | _ => none
    else if b < 128 && !isKept b then none
    else (unescape mode l).map (b :: ·)

/-! ## Authorities -/

def validOptionalPort : Text → Bool
  | [] => true
  | c :: port => c = 58 && port.all isDigit

/-- What is before the first escaped percent sign, and the rest from there on. -/
def zoneAt : Text → Option (Text × Text)
  | [] => none
  | b :: l =>
    if (b :: l).take 3 = ascii "%25" then some ([], b :: l)
    else (zoneAt l).map fun r => (b :: r.1, r.2)

/-- The text between brackets, whose zone is escaped by other rules. -/
def parseHostname (text : Text) : Option Text :=
  match zoneAt text with
  | none => unescape .host text
  | some (ip, zone) => do
    let ip ← unescape .host ip
    let zone ← unescape .zone zone
    return ip ++ zone

def parseHost (host : Text) : Option Text :=
  match splitLast 91 host with
  | some (before, rest) =>
    if before ≠ [] then none
    else match splitLast 93 rest with
      | none => none
      | some (text, colonPort) =>
        if !validOptionalPort colonPort then none
        else do
          let port ← unescape .host colonPort
          let name ← parseHostname text
          let addr ← parseAddr name
          if addr.is4 then none else some (91 :: name ++ 93 :: port)
  | none =>
    match splitLast 58 host with
    | none => unescape .host host
    | some (before, port) =>
      if before.contains 58 || !validOptionalPort (58 :: port) then none else unescape .host host

/-- The host without its port and brackets. -/
def hostname (host : Text) : Text :=
  let host := match splitLast 58 host with
    | none => host
    | some (before, port) => if validOptionalPort (58 :: port) then before else host
  if host.head? = some 91 && host.getLast? = some 93 then host.tail.dropLast else host

structure Url where
  scheme : Text
  host : Text
  deriving DecidableEq, Repr

def urlString (scheme host : Text) : Text := scheme ++ ascii "://" ++ escape host

def isControl (b : UInt8) : Bool := b < 32 || b = 127

/-- Whether a byte ends an authority, or what stands in front of its host. -/
def isDelimiter (b : UInt8) : Bool := (ascii "/?#@").contains b

def isSchemeByte (b : UInt8) : Bool :=
  isDigit b || (65 ≤ b && b ≤ 90) || (97 ≤ b && b ≤ 122) || (ascii "+-.").contains b

def validScheme (s : Text) : Bool :=
  s.all isSchemeByte && (s.head?.any fun b => !isDigit b && !(ascii "+-.").contains b)

def urlParse (raw : Text) : Option Url :=
  if raw.any isControl then none
  else match cut 58 raw with
    | (scheme, some (47 :: 47 :: authority)) =>
      if validScheme scheme && authority.all (!isDelimiter ·) then
        (parseHost authority).map fun host => ⟨scheme.map lower, host⟩
      else none
    | _ => none

/-! ## An escaped host is read as the host -/

/-- A text with every escape replaced, whatever it stands for. -/
def decoded : Text → Text
  | [] => []
  | b :: l =>
    if b = 37 then
      match l with
      | x :: y :: rest =>
        UInt8.ofNat ((hexDigit x).getD 0 * 16 + (hexDigit y).getD 0) :: decoded rest
      | _ => b :: l
    else b :: decoded l

theorem hexDigit_upperHex (n : ℕ) (h : n < 16) : hexDigit (upperHex n) = some n := by
  revert n
  decide +kernel

theorem isKept_ne_percent {b : UInt8} (h : isKept b = true) : b ≠ 37 := by
  rintro rfl
  exact absurd h (by decide +kernel)

theorem decoded_cons {b : UInt8} (h : b ≠ 37) (l : Text) : decoded (b :: l) = b :: decoded l := by
  conv_lhs => unfold decoded
  exact if_neg h

theorem decoded_escapeByte (b : UInt8) (l : Text) :
    decoded (escapeByte b ++ l) = b :: decoded l := by
  rw [escapeByte]
  split_ifs with hk
  · exact decoded_cons (isKept_ne_percent hk) l
  · have hb := b.toNat_lt
    simp only [List.cons_append, List.nil_append]
    rw [decoded, if_pos rfl]
    simp only [hexDigit_upperHex (b.toNat / 16) (by omega),
      hexDigit_upperHex (b.toNat % 16) (by omega), Option.getD_some]
    rw [show b.toNat / 16 * 16 + b.toNat % 16 = b.toNat by omega, UInt8.ofNat_toNat]

theorem decoded_escape (s : Text) : decoded (escape s) = s := by
  induction s with
  | nil => rfl
  | cons b s ih =>
    rw [escape, List.flatMap_cons, decoded_escapeByte]
    exact congrArg _ ih

/-- A text that is unescaped by one of the rules is decoded on its own, whatever follows it. -/
theorem decoded_append {mode : Encoding} {s t : Text} (h : unescape mode s = some t) (v : Text) :
    decoded (s ++ v) = t ++ decoded v := by
  fun_induction unescape mode s generalizing t with
  | case1 =>
    obtain rfl := Option.some.inj h
    rfl
  | case2 => cases h
  | case3 x y rest hi lo hy hx hr ih =>
    obtain ⟨t, ht, rfl⟩ := Option.map_eq_some_iff.mp h
    rw [List.cons_append, List.cons_append, List.cons_append, decoded, if_pos rfl]
    simp only [hx, hy, Option.getD_some, ih ht]
    rfl
  | case4 => cases h
  | case5 => cases h
  | case6 => cases h
  | case7 b l hb hk ih =>
    obtain ⟨t, ht, rfl⟩ := Option.map_eq_some_iff.mp h
    rw [List.cons_append, decoded_cons hb, ih ht]
    rfl

theorem eq_decoded {mode : Encoding} {s t : Text} (h : unescape mode s = some t) :
    t = decoded s := by
  simpa [decoded] using (decoded_append h []).symm

theorem zoneAt_eq {s a b : Text} (h : zoneAt s = some (a, b)) : s = a ++ b := by
  induction s generalizing a with
  | nil => cases h
  | cons c s ih =>
    rw [zoneAt] at h
    split_ifs at h with hc
    · obtain ⟨rfl, rfl⟩ := Prod.mk.inj (Option.some.inj h)
      rfl
    · obtain ⟨r, hr, hrab⟩ := Option.map_eq_some_iff.mp h
      obtain ⟨rfl, rfl⟩ := Prod.mk.inj hrab
      rw [ih hr]
      rfl

theorem parseHostname_append {s t : Text} (h : parseHostname s = some t) (v : Text) :
    decoded (s ++ v) = t ++ decoded v := by
  unfold parseHostname at h
  split at h
  · exact decoded_append h v
  · rename_i ip zone hz
    obtain ⟨a, ha, h⟩ := Option.bind_eq_some_iff.mp h
    obtain ⟨b, hb, h⟩ := Option.bind_eq_some_iff.mp h
    obtain rfl := Option.some.inj h
    rw [zoneAt_eq hz, List.append_assoc, decoded_append ha, decoded_append hb, List.append_assoc]

/-- The host of an authority is the authority with its escapes replaced. -/
theorem eq_decoded_of_parseHost {s t : Text} (h : parseHost s = some t) : t = decoded s := by
  unfold parseHost at h
  split at h
  · rename_i before rest hopen
    rw [Option.ite_none_left_eq_some] at h
    obtain ⟨hbefore, h⟩ := h
    split at h
    · cases h
    · rename_i text colonPort hclose
      rw [Option.ite_none_left_eq_some] at h
      obtain ⟨port, hport, h⟩ := Option.bind_eq_some_iff.mp h.2
      obtain ⟨name, hname, h⟩ := Option.bind_eq_some_iff.mp h
      obtain ⟨addr, -, h⟩ := Option.bind_eq_some_iff.mp h
      rw [Option.ite_none_left_eq_some] at h
      obtain rfl := Option.some.inj h.2
      rw [(splitLast_eq hopen).1, not_not.mp hbefore, (splitLast_eq hclose).1, List.nil_append,
        decoded_cons (by decide +kernel), parseHostname_append hname,
        decoded_cons (by decide +kernel), ← eq_decoded hport]
      rfl
  · split at h
    · exact eq_decoded h
    · rw [Option.ite_none_left_eq_some] at h
      exact eq_decoded h.2

/-- **What an escaped host is read as, if it is read at all, is that host.** -/
theorem parseHost_escape {host t : Text} (h : parseHost (escape host) = some t) : t = host := by
  rw [eq_decoded_of_parseHost h, decoded_escape]

/-! ## An escaped host stands on its own in a URL -/

theorem upperHex_clean (n : ℕ) (h : n < 16) :
    isControl (upperHex n) = false ∧ isDelimiter (upperHex n) = false := by
  revert n
  decide +kernel

theorem isKept_clean {b : UInt8} (h : isKept b = true) :
    isControl b = false ∧ isDelimiter b = false := by
  revert h
  revert b
  apply forall_byte
  decide +kernel

theorem escape_clean {host : Text} {b : UInt8} (h : b ∈ escape host) :
    isControl b = false ∧ isDelimiter b = false := by
  obtain ⟨c, -, hb⟩ := List.mem_flatMap.mp h
  have hc := c.toNat_lt
  rw [escapeByte] at hb
  split_ifs at hb with hk
  · exact List.mem_singleton.mp hb ▸ isKept_clean hk
  · rcases List.mem_cons.mp hb with rfl | hb
    · exact ⟨rfl, rfl⟩
    · rcases List.mem_cons.mp hb with rfl | hb
      · exact upperHex_clean _ (by omega)
      · rw [List.mem_singleton.mp hb]
        exact upperHex_clean _ (by omega)

/-- The schemes that an origin has. -/
def IsWeb (scheme : Text) : Prop := scheme = ascii "http" ∨ scheme = ascii "https"

theorem urlParse_web {scheme : Text} (h : IsWeb scheme) (host : Text) :
    urlParse (urlString scheme host) =
      (parseHost (escape host)).map fun host => ⟨scheme, host⟩ := by
  have hctl : (urlString scheme host).any isControl = false := by
    rw [urlString, List.any_append, List.any_append, Bool.or_eq_false_iff, Bool.or_eq_false_iff]
    refine ⟨⟨?_, by decide +kernel⟩, List.any_eq_false.mpr fun b hb => ?_⟩
    · rcases h with rfl | rfl <;> decide +kernel
    · rw [(escape_clean hb).1]
      exact Bool.false_ne_true
  have hcut : cut 58 (urlString scheme host) = (scheme, some (47 :: 47 :: escape host)) := by
    have hmem : (58 : UInt8) ∉ scheme := by rcases h with rfl | rfl <;> decide +kernel
    rw [urlString, List.append_assoc]
    exact cut_append hmem
  have hall : (escape host).all (!isDelimiter ·) = true :=
    List.all_eq_true.mpr fun b hb => by rw [(escape_clean hb).2]; rfl
  have hscheme : validScheme scheme = true ∧ scheme.map lower = scheme := by
    rcases h with rfl | rfl <;> decide +kernel
  rw [urlParse, if_neg (by rw [hctl]; exact Bool.false_ne_true), hcut]
  simp only [hall, hscheme.1, hscheme.2, Bool.and_self, if_true]

/-- **A host that one URL gives back is given back under both schemes.** -/
theorem urlParse_urlString {scheme scheme' host : Text} {u : Url} (hweb : IsWeb scheme)
    (hweb' : IsWeb scheme') (h : urlParse (urlString scheme host) = some u) :
    urlParse (urlString scheme' host) = some ⟨scheme', host⟩ := by
  rw [urlParse_web hweb] at h
  obtain ⟨t, ht, -⟩ := Option.map_eq_some_iff.mp h
  rw [urlParse_web hweb', ht, parseHost_escape ht]
  rfl

end Portico.Network
