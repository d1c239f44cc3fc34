import Portico.Lib.Outcome
import Portico.Network.Policy

/-!
# What a client can write

What decides the address of a client is what the trusted proxies have written: the hops from
right to left up to the first that isn't trusted. Hosts have one spelling, which is read back
from an origin.

## Main results

* `forwarded_hops`: the address is the nearest of the hops
* `nearest_append`: hops to the left of one that isn't trusted don't matter
* `canonicalHost_again`: a canonical host of permitted length is its own spelling
* `client_addresses`: the address of a client and the origin of a request
-/

namespace Portico.Network

open Bytes

variable {S : Strings} {r r' : Request} {proxies : List Prefix}

/-! ## The chain of hops -/

/-- Whether the socket peer of a request is a trusted proxy. -/
def trusted (r : Request) (proxies : List Prefix) : Bool := (peer r).any (contains proxies)

/-- The hops of a request as they are written: those of a list of addresses, or else those of
forwarded elements. -/
def chain (S : Strings) (r : Request) : List (Text ⊕ Text) :=
  let xff := headerValues S r xForwardedFor
  if xff ≠ [] then (xff.flatMap (split 44)).map .inl
  else ((headerValues S r (ascii "Forwarded")).flatMap (split 44)).map .inr

/-- The address that a hop names. -/
def hop (S : Strings) : Text ⊕ Text → Option Addr
  | .inl raw => addressHop S raw
  | .inr element => (forwardedElement S element).bind fieldHop

section Rows

variable {α : Type} {element : Text → Option α} {out all : List α}

theorem readPieces_eq {pieces : List Text} (h : readPieces element out pieces = some all) :
    ∃ es, all = out ++ es ∧ pieces.map element = es.map some := by
  induction pieces generalizing out with
  | nil =>
    obtain rfl := Option.some.inj h
    exact ⟨[], by simp, rfl⟩
  | cons p ps ih =>
    obtain ⟨e, he, h⟩ := Option.bind_eq_some_iff.mp h
    rw [Option.ite_none_left_eq_some] at h
    obtain ⟨es, rfl, hes⟩ := ih h.2
    exact ⟨e :: es, by simp, by rw [List.map_cons, List.map_cons, he, hes]⟩

theorem readRows_eq {rows : List Text} (h : readRows element out rows = some all) :
    ∃ es, all = out ++ es ∧ (rows.flatMap (split 44)).map element = es.map some := by
  induction rows generalizing out with
  | nil =>
    obtain rfl := Option.some.inj h
    exact ⟨[], by simp, rfl⟩
  | cons row rows ih =>
    rw [readRows, Option.ite_none_left_eq_some] at h
    obtain ⟨mid, hmid, h⟩ := Option.bind_eq_some_iff.mp h.2
    obtain ⟨es, rfl, hes⟩ := readPieces_eq hmid
    obtain ⟨es', rfl, hes'⟩ := ih h
    refine ⟨es ++ es', by simp, ?_⟩
    rw [List.flatMap_cons, List.map_append, hes, hes', List.map_append]

end Rows

/-- **The address of a client is the nearest of the hops.** -/
theorem forwarded_hops {a : Addr} (h : forwarded S r proxies = some a) :
    ∃ hops : List Addr, (chain S r).map (hop S) = hops.map some ∧
      nearest proxies hops.reverse = some a := by
  unfold forwarded at h
  rw [Option.ite_none_left_eq_some] at h
  replace h := h.2
  simp only at h
  unfold chain
  by_cases hx : headerValues S r xForwardedFor ≠ []
  · rw [if_pos hx] at h
    obtain ⟨hops, hh, hn⟩ := Option.bind_eq_some_iff.mp h
    obtain ⟨es, rfl, hes⟩ := readRows_eq hh
    refine ⟨hops, ?_, hn⟩
    simp only [if_pos hx, List.map_map]
    exact hes
  · rw [if_neg hx] at h
    obtain ⟨elements, he, h⟩ := Option.bind_eq_some_iff.mp h
    obtain ⟨hops, hh, hn⟩ := Option.bind_eq_some_iff.mp h
    refine ⟨hops, ?_, hn⟩
    obtain ⟨out, hout, he⟩ := Option.bind_eq_some_iff.mp he
    rw [Option.ite_none_left_eq_some] at he
    obtain rfl := Option.some.inj he.2
    obtain ⟨es, rfl, hes⟩ := readRows_eq hout
    simp only [if_neg hx, List.map_map]
    rw [← mapM_eq_some hh]
    have hcomp : (hop S ∘ Sum.inr) = fun x => (forwardedElement S x).bind fieldHop := rfl
    rw [hcomp]
    have := congrArg (List.map fun x : Option Fields => x.bind fieldHop) hes
    simpa only [List.map_map, Function.comp_def, Option.bind_some] using this

/-! ## The nearest hop -/

variable {a b : Addr} {l m : List Addr}

theorem nearest_cons_of_not (h : contains proxies a = false) :
    nearest proxies (a :: l) = some a := by
  cases l with
  | nil => rfl
  | cons b l => rw [nearest, h]; rfl

theorem nearest_cons_of (h : contains proxies a = true) (hl : l ≠ []) :
    nearest proxies (a :: l) = nearest proxies l := by
  cases l with
  | nil => exact absurd rfl hl
  | cons b l => rw [nearest, h]; rfl

/-- **Hops to the left of one that isn't trusted don't matter.** -/
theorem nearest_append (h : ∃ b ∈ l, contains proxies b = false) :
    nearest proxies (l ++ m) = nearest proxies l := by
  induction l with
  | nil => obtain ⟨b, hb, -⟩ := h; cases hb
  | cons a l ih =>
    cases ha : contains proxies a with
    | false => rw [List.cons_append, nearest_cons_of_not ha, nearest_cons_of_not ha]
    | true =>
      have hl : ∃ b ∈ l, contains proxies b = false := by
        obtain ⟨b, hb, hc⟩ := h
        rcases List.mem_cons.mp hb with rfl | hb
        · rw [ha] at hc; cases hc
        · exact ⟨b, hb, hc⟩
      have hne : l ≠ [] := by rintro rfl; obtain ⟨b, hb, -⟩ := hl; cases hb
      rw [List.cons_append, nearest_cons_of ha (by simp [hne]), nearest_cons_of ha hne, ih hl]

theorem nearest_eq (h : nearest proxies l = some a) :
    (∃ s t, l = s ++ a :: t ∧ contains proxies a = false ∧ ∀ b ∈ s, contains proxies b = true) ∨
      ((∀ b ∈ l, contains proxies b = true) ∧ l.getLast? = some a) := by
  induction l with
  | nil => cases h
  | cons b l ih =>
    cases hb : contains proxies b with
    | false =>
      rw [nearest_cons_of_not hb] at h
      obtain rfl := Option.some.inj h
      exact .inl ⟨[], l, rfl, hb, fun x hx => nomatch hx⟩
    | true =>
      by_cases hl : l = []
      · subst hl
        obtain rfl := Option.some.inj h
        exact .inr ⟨fun x hx => List.mem_singleton.mp hx ▸ hb, rfl⟩
      · rw [nearest_cons_of hb hl] at h
        have hcons : ∀ s : List Addr, (∀ x ∈ s, contains proxies x = true) →
            ∀ x ∈ b :: s, contains proxies x = true :=
          fun s hs x hx => (List.mem_cons.mp hx).elim (fun hx => hx ▸ hb) (hs x)
        rcases ih h with ⟨s, t, rfl, ha, hs⟩ | ⟨hall, hlast⟩
        · exact .inl ⟨b :: s, t, rfl, ha, hcons s hs⟩
        · refine .inr ⟨hcons l hall, ?_⟩
          rw [List.getLast?_cons, hlast]
          rfl

/-! ## Hosts -/

theorem isForbidden_addrByte {b : UInt8} (h : isAddrByte b = true) :
    isForbidden (lower b) = false ∧ b < 128 ∧ lower b ≠ 93 ∧ lower b ≠ 37 := by
  revert h
  revert b
  apply forall_byte
  decide +kernel

theorem isForbidden_zoneByte {b : UInt8} (h : isZoneByte b = true) :
    isForbidden b = false ∧ b ≠ 93 := by
  revert h
  revert b
  apply forall_byte
  decide +kernel

theorem isForbidden_small {b : UInt8} (h : isForbidden b = true) :
    b < 128 ∧ ¬(97 ≤ b ∧ b ≤ 122) := by
  revert h
  revert b
  apply forall_byte
  decide +kernel

theorem isMark_lower (b : UInt8) : isMark (lower b) = isMark b := by
  simp only [isMark, lower_eq_mark]

/-- What an accepted literal is, and how it reads with its digits in lower case. -/
theorem parseAddr_v6 {s : Text} (h : parseAddr s = some a) (h6 : a.is6 = true) :
    ∃ bits ip tail, a = .v6 bits (tail.getD []) ∧ cut 37 s = (ip, tail) ∧ tail ≠ some [] ∧
      parseGroups ip = some bits ∧ s.find? isMark = some 58 := by
  unfold parseAddr at h
  split at h
  · rename_i b hb
    by_cases h46 : b = 46
    · rw [if_pos h46] at h
      obtain ⟨f, -, rfl⟩ := Option.map_eq_some_iff.mp h
      cases h6
    · rw [if_neg h46] at h
      split_ifs at h with h58
      unfold parseIPv6 at h
      subst h58
      cases hc : cut 37 s with
      | mk ip tail =>
        rw [hc] at h
        cases tail with
        | none =>
          obtain ⟨bits, hbits, rfl⟩ := Option.map_eq_some_iff.mp h
          exact ⟨bits, ip, none, rfl, rfl, nofun, hbits, hb⟩
        | some zone =>
          rw [Option.ite_none_left_eq_some] at h
          obtain ⟨hz, h⟩ := h
          obtain ⟨bits, hbits, rfl⟩ := Option.map_eq_some_iff.mp h
          exact ⟨bits, ip, some zone, rfl, rfl, fun he => hz (Option.some.inj he), hbits, hb⟩
  · cases h

/-- The end of a literal: nothing, or a percent sign and a zone. -/
def zoneText : Option Text → Text
  | none => []
  | some zone => 37 :: zone

theorem find?_isMark_lower (ip : Text) (tail : Option Text)
    (h : (ip ++ zoneText tail).find? isMark = some 58) :
    (ip.map lower ++ zoneText tail).find? isMark = some 58 := by
  have htail : (zoneText tail).find? isMark ≠ some 58 := by
    cases tail with
    | none => exact nofun
    | some zone =>
      rw [zoneText, List.find?_cons_of_pos (by decide +kernel)]
      decide +kernel
  rw [List.find?_append] at h ⊢
  have hmap : (ip.map lower).find? isMark = (ip.find? isMark).map lower := by
    rw [List.find?_map]
    congr 2
    exact funext isMark_lower
  rw [hmap]
  cases hf : ip.find? isMark with
  | none =>
    rw [hf] at h
    exact absurd h htail
  | some b =>
    rw [hf] at h
    obtain rfl := Option.some.inj h
    rfl

theorem cut_zoneText {ip : Text} (tail : Option Text) (h : (37 : UInt8) ∉ ip) :
    cut 37 (ip ++ zoneText tail) = (ip, tail) := by
  cases tail with
  | none => rw [zoneText, List.append_nil, cut_of_not_mem h]
  | some zone => exact cut_append h

theorem eq_zoneText {s ip : Text} {tail : Option Text} (h : cut 37 s = (ip, tail)) :
    s = ip ++ zoneText tail := by
  have heq := (cut_eq 37 s).1
  rw [h] at heq
  rw [heq]
  cases tail <;> rfl

/-- **A literal reads the same with its digits in lower case.** -/
theorem parseAddr_lower {ip : Text} {tail : Option Text} {bits : BitVec 128}
    (hbits : parseGroups ip = some bits) (htail : tail ≠ some [])
    (hmark : (ip ++ zoneText tail).find? isMark = some 58) :
    parseAddr (ip.map lower ++ zoneText tail) = some (.v6 bits (tail.getD [])) := by
  have hmem : (37 : UInt8) ∉ ip.map lower := by
    intro hm
    obtain ⟨b, hb, hl⟩ := List.mem_map.mp hm
    exact (isForbidden_addrByte (parseGroups_bytes hbits b hb)).2.2.2 hl
  unfold parseAddr
  rw [find?_isMark_lower ip tail hmark]
  simp only
  rw [if_neg (by decide), if_pos trivial, parseIPv6, cut_zoneText tail hmem]
  cases tail with
  | none => simp only [parseGroups_lower hbits, Option.map_some, Option.getD_none]
  | some zone =>
    have hz : zone ≠ [] := fun hz => htail (congrArg some hz)
    simp only [if_neg hz, parseGroups_lower hbits, Option.map_some, Option.getD_some]

/-- What stands in brackets, and behind them, in a canonical host. -/
structure IsLiteral (ip : Text) (tail : Option Text) (suffix : Text) : Prop where
  groups : ∃ bits, parseGroups ip = some bits
  zone : tail ≠ some []
  mark : (ip ++ zoneText tail).find? isMark = some 58
  short : (tail.getD []).length ≤ 64
  bytes : ∀ b ∈ tail.getD [], isZoneByte b = true
  port : suffix ≠ [] → suffix.head? = some 58 ∧ suffix.length ≠ 1

section Literals

variable {ip suffix : Text} {tail : Option Text}

/-- The literal between its brackets, with what follows them. -/
def literalText (ip : Text) (tail : Option Text) (suffix : Text) : Text :=
  ip ++ zoneText tail ++ 93 :: suffix

theorem mem_literalText {b : UInt8} (h : b ∈ literalText ip tail suffix) :
    b ∈ ip ∨ b = 37 ∨ b ∈ tail.getD [] ∨ b = 93 ∨ b ∈ suffix := by
  rw [literalText, List.mem_append, List.mem_append, List.mem_cons] at h
  cases tail with
  | none => simp only [zoneText, List.not_mem_nil, or_false] at h; tauto
  | some zone => simp only [zoneText, List.mem_cons] at h; simp only [Option.getD_some]; tauto

theorem toLower_groups (h : ∃ bits, parseGroups ip = some bits) : S.toLower ip = ip.map lower := by
  obtain ⟨bits, hbits⟩ := h
  apply S.toLower_ascii
  exact fun b hb => (isForbidden_addrByte (parseGroups_bytes hbits b hb)).2.1

theorem IsLiteral.lower (h : IsLiteral ip tail suffix) :
    IsLiteral (ip.map Bytes.lower) tail suffix where
  groups := h.groups.imp fun _ hbits => parseGroups_lower hbits
  zone := h.zone
  mark := find?_isMark_lower ip tail h.mark
  short := h.short
  bytes := h.bytes
  port := h.port

theorem parseAddr_literal (h : IsLiteral ip tail suffix) :
    ∃ bits, parseAddr (ip.map Bytes.lower ++ zoneText tail) = some (.v6 bits (tail.getD [])) := by
  obtain ⟨bits, hbits⟩ := h.groups
  exact ⟨bits, parseAddr_lower hbits h.zone h.mark⟩

theorem canonicalLiteral_lower (h : IsLiteral ip tail suffix) :
    canonicalLiteral S (literalText (ip.map Bytes.lower) tail suffix) =
      some (91 :: literalText (ip.map Bytes.lower) tail suffix) := by
  obtain ⟨bits, hbits⟩ := h.groups
  obtain ⟨bits', hparse⟩ := parseAddr_literal h
  have hbytes : ∀ b ∈ ip.map Bytes.lower, b ≠ 93 ∧ b ≠ 37 := by
    intro b hb
    obtain ⟨c, hc, rfl⟩ := List.mem_map.mp hb
    exact (isForbidden_addrByte (parseGroups_bytes hbits c hc)).2.2
  have hclose : (93 : UInt8) ∉ ip.map Bytes.lower ++ zoneText tail := by
    rw [List.mem_append]
    rintro (hm | hm)
    · exact (hbytes _ hm).1 rfl
    · cases tail with
      | none => cases hm
      | some zone =>
        rcases List.mem_cons.mp hm with hm | hm
        · cases hm
        · exact (isForbidden_zoneByte (h.bytes _ hm)).2 rfl
  have hlower : S.toLower (ip.map Bytes.lower) = ip.map Bytes.lower := by
    rw [toLower_groups h.lower.groups, List.map_map]
    exact List.map_congr_left fun b _ => lower_lower b
  unfold canonicalLiteral
  rw [literalText, cut_append hclose]
  simp only [hparse, Option.bind_eq_bind, Option.bind_some]
  rw [if_neg (by simpa [Addr.is6, Addr.is4, Addr.zone] using ⟨h.short, h.bytes⟩),
    if_neg (by simpa using h.port), cut_zoneText tail fun hm => (hbytes _ hm).2 rfl]
  cases tail with
  | none => simp only [hlower, zoneText, List.append_nil, List.cons_append]
  | some zone =>
    have hz : zone ≠ [] := fun hz => h.zone (congrArg some hz)
    simp [Addr.zone, hz, hlower, zoneText]

theorem canonicalLiteral_eq {rest host : Text} (h : canonicalLiteral S rest = some host) :
    ∃ ip tail suffix, IsLiteral ip tail suffix ∧ rest = literalText ip tail suffix ∧
      host = 91 :: literalText (ip.map Bytes.lower) tail suffix := by
  unfold canonicalLiteral at h
  split at h
  · cases h
  · rename_i literal suffix hclose
    obtain ⟨addr, haddr, h⟩ := Option.bind_eq_some_iff.mp h
    rw [Option.ite_none_left_eq_some] at h
    obtain ⟨hzone, h⟩ := h
    rw [Option.ite_none_left_eq_some] at h
    obtain ⟨hport, h⟩ := h
    simp only [Bool.or_eq_true, Bool.not_eq_true', decide_eq_true_eq, not_or, not_lt,
      Bool.not_eq_false, List.all_eq_true] at hzone
    obtain ⟨bits, ip, tail, rfl, hcut, htail, hbits, hmark⟩ := parseAddr_v6 haddr hzone.1.1
    have hlit : IsLiteral ip tail suffix :=
      ⟨⟨bits, hbits⟩, htail, eq_zoneText hcut ▸ hmark, hzone.1.2, hzone.2, by simpa using hport⟩
    have hrest : rest = literalText ip tail suffix := by
      have heq := (cut_eq 93 rest).1
      rw [hclose] at heq
      rw [heq, eq_zoneText hcut, literalText]
    refine ⟨ip, tail, suffix, hlit, hrest, ?_⟩
    rw [hcut] at h
    cases tail with
    | none =>
      obtain rfl := Option.some.inj h
      rw [toLower_groups hlit.groups, literalText, zoneText, List.append_nil, List.cons_append]
    | some zone =>
      rw [Option.ite_none_left_eq_some] at h
      obtain rfl := Option.some.inj h.2
      rw [toLower_groups hlit.groups]
      simp [literalText, zoneText, Addr.zone]

end Literals

/-- **A canonical host of permitted length is its own spelling.** -/
theorem canonicalHost_again {host canonical : Text} (h : canonicalHost S host = some canonical)
    (hlen : canonical.length ≤ 255) : canonicalHost S canonical = some canonical := by
  unfold canonicalHost at h ⊢
  rw [Option.ite_none_left_eq_some] at h
  obtain ⟨hhost, h⟩ := h
  obtain ⟨c, hspelled, h⟩ := Option.bind_eq_some_iff.mp h
  split_ifs at h with hauth
  obtain rfl := Option.some.inj h
  simp only [Bool.or_eq_true, decide_eq_true_eq, not_or, List.any_eq_true, not_exists,
    not_and] at hhost
  obtain ⟨⟨hne, -⟩, hforbidden⟩ := hhost
  suffices hagain : (∀ b ∈ c, isForbidden b = false) ∧ spelled S c = some c by
    have hcne : c ≠ [] := by
      rintro rfl
      exact absurd hauth (by decide +kernel)
    rw [if_neg (by simpa [hcne, hlen] using hagain.1), hagain.2]
    simp only [Option.bind_eq_bind, Option.bind_some, if_pos hauth]
  unfold spelled at hspelled ⊢
  by_cases hopen : host.head? = some 91
  · -- an address in brackets: only the case of its digits changes
    rw [if_pos hopen] at hspelled
    obtain ⟨ip, tail, suffix, hlit, hrest, rfl⟩ := canonicalLiteral_eq hspelled
    refine ⟨fun b hb => ?_, (if_pos rfl).trans (canonicalLiteral_lower hlit)⟩
    obtain ⟨bits, hbits⟩ := hlit.groups
    rcases List.mem_cons.mp hb with rfl | hb
    · rfl
    · rcases mem_literalText hb with hip | rfl | hzone | rfl | hsuffix
      · obtain ⟨x, hx, rfl⟩ := List.mem_map.mp hip
        exact (isForbidden_addrByte (parseGroups_bytes hbits x hx)).1
      · rfl
      · exact (isForbidden_zoneByte (hlit.bytes b hzone)).1
      · rfl
      · have hmem : b ∈ host.tail := by
          rw [hrest, literalText]
          exact List.mem_append_right _ (List.mem_cons_of_mem _ hsuffix)
        exact Bool.not_eq_true _ ▸ hforbidden b (List.mem_of_mem_tail hmem)
  · -- a name: what is ASCII in it stays, or becomes a letter
    rw [if_neg hopen, Option.ite_none_left_eq_some] at hspelled
    obtain ⟨hpercent, hc⟩ := hspelled
    obtain rfl := Option.some.inj hc
    refine ⟨fun b hb => ?_, ?_⟩
    · by_contra hbad
      have hbad := Bool.not_eq_false _ ▸ hbad
      have hsmall := isForbidden_small hbad
      rcases S.toLower_bytes host b hb hsmall.1 with hmem | hletter
      · exact hforbidden b hmem hbad
      · exact hsmall.2 hletter
    · rw [if_neg fun hh => hopen (S.toLower_head host hh), S.toLower_toLower, if_neg]
      rw [List.contains_iff_mem] at hpercent ⊢
      intro hm
      rcases S.toLower_bytes host 37 hm (by decide) with hmem | hletter
      · exact hpercent hmem
      · exact absurd hletter (by decide)

/-- **A canonical host is read back from every origin that has it.** -/
theorem urlParse_canonicalHost {host canonical scheme : Text}
    (h : canonicalHost S host = some canonical) (hweb : IsWeb scheme) :
    urlParse (urlString scheme canonical) = some ⟨scheme, canonical⟩ := by
  unfold canonicalHost at h
  rw [Option.ite_none_left_eq_some] at h
  obtain ⟨c, -, h⟩ := Option.bind_eq_some_iff.mp h.2
  split_ifs at h with hauth
  obtain rfl := Option.some.inj h
  unfold isAuthority at hauth
  split at hauth
  · cases hauth
  · rename_i u hu
    exact urlParse_urlString (.inl rfl) hweb hu

/-! ## Requests -/

theorem client_of_trusted (h : trusted r proxies = true) :
    client S r proxies = forwarded S r proxies := by
  unfold trusted at h
  unfold client
  cases hp : peer r with
  | none => rw [hp] at h; cases h
  | some p =>
    rw [hp, Option.any_some] at h
    simp only [h, Bool.not_true, Bool.false_eq_true, if_false]

theorem client_of_not_trusted (h : trusted r proxies = false) :
    client S r proxies = peer r := by
  unfold trusted at h
  unfold client
  cases hp : peer r with
  | none => rfl
  | some p =>
    rw [hp, Option.any_some] at h
    simp only [h, Bool.not_false, if_true]

theorem originParts_of_not_trusted (h : trusted r proxies = false) :
    originParts S r proxies = (if r.tls then ascii "https" else ascii "http", r.host) := by
  unfold trusted at h
  unfold originParts
  cases hp : peer r with
  | none => rfl
  | some p =>
    rw [hp, Option.any_some] at h
    simp only [h, Bool.not_false, if_true]

theorem isWeb_originParts : IsWeb (originParts S r proxies).1 := by
  have hscheme : IsWeb (if r.tls then ascii "https" else ascii "http") := by
    split_ifs
    · exact .inr rfl
    · exact .inl rfl
  have hpick : ∀ proto : Text, IsWeb (if proto = ascii "http" || proto = ascii "https" then proto
      else if r.tls then ascii "https" else ascii "http") := by
    intro proto
    by_cases hp : (proto = ascii "http" || proto = ascii "https") = true
    · rw [if_pos hp]
      simpa only [IsWeb, Bool.or_eq_true, decide_eq_true_eq] using hp
    · rw [if_neg hp]
      exact hscheme
  unfold originParts
  cases hp : peer r with
  | none => exact hscheme
  | some p =>
    simp only
    by_cases hc : (!contains proxies p) = true
    · rw [if_pos hc]
      exact hscheme
    · rw [if_neg hc]
      cases forwardedElements S r with
      | none => exact hpick _
      | some elements => exact hpick _

theorem hops_append {left right : List (Text ⊕ Text)} {hops : List Addr}
    (h : (left ++ right).map (hop S) = hops.map some) :
    ∃ s t, hops = s ++ t ∧ right.map (hop S) = t.map some := by
  rw [List.map_append] at h
  obtain ⟨s, t, rfl, -, ht⟩ := List.map_eq_append_iff.mp h.symm
  exact ⟨s, t, rfl, ht.symm⟩

/-- **What is written to the left of a hop that isn't trusted doesn't change the address.** -/
theorem forwarded_written {left left' right : List (Text ⊕ Text)} {h : Text ⊕ Text} {a a' b : Addr}
    (hr : chain S r = left ++ h :: right) (hr' : chain S r' = left' ++ h :: right)
    (hb : hop S h = some b) (hout : contains proxies b = false)
    (ha : forwarded S r proxies = some a) (ha' : forwarded S r' proxies = some a') : a' = a := by
  obtain ⟨hops, hhops, hnear⟩ := forwarded_hops ha
  obtain ⟨hops', hhops', hnear'⟩ := forwarded_hops ha'
  rw [hr] at hhops
  rw [hr'] at hhops'
  obtain ⟨s, t, rfl, ht⟩ := hops_append hhops
  obtain ⟨s', t', rfl, ht'⟩ := hops_append hhops'
  obtain rfl : t = t' := List.map_injective_iff.mpr (Option.some_injective _) (ht.symm.trans ht')
  have hbt : b ∈ t.reverse := by
    rw [List.map_cons, hb] at ht
    cases t with
    | nil => cases ht
    | cons c t =>
      rw [List.map_cons] at ht
      obtain rfl := Option.some.inj (List.cons.inj ht).1
      simp
  -- from right to left both chains come to the hop before they part
  rw [List.reverse_append, nearest_append ⟨b, hbt, hout⟩] at hnear hnear'
  exact Option.some.inj (hnear'.symm.trans hnear)

/-- **The address of a client and the origin of a request.** If the socket peer isn't trusted,
both are the same whatever the header says. If it is, the address of an accepted chain is the
right-most hop that isn't trusted, or the left-most one when all are trusted; and two chains that
are the same from a hop on that isn't trusted have the same address if both are accepted. A
canonical host of at most 255 bytes is its own spelling, and a request's origin, if it has one,
parses back to its scheme and its canonical host. -/
theorem client_addresses (S : Strings) (proxies : List Prefix) :
    (∀ r : Request, trusted r proxies = false → ∀ header,
      client S { r with header } proxies = client S r proxies ∧
      origin S { r with header } proxies = origin S r proxies) ∧
    (∀ r a, trusted r proxies = true → client S r proxies = some a →
      ∃ hops : List Addr, (chain S r).map (hop S) = hops.map some ∧
        ((∃ left right, hops = left ++ a :: right ∧ contains proxies a = false ∧
            ∀ b ∈ right, contains proxies b = true) ∨
          (∀ b ∈ hops, contains proxies b = true) ∧ hops.head? = some a)) ∧
    (∀ r r' left left' h right a a' b, trusted r proxies = true → trusted r' proxies = true →
      chain S r = left ++ h :: right → chain S r' = left' ++ h :: right →
      hop S h = some b → contains proxies b = false →
      client S r proxies = some a → client S r' proxies = some a' → a' = a) ∧
    (∀ host canonical, canonicalHost S host = some canonical →
      (canonical.length ≤ 255 → canonicalHost S canonical = some canonical) ∧
      ∀ scheme, IsWeb scheme →
        urlParse (urlString scheme canonical) = some ⟨scheme, canonical⟩) ∧
    (∀ r, origin S r proxies = [] ∨ ∃ host,
      canonicalHost S (originParts S r proxies).2 = some host ∧
      urlParse (origin S r proxies) = some ⟨(originParts S r proxies).1, host⟩) := by
  refine ⟨fun r hr header => ?_, fun r a hr ha => ?_, ?_, fun host c hc =>
    ⟨canonicalHost_again hc, fun scheme hs => urlParse_canonicalHost hc hs⟩, fun r => ?_⟩
  · have hr' : trusted { r with header } proxies = false := hr
    refine ⟨?_, ?_⟩
    · rw [client_of_not_trusted hr, client_of_not_trusted hr']
      rfl
    · rw [origin, origin, originParts_of_not_trusted hr, originParts_of_not_trusted hr']
  · rw [client_of_trusted hr] at ha
    obtain ⟨hops, hhops, hnear⟩ := forwarded_hops ha
    refine ⟨hops, hhops, (nearest_eq hnear).imp ?_ ?_⟩
    · rintro ⟨s, t, hst, hout, hs⟩
      refine ⟨t.reverse, s.reverse, ?_, hout, fun b hb => hs b (List.mem_reverse.mp hb)⟩
      rw [← List.reverse_reverse hops, hst]
      simp
    · rintro ⟨hall, hlast⟩
      exact ⟨fun b hb => hall b (List.mem_reverse.mpr hb), by rwa [List.getLast?_reverse] at hlast⟩
  · intro r r' left left' h right a a' b hr hr' hchain hchain' hb hout ha ha'
    rw [client_of_trusted hr] at ha
    rw [client_of_trusted hr'] at ha'
    exact forwarded_written hchain hchain' hb hout ha ha'
  · simp only [origin]
    cases hc : canonicalHost S (originParts S r proxies).2 with
    | none => exact .inl rfl
    | some host => exact .inr ⟨host, rfl, urlParse_canonicalHost hc isWeb_originParts⟩

/-- The functions of the standard library, as they are on texts in ASCII. -/
def asciiStrings : Strings where
  toLower s := s.map lower
  trimSpace s := trim (fun b => b = 32 || (9 ≤ b && b ≤ 13)) s
  equalFold s t := s.map lower = t.map lower
  toLower_ascii _ _ := rfl
  toLower_toLower s := by
    rw [List.map_map]
    exact List.map_congr_left fun b _ => lower_lower b
  toLower_bytes s b h _ := by
    obtain ⟨c, hc, rfl⟩ := List.mem_map.mp h
    have hall : ∀ c : UInt8, lower c = c ∨ 97 ≤ lower c ∧ lower c ≤ 122 := by
      apply forall_byte
      decide +kernel
    rcases hall c with hl | hl
    · rw [hl]
      exact .inl hc
    · exact .inr hl
  toLower_head s h := by
    have hall : ∀ c : UInt8, lower c = 91 → c = 91 := by
      apply forall_byte
      decide +kernel
    cases s with
    | nil => cases h
    | cons c s => rw [List.head?_cons, hall c (Option.some.inj h)]

/-- Two proxies, of which the nearer one is the socket peer. -/
def twoProxies : List Prefix := [⟨.v4 0x7f000001, 32⟩, ⟨.v4 0x0a000002, 32⟩]

def proxied (chain : String) : Request where
  remoteAddr := ascii "127.0.0.1:42"
  host := ascii "backend:32500"
  tls := false
  header :=
    [(ascii "X-Forwarded-For", [ascii chain]), (ascii "X-Forwarded-Host", [ascii "A.example"])]

theorem client_addresses_proxied :
    client asciiStrings (proxied "8.8.8.8, 10.0.0.2") twoProxies = some (.v4 0x08080808) ∧
    client asciiStrings (proxied "1.2.3.4,8.8.8.8, 10.0.0.2") twoProxies =
      some (.v4 0x08080808) ∧
    urlParse (origin asciiStrings (proxied "8.8.8.8") twoProxies) =
      some ⟨ascii "http", ascii "a.example"⟩ := by
  obtain ⟨-, -, hwritten, -, horigin⟩ := client_addresses asciiStrings twoProxies
  have hclient : client asciiStrings (proxied "8.8.8.8, 10.0.0.2") twoProxies =
    some (.v4 0x08080808) := by decide +kernel
  refine ⟨hclient, ?_, ?_⟩
  · have haccepted : client asciiStrings (proxied "1.2.3.4,8.8.8.8, 10.0.0.2") twoProxies ≠ none :=
      by decide +kernel
    obtain ⟨a, ha⟩ := Option.ne_none_iff_exists'.mp haccepted
    rw [ha]
    exact congrArg some (hwritten (proxied "8.8.8.8, 10.0.0.2")
      (proxied "1.2.3.4,8.8.8.8, 10.0.0.2") [] [.inl (ascii "1.2.3.4")]
      (.inl (ascii "8.8.8.8")) [.inl (ascii " 10.0.0.2")] (.v4 0x08080808) a (.v4 0x08080808)
      (by decide +kernel) (by decide +kernel) (by decide +kernel) (by decide +kernel)
      (by decide +kernel) (by decide +kernel) hclient ha)
  · have hhost : canonicalHost asciiStrings
        (originParts asciiStrings (proxied "8.8.8.8") twoProxies).2 = some (ascii "a.example") := by
      decide +kernel
    rcases horigin (proxied "8.8.8.8") with h | ⟨host, hc, h⟩
    · exact absurd h (by decide +kernel)
    · obtain rfl := Option.some.inj (hc.symm.trans hhost)
      rw [h]
      decide +kernel

/-- Where all hops are trusted, what a client writes to the left of them becomes its address. -/
theorem written_address :
    client asciiStrings (proxied "10.0.0.2") twoProxies = some (.v4 0x0a000002) ∧
    chain asciiStrings (proxied "1.2.3.4,10.0.0.2") =
      .inl (ascii "1.2.3.4") :: chain asciiStrings (proxied "10.0.0.2") ∧
    client asciiStrings (proxied "1.2.3.4,10.0.0.2") twoProxies = some (.v4 0x01020304) := by
  decide +kernel

end Portico.Network
