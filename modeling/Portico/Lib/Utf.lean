import Mathlib

/-!
# Texts as bytes

Texts in UTF-8, and in UTF-16 as pairs of bytes in either order.

## Main results

* `count_utf16Decode`: a zero character in UTF-16 is a pair of zero bytes
* `encode_ne_of_zeros`: bytes with a zero aren't the text that they hold in UTF-16
-/

namespace Portico.Utf

/-- A byte that continues a character. -/
def isTail (b : UInt8) : Bool := 0x80 ≤ b && b ≤ 0xBF

/-- Whether bytes are a text in UTF-8, without overlong forms and surrogates. -/
def utf8Valid : List UInt8 → Bool
  | [] => true
  | a :: l =>
    if a < 0x80 then utf8Valid l
    else if 0xC2 ≤ a && a ≤ 0xDF then
      match l with
      | b :: l => isTail b && utf8Valid l
      | _ => false
    else if 0xE0 ≤ a && a ≤ 0xEF then
      match l with
      | b :: c :: l =>
        (if a = 0xE0 then 0xA0 else 0x80) ≤ b && b ≤ (if a = 0xED then 0x9F else 0xBF) && isTail c &&
          utf8Valid l
      | _ => false
    else if 0xF0 ≤ a && a ≤ 0xF4 then
      match l with
      | b :: c :: d :: l =>
        (if a = 0xF0 then 0x90 else 0x80) ≤ b && b ≤ (if a = 0xF4 then 0x8F else 0xBF) && isTail c &&
          isTail d && utf8Valid l
      | _ => false
    else false

/-- A character in UTF-8. -/
def encodeRune (r : ℕ) : List UInt8 :=
  if r < 0x80 then [UInt8.ofNat r]
  else if r < 0x800 then [UInt8.ofNat (0xC0 + r / 64), UInt8.ofNat (0x80 + r % 64)]
  else if r < 0x10000 then
    [UInt8.ofNat (0xE0 + r / 4096), UInt8.ofNat (0x80 + r / 64 % 64), UInt8.ofNat (0x80 + r % 64)]
  else
    [UInt8.ofNat (0xF0 + r / 262144), UInt8.ofNat (0x80 + r / 4096 % 64),
      UInt8.ofNat (0x80 + r / 64 % 64), UInt8.ofNat (0x80 + r % 64)]

def encodeRunes (l : List ℕ) : List UInt8 := l.flatMap encodeRune

/-- The pairs of bytes as units. -/
def units (bigEndian : Bool) : List UInt8 → List ℕ
  | a :: b :: l =>
    (if bigEndian then a.toNat * 256 + b.toNat else b.toNat * 256 + a.toNat) :: units bigEndian l
  | _ => []

def isHigh (u : ℕ) : Bool := 0xD800 ≤ u && u ≤ 0xDBFF
def isLow (u : ℕ) : Bool := 0xDC00 ≤ u && u ≤ 0xDFFF

/-- Whether surrogates come in pairs only. -/
def paired : List ℕ → Bool
  | [] => true
  | u :: l =>
    if isHigh u then
      match l with
      | v :: l => isLow v && paired l
      | [] => false
    else !isLow u && paired l

/-- Units as characters; a surrogate without its other half is replaced. -/
def utf16Decode : List ℕ → List ℕ
  | [] => []
  | u :: l =>
    if isHigh u then
      match l with
      | v :: l =>
        if isLow v then (0x10000 + (u - 0xD800) * 1024 + (v - 0xDC00)) :: utf16Decode l
        else 0xFFFD :: utf16Decode (v :: l)
      | [] => [0xFFFD]
    else if isLow u then 0xFFFD :: utf16Decode l
    else u :: utf16Decode l

/-- The zero bytes at even places, and those at odd places. -/
def zeroCounts : List UInt8 → ℕ × ℕ
  | [] => (0, 0)
  | b :: l => ((zeroCounts l).2 + (if b = 0 then 1 else 0), (zeroCounts l).1)

/-! ## Zero bytes -/

variable {l : List UInt8} {u r n : ℕ} {us : List ℕ} {bigEndian : Bool}

theorem ofNat_eq_zero (hn : n < 256) : UInt8.ofNat n = 0 ↔ n = 0 := by
  rw [← UInt8.toNat_inj, UInt8.toNat_ofNat', Nat.mod_eq_of_lt hn]
  rfl

theorem ofNat_ne_zero (hpos : 0 < n) (hn : n < 256) : UInt8.ofNat n ≠ 0 := by
  rw [Ne, ofNat_eq_zero hn]
  omega

theorem count_encodeRune (hr : r < 0x110000) :
    (encodeRune r).count 0 = if r = 0 then 1 else 0 := by
  rcases Nat.eq_zero_or_pos r with rfl | hpos
  · decide
  · rw [if_neg hpos.ne', List.count_eq_zero]
    unfold encodeRune
    split_ifs <;> simp only [List.mem_cons, List.not_mem_nil, or_false, not_or]
    · exact (ofNat_ne_zero hpos (by omega)).symm
    · exact ⟨(ofNat_ne_zero (by omega) (by omega)).symm, (ofNat_ne_zero (by omega) (by omega)).symm⟩
    · exact ⟨(ofNat_ne_zero (by omega) (by omega)).symm, (ofNat_ne_zero (by omega) (by omega)).symm,
        (ofNat_ne_zero (by omega) (by omega)).symm⟩
    · exact ⟨(ofNat_ne_zero (by omega) (by omega)).symm, (ofNat_ne_zero (by omega) (by omega)).symm,
        (ofNat_ne_zero (by omega) (by omega)).symm, (ofNat_ne_zero (by omega) (by omega)).symm⟩

theorem count_encodeRunes (h : ∀ r ∈ us, r < 0x110000) : (encodeRunes us).count 0 = us.count 0 := by
  induction us with
  | nil => rfl
  | cons r us ih =>
    obtain ⟨hr, hus⟩ := List.forall_mem_cons.mp h
    unfold encodeRunes at ih ⊢
    rw [List.flatMap_cons, List.count_append, count_encodeRune hr, ih hus, List.count_cons]
    simp only [beq_iff_eq]
    omega

theorem units_lt (l : List UInt8) : ∀ u ∈ units bigEndian l, u < 0x10000 := by
  fun_induction units bigEndian l with
  | case1 a b l ih =>
    intro u hu
    rcases List.mem_cons.mp hu with rfl | hu
    · have ha := a.toNat_lt
      have hb := b.toNat_lt
      split_ifs <;> omega
    · exact ih u hu
  | case2 => exact fun u hu => (nomatch hu)

theorem utf16Decode_lt (h : ∀ u ∈ us, u < 0x10000) : ∀ r ∈ utf16Decode us, r < 0x110000 := by
  fun_induction utf16Decode us with
  | case1 => exact fun r hr => (nomatch hr)
  | case2 u hhigh v l hlow ih =>
    intro r hr
    simp only [isHigh, isLow, Bool.and_eq_true, decide_eq_true_eq] at hhigh hlow
    rcases List.mem_cons.mp hr with heq | hr
    · omega
    · exact ih (fun w hw => h w (List.mem_cons_of_mem _ (List.mem_cons_of_mem _ hw))) r hr
  | case3 u hhigh v l hlow ih =>
    intro r hr
    rcases List.mem_cons.mp hr with rfl | hr
    · decide
    · exact ih (fun w hw => h w (List.mem_cons_of_mem _ hw)) r hr
  | case4 u hhigh =>
    intro r hr
    rw [List.mem_singleton.mp hr]
    decide
  | case5 u l hhigh hlow ih =>
    intro r hr
    rcases List.mem_cons.mp hr with rfl | hr
    · decide
    · exact ih (fun w hw => h w (List.mem_cons_of_mem _ hw)) r hr
  | case6 u l hhigh hlow ih =>
    intro r hr
    rcases List.mem_cons.mp hr with rfl | hr
    · have := h r List.mem_cons_self
      omega
    · exact ih (fun w hw => h w (List.mem_cons_of_mem _ hw)) r hr

theorem count_utf16Decode (us : List ℕ) : (utf16Decode us).count 0 = us.count 0 := by
  have hhigh {u : ℕ} (h : isHigh u = true) : u ≠ 0 := by
    simp only [isHigh, Bool.and_eq_true, decide_eq_true_eq] at h
    omega
  have hlow {u : ℕ} (h : isLow u = true) : u ≠ 0 := by
    simp only [isLow, Bool.and_eq_true, decide_eq_true_eq] at h
    omega
  fun_induction utf16Decode us with
  | case1 => rfl
  | case2 u hu v l hv ih =>
    rw [List.count_cons_of_ne (by omega), ih, List.count_cons_of_ne (hhigh hu),
      List.count_cons_of_ne (hlow hv)]
  | case3 u hu v l hv ih => rw [List.count_cons_of_ne (by decide), ih, List.count_cons_of_ne (hhigh hu)]
  | case4 u hu => rw [List.count_cons_of_ne (by decide), List.count_cons_of_ne (hhigh hu)]
  | case5 u l hu hv ih =>
    rw [List.count_cons_of_ne (by decide), ih, List.count_cons_of_ne (hlow hv)]
  | case6 u l hu hv ih => rw [List.count_cons, ih, List.count_cons]

theorem count_units (l : List UInt8) :
    (units bigEndian l).count 0 ≤ (zeroCounts l).1 ∧ (units bigEndian l).count 0 ≤ (zeroCounts l).2 := by
  fun_induction units bigEndian l with
  | case1 a b l ih =>
    simp only [zeroCounts, List.count_cons, beq_iff_eq]
    have hzero : (if bigEndian = true then a.toNat * 256 + b.toNat else b.toNat * 256 + a.toNat) = 0 →
        a = 0 ∧ b = 0 := by
      intro h
      have hboth : a.toNat = 0 ∧ b.toNat = 0 := by split_ifs at h <;> omega
      exact ⟨UInt8.toNat_inj.mp hboth.1, UInt8.toNat_inj.mp hboth.2⟩
    generalize (if bigEndian = true then a.toNat * 256 + b.toNat else b.toNat * 256 + a.toNat) = u at hzero
    by_cases hu : u = 0
    · rw [if_pos hu, if_pos (hzero hu).1, if_pos (hzero hu).2]
      omega
    · rw [if_neg hu]
      omega
  | case2 => exact ⟨Nat.zero_le _, Nat.zero_le _⟩

theorem zeroCounts_sum (l : List UInt8) : (zeroCounts l).1 + (zeroCounts l).2 = l.count 0 := by
  induction l with
  | nil => rfl
  | cons b l ih =>
    rw [zeroCounts, List.count_cons]
    simp only [beq_iff_eq]
    omega

/-- **Bytes with a zero** aren't the text that they hold in UTF-16. -/
theorem encode_ne_of_zeros (h : 0 < l.count 0) : encodeRunes (utf16Decode (units bigEndian l)) ≠ l := by
  intro heq
  have hcount := congrArg (List.count 0) heq
  rw [count_encodeRunes (utf16Decode_lt (units_lt l)), count_utf16Decode] at hcount
  have := @count_units bigEndian l
  have := zeroCounts_sum l
  omega

end Portico.Utf
