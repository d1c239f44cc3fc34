import Mathlib

/-!
# Double precision numbers with 32-bit operations

The one number type of a scripting language: a double, whose arithmetic rounds the exact result to
the nearest double, ties to even, and whose bit operations work on the value as a word of 32 bits. The
two zeros are one here: only a division by zero could tell them apart.

## Main results

* `Number.nearest_intCast`: integers below `2 ^ 53` aren't rounded
* `Number.add_natCast`, `Number.mul_natCast`, `Number.div_natCast`, …: so their arithmetic is exact
* `Number.toWord_natCast`, `Number.shiftRight_zero`, `Number.and_natCast`: words are their own numbers
-/

namespace Portico

/-- A double. The value of a finite one is a rational number. -/
inductive Number
  | nan
  | infinite (negative : Bool)
  | finite (value : ℚ)
deriving DecidableEq, Repr

namespace Number

instance : NatCast Number := ⟨fun n => finite n⟩

instance : IntCast Number := ⟨fun z => finite z⟩

instance (n : ℕ) : OfNat Number n := ⟨finite n⟩

theorem natCast_eq (n : ℕ) : (n : Number) = finite n := rfl

theorem intCast_eq (z : ℤ) : (z : Number) = finite z := rfl

/-! ## Rounding -/

/-- The nearest integer, ties to even. -/
def roundHalfEven (q : ℚ) : ℤ :=
  if q - ⌊q⌋ < 1 / 2 then ⌊q⌋
  else if 1 / 2 < q - ⌊q⌋ then ⌊q⌋ + 1
  else if Even ⌊q⌋ then ⌊q⌋
  else ⌊q⌋ + 1

/-- The distance of the doubles around a value: 53 significant bits, and no exponent below -1074. -/
def spacing (q : ℚ) : ℚ := 2 ^ (max (Int.log 2 |q|) (-1022) - 52)

/-- The double nearest to an exact result. -/
def nearest (q : ℚ) : Number :=
  let v := roundHalfEven (q / spacing q) * spacing q
  if 2 ^ 1024 ≤ |v| then infinite (v < 0) else finite v

theorem roundHalfEven_intCast (z : ℤ) : roundHalfEven z = z := by
  unfold roundHalfEven
  rw [Int.floor_intCast, sub_self, if_pos (by norm_num)]

theorem nearest_intCast {z : ℤ} (hz : |z| < 2 ^ 53) : nearest z = (z : Number) := by
  have habs : |(z : ℚ)| < 2 ^ 53 := by exact_mod_cast hz
  obtain ⟨k, hk⟩ : ∃ k : ℕ, spacing z = (2 ^ k : ℚ)⁻¹ := by
    have hlog : Int.log 2 |(z : ℚ)| ≤ 52 := by
      rcases eq_or_ne z 0 with rfl | hne
      · simp
      · have hpos : 0 < |(z : ℚ)| := by positivity
        have := (Int.lt_zpow_iff_log_lt (b := 2) one_lt_two (x := 53) hpos).mp (by exact_mod_cast habs)
        omega
    refine ⟨(52 - max (Int.log 2 |(z : ℚ)|) (-1022)).toNat, ?_⟩
    unfold spacing
    rw [← zpow_natCast, ← zpow_neg]
    congr 1
    omega
  have hquotient : (z : ℚ) / spacing z = ((z * 2 ^ k : ℤ) : ℚ) := by
    rw [hk]
    push_cast
    field_simp
  have hvalue : (roundHalfEven ((z : ℚ) / spacing z) : ℚ) * spacing z = z := by
    rw [hquotient, roundHalfEven_intCast, hk]
    push_cast
    field_simp
  unfold nearest
  simp only [hvalue]
  rw [if_neg, intCast_eq]
  exact not_le.mpr (habs.trans_le (pow_le_pow_right₀ one_le_two (by omega)))

/-! ## Arithmetic -/

/-- The sum. -/
protected def add : Number → Number → Number
  | finite a, finite b => nearest (a + b)
  | infinite s, infinite t => if s = t then infinite s else nan
  | infinite s, finite _ => infinite s
  | finite _, infinite t => infinite t
  | _, _ => nan

/-- The negative. -/
protected def neg : Number → Number
  | finite a => finite (-a)
  | infinite s => infinite !s
  | nan => nan

/-- The product. -/
protected def mul : Number → Number → Number
  | finite a, finite b => nearest (a * b)
  | infinite s, infinite t => infinite (s != t)
  | infinite s, finite b => if b = 0 then nan else infinite (s != decide (b < 0))
  | finite a, infinite t => if a = 0 then nan else infinite (decide (a < 0) != t)
  | _, _ => nan

/-- The quotient; the zero divided by is a positive one. -/
protected def div : Number → Number → Number
  | finite a, finite b =>
    if b = 0 then (if a = 0 then nan else infinite (a < 0)) else nearest (a / b)
  | infinite s, finite b => infinite (s != decide (b < 0))
  | finite _, infinite _ => finite 0
  | _, _ => nan

/-- A value without its fraction. -/
def truncate (q : ℚ) : ℤ := if q < 0 then ⌈q⌉ else ⌊q⌋

/-- The remainder, with the sign of the dividend. -/
protected def mod : Number → Number → Number
  | finite a, finite b => if b = 0 then nan else finite (a - b * truncate (a / b))
  | finite a, infinite _ => finite a
  | _, _ => nan

/-- A power of two. -/
def twoPow : Number → Number
  | finite a => if a.den = 1 then nearest (2 ^ a.num) else nan
  | infinite s => if s then finite 0 else infinite false
  | nan => nan

/-- The order; `nan` has no place in it. -/
protected def lt : Number → Number → Bool
  | finite a, finite b => a < b
  | infinite s, infinite t => s && !t
  | infinite s, finite _ => s
  | finite _, infinite t => !t
  | _, _ => false

instance : Add Number := ⟨Number.add⟩
instance : Neg Number := ⟨Number.neg⟩
instance : Sub Number := ⟨fun x y => x + -y⟩
instance : Mul Number := ⟨Number.mul⟩
instance : Div Number := ⟨Number.div⟩
instance : Mod Number := ⟨Number.mod⟩
instance : LT Number := ⟨fun x y => x.lt y = true⟩
instance (x y : Number) : Decidable (x < y) := inferInstanceAs (Decidable (x.lt y = true))

/-- An integer whose neighbours are doubles too. -/
def isSafeInteger : Number → Bool
  | finite a => a.den = 1 && |a| ≤ 2 ^ 53 - 1
  | _ => false

/-! ## Words -/

/-- A number as a word of 32 bits: its integer part modulo `2 ^ 32`. -/
def toWord : Number → BitVec 32
  | finite a => BitVec.ofInt 32 (truncate a)
  | _ => 0

instance : XorOp Number := ⟨fun x y => ((x.toWord ^^^ y.toWord).toInt : Number)⟩
instance : AndOp Number := ⟨fun x y => ((x.toWord &&& y.toWord).toInt : Number)⟩

/-- The logical shift, which makes an unsigned word. -/
instance : ShiftRight Number := ⟨fun x y => ((x.toWord >>> (y.toWord.toNat % 32)).toNat : Number)⟩

/-- The product of two words. -/
def imul (x y : Number) : Number := ((x.toWord * y.toWord).toInt : Number)

variable {a b : ℕ} {x y : Number} {w : BitVec 32}

theorem truncate_intCast (z : ℤ) : truncate z = z := by
  unfold truncate
  rw [Int.ceil_intCast, Int.floor_intCast, ite_self]

@[simp] theorem toWord_intCast (z : ℤ) : (z : Number).toWord = BitVec.ofInt 32 z := by
  rw [intCast_eq, toWord, truncate_intCast]

@[simp] theorem toWord_natCast (n : ℕ) : (n : Number).toWord = BitVec.ofNat 32 n := by
  rw [← BitVec.ofInt_natCast, ← toWord_intCast]
  rfl

theorem toWord_ofNat (n : ℕ) : (OfNat.ofNat n : Number).toWord = BitVec.ofNat 32 n :=
  toWord_natCast n

theorem toWord_xor : (x ^^^ y).toWord = x.toWord ^^^ y.toWord := by
  change ((_ : ℤ) : Number).toWord = _
  rw [toWord_intCast, BitVec.ofInt_toInt]

theorem toWord_imul : (imul x y).toWord = x.toWord * y.toWord := by
  change ((_ : ℤ) : Number).toWord = _
  rw [toWord_intCast, BitVec.ofInt_toInt]

theorem shiftRight_eq : x >>> y = ((x.toWord >>> (y.toWord.toNat % 32)).toNat : Number) := rfl

theorem shiftRight_zero : x >>> (0 : Number) = (x.toWord.toNat : Number) := by
  rw [shiftRight_eq, toWord_ofNat]
  simp

theorem toWord_toNat : ((w.toNat : ℕ) : Number).toWord = w := by
  rw [toWord_natCast, BitVec.ofNat_toNat, BitVec.setWidth_eq]

theorem toWord_shiftRight : (x >>> y).toWord = x.toWord >>> (y.toWord.toNat % 32) := by
  rw [shiftRight_eq, toWord_toNat]

theorem and_natCast (hb : b < 2 ^ 31) : x &&& (b : Number) = ((x.toWord.toNat &&& b : ℕ) : Number) := by
  have hword : (BitVec.ofNat 32 b).toNat = b := by
    rw [BitVec.toNat_ofNat]
    exact Nat.mod_eq_of_lt (by omega)
  have hand : (x.toWord &&& BitVec.ofNat 32 b).toNat = x.toWord.toNat &&& b := by
    rw [BitVec.toNat_and, hword]
  have hlt : x.toWord.toNat &&& b < 2 ^ 31 := Nat.and_le_right.trans_lt hb
  change (((x.toWord &&& (b : Number).toWord).toInt : ℤ) : Number) = _
  rw [toWord_natCast, BitVec.toInt_eq_toNat_of_lt (by omega), hand]
  rfl

/-! ## Exact arithmetic -/

theorem nearest_natCast (ha : a < 2 ^ 53) : nearest a = (a : Number) := by
  have h := nearest_intCast (z := a) (by rw [abs_of_nonneg (Int.natCast_nonneg a)]; exact_mod_cast ha)
  exact_mod_cast h

theorem add_natCast (h : a + b < 2 ^ 53) : (a : Number) + (b : Number) = ((a + b : ℕ) : Number) := by
  change nearest _ = _
  rw [← nearest_natCast h, Nat.cast_add]

theorem sub_natCast (hle : b ≤ a) (h : a < 2 ^ 53) :
    (a : Number) - (b : Number) = ((a - b : ℕ) : Number) := by
  change nearest _ = _
  rw [← nearest_natCast (by omega : a - b < 2 ^ 53), Nat.cast_sub hle, sub_eq_add_neg]

theorem mul_natCast (h : a * b < 2 ^ 53) : (a : Number) * (b : Number) = ((a * b : ℕ) : Number) := by
  change nearest _ = _
  rw [← nearest_natCast h, Nat.cast_mul]

theorem div_natCast (hb : b ≠ 0) (hdvd : b ∣ a) (h : a < 2 ^ 53) :
    (a : Number) / (b : Number) = ((a / b : ℕ) : Number) := by
  change (if (b : ℚ) = 0 then _ else nearest _) = _
  rw [if_neg (by exact_mod_cast hb), ← nearest_natCast ((Nat.div_le_self a b).trans_lt h),
    Nat.cast_div hdvd (by exact_mod_cast hb)]

theorem mod_natCast (hb : b ≠ 0) : (a : Number) % (b : Number) = ((a % b : ℕ) : Number) := by
  change (if (b : ℚ) = 0 then _ else finite _) = _
  rw [if_neg (by exact_mod_cast hb), natCast_eq, finite.injEq]
  have hquotient : truncate ((a : ℚ) / b) = ((a / b : ℕ) : ℤ) := by
    unfold truncate
    rw [if_neg (not_lt.mpr (by positivity)), Rat.floor_natCast_div_natCast]
    rfl
  rw [hquotient, Int.cast_natCast]
  have hsplit : ((b * (a / b) + a % b : ℕ) : ℚ) = a := by rw [Nat.div_add_mod]
  push_cast at hsplit
  linarith

theorem twoPow_natCast (h : a < 53) : twoPow (a : Number) = ((2 ^ a : ℕ) : Number) := by
  have hlt : 2 ^ a < 2 ^ 53 := Nat.pow_lt_pow_right one_lt_two h
  change (if (a : ℚ).den = 1 then nearest (2 ^ (a : ℚ).num) else nan) = _
  rw [if_pos (Rat.den_natCast a), Rat.num_natCast, zpow_natCast, ← nearest_natCast hlt]
  push_cast
  rfl

theorem lt_natCast : (a : Number) < (b : Number) ↔ a < b := by
  change decide ((a : ℚ) < b) = true ↔ _
  rw [decide_eq_true_eq, Nat.cast_lt]

theorem isSafeInteger_natCast : (a : Number).isSafeInteger = true ↔ a < 2 ^ 53 := by
  change (decide ((a : ℚ).den = 1) && decide (|(a : ℚ)| ≤ 2 ^ 53 - 1)) = true ↔ _
  rw [Bool.and_eq_true, decide_eq_true_eq, decide_eq_true_eq, abs_of_nonneg (Nat.cast_nonneg a),
    le_sub_iff_add_le, and_iff_right (Rat.den_natCast a)]
  norm_cast

end Number

end Portico
