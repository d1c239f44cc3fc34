import Mathlib

/-!
# Base64 for URLs, without padding

Three bytes are four characters, and what is left at the end is two or three characters whose last
bits aren't used. A reader ignores line breaks and the bits that aren't used, so a byte string has
several texts; the one that the writer gives it is its canonical text.

## Main results

* `decode_encode`: the reader gives back what was written
-/

namespace Portico.Base64

def alphabet : List Char :=
  "ABCDEFGHIJKLMNOPQRSTUVWXYZabcdefghijklmnopqrstuvwxyz0123456789-_".toList

/-- The character of six bits. -/
def symbol (n : ℕ) : Char := alphabet.getD n 'A'

/-- The six bits of a character. -/
def digit (c : Char) : Option ℕ := alphabet.idxOf? c

/-- The bytes, six bits at a time. -/
def digits : List UInt8 → List ℕ
  | x :: y :: z :: rest =>
    x.toNat / 4 :: (x.toNat % 4 * 16 + y.toNat / 16) :: (y.toNat % 16 * 4 + z.toNat / 64) ::
      z.toNat % 64 :: digits rest
  | [x, y] => [x.toNat / 4, x.toNat % 4 * 16 + y.toNat / 16, y.toNat % 16 * 4]
  | [x] => [x.toNat / 4, x.toNat % 4 * 16]
  | [] => []

def encode (bytes : List UInt8) : List Char := (digits bytes).map symbol

/-- The bytes of groups of six bits: the last bits of a group that isn't full are dropped. -/
def bytes : List ℕ → Option (List UInt8)
  | a :: b :: c :: d :: rest =>
    (bytes rest).map fun tail =>
      UInt8.ofNat (a * 4 + b / 16) :: UInt8.ofNat (b % 16 * 16 + c / 4) ::
        UInt8.ofNat (c % 4 * 64 + d) :: tail
  | [a, b, c] => some [UInt8.ofNat (a * 4 + b / 16), UInt8.ofNat (b % 16 * 16 + c / 4)]
  | [a, b] => some [UInt8.ofNat (a * 4 + b / 16)]
  | [_] => none
  | [] => some []

/-- Line breaks are skipped. -/
def decode (text : List Char) : Option (List UInt8) :=
  ((text.filter fun c => c ≠ '\n' ∧ c ≠ '\r').mapM digit).bind bytes

theorem digit_symbol : ∀ n < 64, digit (symbol n) = some n ∧ symbol n ≠ '\n' ∧ symbol n ≠ '\r' ∧
    symbol n ≠ '.' := by
  decide +kernel

theorem digits_lt (bs : List UInt8) : ∀ n ∈ digits bs, n < 64 := by
  fun_induction digits bs with
  | case1 x y z rest ih =>
    have hx := x.toNat_lt
    have hy := y.toNat_lt
    have hz := z.toNat_lt
    intro n hn
    simp only [List.mem_cons] at hn
    rcases hn with rfl | rfl | rfl | rfl | hn
    · omega
    · omega
    · omega
    · omega
    · exact ih n hn
  | case2 x y =>
    have hx := x.toNat_lt
    have hy := y.toNat_lt
    intro n hn
    simp only [List.mem_cons, List.not_mem_nil, or_false] at hn
    omega
  | case3 x =>
    have hx := x.toNat_lt
    intro n hn
    simp only [List.mem_cons, List.not_mem_nil, or_false] at hn
    omega
  | case4 => simp

theorem ofNat_eq {n : ℕ} {x : UInt8} (h : n = x.toNat) : UInt8.ofNat n = x := by
  rw [h, UInt8.ofNat_toNat]

theorem bytes_digits (bs : List UInt8) : bytes (digits bs) = some bs := by
  fun_induction digits bs with
  | case1 x y z rest ih =>
    have hx := x.toNat_lt
    have hy := y.toNat_lt
    have hz := z.toNat_lt
    rw [bytes, ih, Option.map_some, ofNat_eq (x := x) (by omega), ofNat_eq (x := y) (by omega),
      ofNat_eq (x := z) (by omega)]
  | case2 x y =>
    have hx := x.toNat_lt
    have hy := y.toNat_lt
    rw [bytes, ofNat_eq (x := x) (by omega), ofNat_eq (x := y) (by omega)]
  | case3 x =>
    have hx := x.toNat_lt
    rw [bytes, ofNat_eq (x := x) (by omega)]
  | case4 => rfl

theorem mem_encode {bs : List UInt8} {c : Char} (h : c ∈ encode bs) :
    c ≠ '\n' ∧ c ≠ '\r' ∧ c ≠ '.' := by
  obtain ⟨n, hn, rfl⟩ := List.mem_map.mp h
  exact (digit_symbol n (digits_lt bs n hn)).2

theorem decode_encode (bs : List UInt8) : decode (encode bs) = some bs := by
  have hkept : (encode bs).filter (fun c => c ≠ '\n' ∧ c ≠ '\r') = encode bs := by
    rw [List.filter_eq_self]
    intro c hc
    obtain ⟨hn, hr, -⟩ := mem_encode hc
    simp [hn, hr]
  have hdigits : (encode bs).mapM digit = some (digits bs) := by
    unfold encode
    have hall := digits_lt bs
    generalize digits bs = ns at hall
    induction ns with
    | nil => rfl
    | cons n ns ih =>
      rw [List.map_cons, List.mapM_cons, (digit_symbol n (hall n List.mem_cons_self)).1,
        ih fun m hm => hall m (List.mem_cons_of_mem n hm)]
      rfl
  unfold decode
  rw [hkept, hdigits, Option.bind_some, bytes_digits]

end Portico.Base64
