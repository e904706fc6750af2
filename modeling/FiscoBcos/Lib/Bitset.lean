import FiscoBcos.Lib.BigEndian
import Mathlib

/-!
# Bitsets packed into bytes

A bitset held in a byte string: bit `i` is in byte `i / 8`, the most
significant bit of each byte first, so that bit `i` is tested against the
mask `1 << (7 - i % 8)`. `test` reads a bit, with every bit past the end
clear, and `set` sets one. Two bitsets of one length with the same bits are
equal (`ext_test`). Read as a big-endian number, the string's bit `i` from
the least significant end is the bitset's bit `8 * len - 1 - i`
(`testBit_value`).
-/

namespace Bitset

/-- The mask of bit `i` within its byte. -/
def mask (i : Nat) : UInt8 := 1 <<< (7 - i % 8).toUInt8

/-- Whether bit `i` is set. -/
def test (bs : List UInt8) (i : Nat) : Bool := bs.getD (i / 8) 0 &&& mask i != 0

/-- Set bit `i`: `bs[i/8] |= 1 << (7 - i%8)`. -/
def set (bs : List UInt8) (i : Nat) : List UInt8 := bs.modify (i / 8) (· ||| mask i)

/-! ## One byte -/

private theorem toNat_shift (i : Nat) : ((7 - i % 8).toUInt8).toNat % 8 = 7 - i % 8 := by
  simp [Nat.toUInt8]
  omega

private theorem toNat_mask (i : Nat) : (mask i).toNat = 2 ^ (7 - i % 8) := by
  simp only [mask, UInt8.toNat_shiftLeft, UInt8.toNat_one, toNat_shift, Nat.one_shiftLeft]
  exact Nat.mod_eq_of_lt (Nat.pow_lt_pow_right Nat.one_lt_two (by omega))

theorem and_mask_ne_zero_iff (b : UInt8) (i : Nat) :
    b &&& mask i ≠ 0 ↔ b.toNat.testBit (7 - i % 8) = true := by
  rw [ne_eq, ← UInt8.toNat_inj, UInt8.toNat_and, toNat_mask, Nat.and_two_pow, UInt8.toNat_zero]
  cases b.toNat.testBit (7 - i % 8) <;> simp

theorem toNat_or_mask (b : UInt8) (i : Nat) : (b ||| mask i).toNat = b.toNat ||| 2 ^ (7 - i % 8) := by
  rw [UInt8.toNat_or, toNat_mask]

/-! ## Bits of a byte string -/

theorem test_eq (bs : List UInt8) (i : Nat) :
    test bs i = (bs.getD (i / 8) 0).toNat.testBit (7 - i % 8) := by
  rw [Bool.eq_iff_iff, ← and_mask_ne_zero_iff]
  simp [test]

@[simp] theorem length_set (bs : List UInt8) (i : Nat) : (set bs i).length = bs.length :=
  List.length_modify _ _ _

/-- Bits past the end of the string are clear. -/
theorem test_of_length_le {bs : List UInt8} {i : Nat} (h : bs.length ≤ i / 8) : test bs i = false := by
  rw [test_eq, List.getD_eq_default _ _ h]
  simp

@[simp] theorem test_replicate_zero (n i : Nat) : test (List.replicate n 0) i = false := by
  rw [test_eq, List.getD_eq_getElem?_getD, List.getElem?_replicate]
  split_ifs <;> simp

/-- Setting a bit within the string sets that bit and no other. -/
theorem test_set {bs : List UInt8} {i : Nat} (h : i / 8 < bs.length) (j : Nat) :
    test (set bs i) j = (test bs j || j == i) := by
  by_cases same : j / 8 = i / 8
  · have byte : (set bs i).getD (j / 8) 0 = bs.getD (j / 8) 0 ||| mask i := by
      rw [set, List.getD_eq_getElem _ _ (by simpa [same] using h), List.getElem_modify,
        if_pos same.symm, List.getD_eq_getElem _ _ (by simpa [same] using h)]
    rw [test_eq, byte, toNat_or_mask, Nat.testBit_or, Nat.testBit_two_pow, test_eq]
    congr 1
    by_cases eq : j = i
    · simp [eq]
    · have differ : 7 - i % 8 ≠ 7 - j % 8 := by omega
      simp [differ, eq]
  · have byte : (set bs i).getD (j / 8) 0 = bs.getD (j / 8) 0 := by
      simp [set, List.getD_eq_getElem?_getD, Ne.symm same]
    have differ : (j == i) = false := by
      simp only [beq_eq_false_iff_ne]
      rintro rfl
      exact same rfl
    rw [test_eq, byte, ← test_eq, differ, Bool.or_false]

/-- A set bit lies in a nonzero byte. -/
theorem exists_ne_zero_of_test {bs : List UInt8} {i : Nat} (h : test bs i = true) : ∃ b ∈ bs, b ≠ 0 := by
  by_cases inside : i / 8 < bs.length
  · refine ⟨bs[i / 8], List.getElem_mem inside, fun zero => ?_⟩
    rw [test_eq, List.getD_eq_getElem _ _ inside, zero] at h
    simp at h
  · rw [test_of_length_le (by omega)] at h
    cases h

/-- A bitset is determined by its length and its bits. -/
theorem ext_test {bs cs : List UInt8} (len : bs.length = cs.length) (bits : ∀ i, test bs i = test cs i) :
    bs = cs := by
  refine List.ext_getElem len fun k hb hc => ?_
  rw [← UInt8.toNat_inj]
  refine Nat.eq_of_testBit_eq fun m => ?_
  by_cases low : m < 8
  · have bit := bits (8 * k + (7 - m))
    have index : (8 * k + (7 - m)) / 8 = k := by omega
    have within : 7 - (8 * k + (7 - m)) % 8 = m := by omega
    rwa [test_eq, test_eq, index, within, List.getD_eq_getElem _ _ hb,
      List.getD_eq_getElem _ _ hc] at bit
  · have top : ∀ b : UInt8, b.toNat.testBit m = false := fun b =>
      Nat.testBit_eq_false_of_lt (lt_of_lt_of_le b.toNat_lt (Nat.pow_le_pow_right Nat.two_pos (by omega)))
    rw [top, top]

/-- Appending bytes keeps the bits of the bytes before them. -/
theorem test_append_of_lt {bs cs : List UInt8} {i : Nat} (h : i / 8 < bs.length) :
    test (bs ++ cs) i = test bs i := by
  rw [test_eq, test_eq, List.getD_append _ _ _ _ h]

/-- Bit `i` of the big-endian value of a byte string is its bit
`8 * len - 1 - i` in bitset order. -/
theorem testBit_value (bs : List UInt8) {i : Nat} (h : i < 8 * bs.length) :
    (BigEndian.value bs).testBit i = test bs (8 * bs.length - 1 - i) := by
  induction bs using List.reverseRecOn generalizing i with
  | nil => simp at h
  | append_singleton bs b ih =>
    have shifted : BigEndian.value bs * 256 + b.toNat = 2 ^ 8 * BigEndian.value bs + b.toNat := by ring
    rw [BigEndian.value_append_singleton, shifted, Nat.testBit_two_pow_mul_add _ b.toNat_lt]
    simp only [List.length_append, List.length_singleton] at h ⊢
    split_ifs with low
    · -- the last byte holds the eight lowest bits
      have last : (8 * (bs.length + 1) - 1 - i) / 8 = bs.length := by omega
      have within : 7 - (8 * (bs.length + 1) - 1 - i) % 8 = i := by omega
      rw [test_eq, last, within, List.getD_append_right _ _ _ _ (le_refl _), Nat.sub_self]
      rfl
    · have index : 8 * (bs.length + 1) - 1 - i = 8 * bs.length - 1 - (i - 8) := by omega
      rw [ih (by omega), index, test_append_of_lt (by omega)]

end Bitset
