import FiscoBcos.Lib.FixedWidth
import FiscoBcos.Hexutil.Quantity
import FiscoBcos.Abi.Pack
import Mathlib

/-!
# The big-integer helpers of `common/math`

`PaddedBigBytes` with `ReadBits`, `bigEndianByteAt` and `Byte`, `U256`, and
`Exp`, over the words of `(*big.Int).Bits()`, whose width is that of
`big.Word` on the platform (`WordSize`).

`ReadBits` writes the low bytes of the number into the tail of the buffer
(`ReadBits_eq`), so `PaddedBigBytes` is the left-padded numeral on both of its
branches (`PaddedBigBytes_eq`), and `abi.U256` computes the word the packer's
model writes (`U256_eq_u256`). `Exp` is the power modulo `2 ^ 256`, but it
squares the caller's `base` in place (`Exp_squares_base_in_place`).
-/

namespace FiscoBcos.Hexutil.WordSize

/-- `wordBits`: the bits of a `big.Word`. -/
def wordBits : WordSize → Nat
  | .w32 => 32
  | .w64 => 64

/-- `wordBytes`. -/
def wordBytes (size : WordSize) : Nat := size.wordBits / 8

theorem two_pow_wordBits (size : WordSize) : 2 ^ size.wordBits = 256 ^ size.wordBytes := by
  cases size <;> rfl

theorem wordBits_ge (size : WordSize) : 32 ≤ size.wordBits := by
  cases size <;> decide

theorem wordBytes_pos (size : WordSize) : 0 < size.wordBytes := by
  cases size <;> decide

end FiscoBcos.Hexutil.WordSize

namespace FiscoBcos.Math

open FiscoBcos.Hexutil (WordSize)
open FixedWidth

/-- `(*big.Int).Bits`: the words of the absolute value, least significant
first, with no zero word at the top. -/
def bits (size : WordSize) (x : Int) : List Nat := Nat.digits (2 ^ size.wordBits) x.natAbs

/-! ## PaddedBigBytes -/

/-- The inner loop of `ReadBits`: up to `j` more bytes of the word `d`, each
written at `buf[i-1]` while `i > 0`. -/
def readWord (d : Nat) : Nat → List UInt8 × Nat → List UInt8 × Nat
  | 0, st => st
  | j + 1, (buf, i) => if i > 0 then readWord (d >>> 8) j (buf.set (i - 1) d.toUInt8, i - 1) else (buf, i)

/-- `ReadBits`: the absolute value of `bigint` written big-endian into `buf`
from its end, one word of `Bits()` after another. -/
def ReadBits (size : WordSize) (bigint : Int) (buf : List UInt8) : List UInt8 :=
  ((bits size bigint).foldl (fun st d => readWord d size.wordBytes st) (buf, buf.length)).1

/-- `PaddedBigBytes`. -/
def PaddedBigBytes (size : WordSize) (bigint : Int) (n : Nat) : List UInt8 :=
  if BigInt.bitLen bigint / 8 ≥ n then BigInt.bytes bigint
  else ReadBits size bigint (List.replicate n 0)

theorem readWord_zero (d : Nat) (st : List UInt8 × Nat) : readWord d 0 st = st := rfl

theorem readWord_succ (d j : Nat) (buf : List UInt8) (i : Nat) :
    readWord d (j + 1) (buf, i) =
      if i > 0 then readWord (d >>> 8) j (buf.set (i - 1) d.toUInt8, i - 1) else (buf, i) := rfl

/-- The inner loop writes the low `min j i` bytes of the word just below
position `i`. -/
theorem readWord_eq (d j : Nat) {buf : List UInt8} {i : Nat} (hi : i ≤ buf.length) :
    readWord d j (buf, i) =
      (buf.take (i - min j i) ++ lowBytes (min j i) d ++ buf.drop i, i - min j i) := by
  induction j generalizing d buf i with
  | zero => simp [readWord_zero, lowBytes_zero]
  | succ j ih =>
    rw [readWord_succ]
    split_ifs with pos
    · have set : buf.set (i - 1) d.toUInt8 = buf.take (i - 1) ++ d.toUInt8 :: buf.drop i := by
        rw [List.set_eq_take_append_cons_drop, if_pos (by omega), Nat.sub_add_cancel pos]
      have count : min (j + 1) i = min j (i - 1) + 1 := by omega
      have short : (buf.take (i - 1)).length = i - 1 := by simp; omega
      have front : (buf.take (i - 1) ++ d.toUInt8 :: buf.drop i).take (i - 1 - min j (i - 1)) =
          buf.take (i - 1 - min j (i - 1)) := by
        rw [List.take_append_of_le_length (by omega), List.take_take, Nat.min_eq_left (by omega)]
      have back : (buf.take (i - 1) ++ d.toUInt8 :: buf.drop i).drop (i - 1) = d.toUInt8 :: buf.drop i :=
        List.drop_left' short
      rw [ih (d >>> 8) (by simp; omega), set, front, back, count, lowBytes_succ, Nat.shiftRight_eq_div_pow,
        show i - 1 - min j (i - 1) = i - (min j (i - 1) + 1) by omega]
      simp
    · obtain rfl : i = 0 := by omega
      simp [lowBytes_zero]

/-- The words of `Bits()` read back as a number in base `256 ^ wordBytes`. -/
theorem ofDigits_bits (size : WordSize) (x : Int) :
    Nat.ofDigits (256 ^ size.wordBytes) (bits size x) = x.natAbs := by
  rw [bits, WordSize.two_pow_wordBits, Nat.ofDigits_digits]

theorem bits_lt (size : WordSize) {x : Int} {d : Nat} (h : d ∈ bits size x) : d < 256 ^ size.wordBytes := by
  rw [bits, WordSize.two_pow_wordBits] at h
  exact Nat.digits_lt_base (Nat.one_lt_pow (WordSize.wordBytes_pos size).ne' (by norm_num)) h

theorem natAbs_lt_bits (size : WordSize) (x : Int) :
    x.natAbs < 256 ^ (size.wordBytes * (bits size x).length) := by
  rw [pow_mul, ← WordSize.two_pow_wordBits, bits]
  exact Nat.lt_base_pow_length_digits (Nat.one_lt_two_pow (by have := WordSize.wordBits_ge size; omega))

/-- The loop of `ReadBits` over the words `ws`: the low bytes of their value,
as many as fit below position `i`. -/
theorem foldl_readWord (wb : Nat) (ws : List Nat) (hws : ∀ d ∈ ws, d < 256 ^ wb) {buf : List UInt8} {i : Nat}
    (hi : i ≤ buf.length) :
    ws.foldl (fun st d => readWord d wb st) (buf, i) =
      (buf.take (i - min (wb * ws.length) i) ++ lowBytes (min (wb * ws.length) i) (Nat.ofDigits (256 ^ wb) ws) ++
        buf.drop i, i - min (wb * ws.length) i) := by
  induction ws generalizing buf i with
  | nil => simp [lowBytes_zero]
  | cons d rest ih =>
    rw [List.foldl_cons, readWord_eq d wb hi]
    have hi' : i - min wb i ≤ (buf.take (i - min wb i) ++ lowBytes (min wb i) d ++ buf.drop i).length := by
      simp
      omega
    rw [ih (fun e he => hws e (List.mem_cons_of_mem d he)) hi']
    have front : (buf.take (i - min wb i) ++ lowBytes (min wb i) d ++ buf.drop i).take
        (i - min wb i - min (wb * rest.length) (i - min wb i)) =
          buf.take (i - min wb i - min (wb * rest.length) (i - min wb i)) := by
      rw [List.append_assoc, List.take_append_of_le_length (by simp; omega), List.take_take,
        Nat.min_eq_left (by omega)]
    have back : (buf.take (i - min wb i) ++ lowBytes (min wb i) d ++ buf.drop i).drop (i - min wb i) =
        lowBytes (min wb i) d ++ buf.drop i := by
      rw [List.append_assoc, List.drop_left' (by simp; omega)]
    have count : min (wb * (rest.length + 1)) i = min wb i + min (wb * rest.length) (i - min wb i) := by
      rw [Nat.mul_succ]
      omega
    have word : lowBytes (min wb i + min (wb * rest.length) (i - min wb i)) (Nat.ofDigits (256 ^ wb) (d :: rest)) =
        lowBytes (min (wb * rest.length) (i - min wb i)) (Nat.ofDigits (256 ^ wb) rest) ++ lowBytes (min wb i) d :=
      lowBytes_ofDigits_cons (hws d List.mem_cons_self) (Nat.min_le_left wb i) (by omega)
    rw [front, back, List.length_cons, count, word,
      show i - min wb i - min (wb * rest.length) (i - min wb i) =
        i - (min wb i + min (wb * rest.length) (i - min wb i)) by omega]
    simp

/-- `ReadBits` writes the low bytes of the absolute value into the tail of
the buffer, as many as `Bits()` has or the buffer holds. -/
theorem ReadBits_eq (size : WordSize) (x : Int) (buf : List UInt8) :
    ReadBits size x buf =
      buf.take (buf.length - min (size.wordBytes * (bits size x).length) buf.length) ++
        lowBytes (min (size.wordBytes * (bits size x).length) buf.length) x.natAbs := by
  rw [ReadBits, foldl_readWord size.wordBytes (bits size x) (fun _ => bits_lt size) le_rfl, ofDigits_bits]
  simp

/-- In a zeroed buffer long enough for the number, `ReadBits` leaves the
number's low bytes: the bytes above the last word are zero already. -/
theorem ReadBits_replicate (size : WordSize) {x : Int} {n : Nat} (fits : x.natAbs < 256 ^ n) :
    ReadBits size x (List.replicate n 0) = lowBytes n x.natAbs := by
  set m := min (size.wordBytes * (bits size x).length) n
  have small : x.natAbs < 256 ^ m := by
    rcases Nat.le_total (size.wordBytes * (bits size x).length) n with le | le
    · rw [show m = size.wordBytes * (bits size x).length by omega]
      exact natAbs_lt_bits size x
    · rwa [show m = n by omega]
  have high : x.natAbs / 256 ^ m = 0 := Nat.div_eq_of_lt small
  rw [ReadBits_eq, List.length_replicate, List.take_replicate, show n = m + (n - m) by omega, lowBytes_add, high,
    lowBytes_zero_value]
  simp only [m]
  congr 2 <;> omega

theorem bitLen_natAbs (x : Int) : BigInt.bitLen (x.natAbs : Int) = BigInt.bitLen x := by
  simp [BigInt.bitLen, Int.natAbs_abs]

/-- `PaddedBigBytes` is the numeral of the absolute value, left-padded to `n`
bytes: `ReadBits` fills a zeroed buffer exactly when the numeral is shorter. -/
theorem PaddedBigBytes_eq (size : WordSize) (x : Int) (n : Nat) :
    PaddedBigBytes size x n = BigEndian.leftPad n (BigEndian.bytes x.natAbs) := by
  rw [← Abi.paddedBigBytes_eq, PaddedBigBytes, Abi.paddedBigBytes, bitLen_natAbs]
  split_ifs with wide
  · rfl
  · have fits : x.natAbs < 256 ^ n := by
      have lt := Iff.mp BigInt.bitLen_le_iff (show BigInt.bitLen x ≤ 8 * n by omega)
      rwa [pow_mul] at lt
    rw [ReadBits_replicate size fits, lowBytes_eq_leftPad, Nat.mod_eq_of_lt fits]

/-- `bigEndianByteAt`: byte `n` of the absolute value, counted from the least
significant, read from the word that holds it. -/
def bigEndianByteAt (size : WordSize) (bigint : Int) (n : Nat) : UInt8 :=
  match (bits size bigint)[n / size.wordBytes]? with
  | none => 0
  | some word => (word >>> (8 * (n % size.wordBytes))).toUInt8

/-- `Byte`: byte `n` of the number padded to `padlength` bytes, counted from
the most significant. -/
def Byte (size : WordSize) (bigint : Int) (padlength n : Nat) : UInt8 :=
  if n ≥ padlength then 0 else bigEndianByteAt size bigint (padlength - 1 - n)

/-- The byte a word holds is the byte of the whole number. -/
theorem bigEndianByteAt_eq (size : WordSize) (x : Int) (n : Nat) :
    bigEndianByteAt size x n = (x.natAbs / 256 ^ n).toUInt8 := by
  have split : 256 ^ n = (256 ^ size.wordBytes) ^ (n / size.wordBytes) * 256 ^ (n % size.wordBytes) := by
    rw [← pow_mul, ← pow_add, Nat.div_add_mod]
  unfold bigEndianByteAt
  split
  · next none =>
    -- past the last word the number has no bytes
    have past : (bits size x).length ≤ n / size.wordBytes := by simpa using none
    have small : x.natAbs < 256 ^ n := by
      calc x.natAbs < 256 ^ (size.wordBytes * (bits size x).length) := natAbs_lt_bits size x
        _ ≤ 256 ^ n := Nat.pow_le_pow_right (by norm_num) (by
          have := Nat.mul_le_mul_left size.wordBytes past
          have := Nat.mul_div_le n size.wordBytes
          omega)
    rw [Nat.div_eq_of_lt small]
    rfl
  · next word some =>
    have digit : word = x.natAbs / (256 ^ size.wordBytes) ^ (n / size.wordBytes) % 256 ^ size.wordBytes := by
      have := Nat.getD_digits x.natAbs (n / size.wordBytes) (b := 2 ^ size.wordBits) (Nat.le_self_pow (by
        have := WordSize.wordBits_ge size; omega) 2)
      rw [← bits, List.getD_eq_getElem?_getD, some, WordSize.two_pow_wordBits] at this
      exact this
    have inner : 256 ^ size.wordBytes = 256 ^ (n % size.wordBytes) * 256 ^ (size.wordBytes - n % size.wordBytes) := by
      rw [← pow_add, Nat.add_sub_cancel' (Nat.mod_lt _ (WordSize.wordBytes_pos size)).le]
    rw [digit, Nat.shiftRight_eq_div_pow, pow_mul, show (2 : Nat) ^ 8 = 256 from rfl, split, ← Nat.div_div_eq_div_mul,
      inner, Nat.mod_mul_right_div_self, ← toUInt8_mod, Nat.mod_mod_of_dvd _ (dvd_pow_self 256 (by
        have := Nat.mod_lt n (WordSize.wordBytes_pos size); omega)), toUInt8_mod]

/-- `Byte` reads the byte of `PaddedBigBytes` at the same position, for a number
that fits the padding, and zero past it. -/
theorem Byte_eq_getD (size : WordSize) {x : Int} {padlength : Nat} (fits : x.natAbs < 256 ^ padlength) (n : Nat) :
    Byte size x padlength n = (PaddedBigBytes size x padlength).getD n 0 := by
  rw [PaddedBigBytes_eq, ← Nat.mod_eq_of_lt fits, ← lowBytes_eq_leftPad, getD_lowBytes, Byte]
  split_ifs with past inside
  · omega
  · rfl
  · rw [bigEndianByteAt_eq]
  · omega

theorem Byte_eq_getD_258 :
    (258 : Int).natAbs < 256 ^ 2 ∧ Byte .w64 258 2 0 = (PaddedBigBytes .w64 258 2).getD 0 0 :=
  ⟨by decide, Byte_eq_getD .w64 (by decide) 0⟩

/-! ## U256 -/

/-- `tt256`: `BigPow(2, 256)`. -/
def tt256 : Int := 2 ^ 256

/-- `tt256m1`: `tt256 - 1`. -/
def tt256m1 : Int := tt256 - 1

/-- `U256`: `x.And(x, tt256m1)`; the result is also what `x` holds after. -/
def U256 (x : Int) : Int := Int.land x tt256m1

/-- Masking with `tt256m1` is reduction modulo `2 ^ 256`. -/
theorem U256_eq (x : Int) : U256 x = x % 2 ^ 256 := by
  rw [U256, tt256m1, tt256]
  exact_mod_cast land_two_pow_sub_one x 256

end FiscoBcos.Math

namespace FiscoBcos.Abi

open FiscoBcos.Hexutil (WordSize)

/-- `abi.U256`: the 32-byte word of a number, `PaddedBigBytes(U256(n), 32)`. -/
def U256 (size : WordSize) (n : Int) : List UInt8 := Math.PaddedBigBytes size (Math.U256 n) 32

/-- The word the packer's model writes, `u256`, is the one `abi.U256` computes
through `U256` and `ReadBits`, on either word size. -/
theorem U256_eq_u256 (size : WordSize) (n : Int) : U256 size n = u256 n := by
  have nonneg : 0 ≤ n % 2 ^ 256 := Int.emod_nonneg n (by norm_num)
  rw [U256, Math.PaddedBigBytes_eq, Math.U256_eq, u256, paddedBigBytes_eq]
  congr 2
  omega

end FiscoBcos.Abi

namespace FiscoBcos.Math

open FiscoBcos.Hexutil (WordSize)

/-- `PaddedBigBytes` of a non-negative number is its numeral left-padded with
zero bytes, of length the larger of `n` and the numeral's; and the packer's
`abi.U256` writes the 32-byte two's-complement word of every number in
`[-2 ^ 255, 2 ^ 256)`. -/
theorem PaddedBigBytes_exact (size : WordSize) :
    (∀ x n : Nat, PaddedBigBytes size x n = BigEndian.leftPad n (BigEndian.bytes x) ∧
        (PaddedBigBytes size x n).length = max n (BigEndian.bytes x).length) ∧
      ∀ x : Int, -2 ^ 255 ≤ x → x < 2 ^ 256 →
        (Abi.U256 size x).length = 32 ∧
          (BigEndian.value (Abi.U256 size x) : Int) = if 0 ≤ x then x else 2 ^ 256 + x := by
  refine ⟨fun x n => ⟨?_, ?_⟩, fun x lo hi => ?_⟩
  · rw [PaddedBigBytes_eq, Int.natAbs_natCast]
  · rw [PaddedBigBytes_eq, Int.natAbs_natCast, BigEndian.leftPad, List.length_append, List.length_replicate]
    omega
  · have nonneg : 0 ≤ x % 2 ^ 256 := Int.emod_nonneg x (by norm_num)
    have below : (x % 2 ^ 256).toNat < 256 ^ 32 := by
      have := Int.emod_lt_of_pos x (show (0 : Int) < 2 ^ 256 by norm_num)
      have : ((x % 2 ^ 256).toNat : Int) < 2 ^ 256 := by rwa [Int.toNat_of_nonneg nonneg]
      exact_mod_cast this
    have short : (BigEndian.bytes (x % 2 ^ 256).toNat).length ≤ 32 := Iff.mpr BigEndian.length_bytes_le_iff below
    have word : Abi.u256 x = BigEndian.leftPad 32 (BigEndian.bytes (x % 2 ^ 256).toNat) := by
      rw [Abi.u256, Abi.paddedBigBytes_eq]
    rw [Abi.U256_eq_u256, word]
    refine ⟨BigEndian.length_leftPad short, ?_⟩
    rw [BigEndian.value_leftPad, BigEndian.value_bytes, Int.toNat_of_nonneg nonneg]
    split_ifs with pos <;> omega

/-- The word of `-1`: thirty-two bytes of `0xff`, read as `2 ^ 256 - 1`. -/
theorem PaddedBigBytes_exact_minus_one :
    -2 ^ 255 ≤ (-1 : Int) ∧ (-1 : Int) < 2 ^ 256 ∧
      ((Abi.U256 .w64 (-1)).length = 32 ∧
        (BigEndian.value (Abi.U256 .w64 (-1)) : Int) = if 0 ≤ (-1 : Int) then -1 else 2 ^ 256 + -1) :=
  ⟨by norm_num, by norm_num, (PaddedBigBytes_exact .w64).2 (-1) (by norm_num) (by norm_num)⟩

/-! ## Exp -/

/-- The inner loop of `Exp` over one word of the exponent: `i` more bits of
`word`, lowest first. Both `result` and `base` are updated in place. -/
def expWord (word : Nat) : Nat → Int × Int → Int × Int
  | 0, st => st
  | i + 1, (result, base) =>
    let result := if word &&& 1 = 1 then U256 (result * base) else result
    expWord (word >>> 1) i (result, U256 (base * base))

/-- `Exp`: the result, and the value the call leaves in `base`. -/
def Exp (size : WordSize) (base exponent : Int) : Int × Int :=
  (bits size exponent).foldl (fun st word => expWord word size.wordBits st) (1, base)

theorem expWord_zero (word : Nat) (st : Int × Int) : expWord word 0 st = st := rfl

theorem expWord_succ (word i : Nat) (result base : Int) :
    expWord word (i + 1) (result, base) =
      expWord (word >>> 1) i (if word &&& 1 = 1 then U256 (result * base) else result, U256 (base * base)) := rfl

theorem pow_emod_emod (a : Int) (k : Nat) : (a % 2 ^ 256) ^ k % 2 ^ 256 = a ^ k % 2 ^ 256 :=
  (Int.mod_modEq a _).pow k

/-- `i` passes of the inner loop multiply the result by the base to the low
`i` bits of the word, and square the base `i` times, modulo `2 ^ 256`. -/
theorem expWord_eq (word i : Nat) {result : Int} (base : Int) (lo : 0 ≤ result) (hi : result < 2 ^ 256) :
    expWord word i (result, base) =
      (result * base ^ (word % 2 ^ i) % 2 ^ 256, if i = 0 then base else base ^ 2 ^ i % 2 ^ 256) := by
  induction i generalizing word result base with
  | zero => rw [expWord_zero, Nat.pow_zero, Nat.mod_one, pow_zero, mul_one, Int.emod_eq_of_lt lo hi, if_pos rfl]
  | succ i ih =>
    -- the result after this pass: multiplied by the base when the low bit is set
    set next := if word % 2 = 1 then result * base % 2 ^ 256 else result with next_eq
    have next_lo : 0 ≤ next := by
      rw [next_eq]
      split_ifs
      · exact Int.emod_nonneg _ (by norm_num)
      · exact lo
    have next_hi : next < 2 ^ 256 := by
      rw [next_eq]
      split_ifs
      · exact Int.emod_lt_of_pos _ (by norm_num)
      · exact hi
    have bit : word % 2 ^ (i + 1) = word % 2 + 2 * (word >>> 1 % 2 ^ i) := by
      rw [Nat.shiftRight_eq_div_pow, Nat.pow_one, Nat.pow_succ', Nat.mod_mul]
    have multiplied : next ≡ result * base ^ (word % 2) [ZMOD 2 ^ 256] := by
      rcases Nat.mod_two_eq_zero_or_one word with even | odd
      · simp only [next_eq, even, Nat.zero_ne_one, if_false, pow_zero, mul_one]
        rfl
      · simp only [next_eq, odd, if_true, pow_one]
        exact Int.mod_modEq _ _
    have squared : (base * base % (2 : Int) ^ 256) ^ (word >>> 1 % 2 ^ i) ≡ base ^ (2 * (word >>> 1 % 2 ^ i)) [ZMOD 2 ^ 256] := by
      rw [pow_mul, sq]
      exact (Int.mod_modEq _ _).pow _
    rw [expWord_succ, Nat.and_one_is_mod, U256_eq, U256_eq, ← next_eq, ih _ _ next_lo next_hi, bit]
    refine Prod.ext ?_ ?_
    · show next * _ ≡ _ [ZMOD 2 ^ 256]
      rw [pow_add, ← mul_assoc]
      exact multiplied.mul squared
    · rw [if_neg (Nat.succ_ne_zero i)]
      split_ifs with first
      · rw [first, zero_add, pow_one, sq]
      · rw [show base ^ 2 ^ (i + 1) = (base * base) ^ 2 ^ i by rw [pow_succ', pow_mul, sq]]
        exact pow_emod_emod (base * base) (2 ^ i)

/-- The outer loop of `Exp` over the words `ws` of `W` bits: the result is
multiplied by the base to their value, and the base is squared `W` times per
word, modulo `2 ^ 256`. -/
theorem foldl_expWord {W : Nat} (wide : 0 < W) (ws : List Nat) (hws : ∀ w ∈ ws, w < 2 ^ W) {result : Int}
    (base : Int) (lo : 0 ≤ result) (hi : result < 2 ^ 256) :
    ws.foldl (fun st word => expWord word W st) (result, base) =
      (result * base ^ Nat.ofDigits (2 ^ W) ws % 2 ^ 256,
        if ws = [] then base else base ^ 2 ^ (W * ws.length) % 2 ^ 256) := by
  induction ws generalizing result base with
  | nil => rw [List.foldl_nil, Nat.ofDigits_nil, pow_zero, mul_one, Int.emod_eq_of_lt lo hi, if_pos rfl]
  | cons w rest ih =>
    have word : w % 2 ^ W = w := Nat.mod_eq_of_lt (hws w List.mem_cons_self)
    rw [List.foldl_cons, expWord_eq w W base lo hi, word, if_neg wide.ne',
      ih (fun v hv => hws v (List.mem_cons_of_mem w hv)) _ (Int.emod_nonneg _ (by norm_num))
        (Int.emod_lt_of_pos _ (by norm_num))]
    refine Prod.ext ?_ ?_
    · show _ ≡ _ [ZMOD 2 ^ 256]
      rw [Nat.ofDigits_cons, pow_add, pow_mul, ← mul_assoc]
      exact ((Int.mod_modEq _ _).mul ((Int.mod_modEq _ _).pow _))
    · dsimp only
      rw [if_neg (List.cons_ne_nil w rest)]
      split_ifs with last
      · simp [last]
      · rw [List.length_cons, show base ^ 2 ^ (W * (rest.length + 1)) = (base ^ 2 ^ W) ^ 2 ^ (W * rest.length) by
          rw [← pow_mul, ← pow_add, Nat.mul_succ, Nat.add_comm]]
        exact pow_emod_emod _ _

/-- `Exp` in closed form: the power of the base modulo `2 ^ 256`, and the
base left squared `wordBits` times for every word of the exponent. -/
theorem Exp_eq (size : WordSize) (base exponent : Int) :
    Exp size base exponent =
      (base ^ exponent.natAbs % 2 ^ 256,
        if exponent = 0 then base else base ^ 2 ^ (size.wordBits * (bits size exponent).length) % 2 ^ 256) := by
  have wide : 0 < size.wordBits := by have := WordSize.wordBits_ge size; omega
  have words : ∀ w ∈ bits size exponent, w < 2 ^ size.wordBits := fun w hw =>
    Nat.digits_lt_base (Nat.one_lt_two_pow wide.ne') hw
  have value : Nat.ofDigits (2 ^ size.wordBits) (bits size exponent) = exponent.natAbs := Nat.ofDigits_digits _ _
  have empty : bits size exponent = [] ↔ exponent = 0 := by
    rw [bits, Nat.digits_eq_nil_iff_eq_zero, Int.natAbs_eq_zero]
  rw [Exp, foldl_expWord wide _ words base (by norm_num) (by norm_num), value, one_mul]
  simp only [empty]

/-- `Exp` computes the power modulo `2 ^ 256`, but it squares the caller's
`base` in place: the base keeps its value only when the exponent is zero or
the base is zero or one. -/
theorem Exp_squares_base_in_place (size : WordSize) (b : Int) (e : Nat) :
    (Exp size b e).1 = b ^ e % 2 ^ 256 ∧ ((Exp size b e).2 = b ↔ e = 0 ∨ b = 0 ∨ b = 1) := by
  rw [Exp_eq, Int.natAbs_natCast]
  refine ⟨rfl, ?_⟩
  dsimp only
  by_cases zero : e = 0
  · simp [zero]
  · rw [if_neg (by exact_mod_cast zero)]
    -- the base is squared `wordBits` times for each word, and there is one at least
    have words : (bits size e).length ≠ 0 := by
      rw [Ne, List.length_eq_zero_iff, bits, Nat.digits_eq_nil_iff_eq_zero, Int.natAbs_natCast]
      exact zero
    have squarings : 8 ≤ size.wordBits * (bits size e).length := by
      have := WordSize.wordBits_ge size
      have := Nat.mul_le_mul this (Nat.one_le_iff_ne_zero.mpr words)
      omega
    have wide : 256 ≤ 2 ^ (size.wordBits * (bits size e).length) :=
      calc 256 = 2 ^ 8 := by norm_num
        _ ≤ 2 ^ (size.wordBits * (bits size e).length) := Nat.pow_le_pow_right (by norm_num) squarings
    constructor
    · intro fixed
      have nonneg : 0 ≤ b := fixed ▸ Int.emod_nonneg _ (by norm_num)
      have lt : b < 2 ^ 256 := fixed ▸ Int.emod_lt_of_pos _ (by norm_num)
      obtain ⟨x, rfl⟩ := Int.eq_ofNat_of_zero_le nonneg
      have natFixed : x ^ 2 ^ (size.wordBits * (bits size e).length) % 2 ^ 256 = x := by exact_mod_cast fixed
      have small := Iff.mp (FixedWidth.pow_two_pow_mod_eq_self_iff (by omega) wide (by exact_mod_cast lt)) natFixed
      omega
    · rintro (e0 | rfl | rfl)
      · exact absurd e0 zero
      · rw [zero_pow (by positivity), Int.zero_emod]
      · rw [one_pow]
        rfl

end FiscoBcos.Math
