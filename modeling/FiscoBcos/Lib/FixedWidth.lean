import FiscoBcos.Lib.BigEndian
import Mathlib

/-!
# Fixed-width numerals

Four facts about numbers held in a fixed number of bits. `lowBytes k v` is
the low `k` bytes of `v`, most significant first: what a copy of `v` into the
tail of a `k`-byte buffer, one byte at a time from the end, leaves there. The
two's-complement mask `2 ^ n - 1` reduces an integer modulo `2 ^ n`. Squaring
modulo `2 ^ m`, done often enough, leaves only zero and one in place. And the
sign of a wrapping `int64` difference orders values that lie within half the
circle of one another.
-/

namespace FixedWidth

open BigEndian

/-- The low `k` bytes of `v`, most significant first: what copying `v` into
the tail of a `k`-byte buffer, one byte at a time from the end, leaves there. -/
def lowBytes : Nat → Nat → List UInt8
  | 0, _ => []
  | k + 1, v => lowBytes k (v / 256) ++ [v.toUInt8]

theorem lowBytes_zero (v : Nat) : lowBytes 0 v = [] := rfl

theorem lowBytes_succ (k v : Nat) : lowBytes (k + 1) v = lowBytes k (v / 256) ++ [v.toUInt8] := rfl

@[simp] theorem length_lowBytes (k v : Nat) : (lowBytes k v).length = k := by
  induction k generalizing v with
  | zero => rfl
  | succ k ih => simp [lowBytes_succ, ih]

theorem value_lowBytes (k v : Nat) : value (lowBytes k v) = v % 256 ^ k := by
  induction k generalizing v with
  | zero => simp [lowBytes_zero, value_nil, Nat.mod_one]
  | succ k ih =>
    have byte : v.toUInt8.toNat = v % 256 := by simp [Nat.toUInt8_eq, UInt8.toNat_ofNat']
    rw [lowBytes_succ, value_append_singleton, ih, byte, pow_succ', Nat.mod_mul]
    ring

/-- The low bytes are the numeral of the residue, left-padded. -/
theorem lowBytes_eq_leftPad (k v : Nat) : lowBytes k v = leftPad k (bytes (v % 256 ^ k)) := by
  rw [← value_lowBytes]
  exact (leftPad_bytes_value (length_lowBytes k v)).symm

theorem lowBytes_congr {k v w : Nat} (h : v % 256 ^ k = w % 256 ^ k) : lowBytes k v = lowBytes k w := by
  rw [lowBytes_eq_leftPad, lowBytes_eq_leftPad, h]

/-- The low `a + b` bytes are the `b` bytes above the low `a`, then the low `a`. -/
theorem lowBytes_add (a b v : Nat) : lowBytes (a + b) v = lowBytes b (v / 256 ^ a) ++ lowBytes a v := by
  induction a generalizing v with
  | zero => simp [lowBytes_zero]
  | succ a ih =>
    rw [Nat.add_right_comm, lowBytes_succ, ih, lowBytes_succ, List.append_assoc, Nat.div_div_eq_div_mul, ← pow_succ']

theorem lowBytes_zero_value (k : Nat) : lowBytes k 0 = List.replicate k 0 := by
  induction k with
  | zero => rfl
  | succ k ih => rw [lowBytes_succ, Nat.zero_div, ih, List.replicate_succ']; rfl

/-- The low bytes of a number written in base `256 ^ wb`, split after its
lowest digit: either the split takes the whole digit, or nothing above it. -/
theorem lowBytes_ofDigits_cons {wb d a b : Nat} {rest : List Nat} (hd : d < 256 ^ wb) (ha : a ≤ wb)
    (whole : a = wb ∨ b = 0) :
    lowBytes (a + b) (Nat.ofDigits (256 ^ wb) (d :: rest)) =
      lowBytes b (Nat.ofDigits (256 ^ wb) rest) ++ lowBytes a d := by
  have split : 256 ^ wb = 256 ^ a * 256 ^ (wb - a) := by rw [← pow_add, Nat.add_sub_cancel' ha]
  have low : lowBytes a (Nat.ofDigits (256 ^ wb) (d :: rest)) = lowBytes a d := by
    apply lowBytes_congr
    rw [Nat.ofDigits_cons, split, Nat.mul_assoc, Nat.add_mul_mod_self_left]
  rw [lowBytes_add, low]
  rcases whole with rfl | rfl
  · rw [Nat.ofDigits_cons, Nat.add_mul_div_left _ _ (by positivity), Nat.div_eq_of_lt hd, Nat.zero_add]
  · rfl

/-- Byte `p` of the low `k` bytes, counted from the most significant. -/
theorem getD_lowBytes (k v p : Nat) :
    (lowBytes k v).getD p 0 = if p < k then (v / 256 ^ (k - 1 - p)).toUInt8 else 0 := by
  induction k generalizing v with
  | zero => simp [lowBytes_zero]
  | succ k ih =>
    rw [lowBytes_succ, List.getD_eq_getElem?_getD]
    rcases Nat.lt_trichotomy p k with lt | rfl | gt
    · rw [List.getElem?_append_left (by simpa using lt), ← List.getD_eq_getElem?_getD, ih, if_pos lt,
        if_pos (by omega), Nat.div_div_eq_div_mul, ← pow_succ']
      congr 3
      omega
    · rw [List.getElem?_append_right (by simp), if_pos (by omega)]
      simp
    · rw [List.getElem?_eq_none (by simp; omega), if_neg (by omega)]
      rfl

theorem toUInt8_mod (a : Nat) : (a % 256).toUInt8 = a.toUInt8 := by
  apply UInt8.toNat_inj.mp
  simp [Nat.toUInt8_eq, UInt8.toNat_ofNat']

/-! ## The two's-complement mask -/

theorem ldiff_two_pow_sub_one (n m : Nat) : Nat.ldiff (2 ^ n - 1) m = 2 ^ n - (m % 2 ^ n + 1) := by
  apply Nat.eq_of_testBit_eq
  intro i
  rw [Nat.testBit_ldiff, Nat.testBit_two_pow_sub_one, Nat.testBit_two_pow_sub_succ (Nat.mod_lt _ (Nat.two_pow_pos n)),
    Nat.testBit_mod_two_pow]
  cases decide (i < n) <;> simp

/-- Masking with `2 ^ n - 1` in two's complement is reduction modulo `2 ^ n`. -/
theorem land_two_pow_sub_one (x : Int) (n : Nat) : Int.land x (2 ^ n - 1) = x % 2 ^ n := by
  have mask : (2 ^ n - 1 : Int) = ((2 ^ n - 1 : Nat) : Int) := by
    rw [Nat.cast_sub (Nat.one_le_two_pow), Nat.cast_pow, Nat.cast_ofNat, Nat.cast_one]
  rw [mask]
  cases x with
  | ofNat m =>
    show ((m &&& (2 ^ n - 1) : Nat) : Int) = _
    rw [Nat.and_two_pow_sub_one_eq_mod]
    norm_cast
  | negSucc m =>
    show ((Nat.ldiff (2 ^ n - 1) m : Nat) : Int) = _
    rw [ldiff_two_pow_sub_one, Int.negSucc_emod _ (by positivity)]
    have := Nat.mod_lt m (Nat.two_pow_pos n)
    push_cast [Nat.cast_sub (show m % 2 ^ n + 1 ≤ 2 ^ n by omega)]
    omega

/-! ## Squaring modulo a power of two -/

/-- An odd residue that repeated squaring leaves in place is one: the units
modulo `2 ^ m` form a group of order `2 ^ (m - 1)`, and `x ^ (2 ^ k - 1) = 1`
with an odd exponent forces `x = 1`. -/
theorem eq_one_of_pow_two_pow_mod {m k x : Nat} (one : 0 < k) (odd : x % 2 = 1) (lt : x < 2 ^ m)
    (fixed : x ^ 2 ^ k % 2 ^ m = x) : x = 1 := by
  have wide : 0 < m := by
    rcases Nat.eq_zero_or_pos m with rfl | pos
    · omega
    · exact pos
  have coprime : x.Coprime (2 ^ m) := Nat.Coprime.pow_right m (Nat.coprime_two_right.mpr (Nat.odd_iff.mpr odd))
  set u := ZMod.unitOfCoprime x coprime
  have square : u ^ 2 ^ k = u := by
    apply Units.ext
    rw [Units.val_pow_eq_pow_val, ZMod.coe_unitOfCoprime, ← Nat.cast_pow, ← ZMod.natCast_mod, fixed]
  have oddPower : u ^ (2 ^ k - 1) = 1 := by
    have split : 2 ^ k = (2 ^ k - 1) + 1 := (Nat.sub_add_cancel Nat.one_le_two_pow).symm
    rw [split, pow_succ] at square
    exact mul_eq_right.mp square
  have order : u ^ 2 ^ (m - 1) = 1 := by
    have totient : Nat.totient (2 ^ m) = 2 ^ (m - 1) := by
      rw [Nat.totient_prime_pow Nat.prime_two wide]
      simp
    rw [← totient]
    exact ZMod.pow_totient u
  have coprimeExponents : (2 ^ k - 1).Coprime (2 ^ (m - 1)) := by
    apply Nat.Coprime.pow_right
    apply Nat.coprime_two_right.mpr
    rw [Nat.odd_iff]
    have := Nat.one_lt_two_pow (Nat.pos_iff_ne_zero.mp one)
    have even : 2 ^ k % 2 = 0 := Nat.mod_eq_zero_of_dvd (dvd_pow_self 2 (by omega))
    omega
  have unit : u = 1 := (pow_eq_one_iff_of_coprime coprimeExponents).mp ⟨oddPower, order⟩
  have residue : ((x : ZMod (2 ^ m))) = ((1 : Nat) : ZMod (2 ^ m)) := by
    rw [← ZMod.coe_unitOfCoprime x coprime, Nat.cast_one]
    exact congrArg Units.val unit
  rw [ZMod.natCast_eq_natCast_iff', Nat.mod_eq_of_lt lt, Nat.mod_eq_of_lt (Nat.one_lt_two_pow (by omega))] at residue
  exact residue


/-- Below `2 ^ m`, squaring `k` times modulo `2 ^ m` (with `m ≤ 2 ^ k`) leaves
only zero and one in place. -/
theorem pow_two_pow_mod_eq_self_iff {m k x : Nat} (one : 0 < k) (wide : m ≤ 2 ^ k) (lt : x < 2 ^ m) :
    x ^ 2 ^ k % 2 ^ m = x ↔ x ≤ 1 := by
  constructor
  · intro fixed
    rcases Nat.mod_two_eq_zero_or_one x with even | odd
    · -- an even number to the power `2 ^ k` is a multiple of `2 ^ m`
      have dvd : 2 ^ m ∣ x ^ 2 ^ k := by
        obtain ⟨c, rfl⟩ : 2 ∣ x := Nat.dvd_of_mod_eq_zero even
        rw [Nat.mul_pow]
        exact Dvd.dvd.mul_right (Nat.pow_dvd_pow 2 wide) _
      rw [Nat.mod_eq_zero_of_dvd dvd] at fixed
      omega
    · exact (eq_one_of_pow_two_pow_mod one odd lt fixed).le
  · intro small
    obtain rfl | rfl : x = 0 ∨ x = 1 := by omega
    · rw [Nat.zero_pow (Nat.two_pow_pos k), Nat.zero_mod]
    · rw [Nat.one_pow, Nat.mod_eq_of_lt lt]

/-! ## Wrap-around order on `int64`

Values compared by the sign of their wrapping difference: `a` comes before `b`
when `a - b > 0` in `int64`. On values within half the circle from a common
`lo`, this is the order of their distances from `lo`. -/

/-- How far `p` lies past `lo`, going up around the `int64` circle. -/
def distance (lo p : Int64) : Nat := (p - lo).toBitVec.toNat

theorem toInt_sub_eq_distance {lo p : Int64} (near : distance lo p < 2 ^ 63) :
    (p - lo).toInt = distance lo p :=
  BitVec.toInt_eq_toNat_of_lt (by unfold distance at near; omega)

/-- Within half the circle from `lo`, the wrapping difference is positive
exactly when the first value lies further from `lo`. -/
theorem sub_pos_iff_distance_lt {lo a b : Int64} (ha : distance lo a < 2 ^ 63) (hb : distance lo b < 2 ^ 63) :
    a - b > 0 ↔ distance lo b < distance lo a := by
  have shift : a - b = (a - lo) - (b - lo) := by grind
  have diff : (a - b).toInt = (distance lo a : Int) - distance lo b := by
    rw [shift, Int64.toInt_sub, toInt_sub_eq_distance ha, toInt_sub_eq_distance hb]
    exact Int.bmod_eq_of_le (by omega) (by omega)
  rw [gt_iff_lt, Int64.lt_iff_toInt_lt, Int64.toInt_zero, diff]
  omega

end FixedWidth
