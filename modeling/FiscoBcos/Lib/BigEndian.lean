import Mathlib

/-!
# Big-endian base-256 numerals

Minimal big-endian byte strings of natural numbers, over Mathlib's
`Nat.digits`. `BigEndian.bytes n` has no leading zero byte and zero has no
bytes at all; `BigEndian.value` reads any byte string back. The two are
inverse on byte strings without a leading zero (`bytes_value`), which is the
canonicity condition every length-prefixed or integer codec checks.
-/

namespace BigEndian

/-- Byte strings compare by `==` as by `=`; the instance is named once, for
every membership test on lists of byte strings to share. -/
instance lawfulBEq_bytes : LawfulBEq (List UInt8) := inferInstance

/-- The big-endian base-256 digits of `n`, most significant first, with no
leading zero; zero has no digits. -/
def bytes (n : Nat) : List UInt8 := ((Nat.digits 256 n).map Nat.toUInt8).reverse

/-- The number whose big-endian base-256 digits are `bs`. -/
def value (bs : List UInt8) : Nat := bs.foldl (fun acc b => acc * 256 + b.toNat) 0

theorem value_eq_ofDigits (bs : List UInt8) :
    value bs = Nat.ofDigits 256 (bs.reverse.map UInt8.toNat) := by
  unfold value
  induction bs using List.reverseRecOn with
  | nil => rfl
  | append_singleton bs b ih =>
      rw [List.foldl_append, ih]
      simp only [List.foldl_cons, List.foldl_nil, List.reverse_append, List.reverse_cons,
        List.reverse_nil, List.nil_append, List.singleton_append, List.map_cons,
        Nat.ofDigits_cons]
      ring

@[simp] theorem value_nil : value [] = 0 := rfl

theorem value_append_singleton (bs : List UInt8) (b : UInt8) :
    value (bs ++ [b]) = value bs * 256 + b.toNat := by
  simp [value, List.foldl_append]

theorem value_cons (b : UInt8) (bs : List UInt8) :
    value (b :: bs) = b.toNat * 256 ^ bs.length + value bs := by
  rw [value_eq_ofDigits, value_eq_ofDigits, List.reverse_cons, List.map_append,
    Nat.ofDigits_append]
  simp only [List.map_cons, List.map_nil, List.length_map, List.length_reverse,
    Nat.ofDigits_singleton]
  ring

theorem value_append (bs cs : List UInt8) : value (bs ++ cs) = value bs * 256 ^ cs.length + value cs := by
  induction cs using List.reverseRecOn with
  | nil => simp
  | append_singleton cs c ih =>
    rw [← List.append_assoc, value_append_singleton, ih, value_append_singleton, List.length_append,
      List.length_singleton, pow_succ]
    ring

@[simp] theorem value_replicate_zero (n : Nat) : value (List.replicate n 0) = 0 := by
  induction n with
  | zero => rfl
  | succ n ih => simp [List.replicate_succ, value_cons, ih]

private theorem digit_toNat_toUInt8 {n d : Nat} (h : d ∈ Nat.digits 256 n) :
    d.toUInt8.toNat = d := by
  have : d < 256 := Nat.digits_lt_base (by decide) h
  simp [Nat.toUInt8, Nat.mod_eq_of_lt this]

private theorem map_toNat_bytes (n : Nat) :
    (bytes n).reverse.map UInt8.toNat = Nat.digits 256 n := by
  rw [bytes, List.reverse_reverse, List.map_map]
  conv_rhs => rw [← List.map_id (Nat.digits 256 n)]
  exact List.map_congr_left fun d h => digit_toNat_toUInt8 h

@[simp] theorem value_bytes (n : Nat) : value (bytes n) = n := by
  rw [value_eq_ofDigits, map_toNat_bytes, Nat.ofDigits_digits]

@[simp] theorem length_bytes (n : Nat) : (bytes n).length = (Nat.digits 256 n).length := by
  simp [bytes]

@[simp] theorem bytes_eq_nil_iff {n : Nat} : bytes n = [] ↔ n = 0 := by
  simp [bytes, Nat.digits_eq_nil_iff_eq_zero]

@[simp] theorem bytes_zero : bytes 0 = [] := by simp

/-- `n` has at most `k` digits exactly when it is below `256 ^ k`. -/
theorem length_bytes_le_iff {n k : Nat} : (bytes n).length ≤ k ↔ n < 256 ^ k := by
  rw [length_bytes]
  exact Nat.digits_length_le_iff (by decide) n

/-- Dropping the last digit shortens a nonzero numeral by one byte. -/
theorem length_bytes_div {n : Nat} (h : n ≠ 0) :
    (bytes n).length = (bytes (n / 256)).length + 1 := by
  simp only [length_bytes, Nat.digits_def' (by decide : 1 < 256) (Nat.pos_of_ne_zero h),
    List.length_cons]

theorem value_lt (bs : List UInt8) : value bs < 256 ^ bs.length := by
  rw [value_eq_ofDigits]
  have hl := Nat.ofDigits_lt_base_pow_length (b := 256) (l := bs.reverse.map UInt8.toNat)
    (by decide) (by simpa using fun b _ => b.toNat_lt)
  simpa using hl

/-- The leading byte of a nonempty numeral is not zero. -/
theorem head_bytes_ne_zero {n : Nat} {b : UInt8} {rest : List UInt8}
    (h : bytes n = b :: rest) : b ≠ 0 := by
  have hn : n ≠ 0 := by
    intro hn
    simp [hn] at h
  have last := Nat.getLast_digit_ne_zero 256 hn
  intro hb
  apply last
  have hd : Nat.digits 256 n = (bytes n).reverse.map UInt8.toNat := (map_toNat_bytes n).symm
  simp [hd, h, hb]

/-- A byte string without a leading zero is the numeral of its value. -/
theorem bytes_value {bs : List UInt8} (h : bs.head? ≠ some 0) : bytes (value bs) = bs := by
  have digits :
      Nat.digits 256 (value bs) = bs.reverse.map UInt8.toNat := by
    rw [value_eq_ofDigits]
    apply Nat.digits_ofDigits 256 (by decide)
    · simpa using fun b _ => b.toNat_lt
    · intro hne
      cases bs with
      | nil => simp at hne
      | cons b rest =>
          simp only [List.reverse_cons, List.map_append, List.map_cons, List.map_nil]
          simp only [List.head?_cons, ne_eq, Option.some.injEq] at h
          intro hb
          exact h (UInt8.toNat_inj.mp (by simpa using hb))
  have roundtrip : (Nat.toUInt8 ∘ UInt8.toNat) = id := funext fun _ => UInt8.ofNat_toNat
  rw [bytes, digits, List.map_map, roundtrip, List.map_id, List.reverse_reverse]

/-! ## Fixed-width numerals -/

/-- `bs` right-aligned in a zeroed buffer of `n` bytes, as a copy into the
tail of a fresh buffer leaves it. -/
def leftPad (n : Nat) (bs : List UInt8) : List UInt8 := List.replicate (n - bs.length) 0 ++ bs

theorem length_leftPad {n : Nat} {bs : List UInt8} (h : bs.length ≤ n) :
    (leftPad n bs).length = n := by
  simp [leftPad]
  omega

@[simp] theorem value_leftPad (n : Nat) (bs : List UInt8) : value (leftPad n bs) = value bs := by
  rw [leftPad, value_append, value_replicate_zero, Nat.zero_mul, Nat.zero_add]

/-- Reading a fixed-width numeral and writing it back minimally, then padding
it to its width again, gives the numeral back: leading zero bytes carry no
value. -/
theorem leftPad_bytes_value : ∀ {n : Nat} {bs : List UInt8}, bs.length = n →
    leftPad n (bytes (value bs)) = bs
  | _, [], rfl => by simp [leftPad]
  | _, b :: rest, rfl => by
    by_cases hb : b = 0
    · subst hb
      -- a leading zero byte adds nothing to the value
      have same : value (0 :: rest) = value rest := by simp [value_cons]
      have ih := leftPad_bytes_value (n := rest.length) rfl
      have short : (bytes (value rest)).length ≤ rest.length :=
        Iff.mpr length_bytes_le_iff (value_lt rest)
      rw [same]
      rw [leftPad] at ih ⊢
      rw [List.length_cons, Nat.sub_add_comm short, List.replicate_succ, List.cons_append, ih]
    · rw [bytes_value (by simpa using hb)]
      simp [leftPad]

end BigEndian

/-!
## Views of Go's arbitrary-precision integers

A `*big.Int` is a sign and an absolute value. The methods that read it as
machine data all look at the absolute value: `BitLen` its length in bits,
`Uint64` its low 64 bits, `Bytes` its minimal big-endian bytes. Division is
Euclidean, as Lean's `Int` division is.
-/

namespace BigInt

/-- `(*big.Int).BitLen`: the length in bits of the absolute value; zero has
length zero. -/
def bitLen (x : Int) : Nat := if x = 0 then 0 else x.natAbs.log2 + 1

/-- `(*big.Int).Uint64`: the low 64 bits of the absolute value. -/
def uint64 (x : Int) : UInt64 := x.natAbs.toUInt64

/-- `(*big.Int).Bytes`: the absolute value as minimal big-endian bytes. -/
def bytes (x : Int) : List UInt8 := BigEndian.bytes x.natAbs

/-- `(*big.Int).SetBytes`: the non-negative number with big-endian bytes `b`. -/
def setBytes (b : List UInt8) : Int := BigEndian.value b

/-- `(*big.Int).SetBits`: the non-negative number whose words of `wordBits`
bits are `words`, least significant first. -/
def setBits (wordBits : Nat) (words : List Nat) : Int := (Nat.ofDigits (2 ^ wordBits) words : Nat)

theorem bitLen_le_iff {x : Int} {k : Nat} : bitLen x ≤ k ↔ x.natAbs < 2 ^ k := by
  unfold bitLen
  split_ifs with hx
  · subst hx
    simp only [Int.natAbs_zero, Nat.zero_le, true_iff]
    positivity
  · have log := Nat.log2_lt (n := x.natAbs) (k := k) (by omega)
    omega

theorem toNat_uint64 {x : Int} (h : x.natAbs < 2 ^ 64) : (uint64 x).toNat = x.natAbs := by
  simp only [uint64, Nat.toUInt64_eq]
  exact Nat.mod_eq_of_lt h

@[simp] theorem setBytes_nonneg (b : List UInt8) : 0 ≤ setBytes b := by
  simp [setBytes]

/-- The minimal bytes of a number read from a fixed-width buffer, padded to
that width again, are the buffer. -/
theorem leftPad_bytes_setBytes {n : Nat} {b : List UInt8} (h : b.length = n) :
    BigEndian.leftPad n (bytes (setBytes b)) = b := by
  simpa [bytes, setBytes] using BigEndian.leftPad_bytes_value h

end BigInt

/-!
## Key streams

A stream cipher XORs each byte of a message with the key stream at its
position, as `cipher.Stream.XORKeyStream` does. Doing it twice with the same
stream gives the message back (`mapIdx_xor_mapIdx_xor`).
-/

namespace KeyStream

/-- XORing with a key stream twice gives the message back. -/
theorem mapIdx_xor_mapIdx_xor (s : Nat → UInt8) (m : List UInt8) :
    ((m.mapIdx fun i b => b ^^^ s i).mapIdx fun i b => b ^^^ s i) = m := by
  rw [List.mapIdx_mapIdx]
  refine List.ext_getElem (by simp) fun i _ _ => ?_
  simp only [List.getElem_mapIdx, Function.comp, UInt8.xor_assoc, UInt8.xor_self, UInt8.xor_zero]

end KeyStream
