import FiscoBcos.Lib.Except
import FiscoBcos.Rlp.ItemDecoder
import Mathlib

/-!
# Unsigned integers

An unsigned integer is written as the string of its minimal big-endian bytes
(`Item.ofNat`): zero as the empty string `0x80`, a number below `0x80` as
its own byte, a larger one as a short string. `writeUint` and `writeBigInt`
write exactly that encoding (`writeUint_eq`, `writeBigInt_eq`).

`Stream.uint w` reads it back (`uint_encode`), and reads nothing else:
whatever it accepts starts with the encoding of the number it returns, below
`2 ^ w` (`uint_sound`). A zero byte, a leading zero, a single byte written as
a string and a string longer than `w / 8` bytes are all refused.
`decodeBigInt` does the same with no bound on the size
(`decodeBigInt_encode`, `decodeBigInt_sound`).

Each of them reads one value from the stream and leaves the rest of the
input unread: on a stream over `b` they accept exactly the inputs that start
with an encoding (`uint_reset_iff`, `decodeBigInt_reset_iff`), whatever
follows it.
-/

namespace FiscoBcos.Rlp

open FiscoBcos.Rlp.Stream

/-- The item of an unsigned integer: its minimal big-endian bytes. -/
def Item.ofNat (n : Nat) : Item := .bytes (BigEndian.bytes n)

/-! ## The encoding -/

/-- A nonzero number below 256 is one byte. -/
theorem bytes_of_lt {n : Nat} (pos : 0 < n) (lt : n < 256) : BigEndian.bytes n = [n.toUInt8] := by
  have value : BigEndian.value [n.toUInt8] = n := by
    simp [BigEndian.value_cons, Nat.toUInt8, Nat.mod_eq_of_lt lt]
  have lead : [n.toUInt8].head? ≠ some 0 := by
    simp only [List.head?_cons, ne_eq, Option.some.injEq]
    intro zero
    have := congrArg UInt8.toNat zero
    simp [Nat.toUInt8, Nat.mod_eq_of_lt lt] at this
    omega
  rw [← value, BigEndian.bytes_value lead, value]

/-- A numeral has no leading zero. -/
theorem head?_bytes_ne_zero (n : Nat) : (BigEndian.bytes n).head? ≠ some 0 := by
  cases h : BigEndian.bytes n with
  | nil => simp
  | cons b rest => simpa using BigEndian.head_bytes_ne_zero h

theorem encode_ofNat_zero : (Item.ofNat 0).encode = [0x80] := by
  simp [Item.ofNat, Item.encode, IsSingleByte, header]

theorem encode_ofNat_small {n : Nat} (pos : 0 < n) (small : n < 128) :
    (Item.ofNat n).encode = [n.toUInt8] := by
  rw [Item.ofNat, bytes_of_lt pos (by omega), Item.encode_single]
  simp [IsSingleByte, UInt8.lt_iff_toNat_lt, Nat.toUInt8, Nat.mod_eq_of_lt (show n < 256 by omega), small]

/-- From `0x80` on, a number is a string of its bytes. -/
theorem not_single_bytes {n : Nat} (large : 128 ≤ n) : ¬IsSingleByte (BigEndian.bytes n) := by
  intro single
  by_cases two : n < 256
  · rw [bytes_of_lt (by omega) two] at single
    simp [IsSingleByte, UInt8.lt_iff_toNat_lt, Nat.toUInt8, Nat.mod_eq_of_lt two] at single
    omega
  · have : 2 ≤ (BigEndian.bytes n).length := by
      by_contra short
      have := BigEndian.length_bytes_le_iff.mp (show (BigEndian.bytes n).length ≤ 1 by omega)
      omega
    -- a single byte is a string of length one
    have one : (BigEndian.bytes n).length = 1 := by
      revert single
      cases BigEndian.bytes n with
      | nil => simp [IsSingleByte]
      | cons b rest => cases rest <;> simp [IsSingleByte]
    omega

theorem encode_ofNat_large {n : Nat} (large : 128 ≤ n) :
    (Item.ofNat n).encode = header 0x80 0xB7 (BigEndian.bytes n).length ++ BigEndian.bytes n :=
  Item.encode_string (not_single_bytes large)

/-- `writeUint` writes the encoding of its number. -/
theorem writeUint_eq (w : Encbuf) (i : UInt64) :
    w.writeUint i = w.append (Item.ofNat i.toNat).encode := by
  unfold Encbuf.writeUint
  by_cases zero : i = 0
  · simp [zero, encode_ofNat_zero]
  by_cases small : i < 128
  · have pos : 0 < i.toNat := by
      rw [Nat.pos_iff_ne_zero, ne_eq, ← UInt64.toNat_zero, UInt64.toNat_inj]
      exact zero
    have lt : i.toNat < 128 := by simpa [UInt64.lt_iff_toNat_lt] using small
    rw [if_neg zero, if_pos small, encode_ofNat_small pos lt]
    congr 2
  · have large : 128 ≤ i.toNat := by simpa [UInt64.lt_iff_toNat_lt] using small
    have len : (BigEndian.bytes i.toNat).length ≤ 8 :=
      BigEndian.length_bytes_le_iff.mpr (by simpa using i.toNat_lt)
    rw [if_neg zero, if_neg small, encode_ofNat_large large, putint_eq_bytes zero]
    simp only [header, show (BigEndian.bytes i.toNat).length < 56 by omega, if_true]
    rfl

/-- `writeBigInt` writes the encoding of a nonnegative number. -/
theorem writeBigInt_eq (w : Encbuf) {i : Int} (nonneg : 0 ≤ i)
    (bound : (BigEndian.bytes i.toNat).length < 2 ^ 64) :
    w.writeBigInt i = .ok (w.append (Item.ofNat i.toNat).encode) := by
  unfold Encbuf.writeBigInt
  by_cases zero : i = 0
  · simp [zero, encode_ofNat_zero]
  · rw [if_neg (by omega), if_neg zero, Encbuf.encodeString_eq w bound]
    rfl

/-- A buffer holding only string data is that data. -/
theorem toBytes_append_empty (bs : List UInt8) : (Encbuf.empty.append bs).toBytes = bs := by
  simp [Encbuf.empty, Encbuf.append, Encbuf.toBytes]

theorem encodeToBytes_uint (w : Nat) (n : UInt64) :
    encodeToBytes (.uint w) (.uint n) = .ok (Item.ofNat n.toNat).encode := by
  simp only [encodeToBytes, writeValue, writeUint_eq, Except.map_ok_eq, toBytes_append_empty]

theorem encodeToBytes_bigInt {n : Nat} (bound : (BigEndian.bytes n).length < 2 ^ 64) :
    encodeToBytes .bigInt (.bigInt n) = .ok (Item.ofNat n).encode := by
  have written := writeBigInt_eq Encbuf.empty (Int.natCast_nonneg n) (by simpa using bound)
  rw [Int.toNat_natCast] at written
  simp only [encodeToBytes, writeValue, written, Except.map_ok_eq, toBytes_append_empty]

/-! ## `uint` reads the encoding back -/

theorem toUInt64_toUInt8 {n : Nat} (lt : n < 256) : n.toUInt8.toUInt64 = n.toUInt64 := by
  rw [← UInt64.toNat_inj]
  simp [Nat.toUInt8, Nat.toUInt64, Nat.mod_eq_of_lt lt]
  omega

/-- The numbers of at most `w / 8` bytes, for `w` a multiple of 8, are
those below `2 ^ w`. -/
theorem length_bytes_le_div_iff {n w : Nat} (eight : w % 8 = 0) :
    (BigEndian.bytes n).length ≤ w / 8 ↔ n < 2 ^ w := by
  have pow : (256 : Nat) ^ (w / 8) = 2 ^ w := by
    rw [show (256 : Nat) = 2 ^ 8 from rfl, ← pow_mul, Nat.mul_div_cancel' (Nat.dvd_of_mod_eq_zero eight)]
  rw [BigEndian.length_bytes_le_iff, pow]

theorem uint_encode {s : Stream} {n w : Nat} {rest : List UInt8} (hk : s.kind = none)
    (fits : (BigEndian.bytes n).length ≤ w / 8) (hw : w ≤ 64)
    (hr : s.r = (Item.ofNat n).encode ++ rest) (room : s.Room (Item.ofNat n).encode.length) :
    ∃ s', s.uint w = (.ok n.toUInt64, s') ∧ Consumed s (Item.ofNat n).encode s' ∧ s'.kind = none := by
  have short : (BigEndian.bytes n).length ≤ 8 := by omega
  rcases Nat.eq_zero_or_pos n with rfl | pos
  · -- zero: the empty string
    rw [encode_ofNat_zero] at hr room ⊢
    obtain ⟨s2, kind, header, hk2, hsize, he2, -, -⟩ :=
      Kind_string (b := []) hk (by decide) (by simpa [header] using hr) (by simpa [header] using room)
    refine ⟨{ s2 with kind := none }, ?_, ⟨header.r, header.stack, header.limited, header.remaining⟩, rfl⟩
    simp [uint, kind, readUint]
  by_cases small : n < 128
  · -- a byte below 0x80 is its own encoding
    rw [encode_ofNat_small pos small] at hr room ⊢
    have byte : n.toUInt8 < 0x80 := by
      simp [UInt8.lt_iff_toNat_lt, Nat.toUInt8, Nat.mod_eq_of_lt (show n < 256 by omega), small]
    obtain ⟨s2, kind, header, hk2, he2, byteval⟩ := Kind_single hk byte hr room
    have nonzero : n.toUInt8 ≠ 0 := by
      rw [ne_eq, ← UInt8.toNat_inj]
      simp [Nat.toUInt8, Nat.mod_eq_of_lt (show n < 256 by omega)]
      omega
    refine ⟨{ s2 with kind := none }, ?_, ⟨header.r, header.stack, header.limited, header.remaining⟩, rfl⟩
    simp [uint, kind, byteval, nonzero, toUInt64_toUInt8 (show n < 256 by omega)]
  · -- a larger number: a short string of its bytes
    have large : 128 ≤ n := by omega
    rw [encode_ofNat_large large] at hr room ⊢
    rw [List.length_append] at room
    obtain ⟨s2, kind, header, hk2, hsize, he2, hr2, room2⟩ :=
      Kind_string hk (by omega) hr room
    have read := readUint_bytes pos rfl hr2 room2
    have read_b : Consumed s2 (BigEndian.bytes n) { s2.charge (BigEndian.bytes n).length with r := rest } :=
      consumed_charge hr2 rfl rfl rfl
    refine ⟨_, ?_, header.trans read_b, rfl⟩
    simp only [uint, kind]
    rw [if_neg (by omega), read]
    simp only
    rw [if_neg (by omega)]

theorem toNat_toUInt64_of_bytes {n : Nat} (short : (BigEndian.bytes n).length ≤ 8) :
    n.toUInt64.toNat = n :=
  UInt64.toNat_ofNat_of_lt' (lt_of_lt_of_eq (BigEndian.length_bytes_le_iff.mp short) (by decide))

/-- Whatever `uint` accepts starts with the encoding of the number it
returns, of at most `w / 8` bytes. -/
theorem uint_sound {s s' : Stream} {w : Nat} {v : UInt64} (hk : s.kind = none) (hw8 : 8 ≤ w)
    (hw : w ≤ 64) (h : s.uint w = (.ok v, s')) :
    (BigEndian.bytes v.toNat).length ≤ w / 8 ∧ Consumed s (Item.ofNat v.toNat).encode s' ∧
      s'.kind = none := by
  unfold uint at h
  rcases hK : s.Kind with ⟨⟨k, size, _ | e⟩, s2⟩ <;> rw [hK] at h
  swap
  · cases h
  obtain ⟨header, -, -, -, byte⟩ := Kind_sound hk hK
  cases k with
  | byte =>
    -- a single byte below 0x80, which must not be zero
    obtain ⟨-, small⟩ := byte rfl
    by_cases zero : s2.byteval = 0
    · simp [zero] at h
    simp only [zero, if_false, Prod.mk.injEq, Except.ok.injEq] at h
    obtain ⟨rfl, rfl⟩ := h
    have pos : 0 < s2.byteval.toNat := by
      rw [Nat.pos_iff_ne_zero, ne_eq, ← UInt8.toNat_zero, UInt8.toNat_inj]
      exact zero
    have lt : s2.byteval.toNat < 128 := by simpa [UInt8.lt_iff_toNat_lt] using small
    have encode : (Item.ofNat s2.byteval.toNat).encode = [s2.byteval] := by
      rw [encode_ofNat_small pos lt]
      exact congrArg (· :: []) UInt8.ofNat_toNat
    rw [UInt8.toNat_toUInt64, bytes_of_lt pos (by omega), encode]
    exact ⟨by simp; omega, header.rearm, rfl⟩
  | string =>
    -- a string of at most w / 8 bytes, read as a number with no leading zero
    simp only at h
    by_cases wide : size > w / 8
    · simp [wide] at h
    rw [if_neg wide] at h
    rcases hu : s2.readUint size with ⟨_ | n, s3⟩ <;> rw [hu] at h
    · -- the errors of readUint stay errors
      split at h
      · cases h
      · cases h
      · rename_i same
        cases same
    by_cases low : size > 0 ∧ n < 128
    · simp [low] at h
    simp only [low, if_false, Prod.mk.injEq, Except.ok.injEq] at h
    obtain ⟨rfl, rfl⟩ := h
    rcases Nat.eq_zero_or_pos size with rfl | pos
    · -- the empty string is zero
      simp only [readUint, Prod.mk.injEq, Except.ok.injEq] at hu
      obtain ⟨rfl, rfl⟩ := hu
      refine ⟨by simp, ?_, rfl⟩
      rw [show (0 : Nat).toUInt64.toNat = 0 from rfl, encode_ofNat_zero]
      exact header.rearm
    · obtain ⟨-, buf, rest, hr, rfl, -, bytes, rfl⟩ := readUint_sound pos hu
      have large : 128 ≤ n := by omega
      have hb : BigEndian.bytes n = buf := bytes (by omega)
      have short : (BigEndian.bytes n).length ≤ 8 := by rw [hb]; omega
      rw [toNat_toUInt64_of_bytes short, encode_ofNat_large large, hb]
      exact ⟨by omega, header.trans (consumed_charge hr rfl rfl rfl), rfl⟩
  | list => simp at h

/-! ## `decodeBigInt` reads the encoding back -/

theorem length_le_encode_bytes (b : List UInt8) : b.length ≤ (Item.bytes b).encode.length := by
  by_cases single : IsSingleByte b
  · rw [Item.encode_single single]
  · rw [Item.encode_string single, List.length_append]
    omega

theorem decodeBigInt_encode {s : Stream} {n : Nat} {rest : List UInt8} (hk : s.kind = none)
    (bound : (BigEndian.bytes n).length < 2 ^ 64) (hr : s.r = (Item.ofNat n).encode ++ rest)
    (room : s.Room (Item.ofNat n).encode.length) :
    ∃ s', decodeBigInt s = (.ok n, s') ∧ Consumed s (Item.ofNat n).encode s' ∧ s'.kind = none := by
  obtain ⟨s', bytes, c, hk'⟩ := Bytes_encode hk bound hr room
  refine ⟨s', ?_, c, hk'⟩
  simp only [decodeBigInt, bytes, head?_bytes_ne_zero, if_false, BigEndian.value_bytes]

/-- Whatever `decodeBigInt` accepts starts with the encoding of the number
it returns, which is not negative. -/
theorem decodeBigInt_sound {s s' : Stream} {i : Int} (hk : s.kind = none)
    (h : decodeBigInt s = (.ok i, s')) :
    ∃ n : Nat, i = n ∧ Consumed s (Item.ofNat n).encode s' ∧ s'.kind = none := by
  unfold decodeBigInt at h
  rcases hb : s.Bytes with ⟨_ | b, s1⟩ <;> rw [hb] at h
  · cases h
  by_cases lead : b.head? = some 0
  · simp [lead] at h
  simp only [lead, if_false, Prod.mk.injEq, Except.ok.injEq] at h
  obtain ⟨rfl, rfl⟩ := h
  obtain ⟨c, hk'⟩ := Bytes_sound hk hb
  refine ⟨BigEndian.value b, rfl, ?_, hk'⟩
  rwa [Item.ofNat, BigEndian.bytes_value lead]

/-! ## On a fresh stream

A stream over `b` reads one value from the front of `b`: it accepts an
input exactly when the input starts with an encoding, and it leaves the rest
unread. -/

theorem room_reset_of_le {b : List UInt8} {n : Nat} (h : n ≤ b.length) :
    (Stream.reset b b.length).Room n :=
  (room_reset b).mono h

theorem uint_reset_iff {w : Nat} (hw8 : 8 ≤ w) (hw : w ≤ 64) (eight : w % 8 = 0)
    (b : List UInt8) (v : UInt64) :
    (∃ s', (Stream.reset b b.length).uint w = (.ok v, s')) ↔
      v.toNat < 2 ^ w ∧ ∃ rest, b = (Item.ofNat v.toNat).encode ++ rest := by
  constructor
  · rintro ⟨s', h⟩
    obtain ⟨fits, c, -⟩ := uint_sound rfl hw8 hw h
    exact ⟨(length_bytes_le_div_iff eight).mp fits, s'.r, c.r⟩
  · rintro ⟨lt, rest, rfl⟩
    obtain ⟨s', read, -⟩ := uint_encode rfl ((length_bytes_le_div_iff eight).mpr lt) hw rfl
      (room_reset_of_le (by simp))
    rw [show v.toNat.toUInt64 = v from UInt64.ofNat_toNat] at read
    exact ⟨s', read⟩

theorem decodeBigInt_reset_iff (b : List UInt8) (bound : b.length < 2 ^ 64) (i : Int) :
    (∃ s', decodeBigInt (Stream.reset b b.length) = (.ok i, s')) ↔
      ∃ n : Nat, i = n ∧ ∃ rest, b = (Item.ofNat n).encode ++ rest := by
  constructor
  · rintro ⟨s', h⟩
    obtain ⟨n, rfl, c, -⟩ := decodeBigInt_sound rfl h
    exact ⟨n, rfl, s'.r, c.r⟩
  · rintro ⟨n, rfl, rest, rfl⟩
    have short : (BigEndian.bytes n).length < 2 ^ 64 := by
      have := length_le_encode_bytes (BigEndian.bytes n)
      simp only [List.length_append] at bound
      rw [Item.ofNat] at bound
      omega
    obtain ⟨s', read, -⟩ := decodeBigInt_encode rfl short rfl (room_reset_of_le (by simp))
    exact ⟨s', read⟩

/-! ## The codec -/

theorem uint_codec_exact :
    (∀ w ∈ [8, 16, 32, 64], ∀ n : Nat, n < 2 ^ w →
      ∃ b, encodeToBytes (.uint w) (.uint n.toUInt64) = .ok b ∧
        ∃ s', (Stream.reset b b.length).uint w = (.ok n.toUInt64, s')) ∧
    (∀ n : Nat, (BigEndian.bytes n).length < 2 ^ 64 →
      ∃ b, encodeToBytes .bigInt (.bigInt n) = .ok b ∧
        ∃ s', decodeBigInt (Stream.reset b b.length) = (.ok n, s')) ∧
    (∀ w ∈ [8, 16, 32, 64], ∀ (b : List UInt8) (v : UInt64),
      (∃ s', (Stream.reset b b.length).uint w = (.ok v, s')) ↔
        v.toNat < 2 ^ w ∧ ∃ rest, b = (Item.ofNat v.toNat).encode ++ rest) ∧
    (∀ b : List UInt8, b.length < 2 ^ 64 → ∀ i : Int,
      (∃ s', decodeBigInt (Stream.reset b b.length) = (.ok i, s')) ↔
        ∃ n : Nat, i = n ∧ ∃ rest, b = (Item.ofNat n).encode ++ rest) := by
  have widths : ∀ w ∈ [8, 16, 32, 64], 8 ≤ w ∧ w ≤ 64 ∧ w % 8 = 0 := by decide
  refine ⟨fun w hw n lt => ?_, fun n bound => ?_, fun w hw => ?_, decodeBigInt_reset_iff⟩
  · -- what writeUint writes, uint reads back
    obtain ⟨hw8, hw64, eight⟩ := widths w hw
    have small : n.toUInt64.toNat = n :=
      UInt64.toNat_ofNat_of_lt' (lt_of_lt_of_le lt (Nat.pow_le_pow_right (by decide) hw64))
    refine ⟨_, encodeToBytes_uint w n.toUInt64, ?_⟩
    exact (uint_reset_iff hw8 hw64 eight _ _).mpr ⟨by rw [small]; exact lt, [], by rw [small, List.append_nil]⟩
  · -- what writeBigInt writes, decodeBigInt reads back
    refine ⟨_, encodeToBytes_bigInt bound, ?_⟩
    obtain ⟨s', read, -⟩ := decodeBigInt_encode rfl bound (List.append_nil _).symm (room_reset _)
    exact ⟨s', read⟩
  · obtain ⟨hw8, hw64, eight⟩ := widths w hw
    exact uint_reset_iff hw8 hw64 eight

theorem uint_codec_exact_sixteen :
    encodeToBytes (.uint 16) (.uint (300 : Nat).toUInt64) = .ok [0x82, 0x01, 0x2C] ∧
      ∃ s', (Stream.reset [0x82, 0x01, 0x2C] 3).uint 16 = (.ok (300 : Nat).toUInt64, s') := by
  obtain ⟨b, written, read⟩ := uint_codec_exact.1 16 (by decide) 300 (by decide)
  have encoding : b = [0x82, 0x01, 0x2C] := by
    rw [encodeToBytes_uint, encode_ofNat_large (by decide)] at written
    simp only [Except.ok.injEq] at written
    rw [← written]
    simp [BigEndian.bytes, header]
  subst encoding
  exact ⟨written, read⟩

/-- `uint` reads one value from the front of its input and does not ask for
the end: 0x01 followed by 0x02 reads as 1, though no number encodes to the
whole input. -/
theorem uint_reads_prefix :
    ((Stream.reset [0x01, 0x02] 2).uint 64).1 = .ok 1 ∧ ∀ n, (Item.ofNat n).encode ≠ [0x01, 0x02] := by
  refine ⟨by decide, fun n encoding => ?_⟩
  rcases Nat.eq_zero_or_pos n with rfl | pos
  · simp [encode_ofNat_zero] at encoding
  by_cases small : n < 128
  · simp [encode_ofNat_small pos small] at encoding
  · rw [encode_ofNat_large (by omega)] at encoding
    have len := congrArg List.length encoding
    have nonempty : (BigEndian.bytes n).length ≠ 0 := by
      rw [ne_eq, List.length_eq_zero_iff, BigEndian.bytes_eq_nil_iff]
      omega
    have : (BigEndian.bytes n).length = 1 := by
      have := length_header_pos 0x80 0xB7 (BigEndian.bytes n).length
      simp only [List.length_append, List.length_cons, List.length_nil] at len
      omega
    rw [this] at encoding
    simp [header] at encoding

end FiscoBcos.Rlp
